import Mathlib.Data.List.Forall2
import DistributedSoftmax.JsonText
import DistributedSoftmax.System.SliceCodec

/-! The kinds of slices within one job. The first byte of a stored slice decides
its flag, but the aggregation asks for the flag of the first slice only and
treats all others alike. -/

set_option autoImplicit false

namespace DistributedSoftmax.System
open Foundations.ByteString
open Gateway Worker

/-- A stored slice that announces probabilities. -/
def CarriesProbabilities (raw : Bytes) : Prop := raw.head? = some magicNormalized
  deriving Decidable

/-- The stored slices of a job, all of them decoded. -/
def Decoded (serde : SerdeJson) (widen : Single → Double) (raws : List Bytes)
    (stats : List (SliceStats Double)) : Prop :=
  List.Forall₂ (fun raw s => readSlice serde widen (some raw) = .ok (some s)) raws stats

/-- What workers store: the partial statistics of some values, or probabilities
that are not negative. -/
inductive FromWorker (fl : Floats Double Single) : Bytes → Prop where
  | partialStats {data : List Double} : data ≠ [] →
      FromWorker fl (encodePartial (softmaxPartial fl data))
  | probabilities {probs : List Single} : (∀ x ∈ probs, x.isFinite = true ∧ x.msb = false) →
      FromWorker fl (encodeNormalized probs)

/-- No two slices are of different kinds. -/
def OneKind (raws : List Bytes) : Prop :=
  ∀ raw ∈ raws, ∀ other ∈ raws, (CarriesProbabilities raw ↔ CarriesProbabilities other)

/-- The aggregation of a gateway without GPU. -/
def aggregateCpu (fl : Floats Double Single) (stats : List (SliceStats Double)) :
    Except String (List Double) :=
  aggregateStats (fun stats => .ok (aggregateSoftmaxCpu fl.f64 stats)) stats

/-- The flag that the aggregation looks at. -/
def firstFlag (stats : List (SliceStats Double)) : Bool :=
  (stats.head?.map SliceStats.isNormalized).getD false

section decoding
variable {serde : SerdeJson} {widen : Single → Double} {raw : Bytes} {s : SliceStats Double}

/-! Each decoder has one exit with a slice, and the flag there is a constant. -/

theorem isNormalized_of_readPartial (read : readPartial widen raw = .ok (some s)) :
    s.isNormalized = false := by
  simp only [readPartial, bind, Except.bind, pure, Except.pure] at read
  repeat' split at read
  all_goals cases read
  rfl

theorem isNormalized_of_readNormalized (read : readNormalized widen raw = .ok (some s)) :
    s.isNormalized = true := by
  simp only [readNormalized, bind, Except.bind, pure, Except.pure] at read
  repeat' split at read
  all_goals cases read
  rfl

theorem isNormalized_of_readJson (read : readJson serde raw = .ok (some s)) :
    s.isNormalized = false := by
  simp only [readJson, pure, Except.pure, throw, throwThe, MonadExceptOf.throw] at read
  repeat' split at read
  all_goals cases read
  rfl

/-- The flag of a decoded slice says which kind was stored. -/
theorem isNormalized_iff (read : readSlice serde widen (some raw) = .ok (some s)) :
    s.isNormalized = true ↔ CarriesProbabilities raw := by
  cases raw with
  | nil => cases read
  | cons magic rest =>
    simp only [CarriesProbabilities, List.head?_cons, Option.some.injEq]
    simp only [readSlice] at read
    split at read
    · rename_i first
      rw [isNormalized_of_readPartial read, first]
      decide
    split at read
    · rename_i second
      rw [isNormalized_of_readNormalized read, second]
      decide
    · rename_i other
      rw [isNormalized_of_readJson read]
      exact ⟨fun impossible => absurd impossible (by decide), fun same => absurd same other⟩

theorem Decoded.of_mem {raws : List Bytes} {stats : List (SliceStats Double)}
    (decoded : Decoded serde widen raws stats) :
    (∀ raw ∈ raws, ∃ s ∈ stats, (s.isNormalized = true ↔ CarriesProbabilities raw)) ∧
      ∀ s ∈ stats, ∃ raw ∈ raws, (s.isNormalized = true ↔ CarriesProbabilities raw) := by
  induction decoded with
  | nil => exact ⟨fun _ member => (List.not_mem_nil member).elim,
      fun _ member => (List.not_mem_nil member).elim⟩
  | cons read rest ih =>
    constructor
    · intro raw member
      rcases List.mem_cons.mp member with rfl | later
      · exact ⟨_, List.mem_cons_self, isNormalized_iff read⟩
      · obtain ⟨s, inside, same⟩ := ih.1 raw later
        exact ⟨s, List.mem_cons_of_mem _ inside, same⟩
    · intro s member
      rcases List.mem_cons.mp member with rfl | later
      · exact ⟨_, List.mem_cons_self, isNormalized_iff read⟩
      · obtain ⟨raw, inside, same⟩ := ih.2 s later
        exact ⟨raw, List.mem_cons_of_mem _ inside, same⟩

end decoding

/-- A gateway without GPU always computes a vector. -/
theorem aggregateCpu_ok (fl : Floats Double Single) (stats : List (SliceStats Double)) :
    ∃ values, aggregateCpu fl stats = .ok values := by
  unfold aggregateCpu aggregateStats
  split
  · exact ⟨_, rfl⟩
  · exact ⟨_, rfl⟩

/-- What a vector is computed from is of one kind exactly when every slice has
the flag of the first one. Nothing else keeps a mixture from being returned. -/
theorem oneKind_iff {serde : SerdeJson} {fl : Floats Double Single} {raws : List Bytes}
    {stats : List (SliceStats Double)} (decoded : Decoded serde fl.widen raws stats) :
    ((∃ values, aggregateCpu fl stats = .ok values) → OneKind raws) ↔
      ∀ s ∈ stats, s.isNormalized = firstFlag stats := by
  obtain ⟨toStats, toRaws⟩ := decoded.of_mem
  constructor
  · intro safe s member
    have oneKind := safe (aggregateCpu_ok fl stats)
    obtain ⟨first, rest, rfl⟩ := List.exists_cons_of_ne_nil (List.ne_nil_of_mem member)
    obtain ⟨raw, inside, flag⟩ := toRaws s member
    obtain ⟨rawFirst, insideFirst, flagFirst⟩ := toRaws first List.mem_cons_self
    have same := oneKind raw inside rawFirst insideFirst
    rw [← flag, ← flagFirst] at same
    exact Bool.eq_iff_iff.mpr same
  · intro alike _ raw inside other insideOther
    obtain ⟨s, member, flag⟩ := toStats raw inside
    obtain ⟨t, memberOther, flagOther⟩ := toStats other insideOther
    rw [← flag, ← flagOther, alike s member, alike t memberOther]

/-- The partial statistics of the value 0. -/
def statsOfZero : Bytes := encodePartial (softmaxPartial SmallFloats.floats [.zero])

theorem oneKind_iff_stats : OneKind [statsOfZero] := by
  have decoded : Decoded JsonText.serde SmallFloats.floats.widen [statsOfZero]
      [⟨[.one], .zero, .one, false⟩] := .cons (by decide +kernel) .nil
  apply (oneKind_iff decoded).mpr (by decide)
  exact aggregateCpu_ok SmallFloats.floats _

/-- One probability, and after it the partial statistics of one value. -/
def probabilityFirst : List Bytes := [encodeNormalized [.half], statsOfZero]

/-- The exponential of the second slice is returned as if it were a probability. -/
theorem mixture_returned :
    ¬ ∀ (serde : SerdeJson) (fl : Floats Double Single) (raws : List Bytes)
      (stats : List (SliceStats Double)), (∀ raw ∈ raws, FromWorker fl raw) →
        Decoded serde fl.widen raws stats → (∃ values, aggregateCpu fl stats = .ok values) →
          OneKind raws := by
  intro safe
  have decoded : Decoded JsonText.serde SmallFloats.floats.widen probabilityFirst
      [⟨[.half], .zero, .one, true⟩, ⟨[.one], .zero, .one, false⟩] :=
    .cons (by decide +kernel) (.cons (by decide +kernel) .nil)
  have fromWorkers : ∀ raw ∈ probabilityFirst, FromWorker SmallFloats.floats raw := by
    intro raw member
    rcases List.mem_cons.mp member with rfl | later
    · apply FromWorker.probabilities
      intro x entry
      rw [List.mem_singleton.mp entry]
      exact ⟨rfl, rfl⟩
    · rw [List.mem_singleton.mp later]
      exact .partialStats (List.cons_ne_nil _ _)
  have computed : aggregateCpu SmallFloats.floats
      [⟨[.half], .zero, .one, true⟩, ⟨[.one], .zero, .one, false⟩] = .ok [.half, .one] := by
    decide +kernel
  have oneKind := safe _ _ _ _ fromWorkers decoded ⟨_, computed⟩
  have same := oneKind (encodeNormalized [.half]) List.mem_cons_self statsOfZero
    (List.mem_cons_of_mem _ (List.mem_singleton_self _))
  have first : CarriesProbabilities (encodeNormalized [.half]) := by decide +kernel
  exact absurd (same.mp first) (by decide +kernel)

/-- In the other order the probability is rescaled as if it were an exponential. -/
example : aggregateCpu SmallFloats.floats
    [⟨[.one], .zero, .one, false⟩, ⟨[.one], .zero, .one, true⟩] = .ok [.half, .half] := by
  decide +kernel

end DistributedSoftmax.System
