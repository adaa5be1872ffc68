import DistributedSoftmax.RoundedSum
import DistributedSoftmax.System.Answerable

/-! What a client gets adds up to one. In IEEE 754 arithmetic, with any rounding
direction and any `exp` between 0 and 1, every result that is ever returned or
reported is a vector of finite values from zero upwards whose sum is one, but
for the roundings: also when slices of several jobs under one identifier were
mixed, and whatever failed before. -/

set_option autoImplicit false

namespace DistributedSoftmax
open Foundations.Rounding

/-- The real number that a finite `f32` stands for. -/
noncomputable def Single.real (x : Single) : ℝ := Rounded.real Single.value x

theorem Single.real_eq {x : Single} {a : ℝ} (stands : Single.value x = some (a : EReal)) :
    Single.real x = a :=
  Rounded.real_eq stands

/-- Finite values from zero upwards that add up to one, but for `off`. -/
def AddsUpToOne (off : ℝ) (result : List Single) : Prop :=
  (∀ x ∈ result, x.isFinite = true ∧ 0 ≤ Single.real x) ∧
    |(result.map Single.real).sum - 1| ≤ off

/-- How exact the JSON library reads a number between 0 and 1 that it wrote:
relative to the number, and to the smallest normal one below that. -/
def SerdeJson.RereadsWithin (serde : SerdeJson) (δ : ℝ) : Prop :=
  ∀ x (a : ℝ), Double.value x = some (a : EReal) → 0 ≤ a → a ≤ 1 →
    ∃ b : ℝ, Double.value (serde.reread x) = some (b : EReal) ∧ 0 ≤ b ∧
      |b - a| ≤ δ * max a (smallestNormal 11)

theorem Single.value_two : Single.value Single.two = some ((2 : ℝ) : EReal) := by
  rw [Single.value_of_fields (s := false) (e := 128) (f := 0) rfl rfl rfl]
  norm_num [binaryValue]

theorem smallestNormal_le {e : Nat} (large : 2 ^ 7 ≤ 2 ^ (e - 1)) : smallestNormal e ≤ 1 / 2 ^ 32 := by
  have power : smallestNormal e ≤ 2 ^ (-32 : ℤ) := by
    rw [smallestNormal]
    refine zpow_le_zpow_right₀ one_le_two ?_
    have cast : (2 ^ 7 : ℤ) ≤ 2 ^ (e - 1) := by exact_mod_cast large
    norm_num at cast ⊢
    linarith
  refine power.trans (le_of_eq ?_)
  norm_num

section reading
variable {fl : Floats Double Single} (ieee : Ieee754 fl) {serde : SerdeJson} {δ : ℝ}
  (rereads : serde.RereadsWithin δ) (nonneg : 0 ≤ δ) (le_one : δ ≤ 1)
include ieee rereads nonneg le_one

/-- A value as it is read from the text of the result and narrowed. -/
theorem Ieee754.narrow_reread {x : Double} (within : Within Double.value 0 1 x) :
    |Double.real (serde.reread x) - Double.real x| ≤ δ * (Double.real x + 1 / 2 ^ 32) ∧
      (fl.narrow (serde.reread x)).isFinite = true ∧
        0 ≤ Single.real (fl.narrow (serde.reread x)) ∧
          |Single.real (fl.narrow (serde.reread x)) - Double.real (serde.reread x)| ≤
            (Single.real (fl.narrow (serde.reread x)) + 1 / 2 ^ 32) / 2 ^ 23 := by
  obtain ⟨standsX, zero_le, x_le⟩ := Double.within_iff.mp within
  obtain ⟨b, standsB, zero_le_b, off⟩ := rereads x _ standsX zero_le x_le
  have small11 : smallestNormal 11 ≤ 1 / 2 ^ 32 := smallestNormal_le (by norm_num)
  have small8 : smallestNormal 8 ≤ 1 / 2 ^ 32 := smallestNormal_le (by norm_num)
  have bound : δ * max (Double.real x) (smallestNormal 11) ≤ δ * (Double.real x + 1 / 2 ^ 32) := by
    refine mul_le_mul_of_nonneg_left (max_le ?_ ?_) nonneg
    · exact le_add_of_nonneg_right (by positivity)
    · linarith
  have b_le : b ≤ 2 := by
    have upper := (abs_le.mp off).2
    have part : δ * max (Double.real x) (smallestNormal 11) ≤ 1 * 1 :=
      mul_le_mul le_one (max_le x_le (small11.trans (by norm_num)))
        (zero_le.trans (le_max_left _ _)) zero_le_one
    linarith
  obtain ⟨v, standsV, zero_le_v, near⟩ := Single.binary.near (ieee.narrow _ b standsB) zero_le_b
    Single.value_two b_le
  rw [Double.real_eq standsB, Single.real_eq standsV]
  refine ⟨off.trans bound, (Single.isFinite_iff _).mpr ⟨v, standsV⟩, zero_le_v, near.trans ?_⟩
  refine div_le_div_of_nonneg_right (max_le ?_ ?_) (by positivity)
  · exact le_add_of_nonneg_right (by positivity)
  · linarith

/-- Values that add up to one still do when they are read and narrowed. -/
theorem Ieee754.addsUpToOne {values : List Double} (within : ∀ v ∈ values, Within Double.value 0 1 v)
    (sum : |(values.map Double.real).sum - 1| ≤ 8 * (values.length / 2 ^ 52))
    (short : values.length < 2 ^ 30) :
    AddsUpToOne (1 / 2 ^ 21 + 2 * δ + values.length / 2 ^ 49)
      ((values.map serde.reread).map fl.narrow) := by
  have each := fun v member => ieee.narrow_reread rereads nonneg le_one (within v member)
  have reread := abs_sum_sub_le fun v member => (each v member).1
  have narrowed := abs_sum_sub_le fun v member => (each v member).2.2.2
  have count : (values.length : ℝ) ≤ 2 ^ 30 := by exact_mod_cast short.le
  have few : values.length * (1 / 2 ^ 32 : ℝ) ≤ 1 / 4 := by
    calc values.length * (1 / 2 ^ 32 : ℝ) ≤ 2 ^ 30 * (1 / 2 ^ 32) :=
          mul_le_mul_of_nonneg_right count (by positivity)
      _ = 1 / 4 := by norm_num
  simp only [List.sum_map_mul_left, div_eq_mul_inv _ ((2 : ℝ) ^ 23), List.sum_map_mul_right,
    List.sum_map_add, List.map_const', List.sum_replicate, nsmul_eq_mul] at reread narrowed
  constructor
  · intro x member
    obtain ⟨y, inside, rfl⟩ := List.mem_map.mp member
    obtain ⟨v, among, rfl⟩ := List.mem_map.mp inside
    exact ⟨(each v among).2.1, (each v among).2.2.1⟩
  · rw [List.map_map, List.map_map]
    change |(values.map fun v => Single.real (fl.narrow (serde.reread v))).sum - 1| ≤ _
    generalize (values.map fun v => Single.real (fl.narrow (serde.reread v))).sum = C at narrowed ⊢
    generalize (values.map fun v => Double.real (serde.reread v)).sum = B at reread narrowed
    generalize (values.map Double.real).sum = R at sum reread
    have part : 8 * (values.length / 2 ^ 52 : ℝ) = values.length / 2 ^ 49 := by ring
    rw [part] at sum
    have R_le : R ≤ 3 / 2 := by
      have spread : (values.length / 2 ^ 49 : ℝ) ≤ 2 ^ 30 / 2 ^ 49 :=
        div_le_div_of_nonneg_right count (by positivity)
      norm_num at spread sum
      linarith [(abs_le.mp sum).2]
    have relative : |B - R| ≤ 2 * δ := by
      refine reread.trans ?_
      rw [mul_comm 2]
      exact mul_le_mul_of_nonneg_left (by linarith) nonneg
    have rounded : |C - B| ≤ 1 / 2 ^ 21 := by
      have C_le : C ≤ 15 / 4 := by
        have upper := (abs_le.mp narrowed).2
        norm_num at upper few
        linarith [(abs_le.mp relative).2]
      refine narrowed.trans ?_
      norm_num at few ⊢
      linarith
    calc |C - 1| = |(C - B) + (B - R) + (R - 1)| := by ring_nf
      _ ≤ |C - B| + |B - R| + |R - 1| := abs_add_three _ _ _
      _ ≤ 1 / 2 ^ 21 + 2 * δ + values.length / 2 ^ 49 := add_le_add (add_le_add rounded relative) sum

end reading

namespace System.Jobs
open Foundations.Transition
open Gateway Worker

section slices
variable {p : Platform} {request : TaskRequest}

theorem admitted_of_mem {data : List Double} (member : data ∈ slicesOf p request) : Admitted p request := by
  cases outcome : requestSlices .zmq p.env p.widen request with
  | ok slices => exact admitted_of_ok outcome
  | error status =>
    rw [slicesOf, outcome] at member
    cases member

theorem Admitted.slicesOf_ne_nil (admitted : Admitted p request) : slicesOf p request ≠ [] := by
  intro empty
  have whole := admitted.flatten_slicesOf
  rw [empty, List.flatten_nil] at whole
  exact (requestSlices_eq_ok.mp admitted).2.1 (List.map_eq_nil_iff.mp whole.symm)

end slices

theorem consistent_ofPartial {fl : Floats Double Single} (ieee : Ieee754 fl) {data : List Double}
    (nonempty : data ≠ []) (finite : ∀ x ∈ data, x.isFinite = true) (short : data.length < 2 ^ 52) :
    (ofPartial fl.widen (softmaxPartial fl data)).Consistent fl.f64 := by
  refine ⟨bounded_ofPartial ieee nonempty finite short, ?_, ?_⟩
  · intro empty
    have length := congrArg List.length empty
    rw [ofPartial, List.length_map, length_softmaxPartial] at length
    exact nonempty (List.eq_nil_of_length_eq_zero length)
  · rw [ofPartial, softmaxPartial, if_neg fun empty => nonempty (List.isEmpty_iff.mp empty)]

section cpu
variable {env : Env} {serde : SerdeJson} {fl : Floats Double Single} {redisError publishError : String}
  (documented : serde.Documented) (ieee : Ieee754 fl)
include documented ieee

/-- Whatever a gateway holds as a slice was computed from finite values. -/
theorem GoodSlice.consistent {requests : List TaskRequest}
    (framed : ∀ request ∈ requests, Framed request) {jobId : String} {i : Nat} {s : SliceStats Double}
    (good : GoodSlice (.cpu env serde fl redisError publishError) requests jobId i s) :
    s.Consistent fl.f64 := by
  obtain ⟨stats, ⟨request, member, -, data, at_i, computed⟩, rfl⟩ := good
  have inSlices := List.mem_of_getElem? at_i
  have admitted := admitted_of_mem inSlices
  unfold workerStats at computed
  rw [Option.bind_eq_bind, Option.bind_eq_some_iff] at computed
  obtain ⟨values, read, computed⟩ := computed
  obtain ⟨finite, rfl⟩ := SerdeJson.toDoubles?_wire read
  split at computed
  · cases computed
  · cases computed
    have nonempty : data.map serde.reread ≠ [] := fun empty =>
      admitted.slicesOf_nonempty data inSlices (List.map_eq_nil_iff.mp empty)
    refine consistent_ofPartial ieee nonempty ?_ ?_
    · intro x inData
      obtain ⟨y, inSlice, rfl⟩ := List.mem_map.mp inData
      exact documented.reread_finite y (finite y inSlice)
    · have short := framed request member
      have le := admitted.length_le_of_mem inSlices
      unfold Framed at short
      rw [List.length_map]
      omega

theorem ResultFor.addsUpToOne {requests : List TaskRequest}
    (framed : ∀ request ∈ requests, Framed request) {δ : ℝ} (rereads : serde.RereadsWithin δ)
    (nonneg : 0 ≤ δ) (le_one : δ ≤ 1) {request : TaskRequest} {result : List Single}
    (returned : ResultFor (.cpu env serde fl redisError publishError) requests request result)
    (short : 4 * result.length < 2 ^ 32) :
    AddsUpToOne (1 / 2 ^ 21 + 2 * δ + result.length / 2 ^ 49) result := by
  obtain ⟨values, ⟨-, admitted, stats, lengths, good, aggregated⟩, read⟩ := returned
  have consistent : ∀ s ∈ stats, s.Consistent fl.f64 := by
    intro s member
    obtain ⟨i, at_i⟩ := List.mem_iff_getElem?.mp member
    exact (good i s at_i).consistent documented ieee framed
  have some_slice : stats ≠ [] := by
    rw [← List.length_pos_iff, lengths, List.length_pos_iff]
    exact admitted.slicesOf_ne_nil
  have values_eq : values = aggregateSoftmaxCpu fl.f64 stats := by
    obtain ⟨first, rest, rfl⟩ := List.exists_cons_of_ne_nil some_slice
    obtain ⟨_, -, rfl⟩ := good 0 first rfl
    cases aggregated
    rfl
  change resultFloats serde fl.narrow (serde.print (Json.ofDoubles values)) = some result at read
  rw [resultFloats, documented.array_parse, Option.bind_some, Option.map_eq_some_iff] at read
  obtain ⟨doubles, reread, rfl⟩ := read
  obtain ⟨-, rfl⟩ := SerdeJson.toDoubles?_wire reread
  subst values_eq
  have count : (aggregateSoftmaxCpu fl.f64 stats).length = (entries stats).length := by
    rw [length_aggregateSoftmaxCpu, length_entries]
  rw [List.length_map, List.length_map] at short ⊢
  have slices := length_stats_le fun s member => (consistent s member).nonempty
  refine ieee.addsUpToOne rereads nonneg le_one ?_ ?_ (by omega)
  · exact ieee.f64.aggregateSoftmaxCpu_within (fun s member => (consistent s member).toBounded)
      (by omega)
  · rw [count]
    exact ieee.f64.aggregateSoftmaxCpu_sum consistent some_slice (by omega)

/-- In every reachable state of a deployment without GPU, whatever failed, was
lost or repeated: each result that a call returned or a query reported, if gRPC
can carry it, adds up to one. -/
theorem results_addUpToOne {δ : ℝ} (rereads : serde.RereadsWithin δ) (nonneg : 0 ≤ δ)
    (le_one : δ ≤ 1) {s : State}
    (reached : Reachable (step (.cpu env serde fl redisError publishError)) .empty s)
    (framed : ∀ request ∈ s.requests, Framed request) {result : List Single}
    (given : (∃ call ∈ s.calls, call.phase = .returned (.ok result)) ∨
      ∃ query ∈ s.queries, ∃ response, query.phase = .answered (.ok response) ∧
        response.status = "ready" ∧ response.result = result)
    (short : 4 * result.length < 2 ^ 32) :
    AddsUpToOne (1 / 2 ^ 21 + 2 * δ + result.length / 2 ^ 49) result := by
  have inv := reachable_inv documented reached
  rcases given with ⟨call, member, returned⟩ | ⟨query, member, response, answered, ready, rfl⟩
  · have ok := inv.calls call member
    rw [returned] at ok
    exact ResultFor.addsUpToOne documented ieee framed rereads nonneg le_one ok short
  · have ok := inv.queries query member
    rw [answered] at ok
    obtain ⟨request, -, returned⟩ := ok ready
    exact returned.addsUpToOne documented ieee framed rereads nonneg le_one short

end cpu

/-- The text format of the model reads every number as it was written. -/
theorem serde_rereadsWithin : JsonText.serde.RereadsWithin 0 := by
  intro x a stands zero_le _
  refine ⟨a, stands, zero_le, ?_⟩
  rw [sub_self, abs_zero, zero_mul]

/-- The answer for a single zero is within 2⁻²¹ + 2⁻⁴⁹ of one. -/
theorem results_addUpToOne_zero : ∃ result : List Single, result.length = 1 ∧
    AddsUpToOne (1 / 2 ^ 21 + 1 / 2 ^ 49) result := by
  obtain ⟨final, reached, requests, call, result, at_c, -, returned, -, length⟩ :=
    exists_answered_zero
  have framed : ∀ request ∈ final.requests, Framed request := by
    intro request member
    rw [requests] at member
    rw [List.mem_singleton.mp member]
    simp [Framed, zeros]
  have one : result.length = 1 := length
  refine ⟨result, one, ?_⟩
  have sums := results_addUpToOne JsonText.serde_documented Rounded.ieee754_floats
    serde_rereadsWithin le_rfl zero_le_one reached framed
    (.inl ⟨call, List.mem_of_getElem? at_c, returned⟩) (by rw [one]; norm_num)
  rwa [one, mul_zero, add_zero, Nat.cast_one] at sums

end System.Jobs
end DistributedSoftmax
