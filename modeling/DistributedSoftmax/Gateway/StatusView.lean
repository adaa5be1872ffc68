import Mathlib.Logic.Function.Basic
import DistributedSoftmax.Gateway.Service

/-! What `get_result` can know about a job, in the order in which a job goes
through it, and the answers that tell it. An answer from a later view never
takes back what an answer from an earlier one said. -/

set_option autoImplicit false

namespace DistributedSoftmax.Gateway

/-- The slices below `i` that are there. -/
def presentBelow (present : Nat → Bool) (i : Nat) : Nat := (List.range i).countP present

theorem presentBelow_succ (present : Nat → Bool) (i : Nat) :
    presentBelow present (i + 1) = presentBelow present i + if present i then 1 else 0 := by
  rw [presentBelow, List.range_succ, List.countP_append, List.countP_singleton, presentBelow]

theorem presentBelow_mono {first second : Nat → Bool} {i : Nat}
    (grows : ∀ j < i, first j = true → second j = true) :
    presentBelow first i ≤ presentBelow second i := by
  apply List.countP_mono_left
  intro j member
  exact grows j (List.mem_range.mp member)

theorem presentBelow_congr {first second : Nat → Bool} {i : Nat}
    (same : ∀ j < i, first j = second j) : presentBelow first i = presentBelow second i := by
  apply List.countP_congr
  intro j member
  rw [same j (List.mem_range.mp member)]

theorem presentBelow_le (present : Nat → Bool) (i : Nat) : presentBelow present i ≤ i := by
  have bound := List.countP_le_length (p := present) (l := List.range i)
  rwa [List.length_range] at bound

/-- One more slice is asked for. -/
theorem presentBelow_update (present : Nat → Bool) (i : Nat) (now : Bool) :
    presentBelow (Function.update present i now) (i + 1) =
      if now then presentBelow present i + 1 else presentBelow present i := by
  have below : presentBelow (Function.update present i now) i = presentBelow present i := by
    apply presentBelow_congr
    intro j inside
    exact Function.update_of_ne (Nat.ne_of_lt inside) _ _
  rw [presentBelow_succ, below, Function.update_self]
  split <;> rfl

/-- What is known about a job: not submitted yet, some slices of it, its final
result, or no longer anything. -/
inductive JobView where
  | early
  | progress (total : Nat) (present : Nat → Bool)
  | final (total : Nat) (raw : String)
  | late

namespace JobView

/-- A job moves forward: slices are added, and then the result stays the same. -/
inductive Before : JobView → JobView → Prop where
  | early (view : JobView) : Before .early view
  | late (view : JobView) : Before view .late
  | progress {total : Nat} {first second : Nat → Bool} :
      (∀ i < total, first i = true → second i = true) →
        Before (.progress total first) (.progress total second)
  | finish (total : Nat) (present : Nat → Bool) (raw : String) :
      Before (.progress total present) (.final total raw)
  | final (total : Nat) (raw : String) : Before (.final total raw) (.final total raw)

theorem Before.refl (view : JobView) : view.Before view := by
  cases view with
  | early => exact .early _
  | progress => exact .progress fun _ _ present => present
  | final => exact .final _ _
  | late => exact .late _

theorem Before.trans {first second third : JobView} (left : first.Before second)
    (right : second.Before third) : first.Before third := by
  cases left with
  | early => exact .early _
  | late =>
    cases right with
    | late => exact .late _
  | progress grows =>
    cases right with
    | late => exact .late _
    | progress grows' =>
      exact .progress fun i inside present => grows' i inside (grows i inside present)
    | finish => exact .finish _ _ _
  | finish =>
    cases right with
    | late => exact .late _
    | final => exact .finish _ _ _
  | final => exact right

-- `not_found` tells both ends: nothing is known yet, or no longer.
/-- Answers of `get_result` that tell a view. The number of slices fits the
signed 32-bit field of the message. -/
inductive Tells (serde : SerdeJson) (narrow : Double → Single) (jobId : String) :
    JobView → ResultResponse → Prop where
  | early : Tells serde narrow jobId .early (notFound jobId)
  | late : Tells serde narrow jobId .late (notFound jobId)
  | progress {total : Nat} (present : Nat → Bool) : total < 2147483648 →
      Tells serde narrow jobId (.progress total present)
        (progressResponse jobId total (presentBelow present total))
  | final {total : Nat} (raw : String) (ttl : Int) : total < 2147483648 →
      Tells serde narrow jobId (.final total raw)
        (finalResponse serde narrow jobId total raw ttl)

end JobView

/-- The second answer takes back nothing that the first one said. -/
structure FollowsUp (first second : ResultResponse) : Prop where
  ready : first.status = "ready" →
    (second.status = "ready" ∧ second.result = first.result) ∨ second.status = "not_found"
  running : first.status = "running" → second.status ≠ "pending"
  completed : second.status = "not_found" ∨ first.completedSlices ≤ second.completedSlices

section answers
variable {serde : SerdeJson} {narrow : Double → Single} {jobId : String}

theorem toI32_of_lt {n : Nat} (small : n < 2147483648) : toI32 n = n := by
  have value : (BitVec.ofNat 32 n).toNat = n := Nat.mod_eq_of_lt (by omega)
  rw [toI32, BitVec.toInt_eq_toNat_of_lt (by omega), value]

/-- Progress is reported as pending while no slice is there, and as running then. -/
theorem progressResponse_status (total completed : Nat) :
    (progressResponse jobId total completed).status = if completed = 0 then "pending" else "running" := by
  unfold progressResponse
  split
  · rfl
  · split <;> rfl

theorem progressResponse_completedSlices (total completed : Nat) :
    (progressResponse jobId total completed).completedSlices = toI32 completed := by
  unfold progressResponse
  split
  · rfl
  · split <;> rfl

theorem finalResponse_completedSlices (total : Nat) (raw : String) (ttl : Int) :
    (finalResponse serde narrow jobId total raw ttl).completedSlices = toI32 total := by
  unfold finalResponse
  split <;> rfl

variable (serde narrow jobId) in
/-- The remaining lifetime is in the message only. -/
theorem finalResponse_ttl (total : Nat) (raw : String) (ttl ttl' : Int) :
    (finalResponse serde narrow jobId total raw ttl).status =
        (finalResponse serde narrow jobId total raw ttl').status ∧
      (finalResponse serde narrow jobId total raw ttl).result =
        (finalResponse serde narrow jobId total raw ttl').result := by
  unfold finalResponse
  split <;> exact ⟨rfl, rfl⟩

theorem finalResponse_status (total : Nat) (raw : String) (ttl : Int) :
    (finalResponse serde narrow jobId total raw ttl).status = "ready" ∨
      (finalResponse serde narrow jobId total raw ttl).status = "failed" := by
  unfold finalResponse
  split
  · exact .inl rfl
  · exact .inr rfl

/-- Answers that tell of views in their order follow each other up. -/
theorem JobView.Before.followsUp {first second : JobView} {answer later : ResultResponse}
    (before : first.Before second) (told : first.Tells serde narrow jobId answer)
    (tells : second.Tells serde narrow jobId later) : FollowsUp answer later := by
  -- After the end of the job every answer is `not_found`.
  have ended : later = notFound jobId → FollowsUp answer later := by
    rintro rfl
    exact ⟨fun _ => .inr rfl, fun _ => by simp [notFound], .inl rfl⟩
  cases before with
  | late =>
    cases tells
    exact ended rfl
  | early =>
    -- The first answer said nothing, so only the count is left to compare.
    cases told
    refine ⟨by simp [notFound], by simp [notFound], ?_⟩
    cases tells with
    | early | late => exact .inl rfl
    | @progress total present small =>
      right
      have bound := presentBelow_le present total
      rw [progressResponse_completedSlices, toI32_of_lt (by omega)]
      exact Int.natCast_nonneg _
    | final raw ttl small =>
      right
      rw [finalResponse_completedSlices, toI32_of_lt small]
      exact Int.natCast_nonneg _
  | progress grows =>
    rename_i total present present'
    cases told with
    | progress _ small =>
    cases tells
    have more := presentBelow_mono grows
    have bound := presentBelow_le present' total
    refine ⟨fun ready => ?_, fun running => ?_, .inr ?_⟩
    · rw [progressResponse_status] at ready
      split at ready <;> exact absurd ready (by decide)
    · rw [progressResponse_status] at running ⊢
      split at running
      · exact absurd running (by decide)
      · rw [if_neg (by omega)]
        decide
    · rw [progressResponse_completedSlices, progressResponse_completedSlices,
        toI32_of_lt (by omega), toI32_of_lt (by omega)]
      exact Int.ofNat_le.mpr more
  | finish total present raw =>
    cases told with
    | progress _ small =>
    cases tells with
    | final _ ttl small' =>
    have bound := presentBelow_le present total
    refine ⟨fun ready => ?_, fun _ => ?_, .inr ?_⟩
    · rw [progressResponse_status] at ready
      split at ready <;> exact absurd ready (by decide)
    · rcases finalResponse_status _ raw ttl with same | same <;> rw [same] <;> decide
    · rw [progressResponse_completedSlices, finalResponse_completedSlices,
        toI32_of_lt (by omega), toI32_of_lt small]
      exact Int.ofNat_le.mpr bound
  | final total raw =>
    cases told with
    | final _ ttl small =>
    cases tells with
    | final _ ttl' small' =>
    obtain ⟨status, result⟩ := finalResponse_ttl serde narrow jobId total raw ttl ttl'
    refine ⟨fun ready => .inl ⟨status ▸ ready, result.symm⟩, fun running => ?_, .inr ?_⟩
    · rcases finalResponse_status _ raw ttl with same | same <;>
        exact absurd (same.symm.trans running) (by decide)
    · rw [finalResponse_completedSlices, finalResponse_completedSlices]

end answers
end DistributedSoftmax.Gateway
