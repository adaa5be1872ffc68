import DistributedSoftmax.System.TwoPass

/-! The two-pass softmax when every exponential is rounded by an arbitrary
function: on the workers, to single precision, and on the gateway, in the adjust
factors. All that is asked of the rounding is that it keeps 1 and the sign. The
result is a probability vector nevertheless, because each slice is summed after
the rounding and the slice with the greatest maximum is not rescaled. -/

set_option autoImplicit false

namespace DistributedSoftmax.System
open Foundations.Softmax
open Worker Gateway

/-- A rounding that keeps 1 and does not make a value negative. -/
structure Rounding (round : ℝ → ℝ) : Prop where
  one : round 1 = 1
  nonneg : ∀ t, 0 ≤ t → 0 ≤ round t

/-- The statistics of all slices as the gateway reads them, when the exponential
of every value is rounded by `r`. -/
noncomputable def roundedStats (r : ℝ → ℝ) (slices : List (List ℝ)) : List (SliceStats EReal) :=
  slices.map fun s =>
    ofPartial (exactFloats Real.exp r).widen (softmaxPartial (exactFloats Real.exp r) (reals s))

/-- The aggregation with every adjust factor rounded by `q`. -/
noncomputable def roundedTwoPass (r q : ℝ → ℝ) (slices : List (List ℝ)) : List EReal :=
  aggregateSoftmaxCpu (exactOps (q ∘ Real.exp)) (roundedStats r slices)

/-- The `global_sum` of that aggregation. -/
noncomputable def roundedGlobalSum (r q : ℝ → ℝ) (slices : List (List ℝ)) : EReal :=
  globalSumOf (exactOps (q ∘ Real.exp)) (roundedStats r slices)

/-- The rounded statistics of one slice, over the reals. -/
noncomputable def roundedSlice (r : ℝ → ℝ) (s : List ℝ) : SliceStats ℝ :=
  ⟨shiftedValues Real.exp r s, listMax s, (shiftedValues Real.exp r s).sum, false⟩

section slice
variable {r : ℝ → ℝ} (rounding : Rounding r) {s : List ℝ}
include rounding

theorem shiftedValues_nonneg : ∀ e ∈ shiftedValues Real.exp r s, 0 ≤ e := by
  intro e member
  obtain ⟨x, -, rfl⟩ := List.mem_map.mp member
  exact rounding.nonneg _ (Real.exp_pos _).le

/-- The greatest value of a slice has the exponential 1, which is not rounded. -/
theorem one_mem_shiftedValues (nonempty : s ≠ []) : 1 ∈ shiftedValues Real.exp r s := by
  apply List.mem_map.mpr
  refine ⟨listMax s, listMax_mem nonempty, ?_⟩
  rw [sub_self, Real.exp_zero, rounding.one]

end slice

section slices
variable {r q : ℝ → ℝ} {slices : List (List ℝ)} (slicesNonempty : ∀ s ∈ slices, s ≠ [])
include slicesNonempty

theorem roundedStats_eq : roundedStats r slices = (slices.map (roundedSlice r)).map embed := by
  rw [roundedStats, List.map_map]
  apply List.map_congr_left
  intro s member
  rw [softmaxPartial_reals Real.exp r (slicesNonempty s member)]
  simp only [ofPartial, exactFloats, List.map_id, Function.comp, embed, roundedSlice]

end slices

section aggregate
variable {r q : ℝ → ℝ} {slices : List (List ℝ)}

/-- The entries of all slices, rescaled to the common maximum. -/
noncomputable def rescaled (r q : ℝ → ℝ) (slices : List (List ℝ)) : List ℝ :=
  (slices.map (roundedSlice r)).flatMap fun stats => stats.expValues.map fun ev =>
    ev * realAdjust (q ∘ Real.exp) (slices.map (roundedSlice r)) stats

/-- Each slice was summed after its rounding, so the global sum is the sum of
what is divided by it. -/
theorem sum_rescaled :
    (rescaled r q slices).sum = realGlobalSum (q ∘ Real.exp) (slices.map (roundedSlice r)) := by
  rw [rescaled, realGlobalSum, List.flatMap, List.sum_flatten]
  simp only [List.map_map]
  congr 1
  apply List.map_congr_left
  intro s _
  simp only [Function.comp, roundedSlice]
  rw [List.sum_map_mul_right, List.map_id']

theorem length_rescaled : (rescaled r q slices).length = slices.flatten.length := by
  rw [rescaled, List.length_flatMap, List.length_flatten, List.map_map]
  simp only [Function.comp_def, roundedSlice, shiftedValues, List.length_map]

theorem realAdjust_nonneg (rounding : Rounding q) (stats : List (SliceStats ℝ))
    (s : SliceStats ℝ) : 0 ≤ realAdjust (q ∘ Real.exp) stats s :=
  rounding.nonneg _ (Real.exp_pos _).le

theorem rescaled_nonneg (roundingR : Rounding r) (roundingQ : Rounding q) :
    ∀ w ∈ rescaled r q slices, 0 ≤ w := by
  intro w member
  obtain ⟨stats, slice, value⟩ := List.mem_flatMap.mp member
  obtain ⟨s, -, rfl⟩ := List.mem_map.mp slice
  obtain ⟨ev, entry, rfl⟩ := List.mem_map.mp value
  apply mul_nonneg
  · exact shiftedValues_nonneg roundingR ev entry
  · exact realAdjust_nonneg roundingQ _ _

/-- Some slice attains the global maximum; its factor is 1 and not rounded. -/
theorem one_mem_rescaled (roundingR : Rounding r) (roundingQ : Rounding q) (nonempty : slices ≠ [])
    (slicesNonempty : ∀ s ∈ slices, s ≠ []) : 1 ∈ rescaled r q slices := by
  have maxima : (slices.map (roundedSlice r)).map SliceStats.localMax ≠ [] := by
    simpa using nonempty
  obtain ⟨stats, slice, greatest⟩ := List.mem_map.mp (listMax_mem maxima)
  have adjust : realAdjust (q ∘ Real.exp) (slices.map (roundedSlice r)) stats = 1 := by
    rw [realAdjust, greatest, sub_self, Function.comp, Real.exp_zero, roundingQ.one]
  obtain ⟨s, member, rfl⟩ := List.mem_map.mp slice
  apply List.mem_flatMap.mpr
  refine ⟨roundedSlice r s, slice, ?_⟩
  apply List.mem_map.mpr
  refine ⟨1, one_mem_shiftedValues roundingR (slicesNonempty s member), ?_⟩
  rw [adjust, mul_one]

theorem one_le_sum_rescaled (roundingR : Rounding r) (roundingQ : Rounding q)
    (nonempty : slices ≠ []) (slicesNonempty : ∀ s ∈ slices, s ≠ []) :
    1 ≤ (rescaled r q slices).sum := by
  apply List.single_le_sum (rescaled_nonneg roundingR roundingQ)
  exact one_mem_rescaled roundingR roundingQ nonempty slicesNonempty

/-- The result is what was rescaled, normalized. -/
theorem roundedTwoPass_eq (nonempty : slices ≠ []) (slicesNonempty : ∀ s ∈ slices, s ≠ []) :
    roundedTwoPass r q slices = reals (normalized (rescaled r q slices)) := by
  rw [roundedTwoPass, roundedStats_eq slicesNonempty, aggregateSoftmaxCpu_embed _ (by simpa),
    normalized, sum_rescaled, rescaled, List.map_flatMap]
  simp only [List.map_map, Function.comp_def]

theorem roundedGlobalSum_eq (nonempty : slices ≠ []) (slicesNonempty : ∀ s ∈ slices, s ≠ []) :
    roundedGlobalSum r q slices = ((rescaled r q slices).sum : ℝ) := by
  rw [roundedGlobalSum, roundedStats_eq slicesNonempty, globalSumOf_embed _ (by simpa),
    sum_rescaled]

end aggregate

/-- The output is a probability vector, however the exponentials are rounded:
the global sum is at least 1, every output lies between 0 and 1, the outputs sum
to 1, and there is one for each input. -/
theorem probability_vector {r q : ℝ → ℝ} (roundingR : Rounding r) (roundingQ : Rounding q)
    {slices : List (List ℝ)} (nonempty : slices ≠ []) (slicesNonempty : ∀ s ∈ slices, s ≠ []) :
    1 ≤ roundedGlobalSum r q slices ∧
      ∃ result : List ℝ, roundedTwoPass r q slices = reals result ∧
        (∀ y ∈ result, 0 ≤ y ∧ y ≤ 1) ∧ result.sum = 1 ∧
          result.length = slices.flatten.length := by
  have one_le := one_le_sum_rescaled roundingR roundingQ nonempty slicesNonempty
  have positive : 0 < (rescaled r q slices).sum := one_pos.trans_le one_le
  constructor
  · rw [roundedGlobalSum_eq nonempty slicesNonempty]
    exact_mod_cast one_le
  · refine ⟨normalized (rescaled r q slices), roundedTwoPass_eq nonempty slicesNonempty, ?_,
      sum_normalized positive, ?_⟩
    · exact normalized_bounds (rescaled_nonneg roundingR roundingQ) positive
    · rw [length_normalized, length_rescaled]

/-- Everything below 1 underflows to 0. -/
noncomputable def underflow (t : ℝ) : ℝ := if t < 1 then 0 else t

theorem underflow_rounding : Rounding underflow where
  one := if_neg (lt_irrefl 1)
  nonneg t nonneg := by
    unfold underflow
    split
    · exact le_rfl
    · exact nonneg

theorem probability_vector_underflow :
    1 ≤ roundedGlobalSum underflow underflow [[0, 1], [2]] ∧
      ∃ result : List ℝ, roundedTwoPass underflow underflow [[0, 1], [2]] = reals result ∧
        (∀ y ∈ result, 0 ≤ y ∧ y ≤ 1) ∧ result.sum = 1 ∧ result.length = 3 := by
  have slicesNonempty : ∀ s ∈ [[(0 : ℝ), 1], [2]], s ≠ [] := by simp
  exact probability_vector underflow_rounding underflow_rounding (by simp) slicesNonempty

end DistributedSoftmax.System
