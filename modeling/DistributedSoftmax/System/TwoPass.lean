import DistributedSoftmax.ExactReals
import DistributedSoftmax.System.SliceCodec

/-! The two-pass softmax: partial statistics of every slice on the workers,
aggregation on the gateway. In exact arithmetic the composition is softmax of
the whole vector, however it was cut. -/

set_option autoImplicit false

namespace DistributedSoftmax.System
open Foundations.Softmax
open Worker Gateway

/-- The slices of a vector, computed one by one and aggregated in their order. -/
noncomputable def twoPass (slices : List (List ℝ)) : List EReal :=
  aggregateSoftmaxCpu (exactOps Real.exp) (slices.map fun s =>
    ofPartial (exactFloats Real.exp id).widen
      (softmaxPartial (exactFloats Real.exp id) (reals s)))

/-- The statistics of one slice, over the reals. -/
noncomputable def sliceStats (s : List ℝ) : SliceStats ℝ :=
  ⟨shifted (listMax s) s, listMax s, (shifted (listMax s) s).sum, false⟩

theorem ofPartial_softmaxPartial {s : List ℝ} (nonempty : s ≠ []) :
    ofPartial (exactFloats Real.exp id).widen (softmaxPartial (exactFloats Real.exp id) (reals s)) =
      embed (sliceStats s) := by
  rw [softmaxPartial_reals Real.exp id nonempty]
  simp only [ofPartial, exactFloats, List.map_id, embed, sliceStats, shiftedValues, shifted, id]

theorem twoPass_eq_softmax {slices : List (List ℝ)} (slicesNonempty : ∀ s ∈ slices, s ≠ []) :
    twoPass slices = reals (softmax slices.flatten) := by
  have received : (slices.map fun s => ofPartial (exactFloats Real.exp id).widen
      (softmaxPartial (exactFloats Real.exp id) (reals s))) = (slices.map sliceStats).map embed := by
    rw [List.map_map]
    exact List.map_congr_left fun s member => ofPartial_softmaxPartial (slicesNonempty s member)
  rw [twoPass, received]
  cases slices with
  | nil => rfl
  | cons s rest =>
    rw [aggregateSoftmaxCpu_embed Real.exp (by simp)]
    congr 1
    rw [← softmax_of_slices listMax
      (listMax (((s :: rest).map sliceStats).map SliceStats.localMax)), List.flatMap_map]
    simp only [realGlobalSum, realAdjust, List.map_map, Function.comp_def, sliceStats]

/-- Distributed softmax is softmax: for every cut of a vector into non-empty
slices the result has one entry for each entry of the vector, the
normalized exponential of that entry, and so does not depend on the cut. -/
theorem twoPass_softmax {xs : List ℝ} {slices : List (List ℝ)} (cut : slices.flatten = xs)
    (slicesNonempty : ∀ s ∈ slices, s ≠ []) :
    (∃ result : List ℝ, twoPass slices = reals result ∧ result.length = xs.length ∧
      ∀ k (index : k < xs.length),
        result[k]? = some (Real.exp xs[k] / (xs.map Real.exp).sum)) ∧
    ∀ other : List (List ℝ), other.flatten = xs → (∀ s ∈ other, s ≠ []) →
      twoPass other = twoPass slices := by
  subst cut
  constructor
  · refine ⟨softmax slices.flatten, twoPass_eq_softmax slicesNonempty, length_softmax _, ?_⟩
    intro k index
    have inside : k < (softmax slices.flatten).length := by simpa using index
    rw [List.getElem?_eq_getElem inside, getElem_softmax inside index, expSum]
  · intro other same otherNonempty
    rw [twoPass_eq_softmax otherNonempty, twoPass_eq_softmax slicesNonempty, same]

theorem twoPass_softmax_two_slices :
    (∃ result : List ℝ, twoPass [[0, 1], [2]] = reals result ∧ result.length = 3 ∧
      ∀ k (index : k < [(0 : ℝ), 1, 2].length),
        result[k]? = some (Real.exp [(0 : ℝ), 1, 2][k] / ([(0 : ℝ), 1, 2].map Real.exp).sum)) ∧
    ∀ other : List (List ℝ), other.flatten = [0, 1, 2] → (∀ s ∈ other, s ≠ []) →
      twoPass other = twoPass [[0, 1], [2]] := by
  have cut : [[(0 : ℝ), 1], [2]].flatten = [0, 1, 2] := rfl
  have slicesNonempty : ∀ s ∈ [[(0 : ℝ), 1], [2]], s ≠ [] := by simp
  exact twoPass_softmax cut slicesNonempty

end DistributedSoftmax.System
