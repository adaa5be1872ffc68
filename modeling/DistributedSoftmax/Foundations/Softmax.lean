import Mathlib.Analysis.SpecialFunctions.Exp

/-! Softmax of a list of real numbers, its invariance under a shift of the
exponents, and its computation from slices that were shifted independently;
and the normalization of any weights. -/

set_option autoImplicit false

namespace Foundations.Softmax

noncomputable def expSum (xs : List ℝ) : ℝ := (xs.map Real.exp).sum

/-- The normalized exponentials. -/
noncomputable def softmax (xs : List ℝ) : List ℝ := xs.map fun x => Real.exp x / expSum xs

/-- The exponentials relative to a shift, as a stable implementation computes them. -/
noncomputable def shifted (m : ℝ) (xs : List ℝ) : List ℝ := xs.map fun x => Real.exp (x - m)

@[simp] theorem length_softmax (xs : List ℝ) : (softmax xs).length = xs.length := by simp [softmax]

theorem getElem_softmax {xs : List ℝ} {k : Nat} (inside : k < (softmax xs).length)
    (index : k < xs.length) : (softmax xs)[k] = Real.exp xs[k] / expSum xs := by
  simp [softmax]

theorem shifted_eq (m : ℝ) (xs : List ℝ) :
    shifted m xs = xs.map fun x => Real.exp x * Real.exp (-m) := by
  apply List.map_congr_left
  intro x _
  rw [← Real.exp_add, sub_eq_add_neg]

theorem sum_shifted (m : ℝ) (xs : List ℝ) : (shifted m xs).sum = expSum xs * Real.exp (-m) := by
  rw [shifted_eq, List.sum_map_mul_right, expSum]

/-- The factor from shift `m` to shift `g`. -/
theorem rescale (m g x : ℝ) : Real.exp (x - m) * Real.exp (m - g) = Real.exp (x - g) := by
  rw [← Real.exp_add]
  congr 1
  ring

theorem rescale_sum (m g : ℝ) (xs : List ℝ) :
    (shifted m xs).sum * Real.exp (m - g) = (shifted g xs).sum := by
  rw [shifted, ← List.sum_map_mul_right, shifted]
  simp only [rescale]

/-- Any shift leaves the normalized exponentials as they are. -/
theorem softmax_shift (g : ℝ) (xs : List ℝ) :
    (shifted g xs).map (fun e => e / (shifted g xs).sum) = softmax xs := by
  rw [sum_shifted, shifted_eq, List.map_map]
  apply List.map_congr_left
  intro x _
  exact mul_div_mul_right _ _ (Real.exp_ne_zero _)

/-- The sum over all slices, each with a shift of its own, rescaled to a common one. -/
theorem parts_sum (g : ℝ) (parts : List (ℝ × List ℝ)) :
    (parts.map fun part => (shifted part.1 part.2).sum * Real.exp (part.1 - g)).sum =
      (shifted g (parts.flatMap Prod.snd)).sum := by
  induction parts with
  | nil => simp [shifted]
  | cons part rest ih =>
    rw [List.map_cons, List.sum_cons, ih, rescale_sum, List.flatMap_cons]
    simp only [shifted, List.map_append, List.sum_append]

/-- Softmax from slices with arbitrary shifts of their own: rescale every slice
to a common shift and divide by the rescaled total. -/
theorem softmax_of_parts (g : ℝ) (parts : List (ℝ × List ℝ)) :
    (parts.flatMap fun part => (shifted part.1 part.2).map fun e => e * Real.exp (part.1 - g) /
      (parts.map fun part => (shifted part.1 part.2).sum * Real.exp (part.1 - g)).sum) =
      softmax (parts.flatMap Prod.snd) := by
  rw [parts_sum, ← softmax_shift g]
  generalize (shifted g (parts.flatMap Prod.snd)).sum = total
  induction parts with
  | nil => rfl
  | cons part rest ih =>
    rw [List.flatMap_cons, ih, List.flatMap_cons]
    simp only [shifted, List.map_append, List.map_map]
    congr 1
    apply List.map_congr_left
    intro x _
    simp only [Function.comp, rescale]

/-- The same when the shift of a slice is a function of its values. -/
theorem softmax_of_slices (m : List ℝ → ℝ) (g : ℝ) (slices : List (List ℝ)) :
    (slices.flatMap fun s => (shifted (m s) s).map fun e => e * Real.exp (m s - g) /
      (slices.map fun s => (shifted (m s) s).sum * Real.exp (m s - g)).sum) =
      softmax slices.flatten := by
  have parts := softmax_of_parts g (slices.map fun s => (m s, s))
  simp only [List.flatMap_map, List.map_map, Function.comp_def] at parts
  rw [parts]
  exact congrArg softmax List.flatMap_id

section normalized
variable {weights : List ℝ}

/-- Weights, divided by their sum. -/
noncomputable def normalized (weights : List ℝ) : List ℝ := weights.map (· / weights.sum)

@[simp] theorem length_normalized : (normalized weights).length = weights.length :=
  List.length_map _

theorem sum_normalized (positive : 0 < weights.sum) : (normalized weights).sum = 1 := by
  simp only [normalized, div_eq_mul_inv]
  rw [List.sum_map_mul_right, List.map_id', mul_inv_cancel₀ positive.ne']

theorem normalized_bounds (nonneg : ∀ w ∈ weights, 0 ≤ w) (positive : 0 < weights.sum) :
    ∀ y ∈ normalized weights, 0 ≤ y ∧ y ≤ 1 := by
  intro y member
  obtain ⟨w, weight, rfl⟩ := List.mem_map.mp member
  constructor
  · exact div_nonneg (nonneg w weight) positive.le
  · apply div_le_one_of_le₀ _ positive.le
    exact List.single_le_sum nonneg w weight

end normalized

end Foundations.Softmax
