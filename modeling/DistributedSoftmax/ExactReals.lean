import Mathlib.Data.EReal.Inv
import DistributedSoftmax.Foundations.Softmax
import DistributedSoftmax.Worker.Softmax
import DistributedSoftmax.Gateway.SoftmaxCpu

/-! Exact arithmetic: every operation returns the real result. Negative
infinity is the start value of the maximum folds, so the carrier is the
extended reals; the operations stay within the reals on real operands. -/

set_option autoImplicit false

namespace DistributedSoftmax
open Foundations.Softmax
open Worker Gateway

/-- A function on the reals, extended to the two infinities. -/
noncomputable def extend (f : ℝ → ℝ) (atBot atTop : EReal) (x : EReal) : EReal :=
  EReal.rec atBot (fun r => (f r : EReal)) atTop x

@[simp] theorem extend_coe (f : ℝ → ℝ) (atBot atTop : EReal) (x : ℝ) :
    extend f atBot atTop (x : EReal) = (f x : ℝ) := rfl

/-- Exact operations, with a given function in the place of `exp`. -/
noncomputable def exactOps (exp : ℝ → ℝ) : FloatOps EReal where
  ofInt n := ((n : ℝ) : EReal)
  negInf := ⊥
  max := max
  add := (· + ·)
  sub := (· - ·)
  mul := (· * ·)
  div := (· / ·)
  exp := extend exp 0 ⊤

/-- Exact operations in both formats, with a given function in the place of the
cast to single precision. -/
noncomputable def exactFloats (exp narrow : ℝ → ℝ) : Floats EReal EReal where
  f64 := exactOps exp
  f32 := exactOps exp
  widen := id
  narrow := extend narrow ⊥ ⊤

/-- The real numbers among the extended ones. -/
def reals (xs : List ℝ) : List EReal := xs.map (fun x : ℝ => (x : EReal))

@[simp] theorem length_reals (xs : List ℝ) : (reals xs).length = xs.length := by simp [reals]

@[simp] theorem reals_cons (x : ℝ) (xs : List ℝ) : reals (x :: xs) = (x : EReal) :: reals xs := rfl

@[simp] theorem reals_append (xs ys : List ℝ) : reals (xs ++ ys) = reals xs ++ reals ys := by
  simp [reals]

theorem reals_eq_nil {xs : List ℝ} : reals xs = [] ↔ xs = [] := by simp [reals]

theorem reals_injective : Function.Injective reals :=
  List.map_injective_iff.mpr EReal.coe_injective

theorem foldl_max_mem (start : ℝ) (xs : List ℝ) : xs.foldl max start ∈ start :: xs := by
  induction xs generalizing start with
  | nil => exact List.mem_cons_self
  | cons x rest ih =>
    rw [List.foldl_cons]
    rcases List.mem_cons.mp (ih (max start x)) with same | later
    · rw [same]
      rcases max_choice start x with left | right
      · rw [left]
        exact List.mem_cons_self
      · rw [right]
        exact List.mem_cons_of_mem _ List.mem_cons_self
    · exact List.mem_cons_of_mem _ (List.mem_cons_of_mem _ later)

/-- The maximum of a list of reals; 0 for the empty list. -/
noncomputable def listMax : List ℝ → ℝ
  | [] => 0
  | x :: rest => rest.foldl max x

theorem listMax_mem {xs : List ℝ} (nonempty : xs ≠ []) : listMax xs ∈ xs := by
  obtain ⟨x, rest, rfl⟩ := List.exists_cons_of_ne_nil nonempty
  exact foldl_max_mem x rest

section
variable (exp : ℝ → ℝ)

theorem foldl_max_reals (start : ℝ) (xs : List ℝ) :
    (reals xs).foldl (exactOps exp).max (start : EReal) = (xs.foldl max start : ℝ) := by
  induction xs generalizing start with
  | nil => rfl
  | cons x rest ih =>
    have step : (exactOps exp).max (start : EReal) (x : EReal) = ((max start x : ℝ) : EReal) :=
      (EReal.coe_strictMono.monotone.map_max).symm
    rw [reals_cons, List.foldl_cons, step, ih, List.foldl_cons]

/-- The fold from negative infinity over a non-empty list is its maximum. -/
theorem foldMax_reals {xs : List ℝ} (nonempty : xs ≠ []) :
    (exactOps exp).foldMax (reals xs) = (listMax xs : EReal) := by
  obtain ⟨x, rest, rfl⟩ := List.exists_cons_of_ne_nil nonempty
  have start : (exactOps exp).max (exactOps exp).negInf (x : EReal) = (x : EReal) := max_bot_left _
  rw [FloatOps.foldMax, reals_cons, List.foldl_cons, start, foldl_max_reals]
  rfl

theorem sum_reals (xs : List ℝ) : (exactOps exp).sum (reals xs) = (xs.sum : ℝ) := by
  have general : ∀ (start : ℝ), (reals xs).foldl (exactOps exp).add (start : EReal) =
      ((start + xs.sum : ℝ) : EReal) := by
    induction xs with
    | nil => intro start; simp [reals]
    | cons x rest ih =>
      intro start
      have step : (exactOps exp).add (start : EReal) (x : EReal) = ((start + x : ℝ) : EReal) :=
        (EReal.coe_add start x).symm
      rw [reals_cons, List.foldl_cons, step, ih, List.sum_cons, add_assoc]
  have zero : (exactOps exp).ofInt 0 = ((0 : ℝ) : EReal) := by simp [exactOps]
  rw [FloatOps.sum, zero, general, zero_add]

/-- The values of a slice relative to its maximum, as the worker stores them. -/
noncomputable def shiftedValues (narrow : ℝ → ℝ) (xs : List ℝ) : List ℝ :=
  xs.map fun x => narrow (exp (x - listMax xs))

theorem softmaxPartial_reals (narrow : ℝ → ℝ) {xs : List ℝ} (nonempty : xs ≠ []) :
    softmaxPartial (exactFloats exp narrow) (reals xs) =
      ⟨(listMax xs : EReal), ((shiftedValues exp narrow xs).sum : ℝ),
        reals (shiftedValues exp narrow xs)⟩ := by
  have start : (reals xs).isEmpty = false := by
    rw [List.isEmpty_eq_false_iff]
    exact fun empty => nonempty (reals_eq_nil.mp empty)
  have values : (reals xs).map (fun x => (exactFloats exp narrow).narrow
      ((exactOps exp).exp ((exactOps exp).sub x (listMax xs)))) =
        reals (shiftedValues exp narrow xs) := by
    simp only [reals, shiftedValues, List.map_map]
    apply List.map_congr_left
    intro x _
    simp only [Function.comp, exactFloats, exactOps, ← EReal.coe_sub, extend_coe]
  unfold softmaxPartial
  simp only [start, Bool.false_eq_true, if_false]
  rw [show (exactFloats exp narrow).f64 = exactOps exp from rfl, foldMax_reals exp nonempty, values]
  have same : (reals (shiftedValues exp narrow xs)).map (exactFloats exp narrow).widen =
      reals (shiftedValues exp narrow xs) := List.map_id _
  rw [same, sum_reals]

end

/-- Slice statistics of real numbers, as the exact arithmetic represents them. -/
noncomputable def embed (s : SliceStats ℝ) : SliceStats EReal :=
  ⟨reals s.expValues, (s.localMax : EReal), (s.partialSum : EReal), s.isNormalized⟩

section
variable (exp : ℝ → ℝ) (stats : List (SliceStats ℝ))

noncomputable def realAdjust (s : SliceStats ℝ) : ℝ :=
  exp (s.localMax - listMax (stats.map SliceStats.localMax))

noncomputable def realGlobalSum : ℝ :=
  (stats.map fun s => s.partialSum * realAdjust exp stats s).sum

theorem foldMax_embed {stats : List (SliceStats ℝ)} (nonempty : stats ≠ []) :
    (exactOps exp).foldMax ((stats.map embed).map SliceStats.localMax) =
      (listMax (stats.map SliceStats.localMax) : EReal) := by
  rw [← foldMax_reals exp (fun empty => nonempty (List.map_eq_nil_iff.mp empty)), reals,
    List.map_map, List.map_map]
  rfl

theorem adjustOf_embed {stats : List (SliceStats ℝ)} (nonempty : stats ≠ []) (s : SliceStats ℝ) :
    adjustOf (exactOps exp) (stats.map embed) (embed s) = (realAdjust exp stats s : ℝ) := by
  rw [adjustOf, foldMax_embed exp nonempty, realAdjust]
  simp only [exactOps, embed, ← EReal.coe_sub, extend_coe]

theorem globalSumOf_embed {stats : List (SliceStats ℝ)} (nonempty : stats ≠ []) :
    globalSumOf (exactOps exp) (stats.map embed) = (realGlobalSum exp stats : ℝ) := by
  rw [realGlobalSum, ← sum_reals exp, globalSumOf, List.map_map, reals, List.map_map]
  congr 1
  apply List.map_congr_left
  intro s _
  simp only [Function.comp, adjustOf_embed exp nonempty]
  exact (EReal.coe_mul _ _).symm

/-- The aggregation on real statistics, written out. -/
theorem aggregateSoftmaxCpu_embed {stats : List (SliceStats ℝ)} (nonempty : stats ≠ []) :
    aggregateSoftmaxCpu (exactOps exp) (stats.map embed) =
      reals (stats.flatMap fun s => s.expValues.map fun ev =>
        ev * realAdjust exp stats s / realGlobalSum exp stats) := by
  rw [aggregateSoftmaxCpu_eq, globalSumOf_embed exp nonempty, reals, List.map_flatMap,
    List.flatMap_map]
  apply List.flatMap_congr
  intro s _
  simp only [embed, reals, List.map_map]
  apply List.map_congr_left
  intro ev _
  have adjust := adjustOf_embed exp nonempty s
  simp only [embed, reals] at adjust
  simp only [Function.comp, adjust]
  exact ((EReal.coe_div _ _).trans (by rw [EReal.coe_mul]; rfl)).symm

end
end DistributedSoftmax
