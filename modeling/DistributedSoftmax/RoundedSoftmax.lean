import DistributedSoftmax.Ieee754
import DistributedSoftmax.Worker.Softmax
import DistributedSoftmax.Gateway.SoftmaxCpu

/-! Both passes in IEEE 754 arithmetic. On finite values nothing overflows and
no NaN arises: the largest value contributes an exact one to its slice, so that
no sum that is divided by is below one, and the results lie between 0 and 1. -/

set_option autoImplicit false

namespace DistributedSoftmax
open Foundations.Rounding
open Worker Gateway

section arithmetic
variable {ops : FloatOps Double} (arith : Arithmetic Double.value ops)
include arith

theorem Arithmetic.value_ofInt_zero : Double.value (ops.ofInt 0) = some ((0 : ℝ) : EReal) := by
  have rounds := arith.ofInt 0
  rw [Int.cast_zero] at rounds
  exact rounds.exact Double.value_zero

/-- The sum of terms between 0 and a power of two. -/
theorem Arithmetic.sum_within {j : Nat} (large : j < 971) (xs : List Double)
    (terms : ∀ x ∈ xs, Within Double.value 0 (2 ^ j) x) (short : xs.length < 2 ^ 52) :
    ∃ total : ℝ, Double.value (ops.sum xs) = some (total : EReal) ∧
      (∀ x ∈ xs, ∀ a : ℝ, Double.value x = some (a : EReal) → a ≤ total) ∧
        total ≤ steps 52 j xs.length := by
  have positive : (0 : ℝ) ≤ steps 52 j 0 := by
    rw [steps]
    positivity
  have representable : ∀ k ≤ xs.length, ∃ b, Double.value b = some (steps 52 j k : EReal) :=
    fun k le => Double.representable_steps large (Nat.lt_of_le_of_lt le short)
  obtain ⟨total, stands, -, all, le_total⟩ := Foundations.Rounding.sum_within arith.add
    representable (steps_succ 52 j) terms arith.value_ofInt_zero le_rfl positive
    (Nat.zero_add _).le
  rw [Nat.zero_add] at le_total
  exact ⟨total, stands, all, le_total⟩

/-- The maximum of a list of real numbers. -/
theorem Arithmetic.foldMax_within {xs : List Double} (nonempty : xs ≠ [])
    (numbers : ∀ x ∈ xs, ∃ a : ℝ, Double.value x = some (a : EReal)) :
    ∃ m : ℝ, Double.value (ops.foldMax xs) = some (m : EReal) ∧
      (∀ x ∈ xs, ∀ a : ℝ, Double.value x = some (a : EReal) → a ≤ m) ∧
        ∃ x ∈ xs, Double.value x = some (m : EReal) := by
  obtain ⟨m, stands, -, all, among⟩ := max_within arith.max numbers arith.negInf
  obtain ⟨x, rest, rfl⟩ := List.exists_cons_of_ne_nil nonempty
  obtain ⟨a, standsX⟩ := numbers x List.mem_cons_self
  have le_m := all x List.mem_cons_self a standsX
  rcases among with rfl | ⟨y, member, standsY⟩
  · exact absurd (le_bot_iff.mp le_m) (EReal.coe_ne_bot a)
  · obtain ⟨b, standsB⟩ := numbers y member
    cases standsY.symm.trans standsB
    exact ⟨b, stands, fun z inside c standsZ => EReal.coe_le_coe_iff.mp (all z inside c standsZ),
      y, member, standsY⟩

/-- The exponential of a difference that is not positive. -/
theorem Arithmetic.exp_sub_within {x m : Double} {a b : ℝ}
    (standsX : Double.value x = some (a : EReal)) (standsM : Double.value m = some (b : EReal))
    (le : a ≤ b) : Within Double.value 0 1 (ops.exp (ops.sub x m)) ∧
      (a = b → Double.value (ops.exp (ops.sub x m)) = some ((1 : ℝ) : EReal)) := by
  have rounds := arith.sub x m a b standsX standsM
  constructor
  · obtain ⟨v, stands, nonpos⟩ := rounds.upper Double.value_zero (sub_nonpos.mpr le)
    exact arith.exp_nonpos _ v stands nonpos
  · rintro rfl
    rw [sub_self] at rounds
    exact arith.exp_zero _ (rounds.exact Double.value_zero)

/-- The product of a number that is not negative with one between 0 and 1. -/
theorem Arithmetic.mul_within {x y : Double} {a : ℝ} (standsX : Double.value x = some (a : EReal))
    (positive : 0 ≤ a) (fraction : Within Double.value 0 1 y) :
    Within Double.value 0 a (ops.mul x y) := by
  obtain ⟨b, standsY, zero_le, le_one⟩ := fraction
  exact (arith.mul x y a b standsX standsY).within Double.value_zero standsX
    (mul_nonneg positive zero_le) (mul_le_of_le_one_right positive le_one)

end arithmetic

section passes
variable {fl : Floats Double Single} (ieee : Ieee754 fl)
include ieee

theorem Ieee754.narrow_within {x : Double} (within : Within Double.value 0 1 x) :
    Within Single.value 0 1 (fl.narrow x) := by
  obtain ⟨a, stands, zero_le, le_one⟩ := within
  exact (ieee.narrow x a stands).within Single.value_zero Single.value_one zero_le le_one

theorem Ieee754.widen_within {x : Single} (within : Within Single.value 0 1 x) :
    Within Double.value 0 1 (fl.widen x) := by
  obtain ⟨a, stands, zero_le, le_one⟩ := within
  exact (ieee.widen x a stands).within Double.value_zero Double.value_one zero_le le_one

/-- What a worker computes for a slice of finite values: every stored value is
between 0 and 1, and so the sum is at least the one of the largest. -/
theorem Ieee754.softmaxPartial_within {data : List Double} (nonempty : data ≠ [])
    (finite : ∀ x ∈ data, x.isFinite = true) (short : data.length < 2 ^ 52) :
    (∃ m : ℝ, Double.value (softmaxPartial fl data).localMax = some (m : EReal)) ∧
      (∀ e ∈ (softmaxPartial fl data).expValues, Within Single.value 0 1 e) ∧
        Within Double.value 1 (2 ^ 53) (softmaxPartial fl data).partialSum := by
  have numbers : ∀ x ∈ data, ∃ a : ℝ, Double.value x = some (a : EReal) :=
    fun x member => (Double.isFinite_iff x).mp (finite x member)
  obtain ⟨m, standsM, le_m, largest, among, standsLargest⟩ :=
    ieee.f64.foldMax_within nonempty numbers
  have exps : ∀ x ∈ data, Within Single.value 0 1
      (fl.narrow (fl.f64.exp (fl.f64.sub x (fl.f64.foldMax data)))) := by
    intro x member
    obtain ⟨a, standsX⟩ := numbers x member
    exact ieee.narrow_within
      (ieee.f64.exp_sub_within standsX standsM (le_m x member a standsX)).1
  have one := ieee.widen _ 1 <| (ieee.narrow _ 1 <|
    (ieee.f64.exp_sub_within standsLargest standsM le_rfl).2 rfl).exact Single.value_one
  obtain ⟨total, standsTotal, le_total, total_le⟩ := ieee.f64.sum_within (j := 0) (by omega)
    ((data.map fun x =>
      fl.narrow (fl.f64.exp (fl.f64.sub x (fl.f64.foldMax data)))).map fl.widen)
    (by
      intro y member
      obtain ⟨e, inside, rfl⟩ := List.mem_map.mp member
      obtain ⟨x, inData, rfl⟩ := List.mem_map.mp inside
      rw [pow_zero]
      exact ieee.widen_within (exps x inData))
    (by rwa [List.length_map, List.length_map])
  unfold softmaxPartial
  rw [if_neg fun empty => nonempty (List.isEmpty_iff.mp empty)]
  refine ⟨⟨m, standsM⟩, ?_, total, standsTotal, ?_, total_le.trans ?_⟩
  · intro e member
    obtain ⟨x, inData, rfl⟩ := List.mem_map.mp member
    exact exps x inData
  · exact le_total _ (List.mem_map_of_mem (List.mem_map_of_mem among)) 1
      (one.exact Double.value_one)
  · rw [List.length_map, List.length_map, steps, pow_zero, mul_one]
    have below : (data.length : ℝ) ≤ 2 ^ 52 := by exact_mod_cast short.le
    linarith

end passes

/-- What the aggregation needs of a slice: a maximum, a sum that is at least
one, and values between 0 and 1. -/
structure Gateway.SliceStats.Bounded (stats : SliceStats Double) : Prop where
  localMax : ∃ m : ℝ, Double.value stats.localMax = some (m : EReal)
  partialSum : Within Double.value 1 (2 ^ 53) stats.partialSum
  expValues : ∀ ev ∈ stats.expValues, Within Double.value 0 1 ev

section aggregation
variable {fl : FloatOps Double} (arith : Arithmetic Double.value fl) {stats : List (SliceStats Double)}
  (bounded : ∀ s ∈ stats, s.Bounded)
include arith bounded

/-- The adjust factors are between 0 and 1, and that of the largest slice is one. -/
theorem Arithmetic.adjustOf_within (nonempty : stats ≠ []) :
    (∀ s ∈ stats, Within Double.value 0 1 (adjustOf fl stats s)) ∧
      ∃ s ∈ stats, Double.value (adjustOf fl stats s) = some ((1 : ℝ) : EReal) := by
  have numbers : ∀ x ∈ stats.map SliceStats.localMax, ∃ a : ℝ, Double.value x = some (a : EReal) := by
    intro x member
    obtain ⟨s, inside, rfl⟩ := List.mem_map.mp member
    exact (bounded s inside).localMax
  obtain ⟨m, standsM, le_m, largest, among, standsLargest⟩ :=
    arith.foldMax_within (fun empty => nonempty (List.map_eq_nil_iff.mp empty)) numbers
  constructor
  · intro s member
    obtain ⟨a, standsA⟩ := (bounded s member).localMax
    exact (arith.exp_sub_within standsA standsM
      (le_m _ (List.mem_map_of_mem member) a standsA)).1
  · obtain ⟨s, member, rfl⟩ := List.mem_map.mp among
    exact ⟨s, member, (arith.exp_sub_within standsLargest standsM le_rfl).2 rfl⟩

theorem Arithmetic.globalSumOf_within (nonempty : stats ≠ []) (short : stats.length < 2 ^ 52) :
    ∃ total : ℝ, Double.value (globalSumOf fl stats) = some (total : EReal) ∧ 1 ≤ total := by
  obtain ⟨adjusts, largest, among, one⟩ := arith.adjustOf_within bounded nonempty
  obtain ⟨total, stands, le_total, -⟩ := arith.sum_within (j := 53) (by omega)
    (stats.map fun s => fl.mul s.partialSum (adjustOf fl stats s))
    (by
      intro x member
      obtain ⟨s, inside, rfl⟩ := List.mem_map.mp member
      obtain ⟨a, standsA, one_le, le⟩ := (bounded s inside).partialSum
      exact (arith.mul_within standsA (zero_le_one.trans one_le) (adjusts s inside)).mono le_rfl le)
    (by rwa [List.length_map])
  refine ⟨total, stands, ?_⟩
  obtain ⟨a, standsA, one_le, -⟩ := (bounded largest among).partialSum
  have product := arith.mul _ _ a 1 standsA one
  rw [mul_one] at product
  exact one_le.trans (le_total _ (List.mem_map_of_mem among) a (product.exact standsA))

/-- Every aggregated value is between 0 and 1. -/
theorem Arithmetic.aggregateSoftmaxCpu_within (short : stats.length < 2 ^ 52) :
    ∀ v ∈ aggregateSoftmaxCpu fl stats, Within Double.value 0 1 v := by
  intro v member
  rw [aggregateSoftmaxCpu_eq] at member
  obtain ⟨s, inside, inValues⟩ := List.mem_flatMap.mp member
  obtain ⟨ev, among, rfl⟩ := List.mem_map.mp inValues
  have nonempty : stats ≠ [] := List.ne_nil_of_mem inside
  obtain ⟨total, standsTotal, one_le⟩ := arith.globalSumOf_within bounded nonempty short
  obtain ⟨e, standsE, zero_le, le_one⟩ := (bounded s inside).expValues ev among
  obtain ⟨y, standsY, zero_le_y, le_e⟩ := arith.mul_within standsE zero_le
    ((arith.adjustOf_within bounded nonempty).1 s inside)
  have positive : 0 < total := zero_lt_one.trans_le one_le
  refine (arith.div _ _ y total standsY standsTotal positive.ne').within Double.value_zero
    Double.value_one (div_nonneg zero_le_y positive.le) ?_
  exact (div_le_one positive).mpr ((le_e.trans le_one).trans one_le)

end aggregation
end DistributedSoftmax
