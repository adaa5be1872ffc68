import Mathlib.Algebra.BigOperators.Ring.List
import DistributedSoftmax.Foundations.Spacing
import DistributedSoftmax.RoundedSoftmax

/-! The sum of a result in IEEE 754 arithmetic. The global sum that every value
is divided by was added up in another order and from other products than the
values themselves; each rounding on either way is off by at most the spacing of
the numbers there, and all of them together by a multiple of their count. -/

set_option autoImplicit false

namespace DistributedSoftmax
open Foundations.Rounding
open Worker Gateway

/-- Every sign, exponent and fraction is that of a pattern. -/
theorem Single.exists_pattern (negative : Bool) {exponent fraction : Nat} (high : exponent < 2 ^ 8)
    (low : fraction < 2 ^ 23) : ∃ x, Single.value x = binaryValue 8 23 negative exponent fraction := by
  let upper : BitVec 9 := BitVec.ofBool negative ++ BitVec.ofNat 8 exponent
  let bits : Single := upper ++ BitVec.ofNat 23 fraction
  have sign : bits.msb = negative := by
    change (upper ++ BitVec.ofNat 23 fraction).msb = negative
    rw [BitVec.msb_append, if_neg (by omega)]
    change (BitVec.ofBool negative ++ BitVec.ofNat 8 exponent).msb = negative
    rw [BitVec.msb_append, if_neg (by omega), BitVec.msb_ofBool]
  have exponentBits : (bits.extractLsb' 23 8).toNat = exponent := by
    rw [BitVec.extractLsb'_append_eq_of_le (by omega), BitVec.extractLsb'_append_eq_right,
      BitVec.toNat_ofNat, Nat.mod_eq_of_lt high]
  have fractionBits : (bits.extractLsb' 0 23).toNat = fraction := by
    rw [BitVec.extractLsb'_append_eq_right, BitVec.toNat_ofNat, Nat.mod_eq_of_lt low]
  exact ⟨bits, Single.value_of_fields sign exponentBits fractionBits⟩

theorem Double.binary : Binary Double.value 11 52 where
  fields x := ⟨_, _, _, (x.extractLsb' 52 11).isLt, (x.extractLsb' 0 52).isLt, rfl⟩
  pattern negative _ _ high low := Double.exists_pattern negative high low

theorem Single.binary : Binary Single.value 8 23 where
  fields x := ⟨_, _, _, (x.extractLsb' 23 8).isLt, (x.extractLsb' 0 23).isLt, rfl⟩
  pattern negative _ _ high low := Single.exists_pattern negative high low

/-- The real number that a finite `f64` stands for. -/
noncomputable def Double.real (x : Double) : ℝ := Rounded.real Double.value x

theorem Double.real_eq {x : Double} {a : ℝ} (stands : Double.value x = some (a : EReal)) :
    Double.real x = a :=
  Rounded.real_eq stands

theorem Double.within_iff {x : Double} {low high : ℝ} : Within Double.value low high x ↔
    Double.value x = some (Double.real x : EReal) ∧ low ≤ Double.real x ∧ Double.real x ≤ high := by
  constructor
  · rintro ⟨a, stands, low_le, le_high⟩
    rw [Double.real_eq stands]
    exact ⟨stands, low_le, le_high⟩
  · rintro ⟨stands, low_le, le_high⟩
    exact ⟨_, stands, low_le, le_high⟩

/-- The tolerance of an `f64`, for a number that may be subnormal. -/
theorem tolerance_le {v : ℝ} (positive : 0 ≤ v) : tolerance 11 52 v ≤ (v + 1 / 4) / 2 ^ 52 := by
  have small : smallestNormal 11 ≤ 1 / 4 := by
    have power : smallestNormal 11 ≤ 2 ^ (-2 : ℤ) := by
      rw [smallestNormal]
      exact zpow_le_zpow_right₀ one_le_two (by norm_num)
    norm_num at power
    linarith
  refine div_le_div_of_nonneg_right (max_le ?_ ?_) (by positivity) <;> linarith

theorem tolerance_of_one_le {v : ℝ} (large : 1 ≤ v) : tolerance 11 52 v = v / 2 ^ 52 := by
  have small : smallestNormal 11 ≤ 1 := by
    rw [smallestNormal]
    exact zpow_le_one_of_nonpos₀ one_le_two (by norm_num)
  rw [tolerance, max_eq_left (small.trans large)]

section arithmetic
variable {ops : FloatOps Double} (arith : Arithmetic Double.value ops)
include arith

/-- The sum of terms between 0 and a power of two, when it is not below one. -/
theorem Arithmetic.sum_near {j : Nat} (large : j < 971) (xs : List Double)
    (terms : ∀ x ∈ xs, Within Double.value 0 (2 ^ j) x) (short : xs.length < 2 ^ 52)
    (one_le : 1 ≤ Double.real (ops.sum xs)) :
    |Double.real (ops.sum xs) - (xs.map Double.real).sum| ≤
      xs.length * (Double.real (ops.sum xs) / 2 ^ 52) := by
  have positive : (0 : ℝ) ≤ steps 52 j 0 := by
    rw [steps]
    positivity
  have representable : ∀ k ≤ xs.length, ∃ b, Double.value b = some (steps 52 j k : EReal) :=
    fun k le => Double.representable_steps large (Nat.lt_of_le_of_lt le short)
  obtain ⟨total, stands, -, near⟩ := Double.binary.sum_near arith.add representable
    (steps_succ 52 j) (fun x member => Double.within_iff.mp (terms x member))
    arith.value_ofInt_zero le_rfl positive (Nat.zero_add _).le
  rw [FloatOps.sum, Double.real_eq stands] at one_le ⊢
  rwa [zero_add, tolerance_of_one_le one_le] at near

theorem Arithmetic.mul_near {x y : Double} {low high : ℝ} (within : Within Double.value low high x)
    (positive : 0 ≤ low) (fraction : Within Double.value 0 1 y) :
    0 ≤ Double.real (ops.mul x y) ∧ |Double.real (ops.mul x y) - Double.real x * Double.real y| ≤
      (Double.real (ops.mul x y) + 1 / 4) / 2 ^ 52 := by
  obtain ⟨standsX, low_le, -⟩ := Double.within_iff.mp within
  obtain ⟨standsY, zero_le_y, le_one⟩ := Double.within_iff.mp fraction
  have zero_le := positive.trans low_le
  obtain ⟨v, stands, zero_le_v, near⟩ := Double.binary.near (arith.mul x y _ _ standsX standsY)
    (mul_nonneg zero_le zero_le_y) standsX (mul_le_of_le_one_right zero_le le_one)
  rw [Double.real_eq stands]
  exact ⟨zero_le_v, near.trans (tolerance_le zero_le_v)⟩

theorem Arithmetic.div_near {x y : Double} (fraction : Within Double.value 0 1 x)
    (standsY : Double.value y = some (Double.real y : EReal)) (one_le : 1 ≤ Double.real y) :
    0 ≤ Double.real (ops.div x y) ∧ |Double.real (ops.div x y) - Double.real x / Double.real y| ≤
      (Double.real (ops.div x y) + 1 / 4) / 2 ^ 52 := by
  obtain ⟨standsX, zero_le, le_one⟩ := Double.within_iff.mp fraction
  have pos : 0 < Double.real y := zero_lt_one.trans_le one_le
  obtain ⟨v, stands, zero_le_v, near⟩ := Double.binary.near
    (arith.div x y _ _ standsX standsY pos.ne') (div_nonneg zero_le pos.le) Double.value_one
    ((div_le_one pos).mpr (le_one.trans one_le))
  rw [Double.real_eq stands]
  exact ⟨zero_le_v, near.trans (tolerance_le zero_le_v)⟩

end arithmetic

/-- One step of the way from the global sum to the sum of the values: a quantity
`y` near one, and `x` that differs by a part of either. -/
theorem near_one_step {ν x y m d : ℝ} (small : ν ≤ 1 / 2 ^ 22) (nonneg : 0 ≤ ν)
    (off : |x - y| ≤ ν * (m + 1 / 4)) (either : m = x ∨ m = y) (near : |y - 1| ≤ d * ν)
    (few : d ≤ 8) : |x - 1| ≤ (d + 3 / 2) * ν := by
  have le_y : y ≤ 9 / 8 := by
    have part : d * ν ≤ 8 * (1 / 2 ^ 22) := mul_le_mul few small nonneg (by norm_num)
    have upper := (abs_le.mp near).2
    norm_num at part
    linarith
  have le_m : m ≤ 5 / 4 := by
    rcases either with rfl | rfl
    · have upper := (abs_le.mp off).2
      by_contra large
      have part : ν * (m + 1 / 4) ≤ 1 / 2 ^ 22 * (m + 1 / 4) :=
        mul_le_mul_of_nonneg_right small (by linarith)
      norm_num at part
      linarith
    · linarith
  have step : ν * (m + 1 / 4) ≤ 3 / 2 * ν := by
    rw [mul_comm]
    exact mul_le_mul_of_nonneg_right (by linarith) nonneg
  calc |x - 1| = |(x - y) + (y - 1)| := by ring_nf
    _ ≤ |x - y| + |y - 1| := abs_add_le _ _
    _ ≤ 3 / 2 * ν + d * ν := add_le_add (off.trans step) near
    _ = (d + 3 / 2) * ν := by ring

theorem near_one_chain {ν x y m G d : ℝ} (small : ν ≤ 1 / 2 ^ 22) (nonneg : 0 ≤ ν)
    (one_le : 1 ≤ G) (off : |x - y| ≤ ν * (m + 1 / 4)) (either : m = x ∨ m = y)
    (near : |y / G - 1| ≤ d * ν) (few : d ≤ 8) : |x / G - 1| ≤ (d + 3 / 2) * ν := by
  have pos : 0 < G := zero_lt_one.trans_le one_le
  refine near_one_step (m := m / G) small nonneg ?_ ?_ near few
  · rw [← sub_div, abs_div, abs_of_pos pos, div_le_iff₀ pos]
    refine off.trans ?_
    rw [mul_assoc]
    refine mul_le_mul_of_nonneg_left ?_ nonneg
    rw [add_mul, div_mul_cancel₀ m pos.ne']
    linarith
  · rcases either with rfl | rfl
    · exact .inl rfl
    · exact .inr rfl

/-- Errors of one rounding each, added up. -/
theorem sum_of_near {α : Type} {xs : List α} {g h : α → ℝ} {n : Nat} (count : xs.length ≤ n)
    (positive : 1 ≤ n) (each : ∀ x ∈ xs, 0 ≤ g x ∧ |g x - h x| ≤ (g x + 1 / 4) / 2 ^ 52) :
    |(xs.map g).sum - (xs.map h).sum| ≤ n / 2 ^ 52 * ((xs.map g).sum + 1 / 4) := by
  have counted : (xs.length : ℝ) ≤ n := by exact_mod_cast count
  have one_le : (1 : ℝ) ≤ n := by exact_mod_cast positive
  have sum_nonneg : 0 ≤ (xs.map g).sum := by
    apply List.sum_nonneg
    intro a member
    obtain ⟨x, inside, rfl⟩ := List.mem_map.mp member
    exact (each x inside).1
  calc |(xs.map g).sum - (xs.map h).sum|
      ≤ (xs.map fun x => (g x + 1 / 4) / 2 ^ 52).sum := abs_sum_sub_le fun x member => (each x member).2
    _ = ((xs.map g).sum + xs.length * (1 / 4)) / 2 ^ 52 := by
        simp only [div_eq_mul_inv, List.sum_map_mul_right, List.sum_map_add, List.map_const',
          List.sum_replicate, nsmul_eq_mul]
    _ ≤ (n * (xs.map g).sum + n * (1 / 4)) / 2 ^ 52 := by
        refine div_le_div_of_nonneg_right (add_le_add ?_ ?_) (by positivity)
        · exact le_mul_of_one_le_left sum_nonneg one_le
        · exact mul_le_mul_of_nonneg_right counted (by norm_num)
    _ = n / 2 ^ 52 * ((xs.map g).sum + 1 / 4) := by ring

/-- A slice as a worker computes it: the partial sum is the rounded sum of the
very values that are stored. -/
structure Gateway.SliceStats.Consistent (fl : FloatOps Double) (stats : SliceStats Double) : Prop
    extends stats.Bounded where
  nonempty : stats.expValues ≠ []
  summed : stats.partialSum = fl.sum stats.expValues

section aggregation
variable {fl : FloatOps Double} (arith : Arithmetic Double.value fl) {stats : List (SliceStats Double)}

/-- All values with the slice they are from. -/
def entries (stats : List (SliceStats Double)) : List (SliceStats Double × Double) :=
  stats.flatMap fun s => s.expValues.map fun ev => (s, ev)

theorem mem_entries {x : SliceStats Double × Double} (member : x ∈ entries stats) :
    x.1 ∈ stats ∧ x.2 ∈ x.1.expValues := by
  obtain ⟨s, inside, among⟩ := List.mem_flatMap.mp member
  obtain ⟨ev, inValues, rfl⟩ := List.mem_map.mp among
  exact ⟨inside, inValues⟩

theorem length_entries :
    (entries stats).length = (stats.map fun s => s.expValues.length).sum := by
  rw [entries, List.length_flatMap]
  simp only [List.length_map]

theorem length_le_entries {s : SliceStats Double} (member : s ∈ stats) :
    s.expValues.length ≤ (entries stats).length := by
  rw [length_entries]
  exact List.le_sum_of_mem (List.mem_map_of_mem member)

theorem length_stats_le (nonempty : ∀ s ∈ stats, s.expValues ≠ []) :
    stats.length ≤ (entries stats).length := by
  have each : ∀ n ∈ stats.map fun s => s.expValues.length, 1 ≤ n := by
    intro n member
    obtain ⟨s, inside, rfl⟩ := List.mem_map.mp member
    exact List.length_pos_iff.mpr (nonempty s inside)
  rw [length_entries]
  simpa only [List.length_map] using List.length_le_sum_of_one_le _ each

theorem sum_entries (g : SliceStats Double × Double → ℝ) : ((entries stats).map g).sum =
    (stats.map fun s => (s.expValues.map fun ev => g (s, ev)).sum).sum := by
  rw [entries, List.map_flatMap, List.flatMap_def, List.sum_flatten, List.map_map]
  simp only [Function.comp_def, List.map_map]

variable (fl stats) in
def scaled (x : SliceStats Double × Double) : Double := fl.mul x.2 (adjustOf fl stats x.1)

theorem aggregateSoftmaxCpu_entries : aggregateSoftmaxCpu fl stats =
    (entries stats).map fun x => fl.div (scaled fl stats x) (globalSumOf fl stats) := by
  rw [aggregateSoftmaxCpu_eq, entries, List.map_flatMap]
  simp only [List.map_map]
  rfl

variable (consistent : ∀ s ∈ stats, s.Consistent fl)
include arith consistent

/-- The stored sums, weighted, against the weighted sums of the stored values. -/
theorem Arithmetic.partialSums_near {n : Nat} (short : n < 2 ^ 52)
    (counts : ∀ s ∈ stats, s.expValues.length ≤ n) (nonempty : stats ≠ []) :
    |(stats.map fun s => Double.real s.partialSum * Double.real (adjustOf fl stats s)).sum -
        ((entries stats).map fun x => Double.real x.2 * Double.real (adjustOf fl stats x.1)).sum| ≤
      n / 2 ^ 52 * (stats.map fun s => Double.real s.partialSum * Double.real (adjustOf fl stats s)).sum := by
  rw [sum_entries, ← List.sum_map_mul_left]
  simp only [List.sum_map_mul_right]
  refine abs_sum_sub_le fun s member => ?_
  have slice := consistent s member
  obtain ⟨standsA, zero_le, le_one⟩ := Double.within_iff.mp
    ((arith.adjustOf_within (fun s member => (consistent s member).toBounded) nonempty).1 s member)
  obtain ⟨-, one_le, -⟩ := Double.within_iff.mp slice.partialSum
  have near := arith.sum_near (j := 0) (by omega) s.expValues (by
    rw [pow_zero]
    exact slice.expValues) (Nat.lt_of_le_of_lt (counts s member) short)
  rw [← slice.summed] at near
  have counted : (s.expValues.length : ℝ) ≤ n := by exact_mod_cast counts s member
  rw [← sub_mul, abs_mul, abs_of_nonneg zero_le, ← mul_assoc]
  refine mul_le_mul_of_nonneg_right ((near one_le).trans ?_) zero_le
  rw [div_mul_eq_mul_div, mul_div_assoc]
  exact mul_le_mul_of_nonneg_right counted (div_nonneg (zero_le_one.trans one_le) (by positivity))

theorem Arithmetic.globalSumOf_near (nonempty : stats ≠ []) (short : stats.length < 2 ^ 52) :
    Double.value (globalSumOf fl stats) = some (Double.real (globalSumOf fl stats) : EReal) ∧
      1 ≤ Double.real (globalSumOf fl stats) ∧
      |Double.real (globalSumOf fl stats) -
          (stats.map fun s => Double.real (fl.mul s.partialSum (adjustOf fl stats s))).sum| ≤
        stats.length * (Double.real (globalSumOf fl stats) / 2 ^ 52) := by
  have bounded : ∀ s ∈ stats, s.Bounded := fun s member => (consistent s member).toBounded
  obtain ⟨total, stands, one_le⟩ := arith.globalSumOf_within bounded nonempty short
  obtain rfl := Double.real_eq stands
  refine ⟨stands, one_le, ?_⟩
  have terms : ∀ x ∈ stats.map fun s => fl.mul s.partialSum (adjustOf fl stats s),
      Within Double.value 0 (2 ^ 53) x := by
    intro x member
    obtain ⟨s, inside, rfl⟩ := List.mem_map.mp member
    obtain ⟨a, standsA, one_le, le⟩ := (bounded s inside).partialSum
    exact (arith.mul_within standsA (zero_le_one.trans one_le)
      ((arith.adjustOf_within bounded nonempty).1 s inside)).mono le_rfl le
  have near := arith.sum_near (j := 53) (by omega) _ terms (by rwa [List.length_map]) one_le
  rwa [List.length_map, List.map_map] at near

/-- The aggregated values add up to one, but for eight roundings each. -/
theorem Arithmetic.aggregateSoftmaxCpu_sum (nonempty : stats ≠ [])
    (short : (entries stats).length < 2 ^ 30) :
    |((aggregateSoftmaxCpu fl stats).map Double.real).sum - 1| ≤
      8 * ((entries stats).length / 2 ^ 52) := by
  have bounded : ∀ s ∈ stats, s.Bounded := fun s member => (consistent s member).toBounded
  have adjusts := (arith.adjustOf_within bounded nonempty).1
  have slices : stats.length ≤ (entries stats).length :=
    length_stats_le fun s member => (consistent s member).nonempty
  have some_entry : 1 ≤ (entries stats).length := (List.length_pos_iff.mpr nonempty).trans_le slices
  have fractions : ∀ x ∈ entries stats, Within Double.value 0 1 (scaled fl stats x) := by
    intro x member
    obtain ⟨inside, among⟩ := mem_entries member
    obtain ⟨e, standsE, zero_le, le_one⟩ := (bounded x.1 inside).expValues x.2 among
    exact (arith.mul_within standsE zero_le (adjusts x.1 inside)).mono le_rfl le_one
  generalize same : (entries stats).length = n at short slices some_entry ⊢
  have small : (n : ℝ) / 2 ^ 52 ≤ 1 / 2 ^ 22 := by
    have count : (n : ℝ) ≤ 2 ^ 30 := by exact_mod_cast short.le
    rw [div_le_div_iff₀ (by positivity) (by positivity)]
    linarith
  have nonneg : (0 : ℝ) ≤ n / 2 ^ 52 := by positivity
  obtain ⟨standsG, one_le, global⟩ := arith.globalSumOf_near consistent nonempty (by omega)
  have products := sum_of_near slices some_entry fun s member =>
    arith.mul_near (bounded s member).partialSum zero_le_one (adjusts s member)
  have partials := arith.partialSums_near consistent (n := n) (by omega)
    (fun s member => same ▸ length_le_entries member) nonempty
  have scales := sum_of_near same.le some_entry fun x member =>
    arith.mul_near ((bounded _ (mem_entries member).1).expValues _ (mem_entries member).2) le_rfl
      (adjusts _ (mem_entries member).1)
  have values := sum_of_near same.le some_entry fun x member =>
    arith.div_near (fractions x member) standsG one_le
  simp only [div_eq_mul_inv _ (Double.real (globalSumOf fl stats)), List.sum_map_mul_right] at values
  rw [← div_eq_mul_inv] at values
  -- From the global sum by way of the exact products to the values.
  have pos : 0 < Double.real (globalSumOf fl stats) := zero_lt_one.trans_le one_le
  have start : |Double.real (globalSumOf fl stats) / Double.real (globalSumOf fl stats) - 1| ≤
      0 * (n / 2 ^ 52) := by
    rw [div_self pos.ne', sub_self, abs_zero, zero_mul]
  have slack : ∀ m : ℝ, n / 2 ^ 52 * m ≤ n / 2 ^ 52 * (m + 1 / 4) := fun m =>
    mul_le_mul_of_nonneg_left (by linarith) nonneg
  have spread : stats.length * (Double.real (globalSumOf fl stats) / 2 ^ 52) ≤
      n / 2 ^ 52 * Double.real (globalSumOf fl stats) := by
    have count : (stats.length : ℝ) ≤ n := by exact_mod_cast slices
    rw [div_mul_eq_mul_div, mul_div_assoc]
    exact mul_le_mul_of_nonneg_right count (div_nonneg pos.le (by positivity))
  have first := near_one_chain small nonneg one_le
    ((abs_sub_comm _ _).trans_le (global.trans (spread.trans (slack _)))) (.inr rfl) start
    (by norm_num)
  have second := near_one_chain small nonneg one_le ((abs_sub_comm _ _).trans_le products) (.inr rfl)
    first (by norm_num)
  have third := near_one_chain small nonneg one_le ((abs_sub_comm _ _).trans_le (partials.trans (slack _)))
    (.inr rfl) second (by norm_num)
  have fourth := near_one_chain small nonneg one_le scales (.inl rfl) third (by norm_num)
  have last := near_one_step small nonneg values (.inl rfl) fourth (by norm_num)
  rw [aggregateSoftmaxCpu_entries, List.map_map]
  refine last.trans ?_
  exact mul_le_mul_of_nonneg_right (by norm_num) nonneg

end aggregation
end DistributedSoftmax
