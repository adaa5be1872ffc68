import Mathlib.Algebra.BigOperators.Group.List.Basic
import Mathlib.Tactic.Linarith
import DistributedSoftmax.Foundations.Rounding

/-! How far apart the numbers of a binary format are, and so how far a rounded
result is from the exact one, whatever the rounding direction. The numbers from
zero upwards are counted by the exponent and fraction bits, read as one number;
each lies one gap below the next. -/

set_option autoImplicit false

namespace Foundations.Rounding

section counting
variable {e f : Nat}

/-- Number `n` of a format with `f` fraction bits, in units of the smallest one
above zero. -/
def magnitude (f n : Nat) : Nat :=
  ((if n / 2 ^ f = 0 then 0 else 2 ^ f) + n % 2 ^ f) * 2 ^ (n / 2 ^ f - 1)

/-- What number `n` is below the next, in the same units. -/
def gap (f n : Nat) : Nat := 2 ^ (n / 2 ^ f - 1)

theorem div_mod_of_fields (exponent : Nat) {fraction : Nat} (low : fraction < 2 ^ f) :
    (2 ^ f * exponent + fraction) / 2 ^ f = exponent ∧
      (2 ^ f * exponent + fraction) % 2 ^ f = fraction :=
  ⟨by rw [Nat.mul_add_div (Nat.two_pow_pos f), Nat.div_eq_of_lt low, Nat.add_zero],
    by rw [Nat.mul_add_mod, Nat.mod_eq_of_lt low]⟩

theorem magnitude_zero : magnitude f 0 = 0 := by simp [magnitude]

theorem magnitude_succ (f n : Nat) : magnitude f (n + 1) = magnitude f n + gap f n := by
  have positive := Nat.two_pow_pos f
  have fields : n = 2 ^ f * (n / 2 ^ f) + n % 2 ^ f := (Nat.div_add_mod n (2 ^ f)).symm
  have low : n % 2 ^ f < 2 ^ f := Nat.mod_lt n positive
  generalize n / 2 ^ f = exponent at fields
  generalize n % 2 ^ f = fraction at fields low
  subst fields
  obtain ⟨div, mod⟩ := div_mod_of_fields exponent low
  rcases Nat.lt_or_ge (fraction + 1) (2 ^ f) with inside | last
  · obtain ⟨nextDiv, nextMod⟩ := div_mod_of_fields exponent inside
    rw [Nat.add_assoc, magnitude, magnitude, gap, nextDiv, nextMod, div, mod, ← Nat.add_assoc,
      Nat.succ_mul]
  · -- The last fraction: the next number is the next power of two.
    have carry : 2 ^ f * exponent + fraction + 1 = 2 ^ f * (exponent + 1) + 0 := by
      rw [Nat.mul_succ]
      omega
    obtain ⟨nextDiv, nextMod⟩ := div_mod_of_fields (exponent + 1) positive
    have whole : fraction + 1 = 2 ^ f := by omega
    rw [carry, magnitude, magnitude, gap, nextDiv, nextMod, div, mod, if_neg (by omega),
      Nat.add_zero, Nat.add_sub_cancel, ← Nat.succ_mul, Nat.succ_eq_add_one, Nat.add_assoc, whole]
    cases exponent with
    | zero => simp
    | succ exponent =>
      rw [if_neg (by omega), Nat.add_sub_cancel, Nat.pow_succ]
      ring

theorem gap_pos (f n : Nat) : 0 < gap f n := Nat.two_pow_pos _

theorem gap_mono {n k : Nat} (le : n ≤ k) : gap f n ≤ gap f k :=
  Nat.pow_le_pow_right (by omega) (Nat.sub_le_sub_right (Nat.div_le_div_right le) 1)

theorem magnitude_lt {n k : Nat} : magnitude f n < magnitude f k ↔ n < k :=
  (strictMono_nat_of_lt_succ fun n => by
    rw [magnitude_succ]
    exact Nat.lt_add_of_pos_right (gap_pos f n)).lt_iff_lt

/-- Gaps are small against the numbers from the first power of two on, and equal
below it. -/
theorem gap_le (f n : Nat) : gap f n * 2 ^ f ≤ max (magnitude f n) (2 ^ f) := by
  rw [gap, magnitude]
  split
  · rename_i subnormal
    rw [subnormal]
    simp
  · refine le_max_of_le_left ?_
    rw [Nat.mul_comm]
    exact Nat.mul_le_mul_right _ (Nat.le_add_right _ _)

theorem smallest_pos : 0 < smallest e f := zpow_pos two_pos _

noncomputable def number (e f n : Nat) : ℝ := magnitude f n * smallest e f

theorem number_nonneg (n : Nat) : 0 ≤ number e f n :=
  mul_nonneg (Nat.cast_nonneg _) smallest_pos.le

theorem number_zero : number e f 0 = 0 := by
  rw [number, magnitude_zero, Nat.cast_zero, zero_mul]

theorem number_succ (n : Nat) : number e f (n + 1) = number e f n + gap f n * smallest e f := by
  rw [number, number, magnitude_succ, Nat.cast_add, add_mul]

theorem number_le {n k : Nat} : number e f n ≤ number e f k ↔ n ≤ k := by
  rw [number, number, mul_le_mul_iff_left₀ smallest_pos, Nat.cast_le, ← Nat.not_lt, magnitude_lt,
    Nat.not_lt]

theorem binaryValue_fields {negative : Bool} {exponent fraction : Nat}
    (usual : exponent ≠ 2 ^ e - 1) (low : fraction < 2 ^ f) :
    binaryValue e f negative exponent fraction = some ((if negative then
      -number e f (2 ^ f * exponent + fraction) else number e f (2 ^ f * exponent + fraction) : ℝ) :
        EReal) := by
  obtain ⟨div, mod⟩ := div_mod_of_fields exponent low
  rw [binaryValue, if_neg usual, number, magnitude, div, mod, smallest]
  refine congrArg (fun z : ℝ => some ((if negative then -z else z : ℝ) : EReal)) ?_
  cases exponent with
  | zero => simp
  | succ exponent =>
    have power : ((exponent + 1 : ℕ) + 1 - 2 ^ (e - 1) - f : ℤ) =
        (exponent : ℤ) + (2 - 2 ^ (e - 1) - f) := by
      push_cast
      ring
    rw [if_neg (by omega), if_neg (by omega), power, zpow_add₀ two_ne_zero, zpow_natCast,
      Nat.add_sub_cancel]
    push_cast
    ring

end counting

/-- The patterns are those of a binary interchange format with `e` exponent and
`f` fraction bits. -/
structure Binary {F : Type} (value : F → Option EReal) (e f : Nat) : Prop where
  fields : ∀ x, ∃ negative exponent fraction, exponent < 2 ^ e ∧ fraction < 2 ^ f ∧
    value x = binaryValue e f negative exponent fraction
  pattern : ∀ negative exponent fraction, exponent < 2 ^ e → fraction < 2 ^ f →
    ∃ x, value x = binaryValue e f negative exponent fraction

theorem tolerance_mono {e f : Nat} {v w : ℝ} (le : v ≤ w) : tolerance e f v ≤ tolerance e f w :=
  div_le_div_of_nonneg_right (max_le_max_right _ le) (by positivity)

section binary
variable {F : Type} {value : F → Option EReal} {e f : Nat}

theorem smallest_eq : smallest e f * 2 ^ f = smallestNormal e := by
  rw [smallest, smallestNormal, ← zpow_natCast, ← zpow_add₀ two_ne_zero, sub_add_cancel]

theorem gap_le_tolerance (n : Nat) :
    gap f n * smallest e f ≤ tolerance e f (number e f n) := by
  have units : (gap f n * 2 ^ f : ℝ) ≤ max (magnitude f n : ℝ) (2 ^ f) := by
    exact_mod_cast gap_le f n
  rw [number, tolerance, le_div_iff₀ (by positivity), ← smallest_eq (f := f), mul_comm (smallest e f),
    ← max_mul_of_nonneg _ _ smallest_pos.le, mul_right_comm]
  exact mul_le_mul_of_nonneg_right units smallest_pos.le

namespace Binary
variable (format : Binary value e f)
include format

/-- Each index below that of infinity is that of a number. -/
theorem exists_number {n : Nat} (below : n < 2 ^ f * (2 ^ e - 1)) :
    ∃ x, value x = some (number e f n : EReal) := by
  have exponent_lt : n / 2 ^ f < 2 ^ e - 1 := Nat.div_lt_of_lt_mul below
  have low : n % 2 ^ f < 2 ^ f := Nat.mod_lt n (Nat.two_pow_pos f)
  obtain ⟨x, stands⟩ := format.pattern false (n / 2 ^ f) (n % 2 ^ f)
    (Nat.lt_of_lt_of_le exponent_lt (Nat.sub_le _ 1)) low
  refine ⟨x, stands.trans ?_⟩
  rw [binaryValue_fields (Nat.ne_of_lt exponent_lt) low, Nat.div_add_mod]
  rfl

/-- Every number from zero upwards has an index. -/
theorem index_of {x : F} {v : ℝ} (stands : value x = some (v : EReal)) (positive : 0 ≤ v) :
    ∃ n, n < 2 ^ f * (2 ^ e - 1) ∧ v = number e f n := by
  obtain ⟨negative, exponent, fraction, high, low, same⟩ := format.fields x
  have usual : exponent ≠ 2 ^ e - 1 := by
    rw [← binaryValue_isReal e f negative exponent fraction]
    exact ⟨v, same.symm.trans stands⟩
  have bound : 2 ^ f * exponent + fraction < 2 ^ f * (2 ^ e - 1) := by
    calc 2 ^ f * exponent + fraction < 2 ^ f * (exponent + 1) := by rw [Nat.mul_succ]; omega
      _ ≤ 2 ^ f * (2 ^ e - 1) := Nat.mul_le_mul_left _ (by omega)
  rw [stands, binaryValue_fields usual low] at same
  have equal := EReal.coe_injective (Option.some.inj same)
  cases negative with
  | false => exact ⟨_, bound, equal⟩
  | true =>
    -- Only a negative zero is not below zero.
    have le_zero : v ≤ 0 := by
      rw [equal, if_pos rfl, neg_nonpos]
      exact number_nonneg _
    exact ⟨0, Nat.zero_lt_of_lt bound, number_zero.symm ▸ le_zero.antisymm positive⟩

/-- A result that is rounded within the range of the format is off by no more
than the gap to the next number. -/
theorem near {z w : ℝ} {r b : F} (rounds : Rounds value z r) (positive : 0 ≤ z)
    (above : value b = some (w : EReal)) (le : z ≤ w) :
    ∃ v : ℝ, value r = some (v : EReal) ∧ 0 ≤ v ∧ |v - z| ≤ tolerance e f v := by
  obtain ⟨k, inRange, rfl⟩ := format.index_of above (positive.trans le)
  obtain ⟨x, standsZero⟩ := format.exists_number (Nat.zero_lt_of_lt inRange)
  rw [number_zero] at standsZero
  obtain ⟨v, stands, zero_le, v_le⟩ := rounds.within standsZero above positive le
  refine ⟨v, stands, zero_le, ?_⟩
  obtain ⟨n, below, rfl⟩ := format.index_of stands zero_le
  refine le_trans ?_ (gap_le_tolerance n)
  obtain ⟨_, same, bounds⟩ := rounds
  cases stands.symm.trans same
  rw [abs_le]
  constructor
  · -- The next number is no lower bound.
    by_contra far
    have beyond : number e f (n + 1) ≤ z := by
      rw [number_succ]
      linarith
    obtain ⟨y, standsNext⟩ := format.exists_number
      (Nat.lt_of_le_of_lt (number_le.mp (beyond.trans le)) inRange)
    have le_n := (bounds y _ standsNext).1 (EReal.coe_le_coe beyond)
    have impossible := number_le.mp (EReal.coe_le_coe_iff.mp le_n)
    omega
  · -- The number before is no upper bound.
    cases n with
    | zero =>
      rw [number_zero, zero_sub]
      exact (neg_nonpos.mpr positive).trans (mul_nonneg (Nat.cast_nonneg _) smallest_pos.le)
    | succ n =>
      by_contra far
      have growing : (gap f n * smallest e f : ℝ) ≤ gap f (n + 1) * smallest e f := by
        exact mul_le_mul_of_nonneg_right (by exact_mod_cast gap_mono (Nat.le_succ n)) smallest_pos.le
      have short : z ≤ number e f n := by
        rw [number_succ] at far
        linarith
      obtain ⟨y, standsBefore⟩ := format.exists_number ((Nat.lt_succ_self n).trans below)
      have n_le := (bounds y _ standsBefore).2 (EReal.coe_le_coe short)
      have impossible := number_le.mp (EReal.coe_le_coe_iff.mp n_le)
      omega

/-- A running sum of terms between 0 and `unit` is off by at most the final
tolerance for each term: it never decreases, and so neither do the gaps. -/
theorem sum_near {add : F → F → F}
    (rounds : ∀ x y (a b : ℝ), value x = some (a : EReal) → value y = some (b : EReal) →
      Rounds value (a + b) (add x y))
    {bound : Nat → ℝ} {unit : ℝ} {n : Nat}
    (representable : ∀ k ≤ n, ∃ b, value b = some (bound k : EReal))
    (grows : ∀ k, bound (k + 1) = bound k + unit) {real : F → ℝ} {xs : List F}
    (terms : ∀ x ∈ xs, value x = some (real x : EReal) ∧ 0 ≤ real x ∧ real x ≤ unit)
    {start : F} {s : ℝ} (stands : value start = some (s : EReal)) (positive : 0 ≤ s) {k : Nat}
    (le_bound : s ≤ bound k) (enough : k + xs.length ≤ n) :
    ∃ total : ℝ, value (xs.foldl add start) = some (total : EReal) ∧ s ≤ total ∧
      |total - (s + (xs.map real).sum)| ≤ xs.length * tolerance e f total := by
  induction xs generalizing start s k with
  | nil => exact ⟨s, stands, le_rfl, by simp⟩
  | cons x rest ih =>
    rw [List.length_cons] at enough
    obtain ⟨standsX, zero_le, le_unit⟩ := terms x List.mem_cons_self
    obtain ⟨b, above⟩ := representable (k + 1) (by omega)
    have le_next : s + real x ≤ bound (k + 1) := by
      rw [grows]
      exact add_le_add le_bound le_unit
    have rounded := rounds start x s (real x) stands standsX
    obtain ⟨next, standsNext, -, off⟩ :=
      format.near rounded (add_nonneg positive zero_le) above le_next
    obtain ⟨_, same, s_le, next_le⟩ :=
      rounded.within stands above (le_add_of_nonneg_right zero_le) le_next
    cases standsNext.symm.trans same
    obtain ⟨total, standsTotal, next_le_total, offRest⟩ :=
      ih (fun y member => terms y (List.mem_cons_of_mem x member)) standsNext
        (positive.trans s_le) next_le (by omega)
    refine ⟨total, standsTotal, s_le.trans next_le_total, ?_⟩
    have step : |next - (s + real x)| ≤ tolerance e f total :=
      off.trans (tolerance_mono next_le_total)
    have parts : total - (s + ((x :: rest).map real).sum) =
        (total - (next + (rest.map real).sum)) + (next - (s + real x)) := by
      rw [List.map_cons, List.sum_cons]
      ring
    calc |total - (s + ((x :: rest).map real).sum)|
        ≤ |total - (next + (rest.map real).sum)| + |next - (s + real x)| := by
          rw [parts]
          exact abs_add_le _ _
      _ ≤ rest.length * tolerance e f total + tolerance e f total := add_le_add offRest step
      _ = (x :: rest).length * tolerance e f total := by
          rw [List.length_cons, Nat.cast_succ]
          ring

end Binary
end binary

/-- Sums of terms that are close are close. -/
theorem abs_sum_sub_le {α : Type} {g h off : α → ℝ} {xs : List α}
    (each : ∀ x ∈ xs, |g x - h x| ≤ off x) :
    |(xs.map g).sum - (xs.map h).sum| ≤ (xs.map off).sum := by
  induction xs with
  | nil => simp
  | cons x rest ih =>
    simp only [List.map_cons, List.sum_cons]
    rw [add_sub_add_comm]
    exact (abs_add_le _ _).trans (add_le_add (each x List.mem_cons_self)
      (ih fun y member => each y (List.mem_cons_of_mem x member)))

end Foundations.Rounding
