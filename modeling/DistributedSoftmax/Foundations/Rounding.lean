import Mathlib.Data.EReal.Basic
import Mathlib.Data.Set.Finite.Range
import Mathlib.Order.Preorder.Finite
import Mathlib.Tactic.Ring

/-! Rounding to a floating-point format. A format is given by the extended real
number that each of its patterns stands for; a NaN stands for none. A result is
rounded faithfully when no number of the format lies between it and the exact
result, whatever the rounding direction. -/

set_option autoImplicit false

namespace Foundations.Rounding

variable {F : Type} (value : F → Option EReal)

/-- `r` is the exact result `z`, rounded up, down or to the nearest number. -/
def Rounds (z : ℝ) (r : F) : Prop :=
  ∃ v, value r = some v ∧ ∀ b w, value b = some w →
    (w ≤ (z : EReal) → w ≤ v) ∧ ((z : EReal) ≤ w → v ≤ w)

/-- `x` stands for a real number between the bounds. -/
def Within (low high : ℝ) (x : F) : Prop :=
  ∃ v : ℝ, value x = some (v : EReal) ∧ low ≤ v ∧ v ≤ high

variable {value}

theorem Within.mono {low high low' high' : ℝ} {x : F} (within : Within value low high x)
    (lower : low' ≤ low) (higher : high ≤ high') : Within value low' high' x := by
  obtain ⟨v, stands, low_le, le_high⟩ := within
  exact ⟨v, stands, lower.trans low_le, le_high.trans higher⟩

section rounds
variable {z low high : ℝ} {r a b : F}

/-- A number of the format is its own rounding. -/
theorem Rounds.exact (rounds : Rounds value z r) (representable : value a = some (z : EReal)) :
    value r = some (z : EReal) := by
  obtain ⟨v, stands, bounds⟩ := rounds
  have bound := bounds a z representable
  rw [stands, (bound.2 le_rfl).antisymm (bound.1 le_rfl)]

theorem Rounds.upper (rounds : Rounds value z r) (representable : value b = some (high : EReal))
    (le_high : z ≤ high) : ∃ v, value r = some v ∧ v ≤ (high : EReal) := by
  obtain ⟨v, stands, bounds⟩ := rounds
  exact ⟨v, stands, (bounds b high representable).2 (EReal.coe_le_coe le_high)⟩

/-- Between two numbers of the format the result is a number between them. -/
theorem Rounds.within (rounds : Rounds value z r) (below : value a = some (low : EReal))
    (above : value b = some (high : EReal)) (low_le : low ≤ z) (le_high : z ≤ high) :
    Within value low high r := by
  obtain ⟨v, stands, bounds⟩ := rounds
  have lower := (bounds a low below).1 (EReal.coe_le_coe low_le)
  have upper := (bounds b high above).2 (EReal.coe_le_coe le_high)
  induction v with
  | bot => exact absurd (le_bot_iff.mp lower) (EReal.coe_ne_bot low)
  | top => exact absurd (top_le_iff.mp upper) (EReal.coe_ne_top high)
  | coe v => exact ⟨v, stands, EReal.coe_le_coe_iff.mp lower, EReal.coe_le_coe_iff.mp upper⟩

end rounds

/-- Rounding down is possible in every finite format with a negative infinity. -/
theorem exists_rounds [Finite F] {bottom : F} (negInf : value bottom = some ⊥) (z : ℝ) :
    ∃ r, Rounds value z r := by
  have some_below : {v : EReal | v ≤ z ∧ ∃ r, value r = some v}.Nonempty :=
    ⟨⊥, bot_le, bottom, negInf⟩
  have finite : {v : EReal | v ≤ z ∧ ∃ r, value r = some v}.Finite := by
    refine ((Set.finite_range value).preimage
      (Function.Injective.injOn (Option.some_injective EReal))).subset ?_
    rintro v ⟨-, r, stands⟩
    exact ⟨r, stands⟩
  obtain ⟨v, ⟨v_le, r, stands⟩, greatest⟩ := finite.exists_maximal some_below
  refine ⟨r, v, stands, fun b w representable => ⟨fun w_le => ?_, fun le_w => v_le.trans le_w⟩⟩
  rcases le_total v w with le | le
  · exact greatest ⟨w_le, b, representable⟩ le
  · exact le

section sums
variable {add : F → F → F}
  (rounds : ∀ x y (a b : ℝ), value x = some (a : EReal) → value y = some (b : EReal) →
    Rounds value (a + b) (add x y))
include rounds

/-- A running sum of terms between 0 and `unit` never decreases, is at least
each term, and stays below any sequence of numbers with that increment. -/
theorem sum_within {bound : Nat → ℝ} {unit : ℝ} {n : Nat}
    (representable : ∀ k ≤ n, ∃ b, value b = some (bound k : EReal))
    (grows : ∀ k, bound (k + 1) = bound k + unit) {xs : List F}
    (terms : ∀ x ∈ xs, Within value 0 unit x) {start : F} {s : ℝ}
    (stands : value start = some (s : EReal)) (positive : 0 ≤ s) {k : Nat} (le_bound : s ≤ bound k)
    (enough : k + xs.length ≤ n) :
    ∃ total : ℝ, value (xs.foldl add start) = some (total : EReal) ∧ s ≤ total ∧
      (∀ x ∈ xs, ∀ a : ℝ, value x = some (a : EReal) → a ≤ total) ∧
        total ≤ bound (k + xs.length) := by
  induction xs generalizing start s k with
  | nil => exact ⟨s, stands, le_rfl, fun _ member => absurd member List.not_mem_nil, le_bound⟩
  | cons x rest ih =>
    rw [List.length_cons] at enough ⊢
    obtain ⟨a, standsX, zero_le, le_unit⟩ := terms x List.mem_cons_self
    obtain ⟨b, above⟩ := representable (k + 1) (by omega)
    have le_next : s + a ≤ bound (k + 1) := by
      rw [grows]
      exact add_le_add le_bound le_unit
    have rounded := rounds start x s a stands standsX
    obtain ⟨next, standsNext, s_le, next_le⟩ :=
      rounded.within stands above (le_add_of_nonneg_right zero_le) le_next
    obtain ⟨next', standsNext', a_le, -⟩ :=
      rounded.within standsX above (le_add_of_nonneg_left positive) le_next
    -- Both bounds are about the same sum, seen from either operand.
    have same : next' = next :=
      EReal.coe_injective (Option.some.inj (standsNext'.symm.trans standsNext))
    rw [same] at a_le
    obtain ⟨total, standsTotal, next_le_total, all, le_total⟩ :=
      ih (fun y member => terms y (List.mem_cons_of_mem x member)) standsNext
        (positive.trans s_le) next_le (by omega)
    refine ⟨total, standsTotal, s_le.trans next_le_total, ?_, ?_⟩
    · intro y member b' standsY
      rcases List.mem_cons.mp member with rfl | later
      · rw [standsX] at standsY
        rw [← EReal.coe_injective (Option.some.inj standsY)]
        exact a_le.trans next_le_total
      · exact all y later b' standsY
    · rwa [Nat.add_right_comm, Nat.add_assoc] at le_total

end sums

/-- The maximum fold over a list that has its greatest element. -/
theorem foldl_max_eq {α : Type} [LinearOrder α] {m start : α} {xs : List α} (starts : start ≤ m)
    (above : ∀ x ∈ xs, x ≤ m) (among : start = m ∨ m ∈ xs) : xs.foldl max start = m := by
  induction xs generalizing start with
  | nil =>
    rcases among with same | none
    · exact same
    · cases none
  | cons x rest ih =>
    have le_m : x ≤ m := above x List.mem_cons_self
    apply ih (max_le starts le_m) fun y member => above y (List.mem_cons_of_mem x member)
    rcases among with rfl | member
    · exact .inl (max_eq_left le_m)
    · rcases List.mem_cons.mp member with rfl | later
      · exact .inl (max_eq_right starts)
      · exact .inr later

section maxima
variable {larger : F → F → F}
  (exact : ∀ x y (a b : EReal), value x = some a → value y = some b →
    value (larger x y) = some (max a b))
include exact

/-- The maximum fold over real numbers is one of them, or its start value, and
none of them is larger. -/
theorem max_within {xs : List F} (numbers : ∀ x ∈ xs, ∃ a : ℝ, value x = some (a : EReal))
    {start : F} {s : EReal} (stands : value start = some s) :
    ∃ m, value (xs.foldl larger start) = some m ∧ s ≤ m ∧
      (∀ x ∈ xs, ∀ a, value x = some a → a ≤ m) ∧ (m = s ∨ ∃ x ∈ xs, value x = some m) := by
  induction xs generalizing start s with
  | nil => exact ⟨s, stands, le_rfl, fun _ member => absurd member List.not_mem_nil, .inl rfl⟩
  | cons x rest ih =>
    obtain ⟨a, standsX⟩ := numbers x List.mem_cons_self
    obtain ⟨m, standsM, le_m, all, among⟩ :=
      ih (fun y member => numbers y (List.mem_cons_of_mem x member)) (exact start x s a stands standsX)
    refine ⟨m, standsM, (le_max_left s a).trans le_m, ?_, ?_⟩
    · intro y member b standsY
      rcases List.mem_cons.mp member with rfl | later
      · cases standsX.symm.trans standsY
        exact (le_max_right s a).trans le_m
      · exact all y later b standsY
    · rcases among with rfl | ⟨y, later, standsY⟩
      · rcases max_choice s (a : EReal) with left | right
        · exact .inl left
        · exact .inr ⟨x, List.mem_cons_self, by rw [standsX, right]⟩
      · exact .inr ⟨y, List.mem_cons_of_mem x later, standsY⟩

end maxima

/-! The binary interchange formats. -/

/-- The number of a pattern with `e` exponent bits and `f` fraction bits. -/
noncomputable def binaryValue (e f : Nat) (negative : Bool) (exponent fraction : Nat) :
    Option EReal :=
  if exponent = 2 ^ e - 1 then
    if fraction = 0 then some (if negative then ⊥ else ⊤) else none
  else
    let magnitude : ℝ :=
      if exponent = 0 then fraction * (2 : ℝ) ^ (2 - 2 ^ (e - 1) - f : ℤ)
      else (2 ^ f + fraction) * (2 : ℝ) ^ (exponent + 1 - 2 ^ (e - 1) - f : ℤ)
    some ((if negative then -magnitude else magnitude : ℝ) : EReal)

/-- A pattern stands for a real number unless its exponent bits are all ones. -/
theorem binaryValue_isReal (e f : Nat) (negative : Bool) (exponent fraction : Nat) :
    (∃ r : ℝ, binaryValue e f negative exponent fraction = some (r : EReal)) ↔
      exponent ≠ 2 ^ e - 1 := by
  unfold binaryValue
  split
  · rename_i special
    refine ⟨?_, fun other => absurd special other⟩
    rintro ⟨r, same⟩
    split at same
    · split at same
      · exact absurd (Option.some.inj same).symm (EReal.coe_ne_bot r)
      · exact absurd (Option.some.inj same).symm (EReal.coe_ne_top r)
    · cases same
  · rename_i usual
    exact ⟨fun _ => usual, fun _ => ⟨_, rfl⟩⟩

/-- Number `k` of those with `f` fraction bits and the exponent `j`, from the
power of two upwards. -/
noncomputable def steps (f j k : Nat) : ℝ := (2 ^ f + k) * 2 ^ j

theorem steps_succ (f j k : Nat) : steps f j (k + 1) = steps f j k + 2 ^ j := by
  rw [steps, steps]
  push_cast
  ring

/-- The smallest number above zero. -/
noncomputable def smallest (e f : Nat) : ℝ := 2 ^ (2 - 2 ^ (e - 1) - f : ℤ)

/-- The smallest number with a full fraction. -/
noncomputable def smallestNormal (e : Nat) : ℝ := 2 ^ (2 - 2 ^ (e - 1) : ℤ)

/-- How far a result may be from the exact one: a part of its own size, and of
the smallest normal number below that. -/
noncomputable def tolerance (e f : Nat) (v : ℝ) : ℝ := max v (smallestNormal e) / 2 ^ f

end Foundations.Rounding
