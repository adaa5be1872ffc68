import Mathlib.Analysis.SpecialFunctions.Exp
import DistributedSoftmax.Foundations.Rounding
import DistributedSoftmax.Numbers

/-! IEEE 754 arithmetic: the number that a bit pattern stands for, what the
standard and the two standard libraries say about the operations in use, and an
arithmetic that follows it. -/

set_option autoImplicit false

namespace DistributedSoftmax
open Foundations.Rounding

/-- The number an `f64` stands for; a NaN stands for none. -/
noncomputable def Double.value (x : Double) : Option EReal :=
  binaryValue 11 52 x.msb (x.extractLsb' 52 11).toNat (x.extractLsb' 0 52).toNat

/-- The number an `f32` stands for; a NaN stands for none. -/
noncomputable def Single.value (x : Single) : Option EReal :=
  binaryValue 8 23 x.msb (x.extractLsb' 23 8).toNat (x.extractLsb' 0 23).toNat

theorem Double.isFinite_iff (x : Double) :
    x.isFinite = true ↔ ∃ r : ℝ, Double.value x = some (r : EReal) := by
  rw [Double.value, binaryValue_isReal, Double.isFinite, bne_iff_ne, ne_eq, ne_eq,
    ← BitVec.toNat_inj]
  rfl

theorem Single.isFinite_iff (x : Single) :
    x.isFinite = true ↔ ∃ r : ℝ, Single.value x = some (r : EReal) := by
  rw [Single.value, binaryValue_isReal, Single.isFinite, bne_iff_ne, ne_eq, ne_eq,
    ← BitVec.toNat_inj]
  rfl

/-- The number of a pattern, by its sign, exponent and fraction bits. -/
theorem Double.value_of_fields {x : Double} {s : Bool} {e f : Nat} (sign : x.msb = s)
    (exponent : (x.extractLsb' 52 11).toNat = e) (fraction : (x.extractLsb' 0 52).toNat = f) :
    Double.value x = binaryValue 11 52 s e f := by
  rw [Double.value, sign, exponent, fraction]

theorem Single.value_of_fields {x : Single} {s : Bool} {e f : Nat} (sign : x.msb = s)
    (exponent : (x.extractLsb' 23 8).toNat = e) (fraction : (x.extractLsb' 0 23).toNat = f) :
    Single.value x = binaryValue 8 23 s e f := by
  rw [Single.value, sign, exponent, fraction]

theorem Double.value_zero : Double.value Double.zero = some ((0 : ℝ) : EReal) := by
  rw [Double.value_of_fields (s := false) (e := 0) (f := 0) rfl rfl rfl]
  norm_num [binaryValue]

theorem Double.value_one : Double.value Double.one = some ((1 : ℝ) : EReal) := by
  rw [Double.value_of_fields (s := false) (e := 1023) (f := 0) rfl rfl rfl]
  norm_num [binaryValue]

theorem Single.value_zero : Single.value Single.zero = some ((0 : ℝ) : EReal) := by
  rw [Single.value_of_fields (s := false) (e := 0) (f := 0) rfl rfl rfl]
  norm_num [binaryValue]

theorem Single.value_one : Single.value Single.one = some ((1 : ℝ) : EReal) := by
  rw [Single.value_of_fields (s := false) (e := 127) (f := 0) rfl rfl rfl]
  norm_num [binaryValue]

/-- `NEG_INFINITY`. -/
def Double.negInf : Double := 0xFFF0000000000000#64
def Single.negInf : Single := 0xFF800000#32

theorem Double.value_negInf : Double.value Double.negInf = some ⊥ := by
  rw [Double.value_of_fields (s := true) (e := 2 ^ 11 - 1) (f := 0) rfl rfl rfl]
  simp [binaryValue]

theorem Single.value_negInf : Single.value Single.negInf = some ⊥ := by
  rw [Single.value_of_fields (s := true) (e := 2 ^ 8 - 1) (f := 0) rfl rfl rfl]
  simp [binaryValue]

/-- Every sign, exponent and fraction is that of a pattern. -/
theorem Double.exists_pattern (negative : Bool) {exponent fraction : Nat} (high : exponent < 2 ^ 11)
    (low : fraction < 2 ^ 52) : ∃ x, Double.value x = binaryValue 11 52 negative exponent fraction := by
  obtain ⟨bits, same⟩ : ∃ n : Nat,
      n = (if negative then 2 ^ 63 else 0) + exponent * 2 ^ 52 + fraction :=
    ⟨_, rfl⟩
  have below : bits < 2 ^ 64 := by
    split at same <;> omega
  have number : (BitVec.ofNat 64 bits).toNat = bits := by
    rw [BitVec.toNat_ofNat, Nat.mod_eq_of_lt below]
  have exponentBits : ((BitVec.ofNat 64 bits).extractLsb' 52 11).toNat = exponent := by
    rw [BitVec.extractLsb'_toNat, number, Nat.shiftRight_eq_div_pow]
    split at same <;> omega
  have fractionBits : ((BitVec.ofNat 64 bits).extractLsb' 0 52).toNat = fraction := by
    rw [BitVec.extractLsb'_toNat, number, Nat.shiftRight_zero]
    split at same <;> omega
  have sign : (BitVec.ofNat 64 bits).msb = negative := by
    rw [BitVec.msb_eq_decide, number]
    cases negative
    · exact decide_eq_false (by simp only [Bool.false_eq_true, if_false] at same; omega)
    · exact decide_eq_true (by simp only [if_true] at same; omega)
  exact ⟨BitVec.ofNat 64 bits, Double.value_of_fields sign exponentBits fractionBits⟩

theorem Double.representable_steps {j k : Nat} (large : j < 971) (below : k < 2 ^ 52) :
    ∃ x, Double.value x = some (steps 52 j k : EReal) := by
  obtain ⟨x, stands⟩ := Double.exists_pattern false (by omega : 1075 + j < 2 ^ 11) below
  have power : ((1075 + j : ℕ) + 1 - 2 ^ (11 - 1) - (52 : ℕ) : ℤ) = (j : ℤ) := by
    push_cast
    ring
  refine ⟨x, ?_⟩
  rw [stands, binaryValue, if_neg (by omega)]
  simp only [if_neg (by omega : ¬ 1075 + j = 0), Bool.false_eq_true, if_false]
  rw [power, zpow_natCast, steps]

/-- A single-precision fraction below the powers of two that have an exponent
bit, as a double-precision one. -/
theorem subnormal_eq {f k : Nat} (low : 2 ^ k ≤ f) (small : k ≤ 52) :
    (f : ℝ) * (2 : ℝ) ^ (2 - 2 ^ (8 - 1) - (23 : ℕ) : ℤ) =
      (2 ^ 52 + ((f - 2 ^ k) * 2 ^ (52 - k) : ℕ)) *
        (2 : ℝ) ^ ((874 + k : ℕ) + 1 - 2 ^ (11 - 1) - (52 : ℕ) : ℤ) := by
  have whole : (2 ^ 52 + ((f - 2 ^ k) * 2 ^ (52 - k) : ℕ) : ℝ) = f * 2 ^ (52 - k) := by
    have split : 2 ^ 52 = 2 ^ k * 2 ^ (52 - k) := by
      rw [← Nat.pow_add, Nat.add_sub_cancel' small]
    have product : 2 ^ 52 + (f - 2 ^ k) * 2 ^ (52 - k) = f * 2 ^ (52 - k) := by
      rw [split, ← Nat.add_mul, Nat.add_sub_cancel' low]
    exact_mod_cast product
  have power : (2 : ℝ) ^ (52 - k) * (2 : ℝ) ^ ((874 + k : ℕ) + 1 - 2 ^ (11 - 1) - (52 : ℕ) : ℤ) =
      (2 : ℝ) ^ (2 - 2 ^ (8 - 1) - (23 : ℕ) : ℤ) := by
    rw [← zpow_natCast, ← zpow_add₀ two_ne_zero]
    congr 1
    push_cast [small]
    ring
  rw [whole, mul_assoc, power]

theorem normal_eq (exponent f : Nat) :
    ((2 : ℝ) ^ 23 + f) * (2 : ℝ) ^ (exponent + 1 - 2 ^ (8 - 1) - (23 : ℕ) : ℤ) =
      (2 ^ 52 + (f * 2 ^ 29 : ℕ)) *
        (2 : ℝ) ^ ((exponent + 896 : ℕ) + 1 - 2 ^ (11 - 1) - (52 : ℕ) : ℤ) := by
  have whole : ((2 : ℝ) ^ 52 + (f * 2 ^ 29 : ℕ)) = (2 ^ 23 + f) * 2 ^ 29 := by
    push_cast
    ring
  have power : (2 : ℝ) ^ 29 * (2 : ℝ) ^ ((exponent + 896 : ℕ) + 1 - 2 ^ (11 - 1) - (52 : ℕ) : ℤ) =
      (2 : ℝ) ^ (exponent + 1 - 2 ^ (8 - 1) - (23 : ℕ) : ℤ) := by
    have sum : ((29 : ℕ) : ℤ) + ((exponent + 896 : ℕ) + 1 - 2 ^ (11 - 1) - (52 : ℕ)) =
        exponent + 1 - 2 ^ (8 - 1) - (23 : ℕ) := by
      push_cast
      ring
    rw [← zpow_natCast (2 : ℝ) 29, ← zpow_add₀ two_ne_zero, sum]
  rw [whole, mul_assoc, power]

/-- Every number of single precision is one of double precision. -/
theorem Single.representable_double {x : Single} {a : ℝ} (stands : Single.value x = some (a : EReal)) :
    ∃ y, Double.value y = some (a : EReal) := by
  have usual := (binaryValue_isReal 8 23 _ _ _).mp ⟨a, stands⟩
  have exponent_lt := (x.extractLsb' 23 8).isLt
  have fraction_lt := (x.extractLsb' 0 23).isLt
  rw [← stands, Single.value, binaryValue, if_neg usual]
  generalize (x.extractLsb' 0 23).toNat = fraction at *
  generalize (x.extractLsb' 23 8).toNat = exponent at *
  generalize x.msb = negative
  rcases Nat.eq_zero_or_pos exponent with rfl | normal
  · rcases Nat.eq_zero_or_pos fraction with rfl | positive
    · obtain ⟨y, same⟩ := Double.exists_pattern negative (by decide : 0 < 2 ^ 11)
          (by decide : 0 < 2 ^ 52)
      refine ⟨y, same.trans ?_⟩
      simp [binaryValue]
    · -- A subnormal number has its leading bit moved to the exponent.
      have low : 2 ^ fraction.log2 ≤ fraction := Nat.log2_self_le positive.ne'
      have high : fraction < 2 ^ (fraction.log2 + 1) := Nat.lt_log2_self
      have small : fraction.log2 < 23 := (Nat.log2_lt positive.ne').mpr fraction_lt
      have inside : (fraction - 2 ^ fraction.log2) * 2 ^ (52 - fraction.log2) < 2 ^ 52 := by
        calc (fraction - 2 ^ fraction.log2) * 2 ^ (52 - fraction.log2)
            < 2 ^ fraction.log2 * 2 ^ (52 - fraction.log2) := by
              apply Nat.mul_lt_mul_of_pos_right _ (Nat.two_pow_pos _)
              rw [Nat.pow_succ] at high
              omega
          _ = 2 ^ 52 := by rw [← Nat.pow_add, Nat.add_sub_cancel' (by omega)]
      obtain ⟨y, same⟩ := Double.exists_pattern negative
        (by omega : 874 + fraction.log2 < 2 ^ 11) inside
      refine ⟨y, same.trans ?_⟩
      rw [binaryValue, if_neg (by omega), if_neg (by omega), ← subnormal_eq low (by omega)]
      rfl
  · obtain ⟨y, same⟩ := Double.exists_pattern negative (by omega : exponent + 896 < 2 ^ 11)
      (by omega : fraction * 2 ^ 29 < 2 ^ 52)
    refine ⟨y, same.trans ?_⟩
    rw [binaryValue, if_neg (by omega), if_neg (by omega), ← normal_eq, if_neg (by omega)]

/-- What IEEE 754 says about the operations of one format, and what C and Rust
say about `max` and `exp`. -/
structure Arithmetic {F : Type} (value : F → Option EReal) (fl : FloatOps F) : Prop where
  ofInt : ∀ n : Int, Rounds value n (fl.ofInt n)
  negInf : value fl.negInf = some ⊥
  max : ∀ x y (a b : EReal), value x = some a → value y = some b →
    value (fl.max x y) = some (Max.max a b)
  add : ∀ x y (a b : ℝ), value x = some (a : EReal) → value y = some (b : EReal) →
    Rounds value (a + b) (fl.add x y)
  sub : ∀ x y (a b : ℝ), value x = some (a : EReal) → value y = some (b : EReal) →
    Rounds value (a - b) (fl.sub x y)
  mul : ∀ x y (a b : ℝ), value x = some (a : EReal) → value y = some (b : EReal) →
    Rounds value (a * b) (fl.mul x y)
  div : ∀ x y (a b : ℝ), value x = some (a : EReal) → value y = some (b : EReal) → b ≠ 0 →
    Rounds value (a / b) (fl.div x y)
  exp_zero : ∀ x, value x = some ((0 : ℝ) : EReal) → value (fl.exp x) = some ((1 : ℝ) : EReal)
  exp_nonpos : ∀ x v, value x = some v → v ≤ ((0 : ℝ) : EReal) → Within value 0 1 (fl.exp x)

/-- IEEE 754 for the two formats, and the casts between them. -/
structure Ieee754 (fl : Floats Double Single) : Prop where
  f64 : Arithmetic Double.value fl.f64
  f32 : Arithmetic Single.value fl.f32
  widen : ∀ x (a : ℝ), Single.value x = some (a : EReal) → Rounds Double.value a (fl.widen x)
  widen_special : ∀ x, Single.isFinite x = false → Double.isFinite (fl.widen x) = false
  narrow : ∀ x (a : ℝ), Double.value x = some (a : EReal) → Rounds Single.value a (fl.narrow x)

/-- A cast to double precision is exact. -/
theorem Ieee754.value_widen {fl : Floats Double Single} (ieee : Ieee754 fl) {x : Single} {a : ℝ}
    (stands : Single.value x = some (a : EReal)) : Double.value (fl.widen x) = some (a : EReal) := by
  obtain ⟨y, representable⟩ := Single.representable_double stands
  exact (ieee.widen x a stands).exact representable

/-- A cast to double precision makes no number infinite, and no infinity finite. -/
theorem Ieee754.isFinite_widen {fl : Floats Double Single} (ieee : Ieee754 fl) (x : Single) :
    Double.isFinite (fl.widen x) = Single.isFinite x := by
  cases finite : Single.isFinite x with
  | false => exact ieee.widen_special x finite
  | true =>
    obtain ⟨a, stands⟩ := (Single.isFinite_iff x).mp finite
    exact (Double.isFinite_iff _).mpr ⟨a, ieee.value_widen stands⟩

/-! An arithmetic that rounds the exact results. -/
namespace Rounded

instance finite_patterns (w : Nat) : Finite (BitVec w) :=
  Finite.of_injective BitVec.toFin fun _ _ => BitVec.toFin_inj.mp

section
variable {F : Type} {value : F → Option EReal} {bottom : F}
  (negInf : value bottom = some ⊥) (zero nan : F)

variable (value) in
/-- The real number that a finite pattern stands for. -/
noncomputable def real (x : F) : ℝ := ((value x).getD ⊥).toReal

theorem real_eq {x : F} {a : ℝ} (stands : value x = some (a : EReal)) : real value x = a := by
  rw [real, stands, Option.getD_some, EReal.toReal_coe]

variable [Finite F]

/-- The exact result, rounded; an exact zero is the given one. -/
noncomputable def round (z : ℝ) : F := if z = 0 then zero else (exists_rounds negInf z).choose

theorem rounds_round {zero : F} (standsZero : value zero = some ((0 : ℝ) : EReal)) (z : ℝ) :
    Rounds value z (round negInf zero z) := by
  unfold round
  split
  · rename_i same
    subst same
    exact ⟨_, standsZero, fun b w _ => ⟨fun le => le, fun le => le⟩⟩
  · exact (exists_rounds negInf z).choose_spec

open Classical in
/-- Apply a function to the numbers that finite patterns stand for. -/
noncomputable def lift₂ (f : ℝ → ℝ → ℝ) (x y : F) : F :=
  if value x = some (real value x : EReal) ∧ value y = some (real value y : EReal) then
    round negInf zero (f (real value x) (real value y))
  else nan

theorem rounds_lift₂ {zero : F} (standsZero : value zero = some ((0 : ℝ) : EReal))
    (f : ℝ → ℝ → ℝ) {x y : F} {a b : ℝ} (standsX : value x = some (a : EReal))
    (standsY : value y = some (b : EReal)) :
    Rounds value (f a b) (lift₂ negInf zero nan f x y) := by
  rw [lift₂, real_eq standsX, real_eq standsY, if_pos ⟨standsX, standsY⟩]
  exact rounds_round negInf standsZero _

open Classical in
noncomputable def ops : FloatOps F where
  ofInt n := round negInf zero n
  negInf := bottom
  max x y := if (value x).getD ⊥ ≤ (value y).getD ⊥ then y else x
  add := lift₂ negInf zero nan (· + ·)
  sub := lift₂ negInf zero nan (· - ·)
  mul := lift₂ negInf zero nan (· * ·)
  div := lift₂ negInf zero nan (· / ·)
  exp x := if value x = some ⊥ then zero else lift₂ negInf zero nan (fun a _ => Real.exp a) x zero

theorem arithmetic_ops {zero one : F} (standsZero : value zero = some ((0 : ℝ) : EReal))
    (standsOne : value one = some ((1 : ℝ) : EReal)) :
    Arithmetic value (ops negInf zero nan) where
  ofInt n := rounds_round negInf standsZero n
  negInf := negInf
  max x y a b standsX standsY := by
    simp only [ops, standsX, standsY, Option.getD_some]
    split
    · rename_i le
      rw [standsY, max_eq_right le]
    · rename_i not_le
      rw [standsX, max_eq_left (le_of_not_ge not_le)]
  add x y a b standsX standsY := rounds_lift₂ negInf nan standsZero _ standsX standsY
  sub x y a b standsX standsY := rounds_lift₂ negInf nan standsZero _ standsX standsY
  mul x y a b standsX standsY := rounds_lift₂ negInf nan standsZero _ standsX standsY
  div x y a b standsX standsY _ := rounds_lift₂ negInf nan standsZero _ standsX standsY
  exp_zero x standsX := by
    have number : value x ≠ some ⊥ := by
      rw [standsX]
      exact fun same => EReal.coe_ne_bot 0 (Option.some.inj same)
    have rounds := rounds_lift₂ negInf nan standsZero (fun a _ => Real.exp a) standsX standsZero
    rw [Real.exp_zero] at rounds
    simp only [ops, if_neg number]
    exact rounds.exact standsOne
  exp_nonpos x v standsX nonpos := by
    simp only [ops]
    split
    · exact ⟨0, standsZero, le_rfl, zero_le_one⟩
    · rename_i number
      induction v with
      | bot => exact absurd standsX number
      | top => exact absurd (top_le_iff.mp nonpos) (EReal.coe_ne_top 0)
      | coe a =>
        have le := Real.exp_le_one_iff.mpr (EReal.coe_le_coe_iff.mp nonpos)
        exact (rounds_lift₂ negInf nan standsZero (fun a _ => Real.exp a) standsX standsZero).within
          standsZero standsOne (Real.exp_pos a).le le

end

/-- The two formats, with casts that round. -/
noncomputable def floats : Floats Double Single where
  f64 := ops Double.value_negInf Double.zero Double.nan
  f32 := ops Single.value_negInf Single.zero Single.nan
  widen x := if x.isFinite then round Double.value_negInf Double.zero (real Single.value x)
    else Double.nan
  narrow x := round Single.value_negInf Single.zero (real Double.value x)

theorem ieee754_floats : Ieee754 floats where
  f64 := arithmetic_ops _ _ Double.value_zero Double.value_one
  f32 := arithmetic_ops _ _ Single.value_zero Single.value_one
  widen x a stands := by
    simp only [floats, if_pos ((Single.isFinite_iff x).mpr ⟨a, stands⟩), real_eq stands]
    exact rounds_round _ Double.value_zero a
  widen_special x special := by
    simp only [floats, special, Bool.false_eq_true, if_false]
    rfl
  narrow x a stands := by
    simp only [floats, real_eq stands]
    exact rounds_round _ Single.value_zero a

end Rounded
end DistributedSoftmax
