import Mathlib.Data.Nat.Notation

/-! The numbers both crates compute with. The algorithms are generic in the
arithmetic, so that one definition can be read over bit patterns, over rounded
numbers and over exact real numbers. -/

set_option autoImplicit false

namespace DistributedSoftmax

/-- An `f64`, by its bit pattern. -/
abbrev Double := BitVec 64

/-- An `f32`, by its bit pattern. -/
abbrev Single := BitVec 32

def Double.zero : Double := 0x0000000000000000#64
def Double.one : Double := 0x3FF0000000000000#64
def Double.half : Double := 0x3FE0000000000000#64
def Double.two : Double := 0x4000000000000000#64
def Double.nan : Double := 0x7FF8000000000000#64

def Single.zero : Single := 0x00000000#32
def Single.one : Single := 0x3F800000#32
def Single.half : Single := 0x3F000000#32
def Single.two : Single := 0x40000000#32
def Single.nan : Single := 0x7FC00000#32

/-- `f64::is_finite`: the eleven exponent bits are not all ones. -/
def Double.isFinite (x : Double) : Bool := x.extractLsb' 52 11 != 0x7FF#11

/-- `f32::is_finite`: the eight exponent bits are not all ones. -/
def Single.isFinite (x : Single) : Bool := x.extractLsb' 23 8 != 0xFF#8

/-- `as i32` on a `usize`. -/
def toI32 (n : Nat) : Int := (BitVec.ofNat 32 n).toInt

/-- The operations of one floating-point format that the source uses. -/
structure FloatOps (F : Type) where
  /-- A literal or an integer, rounded to the format. -/
  ofInt : Int → F
  /-- `NEG_INFINITY`, the start value of the folds for the maximum. -/
  negInf : F
  max : F → F → F
  add : F → F → F
  sub : F → F → F
  mul : F → F → F
  div : F → F → F
  exp : F → F

variable {F D S : Type}

/-- `iter().fold(NEG_INFINITY, max)`. -/
def FloatOps.foldMax (fl : FloatOps F) (xs : List F) : F := xs.foldl fl.max fl.negInf

/-- `iter().sum()`. -/
def FloatOps.sum (fl : FloatOps F) (xs : List F) : F := xs.foldl fl.add (fl.ofInt 0)

/-- Double precision, single precision and the two `as` casts between them. -/
structure Floats (D S : Type) where
  f64 : FloatOps D
  f32 : FloatOps S
  /-- `as f64` on an `f32`. -/
  widen : S → D
  /-- `as f32` on an `f64`. -/
  narrow : D → S

/-! An arithmetic on bit patterns that agrees with IEEE 754 on the operands 0,
1/2, 1 and 2 as far as the results are among them; any other result is NaN. -/
namespace SmallFloats

section
variable {w : Nat} (zero half one two negInf nan : BitVec w)

def ops : FloatOps (BitVec w) where
  ofInt n := if n = 0 then zero else if n = 1 then one else if n = 2 then two else nan
  negInf := negInf
  max x y := if x = negInf then y else if y = negInf then x else if x ≤ y then y else x
  add x y :=
    if x = zero then y else if y = zero then x
    else if x = half ∧ y = half then one else if x = one ∧ y = one then two else nan
  sub x y := if y = zero then x else if x = y then zero else nan
  mul x y :=
    if x = one then y else if y = one then x else if x = zero ∨ y = zero then zero
    else if (x = half ∧ y = two) ∨ (x = two ∧ y = half) then one else nan
  div x y :=
    if y = one then x else if x = zero then zero
    else if x = y then one else if x = one ∧ y = two then half else nan
  exp x := if x = zero then one else if x = negInf then zero else nan

end

/-- Exact on the four values and NaN; other patterns are only kept apart. -/
def widen (x : Single) : Double :=
  if x = .half then .half else if x = .one then .one else if x = .two then .two
  else if x = .nan then .nan else x.setWidth 64

def narrow (x : Double) : Single :=
  if x = .half then .half else if x = .one then .one else if x = .two then .two
  else if x = .nan then .nan else x.setWidth 32

theorem narrow_widen (x : Single) : narrow (widen x) = x := by
  unfold widen
  split
  · subst x; rfl
  split
  · subst x; rfl
  split
  · subst x; rfl
  split
  · subst x; rfl
  -- A pattern that was only extended is below every special one.
  have apart : ∀ y : Double, 2 ^ 32 ≤ y.toNat → x.setWidth 64 ≠ y := by
    intro y large same
    have value := congrArg BitVec.toNat same
    rw [BitVec.toNat_setWidth_of_le (by decide)] at value
    have bound := x.isLt
    omega
  rw [narrow, if_neg (apart .half (by decide)), if_neg (apart .one (by decide)),
    if_neg (apart .two (by decide)), if_neg (apart .nan (by decide))]
  exact BitVec.setWidth_setWidth_of_le x (by decide) |>.trans (BitVec.setWidth_eq x)

def floats : Floats Double Single where
  f64 := ops Double.zero Double.half Double.one Double.two 0xFFF0000000000000#64 Double.nan
  f32 := ops Single.zero Single.half Single.one Single.two 0xFF800000#32 Single.nan
  widen := widen
  narrow := narrow

end SmallFloats
end DistributedSoftmax
