import Mathlib.Algebra.Group.Nat.Defs
import Mathlib.Data.List.Basic

/-! Decimal numerals as strings: what `toString` writes on naturals, what a
parser of unsigned integers reads, and strings that end in a separator and a
numeral. -/

set_option autoImplicit false

namespace Foundations.Decimal

theorem toList_toString (n : Nat) : (toString n).toList = Nat.toDigits 10 n := by
  simp only [Nat.toString_eq_repr, Nat.toList_repr]

theorem toString_injective : Function.Injective (toString : Nat → String) := by
  intro first second same
  have digits : Nat.toDigits 10 first = Nat.toDigits 10 second := by
    simpa only [toList_toString] using congrArg String.toList same
  simpa using congrArg (fun cs => Nat.ofDigitChars 10 cs 0) digits

theorem isDigit_of_mem_toString {n : Nat} {c : Char} (member : c ∈ (toString n).toList) :
    c.isDigit = true := by
  rw [toList_toString] at member
  exact Nat.isDigit_of_mem_toDigits (by decide) (by decide) member

theorem not_mem_toString {n : Nat} {c : Char} (other : c.isDigit = false) :
    c ∉ (toString n).toList := by
  intro member
  simp [isDigit_of_mem_toString member] at other

theorem split_at_first {α : Type} {sep : α} {first second xs ys : List α}
    (freeFirst : sep ∉ first) (freeSecond : sep ∉ second)
    (same : first ++ sep :: xs = second ++ sep :: ys) : first = second ∧ xs = ys := by
  induction first generalizing second with
  | nil =>
    cases second with
    | nil => exact ⟨rfl, (List.cons.inj same).2⟩
    | cons head rest => exact absurd (List.cons.inj same).1 (List.ne_of_not_mem_cons freeSecond)
  | cons head rest ih =>
    cases second with
    | nil => exact absurd (List.cons.inj same).1.symm (List.ne_of_not_mem_cons freeFirst)
    | cons head' rest' =>
      obtain ⟨rfl, tails⟩ := List.cons.inj same
      obtain ⟨rfl, rfl⟩ := ih (List.not_mem_of_not_mem_cons freeFirst)
        (List.not_mem_of_not_mem_cons freeSecond) tails
      exact ⟨rfl, rfl⟩

/-- The last separator splits a list, whatever stands before it. -/
theorem split_at_last {α : Type} {sep : α} {xs ys first second : List α}
    (freeFirst : sep ∉ first) (freeSecond : sep ∉ second)
    (same : xs ++ sep :: first = ys ++ sep :: second) : xs = ys ∧ first = second := by
  have reversed : first.reverse ++ sep :: xs.reverse = second.reverse ++ sep :: ys.reverse := by
    simpa using congrArg List.reverse same
  have split := split_at_first (fun member => freeFirst (List.mem_reverse.mp member))
    (fun member => freeSecond (List.mem_reverse.mp member)) reversed
  exact ⟨List.reverse_injective split.2, List.reverse_injective split.1⟩

/-- A stem and the numeral behind the last separator are determined by the
string, for arbitrary stems, also those that contain the separator or digits. -/
theorem separated_inj {sep : Char} (other : sep.isDigit = false) {stem stem' : String}
    {n n' : Nat} (same : stem ++ String.singleton sep ++ toString n =
      stem' ++ String.singleton sep ++ toString n') : stem = stem' ∧ n = n' := by
  have lists : stem.toList ++ sep :: (toString n).toList =
      stem'.toList ++ sep :: (toString n').toList := by
    simpa only [String.toList_append, String.toList_singleton, List.append_assoc,
      List.singleton_append] using congrArg String.toList same
  have split := split_at_last (not_mem_toString other) (not_mem_toString other) lists
  exact ⟨String.toList_inj.mp split.1, toString_injective (String.toList_inj.mp split.2)⟩

/-- Read a non-empty list of decimal digits. -/
def readDigits (cs : List Char) : Option Nat :=
  if cs.isEmpty || cs.any (fun c => !c.isDigit) then none else some (Nat.ofDigitChars 10 cs 0)

/-- An unsigned integer of the given width: an optional plus sign, then digits. -/
def parseUnsigned (bits : Nat) (text : String) : Option Nat :=
  let digits := match text.toList with
    | '+' :: rest => rest
    | cs => cs
  (readDigits digits).filter (· < 2 ^ bits)

/-- A signed integer of the given width: an optional sign, then digits. -/
def parseSigned (bits : Nat) (text : String) : Option Int :=
  match text.toList with
  | '-' :: digits => ((readDigits digits).filter (· ≤ 2 ^ (bits - 1))).map fun n => -(n : Int)
  | _ => (parseUnsigned (bits - 1) text).map Int.ofNat

theorem parseUnsigned_lt {bits n : Nat} {text : String} (parsed : parseUnsigned bits text = some n) :
    n < 2 ^ bits :=
  of_decide_eq_true (Option.filter_eq_some_iff.mp parsed).2

theorem readDigits_toString (n : Nat) : readDigits (toString n).toList = some n := by
  have digits : (toString n).toList.any (fun c => !c.isDigit) = false := by
    rw [List.any_eq_false]
    intro c member
    simp [isDigit_of_mem_toString member]
  have nonempty : (toString n).toList.isEmpty = false := by
    rw [toList_toString, List.isEmpty_eq_false_iff]
    exact Nat.toDigits_ne_nil
  rw [readDigits, digits, nonempty]
  simp only [Bool.or_false, Bool.false_eq_true, ↓reduceIte]
  rw [toList_toString, Nat.ofDigitChars_ten_toDigits]

theorem parseUnsigned_toString_eq (bits n : Nat) :
    parseUnsigned bits (toString n) = if n < 2 ^ bits then some n else none := by
  have unsigned : ∀ rest, (toString n).toList ≠ '+' :: rest := by
    intro rest same
    have member : '+' ∈ (toString n).toList := same ▸ List.mem_cons_self
    exact not_mem_toString (by decide) member
  unfold parseUnsigned
  split
  · rename_i rest same
    exact absurd same (unsigned rest)
  · simp only [readDigits_toString, Option.filter_some, decide_eq_true_eq]

theorem parseUnsigned_toString {bits n : Nat} (bound : n < 2 ^ bits) :
    parseUnsigned bits (toString n) = some n := by
  rw [parseUnsigned_toString_eq, if_pos bound]

theorem parseUnsigned_toString_eq_some {bits n m : Nat}
    (parsed : parseUnsigned bits (toString n) = some m) : n = m := by
  rw [parseUnsigned_toString_eq] at parsed
  exact (Option.ite_none_right_eq_some.mp parsed).2 |> Option.some.inj

end Foundations.Decimal
