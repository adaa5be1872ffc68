import DistributedSoftmax.Numbers
import DistributedSoftmax.Foundations.ByteString

/-! JSON values as serde_json has them, and the parts of serde_json that the
program relies on. The text printer and the parser are a third-party package:
they are a parameter here, with the facts the code needs named one by one. -/

set_option autoImplicit false

namespace DistributedSoftmax
open Foundations.ByteString

/-- `serde_json::Value`. A number is an integer or a float; an object lists its
fields in the order of the keys. -/
inductive Json (F : Type) where
  | null
  | bool (value : Bool)
  | int (value : Int)
  | float (value : F)
  | string (value : String)
  | array (items : List (Json F))
  | object (fields : List (String × Json F))

namespace Json
variable {F : Type}

/-- `value[name]`: null when the value is no object or has no such field. -/
def field (name : String) : Json F → Json F
  | .object fields => ((fields.find? (fun entry => entry.1 == name)).map Prod.snd).getD .null
  | _ => .null

/-- `Value::as_f64`. -/
def asF64 (ofInt : Int → F) : Json F → Option F
  | .int n => some (ofInt n)
  | .float x => some x
  | _ => none

/-- `Value::as_array`. -/
def asArray : Json F → Option (List (Json F))
  | .array items => some items
  | _ => none

/-- `Deserialize for String`. -/
def toString? : Json F → Option String
  | .string s => some s
  | _ => none

/-- `Deserialize` for an unsigned integer of 64 bits. -/
def toUnsigned? : Json F → Option Nat
  | .int n => if 0 ≤ n ∧ n.toNat < 2 ^ 64 then some n.toNat else none
  | _ => none

/-- A required field of a derived `Deserialize`. -/
def required (name : String) : Json F → Option (Json F)
  | .object fields => (fields.find? (fun entry => entry.1 == name)).map Prod.snd
  | _ => none

theorem toUnsigned?_natCast (n : Nat) :
    (Json.int (n : Int) : Json F).toUnsigned? = if n < 2 ^ 64 then some n else none := by
  simp only [toUnsigned?, Int.natCast_nonneg, true_and, Int.toNat_natCast]

end Json

/-- serde_json, as far as the program uses it on doubles. -/
structure SerdeJson where
  /-- `to_string`. -/
  print : Json Double → String
  /-- `from_str`. -/
  parse : String → Option (Json Double)
  /-- The double that is read back where a finite double was written. The
  parser rounds on a fast path, so it need not be the same one. -/
  reread : Double → Double
  /-- An integer number read as `f64`. -/
  ofInt : Int → Double

/-- `Serialize for f64`: a value that is not finite is written as null. -/
def Json.ofDouble (x : Double) : Json Double := if x.isFinite then .float x else .null

/-- `Serialize for Vec<f64>`. -/
def Json.ofDoubles (xs : List Double) : Json Double := .array (xs.map Json.ofDouble)

namespace SerdeJson
variable (serde : SerdeJson)

/-- `Deserialize for f64`: any number, but no null. -/
def toDouble? : Json Double → Option Double
  | .int n => some (serde.ofInt n)
  | .float x => some x
  | _ => none

/-- `Deserialize for Vec<f64>`. -/
def toDoubles? : Json Double → Option (List Double)
  | .array items => items.mapM serde.toDouble?
  | _ => none

mutual
/-- The value a reader gets for a value that was written: floats are reread. -/
def wire : Json Double → Json Double
  | .float x => .float (serde.reread x)
  | .array items => .array (wireItems items)
  | .object fields => .object (wireFields fields)
  | other => other

def wireItems : List (Json Double) → List (Json Double)
  | [] => []
  | item :: rest => wire item :: wireItems rest

def wireFields : List (String × Json Double) → List (String × Json Double)
  | [] => []
  | (name, value) :: rest => (name, wire value) :: wireFields rest
end

/-- What the program relies on in serde_json and in RFC 8259: the text of an
array starts with a bracket and reads back as the array, no text starts with
one of the control bytes 1 and 2, and a finite double is read back finite. -/
structure Documented : Prop where
  array_bracket : ∀ xs, (utf8 (serde.print (Json.ofDoubles xs))).head? = some 0x5B
  array_parse : ∀ xs, serde.parse (serde.print (Json.ofDoubles xs)) =
    some (serde.wire (Json.ofDoubles xs))
  control_rejected : ∀ text b, (utf8 text).head? = some b → b = 1 ∨ b = 2 →
    serde.parse text = none
  reread_finite : ∀ x, Double.isFinite x = true → Double.isFinite (serde.reread x) = true

theorem wireItems_eq_map (items : List (Json Double)) :
    serde.wireItems items = items.map serde.wire := by
  induction items with
  | nil => rfl
  | cons item rest ih => simp only [wireItems, List.map_cons, ih]

/-- Only the rereading of the values matters for an array of doubles. -/
theorem wire_ofDoubles (xs : List Double) : serde.wire (Json.ofDoubles xs) =
    .array (xs.map fun x => if x.isFinite then .float (serde.reread x) else .null) := by
  rw [Json.ofDoubles, wire, wireItems_eq_map, List.map_map]
  congr 2
  funext x
  simp only [Function.comp, Json.ofDouble]
  split <;> rfl

variable {serde}

/-- What a reader gets for an array of doubles: one value each, and no value at
all when one of them is not finite. -/
theorem toDoubles?_wire {xs ys : List Double}
    (read : serde.toDoubles? (serde.wire (Json.ofDoubles xs)) = some ys) :
    (∀ x ∈ xs, x.isFinite = true) ∧ ys = xs.map serde.reread := by
  rw [Json.ofDoubles, wire, wireItems_eq_map, toDoubles?] at read
  induction xs generalizing ys with
  | nil =>
    cases read
    exact ⟨fun _ member => absurd member List.not_mem_nil, rfl⟩
  | cons x rest ih =>
    simp only [List.map_cons, List.mapM_cons, Option.bind_eq_bind, Option.bind_eq_some_iff,
      Option.pure_def, Option.some.injEq] at read
    obtain ⟨y, head, tail, mapped, rfl⟩ := read
    obtain ⟨finite, rfl⟩ := ih mapped
    unfold Json.ofDouble at head
    split at head
    · rename_i first
      cases head
      refine ⟨fun z member => ?_, rfl⟩
      rcases List.mem_cons.mp member with rfl | later
      · exact first
      · exact finite z later
    · cases head

theorem toDoubles?_wire_of_finite {xs : List Double} (finite : ∀ x ∈ xs, x.isFinite = true) :
    serde.toDoubles? (serde.wire (Json.ofDoubles xs)) = some (xs.map serde.reread) := by
  rw [Json.ofDoubles, wire, wireItems_eq_map, toDoubles?]
  induction xs with
  | nil => rfl
  | cons x rest ih =>
    have head : serde.toDouble? (serde.wire (Json.ofDouble x)) = some (serde.reread x) := by
      rw [Json.ofDouble, if_pos (finite x List.mem_cons_self)]
      rfl
    rw [List.map_cons, List.map_cons, List.mapM_cons, head,
      ih fun y member => finite y (List.mem_cons_of_mem _ member)]
    rfl

end SerdeJson
end DistributedSoftmax
