import DistributedSoftmax.Json
import DistributedSoftmax.Foundations.Decimal

/-! A printer and a parser that have the documented properties. They write the
doubles 0, 1/2, 1 and 2 as serde_json does and every other one as the integer
of its bit pattern; the parser reads arrays of numbers, and a second one reads
flat objects besides. -/

set_option autoImplicit false

namespace DistributedSoftmax.JsonText
open Foundations.ByteString Foundations.Decimal

def double (x : Double) : List Char :=
  if x = Double.zero then "0.0".toList else if x = Double.half then "0.5".toList
  else if x = Double.one then "1.0".toList else if x = Double.two then "2.0".toList
  else (toString x.toNat).toList

mutual
def text : Json Double → List Char
  | .null => "null".toList
  | .bool value => (toString value).toList
  | .int value => (toString value).toList
  | .float value => double value
  | .string value => '"' :: value.toList ++ ['"']
  | .array items => '[' :: [','].intercalate (itemTexts items) ++ [']']
  | .object fields => '{' :: [','].intercalate (fieldTexts fields) ++ ['}']

def itemTexts : List (Json Double) → List (List Char)
  | [] => []
  | item :: rest => text item :: itemTexts rest

def fieldTexts : List (String × Json Double) → List (List Char)
  | [] => []
  | (name, value) :: rest => ('"' :: name.toList ++ '"' :: ':' :: text value) :: fieldTexts rest
end

def number? (cs : List Char) : Option (Json Double) :=
  if cs = "null".toList then some .null
  else if cs = "0.0".toList then some (.float Double.zero)
  else if cs = "0.5".toList then some (.float Double.half)
  else if cs = "1.0".toList then some (.float Double.one)
  else if cs = "2.0".toList then some (.float Double.two)
  else (readDigits cs).map fun n => .float (BitVec.ofNat 64 n)

def array? (cs : List Char) : Option (Json Double) :=
  match cs with
  | '[' :: rest =>
      if rest = [']'] then some (.array [])
      else if rest.getLast? = some ']' then
        ((rest.dropLast.splitOn ',').mapM number?).map .array
      else none
  | _ => none

def serde : SerdeJson where
  print value := String.ofList (text value)
  parse string := array? string.toList
  reread x := x
  ofInt n := if n = 0 then Double.zero else if n = 1 then Double.one else Double.two

theorem itemTexts_eq_map (items : List (Json Double)) : itemTexts items = items.map text := by
  induction items with
  | nil => rfl
  | cons item rest ih => rw [itemTexts, ih, List.map_cons]

theorem double_cases (x : Double) :
    (x = Double.zero ∨ x = Double.half ∨ x = Double.one ∨ x = Double.two) ∨ double x = (toString x.toNat).toList := by
  unfold double
  split
  · exact .inl (.inl ‹_›)
  split
  · exact .inl (.inr (.inl ‹_›))
  split
  · exact .inl (.inr (.inr (.inl ‹_›)))
  split
  · exact .inl (.inr (.inr (.inr ‹_›)))
  exact .inr rfl

theorem ne_of_mem_toString {n : Nat} {cs : List Char} {c : Char} (member : c ∈ cs)
    (other : c.isDigit = false) : (toString n).toList ≠ cs :=
  fun same => not_mem_toString other (same ▸ member)

theorem number?_double (x : Double) : number? (double x) = some (.float x) := by
  rcases double_cases x with (rfl | rfl | rfl | rfl) | plain
  · rfl
  · rfl
  · rfl
  · rfl
  · rw [plain, number?, if_neg (ne_of_mem_toString (c := 'n') (by decide) (by decide)),
      if_neg (ne_of_mem_toString (c := '.') (by decide) (by decide)),
      if_neg (ne_of_mem_toString (c := '.') (by decide) (by decide)),
      if_neg (ne_of_mem_toString (c := '.') (by decide) (by decide)),
      if_neg (ne_of_mem_toString (c := '.') (by decide) (by decide)), readDigits_toString]
    simp

theorem number?_ofDouble (x : Double) :
    number? (text (Json.ofDouble x)) = some (serde.wire (Json.ofDouble x)) := by
  unfold Json.ofDouble
  split
  · rw [text, number?_double]
    rfl
  · rfl

theorem comma_not_mem_double (x : Double) : ',' ∉ double x := by
  rcases double_cases x with (rfl | rfl | rfl | rfl) | plain
  · decide
  · decide
  · decide
  · decide
  · rw [plain]
    exact not_mem_toString (by decide)

theorem comma_not_mem_ofDouble (x : Double) : ',' ∉ text (Json.ofDouble x) := by
  unfold Json.ofDouble
  split
  · exact comma_not_mem_double x
  · decide

theorem double_ne_nil (x : Double) : double x ≠ [] := by
  intro empty
  have read := number?_double x
  rw [empty] at read
  exact absurd read (by simp [number?, readDigits])

theorem ofDouble_ne_nil (x : Double) : text (Json.ofDouble x) ≠ [] := by
  unfold Json.ofDouble
  split
  · exact double_ne_nil x
  · decide

theorem text_ofDoubles (xs : List Double) : text (Json.ofDoubles xs) =
    '[' :: [','].intercalate (xs.map fun x => text (Json.ofDouble x)) ++ [']'] := by
  simp only [Json.ofDoubles, text, itemTexts_eq_map, List.map_map, Function.comp_def]

theorem array?_ofDoubles (xs : List Double) :
    array? (text (Json.ofDoubles xs)) = some (serde.wire (Json.ofDoubles xs)) := by
  rw [text_ofDoubles]
  have wired : serde.wire (Json.ofDoubles xs) =
      .array (xs.map fun x => serde.wire (Json.ofDouble x)) := by
    simp only [Json.ofDoubles, SerdeJson.wire, SerdeJson.wireItems_eq_map, List.map_map,
      Function.comp_def]
  rw [wired]
  cases xs with
  | nil => rfl
  | cons x rest =>
    have split : List.splitOn ',' ([','].intercalate ((x :: rest).map fun y => text (Json.ofDouble y))) =
        (x :: rest).map fun y => text (Json.ofDouble y) := by
      apply List.splitOn_intercalate
      · intro cs member
        obtain ⟨y, -, rfl⟩ := List.mem_map.mp member
        exact comma_not_mem_ofDouble y
      · simp
    have longer : [','].intercalate ((x :: rest).map fun y => text (Json.ofDouble y)) ++ [']'] ≠
        [']'] := by
      intro same
      rw [List.append_left_eq_self.mp same] at split
      have head := (List.cons.inj split).1
      exact ofDouble_ne_nil x head.symm
    have each : ((x :: rest).map fun y => text (Json.ofDouble y)).mapM number? =
        some ((x :: rest).map fun y => serde.wire (Json.ofDouble y)) := by
      generalize x :: rest = ys
      induction ys with
      | nil => rfl
      | cons y ys ih =>
        rw [List.map_cons, List.mapM_cons, number?_ofDouble, ih]
        rfl
    simp only [List.cons_append, array?, if_neg longer, List.getLast?_concat, if_true,
      List.dropLast_concat, split, each, Option.map_some]

theorem utf8_bracket (cs : List Char) : (utf8 (String.ofList ('[' :: cs))).head? = some 0x5B := by
  have bytes : (String.ofList ('[' :: cs)).toByteArray = ['['].utf8Encode ++ cs.utf8Encode := by
    rw [String.toByteArray_ofList, List.utf8Encode_cons]
  simp only [utf8, String.toUTF8_eq_toByteArray, bytes, ByteArray.data_append, Array.toList_append]
  rfl

theorem serde_documented : serde.Documented where
  array_bracket xs := by
    simp only [serde, text_ofDoubles]
    exact utf8_bracket _
  array_parse xs := by
    simp only [serde, String.toList_ofList]
    exact array?_ofDoubles xs
  control_rejected string b head control := by
    change array? string.toList = none
    unfold array?
    split
    · rename_i rest bracket
      have same : string = String.ofList ('[' :: rest) := by rw [← bracket, String.ofList_toList]
      rw [same, utf8_bracket] at head
      cases head
      simp at control
    · rfl
  reread_finite _ finite := finite

/-- A text without escapes or an unsigned integer. -/
def scalar? (cs : List Char) : Option (Json Double) :=
  match cs with
  | '"' :: rest =>
      if rest.getLast? = some '"' then some (.string (String.ofList rest.dropLast)) else none
  | digits => (readDigits digits).map fun n => .int n

def member? (cs : List Char) : Option (String × Json Double) :=
  match cs with
  | '"' :: rest =>
      let name := rest.takeWhile (· ≠ '"')
      match rest.drop name.length with
      | '"' :: ':' :: value => (scalar? value).map fun value => (String.ofList name, value)
      | _ => none
  | _ => none

def object? (cs : List Char) : Option (Json Double) :=
  match cs with
  | '{' :: rest =>
      if rest.getLast? = some '}' then
        ((rest.dropLast.splitOn ',').mapM member?).map .object
      else none
  | _ => none

/-- The same printer, with a parser that reads job metadata too. -/
def objectSerde : SerdeJson :=
  { serde with parse := fun string => (array? string.toList).or (object? string.toList) }

theorem utf8_brace (cs : List Char) : (utf8 (String.ofList ('{' :: cs))).head? = some 0x7B := by
  have bytes : (String.ofList ('{' :: cs)).toByteArray = ['{'].utf8Encode ++ cs.utf8Encode := by
    rw [String.toByteArray_ofList, List.utf8Encode_cons]
  simp only [utf8, String.toUTF8_eq_toByteArray, bytes, ByteArray.data_append, Array.toList_append]
  rfl

theorem objectSerde_documented : objectSerde.Documented where
  array_bracket := serde_documented.array_bracket
  array_parse xs := by
    have array : array? (serde.print (Json.ofDoubles xs)).toList = some _ :=
      serde_documented.array_parse xs
    have parsed : objectSerde.parse (serde.print (Json.ofDoubles xs)) = some _ :=
      congrArg (Option.or · _) array
    rw [SerdeJson.wire_ofDoubles] at parsed ⊢
    exact parsed
  control_rejected string b head control := by
    have array := serde_documented.control_rejected string b head control
    simp only [serde] at array
    simp only [objectSerde, array, Option.none_or]
    unfold object?
    split
    · rename_i rest brace
      have same : string = String.ofList ('{' :: rest) := by rw [← brace, String.ofList_toList]
      rw [same, utf8_brace] at head
      cases head
      simp at control
    · rfl
  reread_finite := serde_documented.reread_finite

end DistributedSoftmax.JsonText
