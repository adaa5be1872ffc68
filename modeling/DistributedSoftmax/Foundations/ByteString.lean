import Mathlib.Algebra.Order.Ring.Nat
import Mathlib.Data.List.Basic

/-! Byte strings: fixed-width little-endian words, runs of words of one width,
and the UTF-8 form of strings with its character boundaries. -/

set_option autoImplicit false

namespace Foundations.ByteString

abbrev Bytes := List UInt8

/-- The low `width` bytes of a number, least significant first. -/
def leBytes : Nat → Nat → Bytes
  | 0, _ => []
  | width + 1, n => UInt8.ofNat n :: leBytes width (n / 256)

/-- The number a little-endian byte string stands for. -/
def leValue : Bytes → Nat
  | [] => 0
  | b :: rest => b.toNat + 256 * leValue rest

@[simp] theorem length_leBytes (width n : Nat) : (leBytes width n).length = width := by
  induction width generalizing n with
  | zero => rfl
  | succ width ih => simp [leBytes, ih]

theorem leValue_leBytes {width n : Nat} (bound : n < 256 ^ width) :
    leValue (leBytes width n) = n := by
  induction width generalizing n with
  | zero =>
    have zero : n = 0 := by simpa using bound
    simp [leBytes, leValue, zero]
  | succ width ih =>
    have quotient : n / 256 < 256 ^ width := by
      rw [Nat.div_lt_iff_lt_mul (by decide)]
      simpa [Nat.pow_succ] using bound
    simp only [leBytes, leValue, ih quotient, UInt8.toNat_ofNat']
    exact Nat.mod_add_div n 256

theorem leValue_lt (bytes : Bytes) : leValue bytes < 256 ^ bytes.length := by
  induction bytes with
  | nil => simp [leValue]
  | cons b rest ih =>
    have head := b.toNat_lt
    simp only [leValue, List.length_cons, Nat.pow_succ]
    omega

/-- Every byte string is the little-endian form of its own value. -/
theorem leBytes_leValue (bytes : Bytes) : leBytes bytes.length (leValue bytes) = bytes := by
  induction bytes with
  | nil => rfl
  | cons b rest ih =>
    have head := b.toNat_lt
    have low : UInt8.ofNat (b.toNat + 256 * leValue rest) = b := by
      apply UInt8.toNat_inj.mp
      rw [UInt8.toNat_ofNat']
      omega
    have high : (b.toNat + 256 * leValue rest) / 256 = leValue rest := by omega
    simp only [List.length_cons, leValue, leBytes, low, high, ih]

section
variable {α : Type}

/-- The items from `start` up to `stop`, refused when the range leaves the list. -/
def range? (items : List α) (start stop : Nat) : Option (List α) :=
  if start ≤ stop ∧ stop ≤ items.length then some ((items.drop start).take (stop - start)) else none

theorem range?_append {before word after : List α} {start stop : Nat}
    (first : start = before.length) (last : stop = before.length + word.length) :
    range? (before ++ word ++ after) start stop = some word := by
  subst first last
  have inside : before.length ≤ before.length + word.length ∧
      before.length + word.length ≤ (before ++ word ++ after).length := by
    simp only [List.length_append]
    omega
  rw [range?, if_pos inside]
  simp

theorem range?_eq_some {items : List α} {start width : Nat}
    (inside : start + width ≤ items.length) :
    ∃ word, range? items start (start + width) = some word ∧ word.length = width ∧
      word = (items.drop start).take width := by
  refine ⟨(items.drop start).take width, ?_, ?_, rfl⟩
  · rw [range?, if_pos ⟨Nat.le_add_right _ _, inside⟩, Nat.add_sub_cancel_left]
  · rw [List.length_take, List.length_drop]
    omega

end

/-- A string that is long enough starts with a word of the given width. -/
theorem exists_word (bytes : Bytes) (width : Nat) (long : width ≤ bytes.length) :
    ∃ word rest, word.length = width ∧ bytes = word ++ rest :=
  ⟨bytes.take width, bytes.drop width, List.length_take_of_le long,
    (List.take_append_drop width bytes).symm⟩

/-- Concatenated words of one width, cut back into the words. -/
def words (width : Nat) : Nat → Bytes → List Bytes
  | 0, _ => []
  | count + 1, bytes => bytes.take width :: words width count (bytes.drop width)

@[simp] theorem length_words (width count : Nat) (bytes : Bytes) :
    (words width count bytes).length = count := by
  induction count generalizing bytes with
  | zero => rfl
  | succ count ih => simp [words, ih]

theorem words_flatten {width count : Nat} {bytes : Bytes} (exact : bytes.length = count * width) :
    (words width count bytes).flatten = bytes := by
  induction count generalizing bytes with
  | zero =>
    have empty : bytes = [] := List.eq_nil_of_length_eq_zero (by simpa using exact)
    simp [words, empty]
  | succ count ih =>
    have rest : (bytes.drop width).length = count * width := by
      rw [List.length_drop, exact, Nat.succ_mul, Nat.add_sub_cancel]
    simp only [words, List.flatten_cons, ih rest, List.take_append_drop]

theorem length_of_mem_words {width count : Nat} {bytes : Bytes}
    (exact : bytes.length = count * width) {word : Bytes}
    (member : word ∈ words width count bytes) : word.length = width := by
  induction count generalizing bytes with
  | zero => cases member
  | succ count ih =>
    rw [Nat.succ_mul] at exact
    rcases List.mem_cons.mp member with rfl | later
    · rw [List.length_take]
      omega
    · exact ih (by rw [List.length_drop]; omega) later

theorem words_flatMap {α : Type} {width : Nat} {encode : α → Bytes}
    (fixed : ∀ a, (encode a).length = width) (items : List α) :
    words width items.length (items.flatMap encode) = items.map encode := by
  induction items with
  | nil => rfl
  | cons item rest ih =>
    simp only [List.length_cons, words, List.flatMap_cons, List.map_cons]
    rw [← fixed item, List.take_left, List.drop_left, fixed item, ih]

theorem length_flatMap_fixed {α : Type} {width : Nat} {encode : α → Bytes}
    (fixed : ∀ a, (encode a).length = width) (items : List α) :
    (items.flatMap encode).length = items.length * width := by
  induction items with
  | nil => simp
  | cons item rest ih =>
    rw [List.flatMap_cons, List.length_append, fixed, ih, List.length_cons, Nat.succ_mul, Nat.add_comm]

theorem getElem?_words {width count : Nat} {bytes : Bytes} {i : Nat} (index : i < count) :
    (words width count bytes)[i]? = some ((bytes.drop (i * width)).take width) := by
  induction count generalizing bytes i with
  | zero => omega
  | succ count ih =>
    cases i with
    | zero => simp [words]
    | succ i =>
      simp only [words, List.getElem?_cons_succ, ih (Nat.lt_of_succ_lt_succ index), List.drop_drop,
        Nat.succ_mul, Nat.add_comm]

/-- The UTF-8 bytes of a string. -/
def utf8 (text : String) : Bytes := text.toUTF8.data.toList

/-- The string with the given UTF-8 bytes, if they are well formed. -/
def fromUtf8? (bytes : Bytes) : Option String := String.fromUTF8? ⟨bytes.toArray⟩

@[simp] theorem fromUtf8?_utf8 (text : String) : fromUtf8? (utf8 text) = some text := by
  have same : (⟨(utf8 text).toArray⟩ : ByteArray) = text.toByteArray := by
    simp [utf8]
  rw [fromUtf8?, same, String.fromUTF8?, dif_pos text.isValidUTF8]
  rfl

theorem utf8_of_fromUtf8? {bytes : Bytes} {text : String} (valid : fromUtf8? bytes = some text) :
    utf8 text = bytes := by
  unfold fromUtf8? String.fromUTF8? at valid
  split at valid
  · cases valid
    simp [utf8, String.fromUTF8]
  · cases valid

theorem length_utf8 (text : String) : (utf8 text).length = text.utf8ByteSize := by
  rw [utf8, Array.length_toList]
  rfl

theorem utf8_append (first second : String) : utf8 (first ++ second) = utf8 first ++ utf8 second := by
  simp [utf8, String.toByteArray_append]

/-- `str::is_char_boundary`: a character starts at the offset, or the text ends there. -/
def isCharBoundary (text : String) (k : Nat) : Bool := String.Pos.Raw.isValid text ⟨k⟩

theorem isCharBoundary_iff {text : String} {k : Nat} : isCharBoundary text k = true ↔
    ∃ before after, text = before ++ after ∧ (utf8 before).length = k := by
  rw [isCharBoundary, String.Pos.Raw.isValid_eq_true_iff, String.Pos.Raw.isValid_iff_exists_append]
  simp only [length_utf8, String.Pos.Raw.ext_iff, String.byteIdx_rawEndPos]
  simp only [eq_comm]

/-- `&text[..k]`, which panics when `k` is not a character boundary. -/
def sliceTo? (text : String) (k : Nat) : Option String :=
  if isCharBoundary text k then fromUtf8? ((utf8 text).take k) else none

theorem sliceTo?_append (before after : String) :
    sliceTo? (before ++ after) (utf8 before).length = some before := by
  rw [sliceTo?, if_pos (isCharBoundary_iff.mpr ⟨before, after, rfl, rfl⟩), utf8_append,
    List.take_left, fromUtf8?_utf8]

theorem sliceTo?_eq_none {text : String} {k : Nat} : sliceTo? text k = none ↔
    isCharBoundary text k = false := by
  cases boundary : isCharBoundary text k with
  | false => simp [sliceTo?, boundary]
  | true =>
    obtain ⟨before, after, rfl, rfl⟩ := isCharBoundary_iff.mp boundary
    simp [sliceTo?_append]

/-- The second byte of the last character is not a boundary. -/
example : sliceTo? "jobnameé" 8 = none := by decide

end Foundations.ByteString
