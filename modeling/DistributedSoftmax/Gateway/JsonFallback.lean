import DistributedSoftmax.JsonText
import DistributedSoftmax.Gateway.Aggregator

/-! The JSON fallback of `read_slice`: what it accepts, and when what it accepts
is what the payload says. A field that is missing or no number gets a default,
and values that are no numbers are left out. -/

set_option autoImplicit false

namespace DistributedSoftmax.Gateway
open Foundations.ByteString

/-- A number, as `as_f64` has it. -/
def Numeric (serde : SerdeJson) (value : Json Double) : Prop :=
  (value.asF64 serde.ofInt).isSome = true

/-- The payload is a JSON object with the two statistics and an array of numbers,
and these are the slice, one value for each element. -/
structure JsonSlice (serde : SerdeJson) (raw : Bytes) (s : SliceStats Double) : Prop where
  decoded : ∃ text fields values, fromUtf8? raw = some text ∧
    serde.parse text = some (.object fields) ∧
    ((Json.object fields).field "local_max").asF64 serde.ofInt = some s.localMax ∧
    ((Json.object fields).field "partial_sum").asF64 serde.ofInt = some s.partialSum ∧
    (Json.object fields).field "exp_values" = .array values ∧
    values.map (Json.asF64 serde.ofInt) = s.expValues.map some
  partialStats : s.isNormalized = false

/-- A payload that is accepted as a slice is that slice. -/
def FallbackExact (serde : SerdeJson) (widen : Single → Double) (raw : Bytes) : Prop :=
  ∀ s, readSlice serde widen (some raw) = .ok (some s) → JsonSlice serde raw s

/-- Where a payload has an array of values, both statistics and all elements are numbers. -/
def NothingDefaulted (serde : SerdeJson) (raw : Bytes) : Prop :=
  raw ≠ [] → ∀ text j values, fromUtf8? raw = some text → serde.parse text = some j →
    (j.field "exp_values").asArray = some values →
      Numeric serde (j.field "local_max") ∧ Numeric serde (j.field "partial_sum") ∧
        ∀ value ∈ values, Numeric serde value

section
variable {serde : SerdeJson} {widen : Single → Double} {raw : Bytes}

theorem Numeric.getD {value : Json Double} (numeric : Numeric serde value) (other : Double) :
    value.asF64 serde.ofInt = some ((value.asF64 serde.ofInt).getD other) := by
  obtain ⟨x, same⟩ := Option.isSome_iff_exists.mp numeric
  rw [same, Option.getD_some]

/-- Nothing is left out of an array of numbers. -/
theorem filterMap_numeric {values : List (Json Double)}
    (numeric : ∀ value ∈ values, Numeric serde value) :
    values.map (Json.asF64 serde.ofInt) = (values.filterMap (Json.asF64 serde.ofInt)).map some := by
  induction values with
  | nil => rfl
  | cons value rest ih =>
    obtain ⟨x, same⟩ := Option.isSome_iff_exists.mp (numeric value List.mem_cons_self)
    rw [List.map_cons, same, List.filterMap_cons_some same, List.map_cons,
      ih fun other member => numeric other (List.mem_cons_of_mem value member)]

/-- What the fallback makes of a payload. -/
theorem readJson_eq_ok {s : SliceStats Double} : readJson serde raw = .ok (some s) ↔
    ∃ text j values, fromUtf8? raw = some text ∧ serde.parse text = some j ∧
      (j.field "exp_values").asArray = some values ∧
      s = ⟨values.filterMap (Json.asF64 serde.ofInt),
        ((j.field "local_max").asF64 serde.ofInt).getD .zero,
        ((j.field "partial_sum").asF64 serde.ofInt).getD .one, false⟩ := by
  unfold readJson
  cases utf8 : fromUtf8? raw with
  | none => simp [throw, throwThe, MonadExceptOf.throw]
  | some text =>
    cases parsed : serde.parse text with
    | none => simp [parsed, throw, throwThe, MonadExceptOf.throw]
    | some j =>
      cases array : (j.field "exp_values").asArray with
      | none => simp [parsed, array, throw, throwThe, MonadExceptOf.throw]
      | some values =>
        simp only [parsed, array, pure, Except.pure, Except.ok.injEq, Option.some.injEq]
        constructor
        · intro same
          exact ⟨text, j, values, rfl, parsed, array, same.symm⟩
        · rintro ⟨_, _, _, rfl, parsed', array', rfl⟩
          cases parsed.symm.trans parsed'
          cases array.symm.trans array'
          rfl

/-- Only an object has a field with an array. -/
theorem field_array {j : Json Double} {name : String} {values : List (Json Double)}
    (array : (j.field name).asArray = some values) :
    (∃ fields, j = .object fields) ∧ j.field name = .array values := by
  constructor
  · cases j with
    | object fields => exact ⟨fields, rfl⟩
    | null | bool | int | float | string | array => cases array
  · cases found : j.field name with
    | array items =>
      rw [found] at array
      cases array
      rfl
    | null | bool | int | float | string | object =>
      rw [found] at array
      cases array

theorem readSlice_fallback (first : raw.head? ≠ some 0x01) (second : raw.head? ≠ some 0x02)
    (some_bytes : raw ≠ []) : readSlice serde widen (some raw) = readJson serde raw := by
  cases raw with
  | nil => exact absurd rfl some_bytes
  | cons magic rest =>
    rw [List.head?_cons, ne_eq, Option.some.injEq] at first second
    rw [readSlice, if_neg first, if_neg second]

/-- The fallback loses and invents nothing exactly when nothing is defaulted. -/
theorem fallback_exact_iff (serde : SerdeJson) (widen : Single → Double) {raw : Bytes}
    (first : raw.head? ≠ some 0x01) (second : raw.head? ≠ some 0x02) :
    FallbackExact serde widen raw ↔ NothingDefaulted serde raw := by
  constructor
  · intro exact some_bytes text j values utf8 parsed array
    have accepted : readSlice serde widen (some raw) = .ok (some _) :=
      (readSlice_fallback first second some_bytes).trans
        (readJson_eq_ok.mpr ⟨text, j, values, utf8, parsed, array, rfl⟩)
    obtain ⟨⟨text', fields, values', utf8', parsed', localMax, partialSum, array', each⟩, -⟩ :=
      exact _ accepted
    cases utf8.symm.trans utf8'
    cases parsed.symm.trans parsed'
    rw [array'] at array
    cases array
    refine ⟨Option.isSome_iff_exists.mpr ⟨_, localMax⟩,
      Option.isSome_iff_exists.mpr ⟨_, partialSum⟩, ?_⟩
    intro value member
    have among := List.mem_map_of_mem (f := Json.asF64 serde.ofInt) member
    rw [each] at among
    obtain ⟨x, -, same⟩ := List.mem_map.mp among
    exact Option.isSome_iff_exists.mpr ⟨x, same.symm⟩
  · intro numeric s accepted
    have some_bytes : raw ≠ [] := by
      rintro rfl
      cases accepted
    rw [readSlice_fallback first second some_bytes] at accepted
    obtain ⟨text, j, values, utf8, parsed, array, rfl⟩ := readJson_eq_ok.mp accepted
    obtain ⟨localMax, partialSum, each⟩ := numeric some_bytes text j values utf8 parsed array
    obtain ⟨⟨fields, rfl⟩, items⟩ := field_array array
    exact ⟨⟨text, fields, values, utf8, parsed, localMax.getD _, partialSum.getD _, items,
      filterMap_numeric each⟩, rfl⟩

end

/-- A payload without a sum, and with a null among its values. -/
def brokenText : String := "\x7b\"exp_values\":[1.0,null,0.5],\"local_max\":0.0\x7d"

/-- The printer and parser of arrays, with a parser that reads this text too. -/
def brokenSerde : SerdeJson :=
  { JsonText.serde with
    parse := fun text =>
      if text = brokenText then
        some (.object [("exp_values", .array [.float .one, .null, .float .half]),
          ("local_max", .float .zero)])
      else JsonText.serde.parse text }

theorem brokenSerde_parse : brokenSerde.parse brokenText =
    some (.object [("exp_values", .array [.float .one, .null, .float .half]),
      ("local_max", .float .zero)]) := by
  simp only [brokenSerde, if_true]

theorem fallback_exact_broken : FallbackExact brokenSerde SmallFloats.widen (utf8 brokenText) ↔
    NothingDefaulted brokenSerde (utf8 brokenText) :=
  fallback_exact_iff brokenSerde SmallFloats.widen (by decide) (by decide)

/-- It is accepted with two values for three elements and with a sum of one. -/
theorem broken_accepted :
    readSlice brokenSerde SmallFloats.widen (some (utf8 brokenText)) =
      .ok (some ⟨[.one, .half], .zero, .one, false⟩) ∧
    ¬ FallbackExact brokenSerde SmallFloats.widen (utf8 brokenText) := by
  have accepted : readSlice brokenSerde SmallFloats.widen (some (utf8 brokenText)) =
      .ok (some ⟨[.one, .half], .zero, .one, false⟩) :=
    (readSlice_fallback (by decide) (by decide) (by decide)).trans
      (readJson_eq_ok.mpr ⟨brokenText, _, _, fromUtf8?_utf8 brokenText, brokenSerde_parse, rfl, rfl⟩)
  refine ⟨accepted, fun exact => ?_⟩
  obtain ⟨⟨text, fields, values, decoded, found, -, partialSum, -⟩, -⟩ := exact _ accepted
  cases (fromUtf8?_utf8 brokenText).symm.trans decoded
  cases brokenSerde_parse.symm.trans found
  -- the text has no sum
  cases partialSum

end DistributedSoftmax.Gateway
