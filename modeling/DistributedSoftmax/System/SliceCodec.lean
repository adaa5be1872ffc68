import DistributedSoftmax.Foundations.Folds
import DistributedSoftmax.JsonText
import DistributedSoftmax.Worker.Handler
import DistributedSoftmax.Gateway.Aggregator

/-! The binary slice formats between the two programs: what the gateway reads
back from what the worker encoded, and that it reads nothing else. -/

set_option autoImplicit false

namespace DistributedSoftmax.System
open Foundations.ByteString Foundations.Folds
open Worker Gateway

/-- The slice a gateway holds for the statistics a worker computed. -/
def ofPartial {D S : Type} (widen : S → D) (stats : PartialStats D S) : SliceStats D :=
  ⟨stats.expValues.map widen, stats.localMax, stats.partialSum, false⟩

/-- The slice a gateway holds for the probabilities a rank computed. -/
def ofNormalized {D S : Type} (zero one : D) (widen : S → D) (probs : List S) : SliceStats D :=
  ⟨probs.map widen, zero, one, true⟩

/-- Reverse of `ofPartial`, for a slice whose values came from single precision. -/
def toPartial (narrow : Double → Single) (s : SliceStats Double) : PartialStats Double Single :=
  ⟨s.localMax, s.partialSum, s.expValues.map narrow⟩

/-- The values behind a header. -/
def singles (n : Nat) (body : Bytes) : List Single :=
  (words 4 n body).map fun word => BitVec.ofNat 32 (leValue word)

@[simp] theorem length_singles (n : Nat) (body : Bytes) : (singles n body).length = n := by
  simp [singles]

theorem singles_flatMap (xs : List Single) : singles xs.length (xs.flatMap f32Bytes) = xs := by
  rw [singles, words_flatMap length_f32Bytes, List.map_map]
  conv => rhs; rw [← List.map_id xs]
  apply List.map_congr_left
  intro x _
  simp only [Function.comp, leValue_f32Bytes, BitVec.ofNat_toNat, BitVec.setWidth_eq, id]

theorem f32Bytes_leValue {word : Bytes} (width : word.length = 4) :
    f32Bytes (BitVec.ofNat 32 (leValue word)) = word := by
  have bound : leValue word < 2 ^ 32 := by simpa [width] using leValue_lt word
  rw [f32Bytes, BitVec.toNat_ofNat, Nat.mod_eq_of_lt bound, ← width, leBytes_leValue]

theorem f64Bytes_leValue {word : Bytes} (width : word.length = 8) :
    f64Bytes (BitVec.ofNat 64 (leValue word)) = word := by
  have bound : leValue word < 2 ^ 64 := by simpa [width] using leValue_lt word
  rw [f64Bytes, BitVec.toNat_ofNat, Nat.mod_eq_of_lt bound, ← width, leBytes_leValue]

theorem u32Bytes_leValue {word : Bytes} (width : word.length = 4) :
    u32Bytes (leValue word) = word := by
  rw [u32Bytes, ← width, leBytes_leValue]

/-- A body of the announced length is the encoding of the values read from it. -/
theorem flatMap_singles {n : Nat} {body : Bytes} (exact : body.length = n * 4) :
    (singles n body).flatMap f32Bytes = body := by
  rw [singles, List.flatMap_map]
  conv => rhs; rw [← words_flatten exact]
  rw [← List.flatMap_id]
  apply List.flatMap_congr
  intro word member
  exact f32Bytes_leValue (length_of_mem_words exact member)

section reads
variable (before after : Bytes)

theorem f64At_append (x : Double) {off : Nat} (position : off = before.length) :
    f64At (before ++ f64Bytes x ++ after) off = .ok x := by
  rw [f64At, bytesAt, range?_append position (by rw [length_f64Bytes, position])]
  simp only [Except.map, leValue_f64Bytes, BitVec.ofNat_toNat, BitVec.setWidth_eq]

theorem u32At_append {n off : Nat} (bound : n < 2 ^ 32) (position : off = before.length) :
    u32At (before ++ u32Bytes n ++ after) off = .ok n := by
  rw [u32At, bytesAt, range?_append position (by rw [length_u32Bytes, position])]
  simp only [Except.map, leValue_u32Bytes bound]

end reads

/-- The loop of `read_slice` over a body of the announced length stays inside it. -/
theorem f32ValuesAt_append (widen : Single → Double) (header : Bytes) {hdr n : Nat} {body : Bytes}
    (position : hdr = header.length) (exact : body.length = n * 4) :
    f32ValuesAt widen (header ++ body) hdr n = .ok ((singles n body).map widen) := by
  have each : ∀ i ∈ List.range n, (f32At (header ++ body) (hdr + i * 4)).map widen =
      .ok (widen (BitVec.ofNat 32 (leValue ((body.drop (i * 4)).take 4)))) := by
    intro i member
    have index : i < n := List.mem_range.mp member
    have inside : hdr + i * 4 + 4 ≤ (header ++ body).length := by
      rw [List.length_append, exact, position]
      omega
    obtain ⟨word, found, -, rfl⟩ := range?_eq_some inside
    rw [f32At, bytesAt, found, position, List.drop_length_add_append]
    rfl
  rw [f32ValuesAt, show (List.range n).mapM _ = .ok _ from mapM_eq_pure each]
  congr 1
  apply List.ext_getElem (by simp)
  intro i index _
  have bound : i < n := by simpa using index
  have inside : i < (words 4 n body).length := by simpa using bound
  have word : (words 4 n body)[i] = (body.drop (i * 4)).take 4 :=
    Option.some.inj ((List.getElem?_eq_getElem _).symm.trans (getElem?_words bound))
  simp only [singles, List.getElem_map, List.getElem_range, word]

section decoding
variable (widen : Single → Double)

/-- `read_slice` on a payload laid out as `0x01`, two doubles, a count and a body. -/
theorem readPartial_layout (x y : Double) {n : Nat} (bound : n < 2 ^ 32) (body : Bytes) :
    readPartial widen ([magicPartial] ++ f64Bytes x ++ f64Bytes y ++ u32Bytes n ++ body) =
      if body.length = n * 4 then
        .ok (some ⟨(singles n body).map widen, x, y, false⟩)
      else .ok none := by
  generalize layout : [magicPartial] ++ f64Bytes x ++ f64Bytes y ++ u32Bytes n ++ body = raw
  have total : raw.length = partialHeader + body.length := by
    subst layout
    simp only [List.length_append, length_f64Bytes, length_u32Bytes, List.length_singleton,
      partialHeader]
  have readMax : f64At raw 1 = .ok x := by
    subst layout
    simpa only [List.append_assoc] using
      f64At_append [magicPartial] (f64Bytes y ++ (u32Bytes n ++ body)) x (List.length_singleton).symm
  have readSum : f64At raw 9 = .ok y := by
    subst layout
    simpa only [List.append_assoc] using
      f64At_append ([magicPartial] ++ f64Bytes x) (u32Bytes n ++ body) y (by simp)
  have readCount : u32At raw 17 = .ok n := by
    subst layout
    exact u32At_append ([magicPartial] ++ f64Bytes x ++ f64Bytes y) body bound (by simp)
  have header : ¬ raw.length < partialHeader := by omega
  unfold readPartial
  rw [if_neg header, readMax, readSum, readCount]
  by_cases exact : body.length = n * 4
  · have count : ¬ raw.length ≠ partialHeader + n * 4 := by rw [total, exact]; exact not_not.mpr rfl
    have values : f32ValuesAt widen raw partialHeader n = .ok ((singles n body).map widen) := by
      subst layout
      exact f32ValuesAt_append widen _ (by simp [partialHeader]) exact
    rw [if_pos exact]
    simp only [bind, Except.bind, pure, Except.pure, if_neg count, values]
  · have count : raw.length ≠ partialHeader + n * 4 := by omega
    rw [if_neg exact]
    simp only [bind, Except.bind, pure, Except.pure, if_pos count]

/-- `read_slice` on a payload laid out as `0x02`, a count and a body. -/
theorem readNormalized_layout {n : Nat} (bound : n < 2 ^ 32) (body : Bytes) :
    readNormalized widen ([magicNormalized] ++ u32Bytes n ++ body) =
      if body.length = n * 4 then .ok (some (ofNormalized .zero .one widen (singles n body)))
      else .ok none := by
  generalize layout : [magicNormalized] ++ u32Bytes n ++ body = raw
  have total : raw.length = normalizedHeader + body.length := by
    subst layout
    simp only [List.length_append, length_u32Bytes, List.length_singleton, normalizedHeader]
  have readCount : u32At raw 1 = .ok n := by
    subst layout
    exact u32At_append [magicNormalized] body bound rfl
  have header : ¬ raw.length < normalizedHeader := by omega
  unfold readNormalized
  rw [if_neg header, readCount]
  by_cases exact : body.length = n * 4
  · have count : ¬ raw.length ≠ normalizedHeader + n * 4 := by
      rw [total, exact]
      exact not_not.mpr rfl
    have values : f32ValuesAt widen raw normalizedHeader n = .ok ((singles n body).map widen) := by
      subst layout
      exact f32ValuesAt_append widen _ (by simp [normalizedHeader]) exact
    rw [if_pos exact]
    simp only [bind, Except.bind, pure, Except.pure, if_neg count, values, ofNormalized]
  · have count : raw.length ≠ normalizedHeader + n * 4 := by omega
    rw [if_neg exact]
    simp only [bind, Except.bind, pure, Except.pure, if_pos count]

/-- What the gateway reads from an encoded slice of fewer than 2^32 values. -/
theorem readPartial_encodePartial {stats : PartialStats Double Single}
    (bound : stats.expValues.length < 2 ^ 32) :
    readPartial widen (encodePartial stats) = .ok (some (ofPartial widen stats)) := by
  have body := length_flatMap_fixed length_f32Bytes stats.expValues
  rw [encodePartial, Nat.mod_eq_of_lt bound, readPartial_layout widen _ _ bound, if_pos body,
    singles_flatMap]
  rfl

theorem readNormalized_encodeNormalized {probs : List Single} (bound : probs.length < 2 ^ 32) :
    readNormalized widen (encodeNormalized probs) = .ok (some (ofNormalized .zero .one widen probs)) := by
  have body := length_flatMap_fixed length_f32Bytes probs
  rw [encodeNormalized, Nat.mod_eq_of_lt bound, readNormalized_layout widen bound, if_pos body,
    singles_flatMap]

/-- A slice whose count wrapped around is not read at all. -/
theorem readPartial_overlong {stats : PartialStats Double Single}
    (overlong : 2 ^ 32 ≤ stats.expValues.length) :
    readPartial widen (encodePartial stats) = .ok none := by
  have body := length_flatMap_fixed length_f32Bytes stats.expValues
  have wrapped : stats.expValues.length % 2 ^ 32 < 2 ^ 32 := Nat.mod_lt _ (by decide)
  rw [encodePartial, readPartial_layout widen _ _ wrapped, if_neg (by omega)]

theorem readNormalized_overlong {probs : List Single} (overlong : 2 ^ 32 ≤ probs.length) :
    readNormalized widen (encodeNormalized probs) = .ok none := by
  have body := length_flatMap_fixed length_f32Bytes probs
  have wrapped : probs.length % 2 ^ 32 < 2 ^ 32 := Nat.mod_lt _ (by decide)
  rw [encodeNormalized, readNormalized_layout widen wrapped, if_neg (by omega)]

/-- A payload of the first format is too short, of the wrong length, or the
encoding of some statistics. -/
theorem partial_payload_cases (rest : Bytes) :
    readPartial widen (magicPartial :: rest) = .ok none ∧
        (∀ stats, stats.expValues.length < 2 ^ 32 → magicPartial :: rest ≠ encodePartial stats) ∨
      ∃ stats, stats.expValues.length < 2 ^ 32 ∧ magicPartial :: rest = encodePartial stats := by
  by_cases short : rest.length < 20
  · left
    constructor
    · rw [readPartial, if_pos (by rw [List.length_cons, partialHeader]; omega)]
      rfl
    · intro stats _ same
      have lengths := congrArg List.length same
      rw [length_encodePartial, List.length_cons] at lengths
      omega
  · -- The header is complete: name its three words and the body behind it.
    obtain ⟨w₁, rest₁, len₁, rfl⟩ := exists_word rest 8 (by omega)
    rw [List.length_append] at short
    obtain ⟨w₂, rest₂, len₂, rfl⟩ := exists_word rest₁ 8 (by omega)
    rw [List.length_append] at short
    obtain ⟨w₃, body, len₃, rfl⟩ := exists_word rest₂ 4 (by omega)
    have bound : leValue w₃ < 2 ^ 32 := by simpa [len₃] using leValue_lt w₃
    have layout : magicPartial :: (w₁ ++ (w₂ ++ (w₃ ++ body))) =
        [magicPartial] ++ f64Bytes (.ofNat 64 (leValue w₁)) ++ f64Bytes (.ofNat 64 (leValue w₂)) ++
          u32Bytes (leValue w₃) ++ body := by
      rw [f64Bytes_leValue len₁, f64Bytes_leValue len₂, u32Bytes_leValue len₃]
      simp only [List.append_assoc, List.cons_append, List.nil_append]
    by_cases exact : body.length = leValue w₃ * 4
    · right
      refine ⟨⟨.ofNat 64 (leValue w₁), .ofNat 64 (leValue w₂), singles (leValue w₃) body⟩, ?_, ?_⟩
      · rw [length_singles]
        exact bound
      · rw [layout, encodePartial, length_singles, Nat.mod_eq_of_lt bound, flatMap_singles exact]
    · left
      constructor
      · rw [layout, readPartial_layout widen _ _ bound, if_neg exact]
      · intro stats count same
        have read := readPartial_encodePartial widen count
        rw [← same, layout, readPartial_layout widen _ _ bound, if_neg exact] at read
        cases read

theorem normalized_payload_cases (rest : Bytes) :
    readNormalized widen (magicNormalized :: rest) = .ok none ∧
        (∀ probs : List Single, probs.length < 2 ^ 32 →
          magicNormalized :: rest ≠ encodeNormalized probs) ∨
      ∃ probs : List Single, probs.length < 2 ^ 32 ∧
        magicNormalized :: rest = encodeNormalized probs := by
  by_cases short : rest.length < 4
  · left
    constructor
    · rw [readNormalized, if_pos (by rw [List.length_cons, normalizedHeader]; omega)]
      rfl
    · intro probs _ same
      have lengths := congrArg List.length same
      rw [length_encodeNormalized, List.length_cons] at lengths
      omega
  · obtain ⟨word, body, width, rfl⟩ := exists_word rest 4 (by omega)
    have bound : leValue word < 2 ^ 32 := by simpa [width] using leValue_lt word
    have layout : magicNormalized :: (word ++ body) =
        [magicNormalized] ++ u32Bytes (leValue word) ++ body := by
      rw [u32Bytes_leValue width]
      rfl
    by_cases exact : body.length = leValue word * 4
    · right
      refine ⟨singles (leValue word) body, ?_, ?_⟩
      · rw [length_singles]
        exact bound
      · rw [layout, encodeNormalized, length_singles, Nat.mod_eq_of_lt bound, flatMap_singles exact]
    · left
      constructor
      · rw [layout, readNormalized_layout widen bound, if_neg exact]
      · intro probs count same
        have read := readNormalized_encodeNormalized widen count
        rw [← same, layout, readNormalized_layout widen bound, if_neg exact] at read
        cases read

end decoding

section slices
variable (serde : SerdeJson) (widen : Single → Double)

theorem readSlice_encodePartial (stats : PartialStats Double Single) :
    readSlice serde widen (some (encodePartial stats)) = readPartial widen (encodePartial stats) := by
  simp [encodePartial, readSlice, magicPartial]

theorem readSlice_encodeNormalized (probs : List Single) :
    readSlice serde widen (some (encodeNormalized probs)) =
      readNormalized widen (encodeNormalized probs) := by
  simp [encodeNormalized, readSlice, magicNormalized]

/-- Whatever a gateway reads from an encoded slice are the statistics of that slice. -/
theorem readSlice_encodePartial_eq_some {stats : PartialStats Double Single}
    {s : SliceStats Double}
    (read : readSlice serde widen (some (encodePartial stats)) = .ok (some s)) :
    s = ofPartial widen stats := by
  rw [readSlice_encodePartial] at read
  rcases Nat.lt_or_ge stats.expValues.length (2 ^ 32) with bound | overlong
  · rw [readPartial_encodePartial widen bound] at read
    exact (Option.some.inj (Except.ok.inj read)).symm
  · rw [readPartial_overlong widen overlong] at read
    cases read

theorem readSlice_encodeNormalized_eq_some {probs : List Single} {s : SliceStats Double}
    (read : readSlice serde widen (some (encodeNormalized probs)) = .ok (some s)) :
    s = ofNormalized .zero .one widen probs := by
  rw [readSlice_encodeNormalized] at read
  rcases Nat.lt_or_ge probs.length (2 ^ 32) with bound | overlong
  · rw [readNormalized_encodeNormalized widen bound] at read
    exact (Option.some.inj (Except.ok.inj read)).symm
  · rw [readNormalized_overlong widen overlong] at read
    cases read

end slices

theorem map_narrow_widen {widen : Single → Double} {narrow : Double → Single}
    (preserving : ∀ x, narrow (widen x) = x) (xs : List Single) :
    (xs.map widen).map narrow = xs := by
  rw [List.map_map]
  conv => rhs; rw [← List.map_id xs]
  exact List.map_congr_left fun x _ => preserving x

theorem toPartial_ofPartial {widen : Single → Double} {narrow : Double → Single}
    (preserving : ∀ x, narrow (widen x) = x) (stats : PartialStats Double Single) :
    toPartial narrow (ofPartial widen stats) = stats := by
  rw [toPartial, ofPartial, map_narrow_widen preserving]

/-- Encoder and decoder of the two slice formats are inverse to each other on
slices of fewer than 2^32 values, and every other payload with their first byte
is read as no slice, without leaving the bytes. -/
theorem sliceCodec_exact (serde : SerdeJson) {widen : Single → Double} {narrow : Double → Single}
    (preserving : ∀ x, narrow (widen x) = x) :
    (∀ stats : PartialStats Double Single, stats.expValues.length < 2 ^ 32 →
      readSlice serde widen (some (encodePartial stats)) = .ok (some (ofPartial widen stats))) ∧
    (∀ probs : List Single, probs.length < 2 ^ 32 →
      readSlice serde widen (some (encodeNormalized probs)) =
        .ok (some (ofNormalized .zero .one widen probs))) ∧
    (∀ rest : Bytes,
      (readSlice serde widen (some (0x01 :: rest)) = .ok none ∧
          ∀ stats, stats.expValues.length < 2 ^ 32 → 0x01 :: rest ≠ encodePartial stats) ∨
        ∃ s, readSlice serde widen (some (0x01 :: rest)) = .ok (some s) ∧
          s.isNormalized = false ∧ s.expValues.length < 2 ^ 32 ∧
          encodePartial (toPartial narrow s) = 0x01 :: rest) ∧
    (∀ rest : Bytes,
      (readSlice serde widen (some (0x02 :: rest)) = .ok none ∧
          ∀ probs : List Single, probs.length < 2 ^ 32 → 0x02 :: rest ≠ encodeNormalized probs) ∨
        ∃ s, readSlice serde widen (some (0x02 :: rest)) = .ok (some s) ∧
          s.isNormalized = true ∧ s.expValues.length < 2 ^ 32 ∧
          encodeNormalized (s.expValues.map narrow) = 0x02 :: rest) := by
  refine ⟨?_, ?_, ?_, ?_⟩
  · intro stats bound
    rw [readSlice_encodePartial, readPartial_encodePartial widen bound]
  · intro probs bound
    rw [readSlice_encodeNormalized, readNormalized_encodeNormalized widen bound]
  · intro rest
    rcases partial_payload_cases widen rest with rejected | ⟨stats, bound, image⟩
    · exact .inl rejected
    · right
      refine ⟨ofPartial widen stats, ?_, rfl, ?_, ?_⟩
      · change readPartial widen (magicPartial :: rest) = _
        rw [image, readPartial_encodePartial widen bound]
      · rw [ofPartial, List.length_map]
        exact bound
      · rw [toPartial_ofPartial preserving]
        exact image.symm
  · intro rest
    rcases normalized_payload_cases widen rest with rejected | ⟨probs, bound, image⟩
    · exact .inl rejected
    · right
      refine ⟨ofNormalized .zero .one widen probs, ?_, rfl, ?_, ?_⟩
      · change readNormalized widen (magicNormalized :: rest) = _
        rw [image, readNormalized_encodeNormalized widen bound]
      · rw [ofNormalized, List.length_map]
        exact bound
      · rw [ofNormalized, map_narrow_widen preserving]
        exact image.symm

theorem sliceCodec_exact_single :
    readSlice JsonText.serde SmallFloats.widen
      (some (encodePartial ⟨Double.zero, Double.one, [Single.one]⟩)) =
        .ok (some ⟨[Double.one], Double.zero, Double.one, false⟩) :=
  (sliceCodec_exact JsonText.serde SmallFloats.narrow_widen).1
    ⟨Double.zero, Double.one, [Single.one]⟩ (by decide)

end DistributedSoftmax.System
