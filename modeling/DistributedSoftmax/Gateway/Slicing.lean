import Mathlib.Data.List.Basic
import Mathlib.Order.Monotone.Defs
import DistributedSoftmax.Gateway.Service

/-! The two ways in which `submit_task` cuts a vector: the slices are not
empty, and in their order they are the vector. -/

set_option autoImplicit false

namespace DistributedSoftmax.Gateway
open Foundations.ByteString Foundations.Decimal

variable {α : Type}

theorem chunks_go_nil (size fuel : Nat) : chunks.go size fuel ([] : List α) = [] := by
  cases fuel <;> rfl

section chunks
variable {size : Nat} (positive : 0 < size)
include positive

theorem chunks_go_flatten {fuel : Nat} {data : List α} (enough : data.length ≤ fuel) :
    (chunks.go size fuel data).flatten = data := by
  induction fuel generalizing data with
  | zero => exact (List.eq_nil_of_length_eq_zero (Nat.le_zero.mp enough)).symm
  | succ fuel ih =>
    rw [chunks.go]
    split
    · rename_i empty
      exact (List.isEmpty_iff.mp empty).symm
    · have rest : (data.drop size).length ≤ fuel := by
        rw [List.length_drop]
        omega
      rw [List.flatten_cons, ih rest, List.take_append_drop]

theorem chunks_flatten (data : List α) : (chunks size data).flatten = data :=
  chunks_go_flatten positive (Nat.le_refl _)

theorem chunks_go_nonempty {fuel : Nat} {data chunk : List α}
    (member : chunk ∈ chunks.go size fuel data) : chunk ≠ [] := by
  induction fuel generalizing data with
  | zero => cases member
  | succ fuel ih =>
    rw [chunks.go] at member
    split at member
    · cases member
    · rename_i nonempty
      rcases List.mem_cons.mp member with rfl | later
      · intro empty
        rcases List.take_eq_nil_iff.mp empty with zero | none
        · omega
        · exact nonempty (List.isEmpty_iff.mpr none)
      · exact ih later

/-- The number of chunks is the length over the size, rounded up. -/
theorem length_chunks (data : List α) :
    (chunks size data).length = (data.length + size - 1) / size := by
  have general : ∀ (fuel : Nat) (data : List α), data.length ≤ fuel →
      (chunks.go size fuel data).length = (data.length + size - 1) / size := by
    intro fuel
    induction fuel with
    | zero =>
      intro data enough
      rw [Nat.le_zero.mp enough, Nat.zero_add, Nat.div_eq_of_lt (by omega)]
      rfl
    | succ fuel ih =>
      intro data enough
      rw [chunks.go]
      split
      · rename_i empty
        rw [List.isEmpty_iff.mp empty, List.length_nil, List.length_nil, Nat.zero_add,
          Nat.div_eq_of_lt (by omega)]
      · rename_i some_values
        have positive' : 0 < data.length :=
          List.length_pos_of_ne_nil fun empty => some_values (List.isEmpty_iff.mpr empty)
        rw [List.length_cons, ih (data.drop size) (by rw [List.length_drop]; omega), List.length_drop,
          ← Nat.add_div_right _ positive]
        -- A chunk that is not full is the last one.
        rcases Nat.lt_or_ge data.length size with last | full
        · rw [Nat.sub_eq_zero_of_le last.le, Nat.div_eq_of_lt_le (k := 1) (by omega) (by omega),
            Nat.div_eq_of_lt_le (k := 1) (by omega) (by omega)]
        · congr 1
          omega
  exact general data.length data (Nat.le_refl _)

theorem chunks_nonempty {data chunk : List α} (member : chunk ∈ chunks size data) : chunk ≠ [] :=
  chunks_go_nonempty positive member

end chunks

theorem length_of_mem_chunks {size : Nat} {data chunk : List α}
    (member : chunk ∈ chunks size data) : chunk.length ≤ size := by
  have general : ∀ (fuel : Nat) (rest : List α), chunk ∈ chunks.go size fuel rest →
      chunk.length ≤ size := by
    intro fuel
    induction fuel with
    | zero =>
      intro rest member
      cases member
    | succ fuel ih =>
      intro rest member
      rw [chunks.go] at member
      split at member
      · cases member
      · rcases List.mem_cons.mp member with rfl | later
        · exact List.length_take_le size rest
        · exact ih (rest.drop size) later
  exact general data.length data member

/-- A chunk behind which there is another one is full. -/
theorem length_chunk_of_not_last {size : Nat} {data chunk : List α} {i : Nat}
    (at_i : (chunks size data)[i]? = some chunk) (later : i + 1 < (chunks size data).length) :
    chunk.length = size := by
  have general : ∀ (fuel : Nat) (data : List α) (i : Nat), (chunks.go size fuel data)[i]? = some chunk →
      i + 1 < (chunks.go size fuel data).length → chunk.length = size := by
    intro fuel
    induction fuel with
    | zero =>
      intro data i at_i
      cases at_i
    | succ fuel ih =>
      intro data i at_i later
      rw [chunks.go] at at_i later
      split at at_i
      · cases at_i
      · rename_i some_values
        rw [if_neg some_values, List.length_cons] at later
        cases i with
        | zero =>
          cases at_i
          rw [List.length_take]
          by_contra short
          have none_left : data.drop size = [] := List.drop_eq_nil_of_le (by omega)
          rw [none_left, chunks_go_nil] at later
          exact absurd later (Nat.lt_irrefl 1)
        | succ i => exact ih (data.drop size) i at_i (Nat.lt_of_succ_lt_succ later)
  exact general data.length data i at_i later

/-- The length of chunk `i` in `even_chunks`. -/
def evenTake (len n i : Nat) : Nat := len / n + if i < len % n then 1 else 0

/-- Where chunk `i` starts. -/
def evenStart (len n : Nat) : Nat → Nat
  | 0 => 0
  | i + 1 => evenStart len n i + evenTake len n i

def evenChunk (data : List α) (n i : Nat) : List α :=
  (data.drop (evenStart data.length n i)).take (evenTake data.length n i)

theorem evenStart_eq (len n i : Nat) : evenStart len n i = i * (len / n) + min i (len % n) := by
  induction i with
  | zero => simp [evenStart]
  | succ i ih =>
    rw [evenStart, ih, evenTake, Nat.succ_mul]
    split <;> omega

theorem evenStart_self (len : Nat) {n : Nat} (positive : 0 < n) : evenStart len n n = len := by
  rw [evenStart_eq, Nat.min_eq_right (Nat.mod_lt len positive).le]
  exact Nat.div_add_mod len n

theorem evenStart_le (len : Nat) {n i : Nat} (index : i ≤ n) :
    evenStart len n i ≤ len := by
  rw [evenStart_eq]
  calc i * (len / n) + min i (len % n)
      ≤ n * (len / n) + len % n :=
        Nat.add_le_add (Nat.mul_le_mul_right _ index) (Nat.min_le_right _ _)
    _ = len := Nat.div_add_mod len n

/-- `even_chunks` never slices out of bounds, and these are its chunks. -/
theorem evenChunks_eq (data : List α) {n : Nat} (positive : 0 < n) :
    evenChunks data n = some ((List.range n).map (evenChunk data n)) := by
  have loop : ∀ k, k ≤ n →
      (List.range k).foldlM (evenChunksStep data (data.length / n) (data.length % n)) (0, []) =
        some (evenStart data.length n k, (List.range k).map (evenChunk data n)) := by
    intro k
    induction k with
    | zero => intro _; rfl
    | succ k ih =>
      intro index
      have inside : evenStart data.length n k + evenTake data.length n k ≤ data.length :=
        evenStart_le data.length index
      obtain ⟨chunk, cut, -, rfl⟩ := range?_eq_some inside
      have round : evenChunksStep data (data.length / n) (data.length % n)
          (evenStart data.length n k, (List.range k).map (evenChunk data n)) k =
            some (evenStart data.length n (k + 1), (List.range k).map (evenChunk data n) ++
              [evenChunk data n k]) := by
        rw [evenTake] at cut
        rw [evenChunksStep, cut]
        rfl
      rw [List.range_succ, List.foldlM_append, ih (by omega), Option.bind_eq_bind, Option.bind_some,
        List.foldlM_cons, round, List.map_append]
      rfl
  simp only [evenChunks, if_neg (Nat.ne_of_gt positive), loop n (Nat.le_refl n), Option.map_some]

theorem evenChunks_flatten (data : List α) {n : Nat} (positive : 0 < n) :
    ((List.range n).map (evenChunk data n)).flatten = data := by
  have upTo : ∀ k, ((List.range k).map (evenChunk data n)).flatten =
      data.take (evenStart data.length n k) := by
    intro k
    induction k with
    | zero => simp [evenStart]
    | succ k ih =>
      rw [List.range_succ, List.map_append, List.flatten_append, ih, evenStart, List.take_add]
      simp [evenChunk]
  rw [upTo n, evenStart_self data.length positive, List.take_length]

theorem length_evenChunk (data : List α) {n i : Nat} (index : i < n) :
    (evenChunk data n i).length = evenTake data.length n i := by
  have inside : evenStart data.length n (i + 1) ≤ data.length :=
    evenStart_le data.length index
  rw [evenStart] at inside
  rw [evenChunk, List.length_take, List.length_drop]
  omega

theorem evenChunk_nonempty {data : List α} {n i : Nat} (index : i < n)
    (long : n ≤ data.length) : evenChunk data n i ≠ [] := by
  have base : 0 < data.length / n := Nat.div_pos long (by omega)
  apply List.ne_nil_of_length_pos
  rw [length_evenChunk data index, evenTake]
  omega

theorem evenTake_antitone (len n : Nat) : Antitone (evenTake len n) := by
  intro i j before
  rw [evenTake, evenTake]
  split <;> split <;> omega

theorem evenTake_le_succ (len n i j : Nat) : evenTake len n i ≤ evenTake len n j + 1 := by
  rw [evenTake, evenTake]
  split <;> split <;> omega

theorem cutSlices_cases {dispatch : Dispatch} {env : Env} {vector : List α}
    {slices : List (List α)} (cut : cutSlices dispatch env vector = .ok slices) :
    (dispatch.ncclDispatch = true ∧ 0 < dispatch.worldSize ∧ dispatch.worldSize ≤ vector.length ∧
      slices = (List.range dispatch.worldSize).map (evenChunk vector dispatch.worldSize)) ∨
    (dispatch.ncclDispatch = false ∧ ∃ size, 0 < size ∧ slices = chunks size vector) := by
  unfold cutSlices at cut
  split at cut
  · rename_i nccl
    split at cut
    · cases cut
    · rename_i long
      split at cut
      · rename_i found
        cases cut
        rcases Nat.eq_zero_or_pos dispatch.worldSize with zero | positive
        · rw [zero, evenChunks, if_pos rfl] at found
          cases found
        · rw [evenChunks_eq vector positive] at found
          exact .inl ⟨nccl, positive, Nat.le_of_not_lt long, (Option.some.inj found).symm⟩
      · cases cut
  · rename_i zmq
    simp only at cut
    split at cut
    · cases cut
    · rename_i positive
      cases cut
      exact .inr ⟨by simpa using zmq, _, Nat.pos_of_ne_zero positive, rfl⟩

theorem numSlices_bounds (env : Env) : 0 < numSlices env ∧ numSlices env < 2 ^ 64 := by
  unfold numSlices
  cases configured : ((env "NUM_SLICES").bind (parseUnsigned 64)).filter (0 < ·) with
  | none => exact ⟨by decide, by decide⟩
  | some n =>
    obtain ⟨parsed, positive⟩ := Option.filter_eq_some_iff.mp configured
    obtain ⟨text, -, read⟩ := Option.bind_eq_some_iff.mp parsed
    rw [Option.getD_some]
    exact ⟨of_decide_eq_true positive, parseUnsigned_lt read⟩

/-- `slice_size` for NUM_SLICES slices: the length over their number, rounded up. -/
def sliceSize (len n : Nat) : Nat := (len + n - 1) / n

theorem sliceSize_pos {len n : Nat} (some_values : 0 < len) (positive : 0 < n) :
    0 < sliceSize len n :=
  Nat.div_pos (by omega) positive

/-- Cutting by that size gives at most so many slices. -/
theorem div_sliceSize_le {len n : Nat} (some_values : 0 < len) (positive : 0 < n) :
    (len + sliceSize len n - 1) / sliceSize len n ≤ n := by
  have covers : len ≤ n * sliceSize len n := by
    have whole := Nat.div_add_mod (len + n - 1) n
    have rest := Nat.mod_lt (len + n - 1) positive
    rw [sliceSize]
    omega
  have below : len + sliceSize len n - 1 < (n + 1) * sliceSize len n := by
    have size := sliceSize_pos some_values positive
    rw [Nat.succ_mul]
    omega
  exact Nat.le_of_lt_succ ((Nat.div_lt_iff_lt_mul (sliceSize_pos some_values positive)).mpr below)

/-- With TRANSPORT=zmq the size does not wrap around on the lengths a machine has. -/
theorem cutSlices_zmq {env : Env} {vector : List α} (nonempty : vector ≠ [])
    (fits : vector.length + numSlices env < 2 ^ 64) :
    cutSlices .zmq env vector = .ok (chunks (sliceSize vector.length (numSlices env)) vector) := by
  have size := sliceSize_pos (List.length_pos_of_ne_nil nonempty) (numSlices_bounds env).1
  have whole : (vector.length + numSlices env - 1) % 2 ^ 64 = vector.length + numSlices env - 1 :=
    Nat.mod_eq_of_lt (by omega)
  rw [cutSlices, if_neg (by decide)]
  simp only [whole]
  exact if_neg (Nat.ne_of_gt size)

theorem cutSlices_of_long {worldSize : Nat} (env : Env) {vector : List α} {slices : List (List α)}
    (cut : evenChunks vector worldSize = some slices) (long : worldSize ≤ vector.length) :
    cutSlices ⟨true, worldSize⟩ env vector = .ok slices := by
  simp only [cutSlices, if_true, if_neg (Nat.not_lt.mpr long), cut]

/-- The slices of an admitted vector are its parts, in their order. -/
theorem cutSlices_flatten {dispatch : Dispatch} {env : Env} {vector : List α}
    {slices : List (List α)} (cut : cutSlices dispatch env vector = .ok slices) :
    slices.flatten = vector := by
  rcases cutSlices_cases cut with ⟨-, positive, -, rfl⟩ | ⟨-, size, positive, rfl⟩
  · exact evenChunks_flatten vector positive
  · exact chunks_flatten positive vector

theorem cutSlices_nonempty {dispatch : Dispatch} {env : Env} {vector : List α}
    {slices : List (List α)} (cut : cutSlices dispatch env vector = .ok slices) :
    ∀ slice ∈ slices, slice ≠ [] := by
  rcases cutSlices_cases cut with ⟨-, -, long, rfl⟩ | ⟨-, size, positive, rfl⟩
  · intro slice member
    obtain ⟨i, index, rfl⟩ := List.mem_map.mp member
    exact evenChunk_nonempty (List.mem_range.mp index) long
  · exact fun slice member => chunks_nonempty positive member

theorem length_le_flatten {α : Type} {slices : List (List α)}
    (nonempty : ∀ slice ∈ slices, slice ≠ []) : slices.length ≤ slices.flatten.length := by
  induction slices with
  | nil => exact Nat.le_refl 0
  | cons slice rest ih =>
    have first := List.length_pos_of_ne_nil (nonempty slice List.mem_cons_self)
    have others := ih fun other member => nonempty other (List.mem_cons_of_mem _ member)
    rw [List.length_cons, List.flatten_cons, List.length_append]
    omega

/-- With one rank for each slice there is one slice for each rank. -/
theorem length_cutSlices_nccl {worldSize : Nat} {env : Env} {vector : List α}
    {slices : List (List α)} (cut : cutSlices ⟨true, worldSize⟩ env vector = .ok slices) :
    slices.length = worldSize := by
  rcases cutSlices_cases cut with ⟨-, -, -, rfl⟩ | ⟨zmq, -⟩
  · rw [List.length_map, List.length_range]
  · cases zmq

/-- With TRANSPORT=zmq a vector of usual length is cut unless the sum in the
slice size wraps around. -/
theorem cutSlices_zmq_eq_ok (env : Env) {vector : List α} (nonempty : vector ≠ [])
    (short : vector.length < 2 ^ 63) :
    (∃ slices, cutSlices .zmq env vector = .ok slices) ↔
      vector.length + numSlices env ≤ 2 ^ 64 := by
  obtain ⟨positive, below⟩ := numSlices_bounds env
  have some_values := List.length_pos_of_ne_nil nonempty
  rw [cutSlices, if_neg (by decide)]
  simp only
  constructor
  · rintro ⟨slices, cut⟩
    by_contra wraps
    have rest : (vector.length + numSlices env - 1) % 2 ^ 64 < numSlices env := by omega
    rw [if_pos (Nat.div_eq_of_lt rest)] at cut
    cases cut
  · intro fits
    have whole : (vector.length + numSlices env - 1) % 2 ^ 64 =
        vector.length + numSlices env - 1 := Nat.mod_eq_of_lt (by omega)
    have size : ¬ (vector.length + numSlices env - 1) % 2 ^ 64 / numSlices env = 0 := by
      rw [whole]
      have one_le := (Nat.one_le_div_iff positive).mpr
        (by omega : numSlices env ≤ vector.length + numSlices env - 1)
      omega
    exact ⟨_, if_neg size⟩

/-- A request is admitted exactly when it passes the checks and its vector can be cut. -/
theorem requestSlices_eq_ok {dispatch : Dispatch} {env : Env} {widen : Single → Double}
    {request : TaskRequest} {slices : List (List Double)} :
    requestSlices dispatch env widen request = .ok slices ↔ request.task = "softmax" ∧
      request.vector ≠ [] ∧ cutSlices dispatch env (request.vector.map widen) = .ok slices := by
  unfold requestSlices
  by_cases task : request.task = "softmax"
  · by_cases empty : request.vector = []
    · simp only [task, empty, ne_eq, not_true_eq_false, if_false, List.map_nil, List.length_nil,
        if_true, false_and, and_false, iff_false]
      intro impossible
      cases impossible
    · have length : ¬ (request.vector.map widen).length = 0 := by
        rw [List.length_map, List.length_eq_zero_iff]
        exact empty
      simp only [task, empty, length, ne_eq, not_true_eq_false, not_false_eq_true, if_false, true_and]
  · simp only [task, ne_eq, not_false_eq_true, if_true, false_and, iff_false]
    intro impossible
    cases impossible

/-- A vector that is too short for the ranks is refused, whatever else is wrong. -/
theorem requestSlices_short {worldSize : Nat} {env : Env} {widen : Single → Double}
    {request : TaskRequest} (short : request.vector.length < worldSize) :
    ∃ message, requestSlices ⟨true, worldSize⟩ env widen request =
        .error (.invalidArgument message) ∧
      (request.task = "softmax" → request.vector ≠ [] →
        message = tooShort request.vector.length worldSize) := by
  unfold requestSlices
  by_cases task : request.task = "softmax"
  · by_cases empty : request.vector = []
    · refine ⟨"empty input vector", ?_, fun _ some_values => absurd empty some_values⟩
      simp only [task, empty, ne_eq, not_true_eq_false, if_false, List.map_nil, List.length_nil,
        if_true]
      rfl
    · have length : ¬ request.vector.length = 0 := mt List.length_eq_zero_iff.mp empty
      refine ⟨tooShort request.vector.length worldSize, ?_, fun _ _ => rfl⟩
      simp only [task, length, ne_eq, not_true_eq_false, if_false, cutSlices, if_true,
        List.length_map, short]
  · refine ⟨"only softmax task supported", ?_, fun softmax => absurd softmax task⟩
    simp only [task, ne_eq, not_false_eq_true, if_true]
    rfl

end DistributedSoftmax.Gateway
