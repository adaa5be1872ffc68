import DistributedSoftmax.Gateway.ReadHistory
import DistributedSoftmax.System.JobEffects
import DistributedSoftmax.System.Submission

/-! TRANSPORT=zmq: how a vector is cut for a given NUM_SLICES, which slice
identifiers are published, and which ones the gateway then looks up. -/

set_option autoImplicit false

namespace DistributedSoftmax.System
open Foundations.ByteString Foundations.KeyValue Foundations.Transition
open Gateway Jobs Submission

/-- The slices are a partition of the vector into parts of one size, the last of
which may be smaller. -/
structure SlicePartition {α : Type} (vector : List α) (n size : Nat) (slices : List (List α)) :
    Prop where
  positive : 1 ≤ size
  nonempty : ∀ slice ∈ slices, slice ≠ []
  full : ∀ (i : Nat) slice, slices[i]? = some slice → i + 1 < slices.length → slice.length = size
  within : ∀ slice ∈ slices, slice.length ≤ size
  whole : slices.flatten = vector
  some_slice : 1 ≤ slices.length
  few : slices.length ≤ min n vector.length
  count : slices.length = (vector.length + size - 1) / size

/-- One message for each slice, under its index. -/
def messages (p : Platform) (request : TaskRequest) (slices : List (List Double)) : List String :=
  (List.range slices.length).map fun i => payload p request i (slices[i]?.getD [])

/-- What the calls that wait for the job, or count its slices, look up for a
given number of slices: the indices below it. -/
structure LooksUp (jobId : String) (totalSlices : Nat) : Prop where
  counted : (RedisManager.getCompletedSliceCount jobId totalSlices).map Command.key =
    (List.range totalSlices).map (RedisConfig.sliceKey jobId)
  awaited : ∀ receiver events history,
    run (History.step jobId) events (.start totalSlices receiver) = some history →
      (∀ entry ∈ history.reads, entry.1 < totalSlices) ∧
      ((∃ k, history.waiting.point = .passing k ∧ totalSlices ≤ k) ∨
          (∃ outcome, history.waiting.point = .left outcome) →
        ∀ i < totalSlices, ∃ outcome, (i, outcome) ∈ history.reads)

theorem looksUp (jobId : String) (totalSlices : Nat) : LooksUp jobId totalSlices where
  counted := by
    rw [RedisManager.getCompletedSliceCount, List.map_map]
    rfl
  awaited _ _ _ ran := read_indices ran

theorem slicePartition {α : Type} {vector : List α} {n : Nat} (some_values : vector ≠ [])
    (positive : 0 < n) :
    SlicePartition vector n (sliceSize vector.length n) (chunks (sliceSize vector.length n) vector) := by
  have length := List.length_pos_of_ne_nil some_values
  have size := sliceSize_pos length positive
  have nonempty : ∀ slice ∈ chunks (sliceSize vector.length n) vector, slice ≠ [] :=
    fun slice member => chunks_nonempty size member
  have whole := chunks_flatten size vector
  have one : 1 ≤ (chunks (sliceSize vector.length n) vector).length := by
    apply List.length_pos_of_ne_nil
    intro none
    rw [none] at whole
    exact some_values whole.symm
  refine ⟨size, nonempty, fun i slice at_i later => length_chunk_of_not_last at_i later,
    fun slice member => length_of_mem_chunks member, whole, one, le_min ?_ ?_, length_chunks size vector⟩
  · rw [length_chunks size]
    exact div_sliceSize_le length positive
  · rw [length_chunks size]
    apply Nat.div_le_of_le_mul
    have product := Nat.le_mul_of_pos_right (sliceSize vector.length n - 1) length
    have split : sliceSize vector.length n * vector.length =
        (sliceSize vector.length n - 1) * vector.length + vector.length := by
      conv => lhs; rw [← Nat.sub_add_cancel size, Nat.succ_mul]
    omega

section publishing
variable (p : Platform) (request : TaskRequest)

/-- On one queue every message is published, in the order of the slices. -/
theorem publishLoop_queue (rest : List (List Double)) (sliceId : Nat) (queue : List String) :
    publishLoop p ZmqPublisher.publish .zmq request sliceId rest queue =
      (queue ++ (List.range rest.length).map fun i =>
        payload p request (sliceId + i) (rest[i]?.getD []), .ok ()) := by
  induction rest generalizing sliceId queue with
  | nil =>
    rw [List.length_nil, List.range_zero, List.map_nil, List.append_nil]
    rfl
  | cons data rest ih =>
    have first : ZmqPublisher.publish queue (publishSubject .zmq sliceId)
        (payload p request sliceId data) = .ok (queue ++ [payload p request sliceId data]) := rfl
    rw [publishLoop, first]
    simp only [ih, List.length_cons, List.range_succ_eq_map, List.map_cons, List.map_map,
      List.append_assoc, List.singleton_append, List.getElem?_cons_zero, Option.getD_some,
      Nat.add_zero]
    congr 4
    funext i
    simp only [Function.comp, List.getElem?_cons_succ, Nat.succ_eq_add_one, Nat.add_right_comm,
      Nat.add_assoc]

theorem publishLoop_messages (slices : List (List Double)) (queue : List String) :
    publishLoop p ZmqPublisher.publish .zmq request 0 slices queue =
      (queue ++ messages p request slices, .ok ()) := by
  rw [publishLoop_queue]
  simp only [Nat.zero_add, messages]

end publishing

/-- serde_json reads its own text of job metadata. -/
def RereadsMetadata (serde : SerdeJson) (m : JobMetadata) : Prop :=
  serde.parse (serde.print m.toJson) = some m.toJson

example : RereadsMetadata JsonText.objectSerde ⟨"j", "softmax", 3, 0, "submitted"⟩ := by rfl

theorem ofJson_toJson {m : JobMetadata} (slices : m.totalSlices < 2 ^ 64)
    (created : m.createdAt < 2 ^ 64) :
    JobMetadata.ofJson m.toJson = some m := by
  simp only [JobMetadata.ofJson, JobMetadata.toJson, Json.required, List.find?, String.reduceBEq,
    Option.map_some, Option.bind_eq_bind, Option.bind_some, Json.toString?, Json.toUnsigned?_natCast,
    slices, created, if_true, pure]

/-- The metadata of a call whose SETEX was acknowledged is read back. -/
theorem decodeJobMetadata_stored {p : Platform} {fault : Fault} {store store' : Store} {jobId : String}
    {m : JobMetadata} (rereads : RereadsMetadata p.serde m) (slices : m.totalSlices < 2 ^ 64)
    (created : m.createdAt < 2 ^ 64)
    (stored : attempt fault (RedisManager.setJobMetadata p.env p.serde jobId m) store =
      (store', some .ok)) :
    RedisManager.decodeJobMetadata p.serde (found store' (RedisConfig.metadataKey jobId)) =
      .ok (some m) := by
  rw [found, attempt_setEx_ok stored, Option.map_some, RedisManager.decodeJobMetadata,
    RedisManager.getStr, fromUtf8?_utf8]
  rw [RereadsMetadata] at rereads
  simp only [bind, Except.bind, rereads, Option.bind_some, ofJson_toJson slices created]
  rfl

/-- What becomes of an admitted request with TRANSPORT=zmq: its slices, the
messages for them, the metadata that `get_result` reads back, and what is looked
up for the number of slices that all of them use. -/
def ZmqDispatch (p : Platform) (request : TaskRequest) : Prop :=
  ∃ slices, requestSlices .zmq p.env p.widen request = .ok slices ∧
    SlicePartition (request.vector.map p.widen) (numSlices p.env)
      (sliceSize request.vector.length (numSlices p.env)) slices ∧
    (∀ queue, publishLoop p ZmqPublisher.publish .zmq request 0 slices queue =
      (queue ++ messages p request slices, .ok ())) ∧
    (∀ fault now store store' queue, attempt fault (RedisManager.setJobMetadata p.env p.serde
        request.jobId (submittedMetadata request slices.length now)) store = (store', some .ok) →
      submitTask p ZmqPublisher.publish .zmq request fault now ⟨store, queue⟩ =
          (⟨store', queue ++ messages p request slices⟩, .ok slices.length) ∧
        (now < 2 ^ 64 → RereadsMetadata p.serde (submittedMetadata request slices.length now) →
          RedisManager.decodeJobMetadata p.serde
              (found store' (RedisConfig.metadataKey request.jobId)) =
            .ok (some (submittedMetadata request slices.length now)))) ∧
    LooksUp request.jobId slices.length

end DistributedSoftmax.System
