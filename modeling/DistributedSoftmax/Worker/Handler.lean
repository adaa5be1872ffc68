import DistributedSoftmax.Json
import DistributedSoftmax.Worker.Softmax

/-! worker-rs/src/handler.rs: the task message, the binary slice formats and
the handling of one message up to the two Redis operations at its end. -/

set_option autoImplicit false

namespace DistributedSoftmax.Worker
open Foundations.ByteString

def magicPartial : UInt8 := 0x01
def magicNormalized : UInt8 := 0x02

structure TaskMessage where
  jobId : String
  sliceId : Nat
  task : String
  data : List Double
  deriving DecidableEq, Repr

/-- The derived `Deserialize`, from the map form that the gateway writes. -/
def TaskMessage.ofJson (serde : SerdeJson) (value : Json Double) : Option TaskMessage := do
  let jobId ← (← value.required "job_id").toString?
  let sliceId ← (← value.required "slice_id").toUnsigned?
  let task ← (← value.required "task").toString?
  let data ← serde.toDoubles? (← value.required "data")
  return ⟨jobId, sliceId, task, data⟩

/-- `to_le_bytes` of a `u32`. -/
def u32Bytes (n : Nat) : Bytes := leBytes 4 n

/-- `to_le_bytes` of an `f64`. -/
def f64Bytes (x : Double) : Bytes := leBytes 8 x.toNat

/-- `to_le_bytes` of an `f32`. -/
def f32Bytes (x : Single) : Bytes := leBytes 4 x.toNat

def encodePartial (stats : PartialStats Double Single) : Bytes :=
  let n := stats.expValues.length % 2 ^ 32
  [magicPartial] ++ f64Bytes stats.localMax ++ f64Bytes stats.partialSum ++ u32Bytes n ++
    stats.expValues.flatMap f32Bytes

def encodeNormalized (probs : List Single) : Bytes :=
  let n := probs.length % 2 ^ 32
  [magicNormalized] ++ u32Bytes n ++ probs.flatMap f32Bytes

/-- `handle_task` up to the write: the parsed message is checked, its slice is
computed and encoded. The text that serde_json could not parse is `none`. -/
def handleTask (serde : SerdeJson)
    (computePartial : List Double → Except String (PartialStats Double Single))
    (raw : Option (Json Double)) : Except String (TaskMessage × Bytes) := do
  let msg ← match raw.bind (TaskMessage.ofJson serde) with
    | some msg => pure msg
    | none => throw "deserialize task message"
  if msg.task ≠ "softmax" then
    throw ("unknown task '" ++ msg.task ++ "' — only 'softmax' is supported")
  if msg.data.isEmpty then
    throw ("empty data slice for job " ++ msg.jobId ++ " slice " ++ toString msg.sliceId)
  let stats ← computePartial msg.data
  return (msg, encodePartial stats)

/-- The key of the SET in `write_result`. -/
def resultKey (jobId : String) (sliceId : Nat) : String :=
  "result:" ++ jobId ++ ":" ++ toString sliceId

/-- The channel of the PUBLISH in `write_result`. -/
def pubChannel (jobId : String) : String := "slice_done:" ++ jobId

/-- Exactly when a message is accepted, and what is written then. -/
theorem handleTask_eq_ok {serde : SerdeJson}
    {computePartial : List Double → Except String (PartialStats Double Single)}
    {raw : Option (Json Double)} {msg : TaskMessage} {payload : Bytes} :
    handleTask serde computePartial raw = .ok (msg, payload) ↔
      raw.bind (TaskMessage.ofJson serde) = some msg ∧ msg.task = "softmax" ∧ msg.data ≠ [] ∧
        ∃ stats, computePartial msg.data = .ok stats ∧ payload = encodePartial stats := by
  unfold handleTask
  cases parsed : raw.bind (TaskMessage.ofJson serde) with
  | none => simp [bind, Except.bind, throw, throwThe, MonadExceptOf.throw]
  | some message =>
    by_cases softmax : message.task = "softmax"
    · by_cases empty : message.data = []
      · simp only [pure, Except.pure, bind, Except.bind, softmax, empty, throw, throwThe,
          MonadExceptOf.throw, ne_eq, not_true_eq_false, if_false, List.isEmpty_nil, if_true]
        constructor
        · intro impossible
          cases impossible
        · rintro ⟨same, -, nonempty, -⟩
          cases same
          exact absurd empty nonempty
      · have nonempty : message.data.isEmpty = false := List.isEmpty_eq_false_iff.mpr empty
        simp only [pure, Except.pure, bind, Except.bind, softmax, nonempty, ne_eq,
          not_true_eq_false, if_false, Bool.false_eq_true]
        cases computed : computePartial message.data with
        | error e =>
          constructor
          · intro impossible
            cases impossible
          · rintro ⟨same, -, -, stats, other, -⟩
            cases same
            rw [computed] at other
            cases other
        | ok stats =>
          constructor
          · intro same
            cases same
            exact ⟨rfl, softmax, empty, stats, computed, rfl⟩
          · rintro ⟨same, -, -, other, computedOther, rfl⟩
            cases same
            rw [computed] at computedOther
            cases computedOther
            rfl
    · simp only [pure, Except.pure, bind, Except.bind, softmax, throw, throwThe,
        MonadExceptOf.throw, ne_eq, not_false_eq_true, if_true]
      constructor
      · intro impossible
        cases impossible
      · rintro ⟨same, task, -⟩
        cases same
        exact absurd task softmax

@[simp] theorem length_f64Bytes (x : Double) : (f64Bytes x).length = 8 := length_leBytes 8 _
@[simp] theorem length_f32Bytes (x : Single) : (f32Bytes x).length = 4 := length_leBytes 4 _
@[simp] theorem length_u32Bytes (n : Nat) : (u32Bytes n).length = 4 := length_leBytes 4 _

theorem leValue_f64Bytes (x : Double) : leValue (f64Bytes x) = x.toNat :=
  leValue_leBytes x.isLt

theorem leValue_f32Bytes (x : Single) : leValue (f32Bytes x) = x.toNat :=
  leValue_leBytes x.isLt

theorem leValue_u32Bytes {n : Nat} (bound : n < 2 ^ 32) : leValue (u32Bytes n) = n :=
  leValue_leBytes bound

theorem length_encodePartial (stats : PartialStats Double Single) :
    (encodePartial stats).length = 21 + stats.expValues.length * 4 := by
  simp only [encodePartial, List.length_append, length_f64Bytes, length_u32Bytes,
    length_flatMap_fixed length_f32Bytes, List.length_singleton]

theorem length_encodeNormalized (probs : List Single) :
    (encodeNormalized probs).length = 5 + probs.length * 4 := by
  simp only [encodeNormalized, List.length_append, length_u32Bytes,
    length_flatMap_fixed length_f32Bytes, List.length_singleton]

end DistributedSoftmax.Worker
