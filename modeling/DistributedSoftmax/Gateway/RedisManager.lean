import DistributedSoftmax.Json
import DistributedSoftmax.Foundations.KeyValue
import DistributedSoftmax.Gateway.Config

/-! gateway-rs/src/redis_manager.rs: the domain operations, each as the Redis
commands it issues, and what the callers make of the replies. -/

set_option autoImplicit false

namespace DistributedSoftmax.Gateway
open Foundations.ByteString Foundations.KeyValue

structure JobMetadata where
  jobId : String
  taskType : String
  totalSlices : Nat
  createdAt : Nat
  status : String
  deriving DecidableEq, Repr

def defaultStatus : String := "submitted"

/-- The derived `Serialize` writes the fields in the order of the declaration. -/
def JobMetadata.toJson (m : JobMetadata) : Json Double :=
  .object [("job_id", .string m.jobId), ("task_type", .string m.taskType),
    ("total_slices", .int m.totalSlices), ("created_at", .int m.createdAt),
    ("status", .string m.status)]

/-- The derived `Deserialize`; a missing status gets the default. -/
def JobMetadata.ofJson (value : Json Double) : Option JobMetadata := do
  let jobId ← (← value.required "job_id").toString?
  let taskType ← (← value.required "task_type").toString?
  let totalSlices ← (← value.required "total_slices").toUnsigned?
  let createdAt ← (← value.required "created_at").toUnsigned?
  let status ← match value.required "status" with
    | none => some defaultStatus
    | some text => text.toString?
  return ⟨jobId, taskType, totalSlices, createdAt, status⟩

namespace RedisManager

/-- `get_str`: a value that is no UTF-8 is an error of the client library. -/
def getStr : Option Bytes → Except Unit (Option String)
  | none => .ok none
  | some bytes => match fromUtf8? bytes with
    | some text => .ok (some text)
    | none => .error ()

def setJobMetadata (env : Env) (serde : SerdeJson) (jobId : String) (m : JobMetadata) : Command :=
  .setEx (RedisConfig.metadataKey jobId) (utf8 (serde.print m.toJson)) (RedisConfig.metadataTtl env)

def getJobMetadata (jobId : String) : Command := .get (RedisConfig.metadataKey jobId)

/-- The outcome of `get_job_metadata` for the value that was read. -/
def decodeJobMetadata (serde : SerdeJson) (value : Option Bytes) :
    Except Unit (Option JobMetadata) := do
  match ← getStr value with
  | none => return none
  | some text => match (serde.parse text).bind JobMetadata.ofJson with
    | some m => return some m
    | none => throw ()

def updateProgress (env : Env) (serde : SerdeJson) (now : Nat) (jobId status : String) : Command :=
  .setEx (RedisConfig.progressKey jobId)
    (utf8 (serde.print (.object [("job_id", .string jobId), ("status", .string status),
      ("updated_at", .int now)])))
    (RedisConfig.progressTtl env)

def setFinalResult (env : Env) (jobId resultJson : String) : Command :=
  .setEx (RedisConfig.resultKey jobId) (utf8 resultJson) (RedisConfig.resultTtl env)

/-- `store_final_result`: two commands; the second is issued when the first succeeded. -/
def storeFinalResult (env : Env) (serde : SerdeJson) (now : Nat) (jobId resultJson : String) :
    List Command :=
  [setFinalResult env jobId resultJson, updateProgress env serde now jobId "completed"]

def getCompletedSliceCount (jobId : String) (totalSlices : Nat) : List Command :=
  (List.range totalSlices).map fun i => .existsKey (RedisConfig.sliceKey jobId i)

/-- The count made of the replies; a read that failed counts as absent. -/
def completedSlices (replies : List Reply) : Nat := replies.countP (· == .integer 1)

end RedisManager
end DistributedSoftmax.Gateway
