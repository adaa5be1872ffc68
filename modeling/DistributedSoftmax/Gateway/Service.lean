import DistributedSoftmax.Gateway.Aggregator

/-! gateway-rs/src/service.rs: the checks and the slicing of `submit_task`, its
task messages and results, and the answers of `get_result`. -/

set_option autoImplicit false

namespace DistributedSoftmax.Gateway
open Foundations.ByteString Foundations.Decimal

structure TaskRequest where
  jobId : String
  task : String
  vector : List Single
  deriving DecidableEq, Repr

/-- The error statuses of the service, and a panic of the handler. -/
inductive Status where
  | invalidArgument (message : String)
  | internal (message : String)
  | panicked
  deriving DecidableEq, Repr

def numSlices (env : Env) : Nat :=
  (((env "NUM_SLICES").bind (parseUnsigned 64)).filter (0 < ·)).getD 4

section slicing
variable {α : Type}

/-- `chunks(size)` for a positive size: the last chunk may be shorter. -/
def chunks (size : Nat) (data : List α) : List (List α) := go data.length data
where
  go : Nat → List α → List (List α)
    | 0, _ => []
    | fuel + 1, data => if data.isEmpty then [] else data.take size :: go fuel (data.drop size)

/-- One round of the loop in `even_chunks`: the start of the chunk and the chunks so far. -/
def evenChunksStep (data : List α) (base rem : Nat) (acc : Nat × List (List α)) (i : Nat) :
    Option (Nat × List (List α)) :=
  let take := base + if i < rem then 1 else 0
  (range? data acc.1 (acc.1 + take)).map fun chunk => (acc.1 + take, acc.2 ++ [chunk])

/-- `even_chunks`; `none` where the source divides by zero or slices out of bounds. -/
def evenChunks (data : List α) (n : Nat) : Option (List (List α)) :=
  if n = 0 then none
  else
    let base := data.length / n
    let rem := data.length % n
    ((List.range n).foldlM (evenChunksStep data base rem) (0, [])).map Prod.snd

end slicing

/-- The fields of `GatewayService` that choose the dispatch. -/
structure Dispatch where
  ncclDispatch : Bool
  worldSize : Nat
  deriving DecidableEq, Repr

/-- TRANSPORT=zmq. -/
def Dispatch.zmq : Dispatch := ⟨false, 4⟩

def tooShort (vectorSize worldSize : Nat) : String :=
  "vector length " ++ toString vectorSize ++ " < world_size " ++ toString worldSize ++
    ": cannot give every GPU rank a non-empty slice in NCCL mode"

/-- The slices of a vector. The sizes are `usize`, and a release build wraps the sum. -/
def cutSlices {α : Type} (dispatch : Dispatch) (env : Env) (vector : List α) :
    Except Status (List (List α)) :=
  if dispatch.ncclDispatch then
    if vector.length < dispatch.worldSize then
      .error (.invalidArgument (tooShort vector.length dispatch.worldSize))
    else match evenChunks vector dispatch.worldSize with
      | some slices => .ok slices
      | none => .error .panicked
  else
    let sliceSize := (vector.length + numSlices env - 1) % 2 ^ 64 / numSlices env
    if sliceSize = 0 then .error .panicked else .ok (chunks sliceSize vector)

/-- `submit_task` up to the slices. -/
def requestSlices (dispatch : Dispatch) (env : Env) (widen : Single → Double) (request : TaskRequest) :
    Except Status (List (List Double)) := do
  if request.task ≠ "softmax" then
    throw (.invalidArgument "only softmax task supported")
  let vector := request.vector.map widen
  if vector.length = 0 then
    throw (.invalidArgument "empty input vector")
  cutSlices dispatch env vector

def submittedMetadata (request : TaskRequest) (totalSlices now : Nat) : JobMetadata :=
  ⟨request.jobId, request.task, totalSlices, now, "submitted"⟩

/-- The message for one slice. `json!` keeps the fields in the order of their names. -/
def taskMessage (request : TaskRequest) (sliceId : Nat) (data : List Double) : Json Double :=
  .object [("data", Json.ofDoubles data), ("job_id", .string request.jobId),
    ("slice_id", .int sliceId), ("task", .string request.task)]

/-- The subject of the message for one slice. -/
def publishSubject (dispatch : Dispatch) (sliceId : Nat) : String :=
  if dispatch.ncclDispatch then toString sliceId else "task_queue"

/-- `serde_json::from_str::<Vec<f64>>` and the cast of the values. -/
def resultFloats (serde : SerdeJson) (narrow : Double → Single) (resultStr : String) :
    Option (List Single) :=
  ((serde.parse resultStr).bind serde.toDoubles?).map (List.map narrow)

structure ResultResponse where
  jobId : String
  status : String
  message : String
  result : List Single
  completedSlices : Int
  totalSlices : Int
  deriving DecidableEq, Repr

def notFound (jobId : String) : ResultResponse :=
  ⟨jobId, "not_found", "Job not found or expired", [], 0, 0⟩

/-- The answer when a final result was read, with its remaining lifetime. What
serde_json says about a text it cannot read is left out of the message. -/
def finalResponse (serde : SerdeJson) (narrow : Double → Single) (jobId : String)
    (totalSlices : Nat) (raw : String) (ttl : Int) : ResultResponse :=
  match resultFloats serde narrow raw with
  | some result =>
      ⟨jobId, "ready",
        if ttl > 0 then "Result ready (expires in " ++ toString ttl ++ " seconds)" else "Result ready",
        result, toI32 totalSlices, toI32 totalSlices⟩
  | none =>
      ⟨jobId, "failed", "Failed to parse result", [], toI32 totalSlices, toI32 totalSlices⟩

/-- The answer from the number of slices that were found. -/
def progressResponse (jobId : String) (totalSlices completed : Nat) : ResultResponse :=
  if completed = 0 then
    ⟨jobId, "pending", "Job submitted, waiting for processing to start", [],
      toI32 completed, toI32 totalSlices⟩
  else if completed < totalSlices then
    ⟨jobId, "running", "Processing in progress: " ++ toString completed ++ "/" ++
      toString totalSlices ++ " slices completed", [], toI32 completed, toI32 totalSlices⟩
  else
    ⟨jobId, "running", "All slices completed, aggregating results...", [],
      toI32 completed, toI32 totalSlices⟩

end DistributedSoftmax.Gateway
