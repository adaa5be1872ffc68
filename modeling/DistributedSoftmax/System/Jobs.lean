import DistributedSoftmax.Foundations.Transition
import DistributedSoftmax.JsonText
import DistributedSoftmax.Gateway.Service
import DistributedSoftmax.Worker.Handler

/-! Jobs with TRANSPORT=zmq: any number of `submit_task` and `get_result` calls
on the gateways, workers that take messages off the queue, the store and the
notifications. Every await point of the two programs is one step, and a step
can fail, be lost or happen twice where the component it uses can do that. -/

set_option autoImplicit false

namespace DistributedSoftmax.System.Jobs
open Foundations.ByteString Foundations.KeyValue
open Gateway Worker

/-- What a deployment fixes: environment, libraries, casts and the two numeric
functions, whose builds differ. -/
structure Platform where
  env : Env
  serde : SerdeJson
  widen : Single → Double
  narrow : Double → Single
  computePartial : List Double → Except String (PartialStats Double Single)
  aggregateSoftmax : List (SliceStats Double) → Except String (List Double)
  /-- What the Redis client says about an operation that failed. -/
  redisError : String
  /-- What the publisher says about a message it could not queue. -/
  publishError : String

/-- The build without GPU of both programs. -/
def Platform.cpu (env : Env) (serde : SerdeJson) (fl : Floats Double Single)
    (redisError publishError : String) : Platform where
  env := env
  serde := serde
  widen := fl.widen
  narrow := fl.narrow
  computePartial data := .ok (softmaxPartial fl data)
  aggregateSoftmax stats := .ok (aggregateSoftmaxCpu fl.f64 stats)
  redisError := redisError
  publishError := publishError

/-- A deployment with default settings, in the small arithmetic. -/
def smallPlatform : Platform :=
  .cpu (fun _ => none) JsonText.serde SmallFloats.floats "connection refused" "sending on a closed channel"

variable (p : Platform)

/-- The slices of an admitted request. -/
def slicesOf (request : TaskRequest) : List (List Double) :=
  match requestSlices .zmq p.env p.widen request with
  | .ok slices => slices
  | .error _ => []

/-- How a Redis operation can go: answered, lost, or applied with its answer lost. -/
inductive Fault where
  | none
  | lost
  | unacknowledged
  deriving DecidableEq, Repr

/-- The store afterwards, and the reply if one arrived. -/
def attempt (fault : Fault) (command : Command) (store : Store) : Store × Option Reply :=
  match fault with
  | .none => ((command.exec store).1, some (command.exec store).2)
  | .lost => (store, none)
  | .unacknowledged => ((command.exec store).1, none)

def found (store : Store) (key : String) : Option Bytes := (store key).map Entry.value

/-- Everything the processes share: the store, the messages on their way to the
workers, the notifications on their way, and the registry of the gateway. -/
structure Shared where
  store : Store
  queue : List (Json Double)
  channel : List Notification
  notifier : SliceNotifier

/-- Where a `submit_task` call stands. -/
inductive Phase where
  | storing (metadata : JobMetadata)
  | publishing (sliceId : Nat)
  | waiting (waiting : Waiting)
  | storingResult (values : List Double)
  | storingProgress (values : List Double)
  | returned (outcome : Except Status (List Single))
  /-- The handler was dropped because the client went away. -/
  | dropped
  deriving DecidableEq, Repr

structure Call where
  request : TaskRequest
  phase : Phase
  deriving DecidableEq, Repr

inductive CallInput where
  | store (fault : Fault)
  | publish (failed : Bool)
  | register
  | readSlice (failed : Bool)
  | skip
  | endPass (expired : Bool)
  | wake
  | storeResult (fault : Fault)
  | storeProgress (fault : Fault) (now : Nat)
  | cancel
  deriving DecidableEq, Repr

def resultStr (values : List Double) : String := p.serde.print (Json.ofDoubles values)

def aggregationFailed (error : String) : Except Status (List Single) :=
  .error (.internal ("Aggregation failed: " ++ error))

/-- Out of the loop, `aggregate` goes on with the slices it holds. -/
def afterWaiting : Except String (List (SliceStats Double)) → Phase
  | .error error => .returned (aggregationFailed error)
  | .ok stats => match aggregateStats p.aggregateSoftmax stats with
      | .error error => .returned (aggregationFailed error)
      | .ok values => .storingResult values

/-- One event in `wait_for_all_slices`; leaving the loop unregisters the job. -/
def waitStep (jobId : String) (waiting : Waiting) (event : WaitEvent) (shared : Shared) :
    Option (Phase × Shared) :=
  match waiting.step jobId event with
  | none => none
  | some next => match next.point with
      | .left outcome =>
          some (afterWaiting p outcome,
            { shared with notifier := shared.notifier.unregisterJob jobId })
      | _ => some (.waiting next, shared)

def readOutcome (jobId : String) (waiting : Waiting) (failed : Bool) (store : Store) :
    Except ReadError (Option (SliceStats Double)) :=
  if failed then .error .redis
  else readSlice p.serde p.widen (found store (RedisConfig.sliceKey jobId (waiting.wants.getD 0)))

def Call.step (call : Call) (shared : Shared) : CallInput → Option (Phase × Shared)
  | .store fault => match call.phase with
      | .storing metadata =>
          let (store, reply) := attempt fault
            (RedisManager.setJobMetadata p.env p.serde call.request.jobId metadata) shared.store
          some (if reply = some .ok then .publishing 0
            else .returned (.error (.internal "Failed to store job metadata")),
            { shared with store })
      | _ => none
  | .publish failed => match call.phase with
      | .publishing sliceId => match (slicesOf p call.request)[sliceId]? with
          | some data =>
              if failed then
                some (.returned (.error (.internal ("Publish failed: " ++ p.publishError))), shared)
              else some (.publishing (sliceId + 1),
                { shared with queue := shared.queue ++ [taskMessage call.request sliceId data] })
          | none => none
      | _ => none
  | .register => match call.phase with
      | .publishing sliceId =>
          if sliceId = (slicesOf p call.request).length then
            let (notifier, receiver) := shared.notifier.registerJob call.request.jobId
            some (.waiting (.start (slicesOf p call.request).length receiver),
              { shared with notifier })
          else none
      | _ => none
  | .readSlice failed => match call.phase with
      | .waiting waiting => waitStep p call.request.jobId waiting
          (.read (readOutcome p call.request.jobId waiting failed shared.store)) shared
      | _ => none
  | .skip => match call.phase with
      | .waiting waiting => waitStep p call.request.jobId waiting .skip shared
      | _ => none
  | .endPass expired => match call.phase with
      | .waiting waiting => waitStep p call.request.jobId waiting (.endPass expired) shared
      | _ => none
  | .wake => match call.phase with
      | .waiting waiting => waitStep p call.request.jobId waiting (.wake shared.notifier) shared
      | _ => none
  | .storeResult fault => match call.phase with
      | .storingResult values =>
          let (store, reply) := attempt fault
            (RedisManager.setFinalResult p.env call.request.jobId (resultStr p values)) shared.store
          some (if reply = some .ok then .storingProgress values
            else .returned (aggregationFailed p.redisError), { shared with store })
      | _ => none
  | .storeProgress fault now => match call.phase with
      | .storingProgress values =>
          let (store, reply) := attempt fault
            (RedisManager.updateProgress p.env p.serde now call.request.jobId "completed")
            shared.store
          some (if reply = some .ok then
              match resultFloats p.serde p.narrow (resultStr p values) with
              | some result => .returned (.ok result)
              | none => .returned (.error (.internal "Failed to parse result"))
            else .returned (aggregationFailed p.redisError), { shared with store })
      | _ => none
  | .cancel => match call.phase with
      | .returned _ | .dropped => none
      | _ => some (.dropped, shared)

/-- A worker that has computed a slice: before the SET, then before the PUBLISH. -/
structure WorkerTask where
  jobId : String
  sliceId : Nat
  payload : Bytes
  written : Bool
  deriving DecidableEq, Repr

/-- What the worker publishes when its slice is written. -/
def sliceDone (jobId : String) (sliceId : Nat) : Notification :=
  ⟨pubChannel jobId, toString sliceId⟩

/-- One operation of `write_result`; an error ends the task. -/
def WorkerTask.step (task : WorkerTask) (fault : Fault) (store : Store)
    (channel : List Notification) : Option WorkerTask × Store × List Notification :=
  if task.written then
    (none, store,
      if fault = .lost then channel else channel ++ [sliceDone task.jobId task.sliceId])
  else
    let (store, reply) := attempt fault (.set (resultKey task.jobId task.sliceId) task.payload) store
    (if reply = some .ok then some { task with written := true } else none, store, channel)

/-- The tasks after task `t` went on or ended. -/
def settle (tasks : List WorkerTask) (t : Nat) : Option WorkerTask → List WorkerTask
  | some next => tasks.set t next
  | none => tasks.eraseIdx t

theorem mem_settle {tasks : List WorkerTask} {t : Nat} {left : Option WorkerTask}
    {task : WorkerTask} (member : task ∈ settle tasks t left) : task ∈ tasks ∨ left = some task := by
  cases left with
  | none => exact .inl (List.mem_of_mem_eraseIdx member)
  | some next =>
    rcases List.mem_or_eq_of_mem_set member with before | rfl
    · exact .inl before
    · exact .inr rfl

/-- Where a `get_result` call stands. -/
inductive QueryPhase where
  | metadata
  | result (metadata : JobMetadata)
  | lifetime (metadata : JobMetadata) (raw : String)
  | counting (metadata : JobMetadata) (i completed : Nat)
  | answered (response : Except Status ResultResponse)
  deriving DecidableEq, Repr

structure Query where
  jobId : String
  phase : QueryPhase
  deriving DecidableEq, Repr

/-- One Redis read of `get_result`, answered or failed. -/
def Query.step (query : Query) (store : Store) (failed : Bool) : Option QueryPhase :=
  match query.phase with
  | .metadata =>
      if failed then some (.answered (.error (.internal ("Redis error: " ++ p.redisError))))
      else match RedisManager.decodeJobMetadata p.serde
          (found store (RedisConfig.metadataKey query.jobId)) with
        | .ok none => some (.answered (.ok (notFound query.jobId)))
        | .ok (some metadata) => some (.result metadata)
        | .error _ => some (.answered (.error (.internal ("Redis error: " ++ p.redisError))))
  | .result metadata =>
      if failed then some (.counting metadata 0 0)
      else match RedisManager.getStr (found store (RedisConfig.resultKey query.jobId)) with
        | .ok (some raw) => some (.lifetime metadata raw)
        | _ => some (.counting metadata 0 0)
  | .lifetime metadata raw =>
      let ttl := match (Command.ttl (RedisConfig.resultKey query.jobId)).exec store with
        | (_, .integer seconds) => if failed then -1 else seconds
        | _ => -1
      some (.answered (.ok (finalResponse p.serde p.narrow query.jobId metadata.totalSlices raw ttl)))
  | .counting metadata i completed =>
      if i < metadata.totalSlices then
        let present := !failed && (store (RedisConfig.sliceKey query.jobId i)).isSome
        some (.counting metadata (i + 1) (if present then completed + 1 else completed))
      else some (.answered (.ok (progressResponse query.jobId metadata.totalSlices completed)))
  | .answered _ => none

structure State where
  shared : Shared
  calls : List Call
  tasks : List WorkerTask
  queries : List Query

def State.empty : State := ⟨⟨.empty, [], [], .empty⟩, [], [], []⟩

/-- The requests of all calls so far, in the order in which they were made. -/
def State.requests (s : State) : List TaskRequest := s.calls.map Call.request

inductive Action where
  | submit (request : TaskRequest) (now : Nat)
  | call (c : Nat) (input : CallInput)
  /-- A worker receives message `m`; it may be delivered again later. -/
  | receive (m : Nat) (again : Bool)
  | lose (m : Nat)
  | work (t : Nat) (fault : Fault)
  | crash (t : Nat)
  /-- The subscriber gets notification `n`; it may be delivered again later. -/
  | notify (n : Nat) (again : Bool)
  | miss (n : Nat)
  | ask (jobId : String)
  | answer (q : Nat) (failed : Bool)
  /-- Time passes, and entries expire. -/
  | elapse (seconds : Nat)
  deriving DecidableEq, Repr

/-- The store after the given time. -/
def expire (seconds : Nat) (store : Store) : Store := fun key =>
  match store key with
  | some ⟨value, some ttl⟩ => if ttl ≤ seconds then none else some ⟨value, some (ttl - seconds)⟩
  | other => other

/-- A call as it starts: refused, or about to store its metadata. -/
def Call.start (request : TaskRequest) (now : Nat) : Call :=
  match requestSlices .zmq p.env p.widen request with
  | .error status => ⟨request, .returned (.error status)⟩
  | .ok slices => ⟨request, .storing (submittedMetadata request slices.length now)⟩

/-- The worker's task for a message it received, if the message is accepted. -/
def taskOf (message : Json Double) : List WorkerTask :=
  match handleTask p.serde p.computePartial (some (p.serde.wire message)) with
  | .ok (msg, payload) => [⟨msg.jobId, msg.sliceId, payload, false⟩]
  | .error _ => []

def step : Action → State → Option State
  | .submit request now, s => some { s with calls := s.calls ++ [Call.start p request now] }
  | .call c input, s => match s.calls[c]? with
      | some call => match call.step p s.shared input with
          | some (phase, shared) =>
              some { s with shared, calls := s.calls.set c { call with phase } }
          | none => none
      | none => none
  | .receive m again, s => match s.shared.queue[m]? with
      | some message => some { s with
          shared := if again then s.shared
            else { s.shared with queue := s.shared.queue.eraseIdx m }
          tasks := s.tasks ++ taskOf p message }
      | none => none
  | .lose m, s => some { s with
      shared := { s.shared with queue := s.shared.queue.eraseIdx m } }
  | .work t fault, s => match s.tasks[t]? with
      | some task =>
          let (left, store, channel) := task.step fault s.shared.store s.shared.channel
          some { s with
            shared := { s.shared with store, channel }
            tasks := settle s.tasks t left }
      | none => none
  | .crash t, s => some { s with tasks := s.tasks.eraseIdx t }
  | .notify n again, s => match s.shared.channel[n]? with
      | some notification => some { s with shared := { s.shared with
          notifier := s.shared.notifier.notify notification.channelName
          channel := if again then s.shared.channel else s.shared.channel.eraseIdx n } }
      | none => none
  | .miss n, s => some { s with
      shared := { s.shared with channel := s.shared.channel.eraseIdx n } }
  | .ask jobId, s => some { s with queries := s.queries ++ [⟨jobId, .metadata⟩] }
  | .answer q failed, s => match s.queries[q]? with
      | some query => match query.step p s.shared.store failed with
          | some phase => some { s with queries := s.queries.set q { query with phase } }
          | none => none
      | none => none
  | .elapse seconds, s => some { s with
      shared := { s.shared with store := expire seconds s.shared.store } }

end DistributedSoftmax.System.Jobs
