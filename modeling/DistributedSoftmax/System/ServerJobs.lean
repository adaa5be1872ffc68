import DistributedSoftmax.Server.GatewayServer
import DistributedSoftmax.System.Jobs

/-! Jobs on the C++ gateway: any number of `SubmitTask` calls, each on a thread
of its own, with the workers, the store and the notifications of the other
gateway. Redis errors are swallowed here, and a lost message is not noticed. -/

set_option autoImplicit false

namespace DistributedSoftmax.System.ServerJobs
open Foundations.ByteString Foundations.KeyValue
open Gateway Worker
open Jobs (Fault WorkerTask attempt found settle expire taskOf)

/-- What a deployment fixes: the workers with what they read for a message, the
gateway's environment and lifetimes, its JSON library and its arithmetic. -/
structure Platform where
  workers : Jobs.Platform
  env : Env
  json : SerdeJson
  fl : FloatOps Double
  metadataTtl : Nat
  resultTtl : Nat
  progressTtl : Nat

variable (p : Platform)

/-- `slice_size` and `total_slices` of a request. -/
def countsOf (request : TaskRequest) : Option (Nat × Nat) :=
  Server.sliceCounts request.vector.length (Server.getNumSlices p.env)

def slicesOf (request : TaskRequest) : List (List Double) :=
  match countsOf p request with
  | some (sliceSize, _) =>
      Server.sliceLoop (request.vector.map p.workers.widen) sliceSize request.vector.length 0
  | none => []

def totalOf (request : TaskRequest) : Nat :=
  match countsOf p request with
  | some (_, totalSlices) => totalSlices
  | none => 0

structure Shared where
  store : Store
  queue : List (Json Double)
  channel : List Notification
  notifier : Server.SliceNotifier

/-- Where a `SubmitTask` call stands. -/
inductive Phase where
  | storing (now : Nat)
  | publishing (sliceId : Nat)
  | preReading (i : Nat) (stats : List (SliceStats Double))
  /-- Slice `i` was read beforehand and is counted next. -/
  | counting (i : Nat) (stats : List (SliceStats Double))
  | waiting (stats : List (SliceStats Double))
  | leaving (ok : Bool) (stats : List (SliceStats Double))
  | rereading (i : Nat) (stats : List (SliceStats Double))
  | storingResult (values : List Double)
  | storingProgress (values : List Double)
  | returned (outcome : Except Status (List Single))
  /-- The process has ended. -/
  | crashed
  deriving DecidableEq, Repr

structure Call where
  request : TaskRequest
  phase : Phase
  deriving DecidableEq, Repr

inductive CallInput where
  | store (fault : Fault)
  | publish (lost : Bool)
  | register
  | read (failed : Bool)
  | count
  | wake
  | expire
  | unregister
  | skip
  | storeResult (fault : Fault)
  | storeProgress (fault : Fault) (now : Nat)
  deriving DecidableEq, Repr

def metadataText (request : TaskRequest) (now : Nat) : String :=
  p.json.print (.object [("created_at", .int now), ("job_id", .string request.jobId),
    ("status", .string ""), ("task_type", .string request.task),
    ("total_slices", .int (totalOf p request))])

def resultText (values : List Double) : String := p.json.print (Json.ofDoubles values)

def progressText (jobId : String) (now : Nat) : String :=
  p.json.print (.object [("job_id", .string jobId), ("status", .string "completed"),
    ("updated_at", .int now)])

def failed (jobId : String) : Except Status (List Single) :=
  .error (.internal ("Aggregation failed or timed out for job " ++ jobId))

/-- On to slice `i` of the first pass, or to the wait behind it. -/
def preReadFrom (total i : Nat) (stats : List (SliceStats Double)) : Phase :=
  if i < total then .preReading i stats else .waiting stats

/-- On to slice `i` of the second pass, or to the aggregation behind it. -/
def rereadFrom (total i : Nat) (stats : List (SliceStats Double)) : Phase :=
  if i < total then .rereading i stats else .storingResult (Server.aggregateSoftmax p.fl stats)

/-- `readSlice`, which takes a failed GET for a missing value. -/
def readAt (request : TaskRequest) (i : Nat) (stats : List (SliceStats Double)) (failed : Bool)
    (store : Store) : Bool × SliceStats Double :=
  Server.readSlice p.json p.workers.widen
    (if failed then none else found store (RedisConfig.sliceKey request.jobId i))
    ((stats[i]?).getD .default)

def Call.step (call : Call) (shared : Shared) : CallInput → Option (Phase × Shared)
  | .store fault => match call.phase with
      | .storing now => some (.publishing 0,
          { shared with store := (attempt fault (.setEx (RedisConfig.metadataKey call.request.jobId)
              (utf8 (metadataText p call.request now)) p.metadataTtl) shared.store).1 })
      | _ => none
  | .publish lost => match call.phase with
      | .publishing sliceId => match (slicesOf p call.request)[sliceId]? with
          | some data => some (.publishing (sliceId + 1),
              if lost then shared
              else { shared with queue := shared.queue ++ [taskMessage call.request sliceId data] })
          | none => none
      | _ => none
  | .register => match call.phase with
      | .publishing sliceId =>
          if sliceId = (slicesOf p call.request).length then
            some (preReadFrom (totalOf p call.request) 0
                (List.replicate (totalOf p call.request) .default),
              { shared with notifier :=
                  shared.notifier.registerJob call.request.jobId (totalOf p call.request) })
          else none
      | _ => none
  | .read failed => match call.phase with
      | .preReading i stats =>
          let (ok, s) := readAt p call.request i stats failed shared.store
          some (if ok then .counting i (stats.set i s)
            else preReadFrom (totalOf p call.request) (i + 1) (stats.set i s), shared)
      | .rereading i stats =>
          if (((stats[i]?).getD .default).expValues).isEmpty then
            let (ok, s) := readAt p call.request i stats failed shared.store
            some (if ok then rereadFrom p (totalOf p call.request) (i + 1) (stats.set i s)
              else .returned (ServerJobs.failed call.request.jobId), shared)
          else none
      | _ => none
  | .count => match call.phase with
      | .counting i stats => some (preReadFrom (totalOf p call.request) (i + 1) stats,
          { shared with notifier := shared.notifier.notifySlice call.request.jobId })
      | _ => none
  | .wake => match call.phase with
      | .waiting stats =>
          if shared.notifier.satisfied call.request.jobId (totalOf p call.request) then
            some (.leaving true stats, shared)
          else none
      | _ => none
  | .expire => match call.phase with
      | .waiting stats =>
          if shared.notifier.satisfied call.request.jobId (totalOf p call.request) then none
          else some (.leaving false stats, shared)
      | _ => none
  | .unregister => match call.phase with
      | .leaving ok stats => some (if ok then rereadFrom p (totalOf p call.request) 0 stats
            else .returned (ServerJobs.failed call.request.jobId),
          { shared with notifier := shared.notifier.unregisterJob call.request.jobId })
      | _ => none
  | .skip => match call.phase with
      | .rereading i stats =>
          if (((stats[i]?).getD .default).expValues).isEmpty then none
          else some (rereadFrom p (totalOf p call.request) (i + 1) stats, shared)
      | _ => none
  | .storeResult fault => match call.phase with
      | .storingResult values => some (.storingProgress values,
          { shared with store := (attempt fault (.setEx (RedisConfig.resultKey call.request.jobId)
              (utf8 (resultText p values)) p.resultTtl) shared.store).1 })
      | _ => none
  | .storeProgress fault now => match call.phase with
      | .storingProgress values => some
          (match resultFloats p.json p.workers.narrow (resultText p values) with
            | some result => .returned (.ok result)
            | none => .returned (.error (.internal "Failed to parse result")),
          { shared with store := (attempt fault (.setEx (RedisConfig.progressKey call.request.jobId)
              (utf8 (progressText p call.request.jobId now)) p.progressTtl) shared.store).1 })
      | _ => none

structure State where
  shared : Shared
  calls : List Call
  tasks : List WorkerTask

def State.empty : State := ⟨⟨.empty, [], [], .empty⟩, [], []⟩

def State.requests (s : State) : List TaskRequest := s.calls.map Call.request

inductive Action where
  | submit (request : TaskRequest) (now : Nat)
  | call (c : Nat) (input : CallInput)
  | receive (m : Nat) (again : Bool)
  | lose (m : Nat)
  | work (t : Nat) (fault : Fault)
  | crash (t : Nat)
  | notify (n : Nat) (again : Bool)
  | miss (n : Nat)
  | elapse (seconds : Nat)
  deriving DecidableEq, Repr

/-- What is left of a call when the process ends. -/
def Call.abandon (call : Call) : Call :=
  match call.phase with
  | .returned _ => call
  | _ => { call with phase := .crashed }

/-- `SubmitTask` up to its first operation. An empty vector is divided by zero,
which ends the process with all its calls and its registry. -/
def submit (request : TaskRequest) (now : Nat) (s : State) : State :=
  if request.task ≠ "softmax" then
    { s with calls := s.calls ++
        [⟨request, .returned (.error (.invalidArgument "only softmax task supported"))⟩] }
  else match countsOf p request with
    | some _ => { s with calls := s.calls ++ [⟨request, .storing now⟩] }
    | none => { s with
        shared := { s.shared with notifier := .empty }
        calls := s.calls.map Call.abandon ++ [⟨request, .crashed⟩] }

def step : Action → State → Option State
  | .submit request now, s => some (submit p request now s)
  | .call c input, s => match s.calls[c]? with
      | some call => match call.step p s.shared input with
          | some (phase, shared) =>
              some { s with shared, calls := s.calls.set c { call with phase } }
          | none => none
      | none => none
  | .receive m again, s => match s.shared.queue[m]? with
      | some message => some { s with
          shared := if again then s.shared
            else { s.shared with queue := s.shared.queue.eraseIdx m }
          tasks := s.tasks ++ taskOf p.workers message }
      | none => none
  | .lose m, s => some { s with
      shared := { s.shared with queue := s.shared.queue.eraseIdx m } }
  | .work t fault, s => match s.tasks[t]? with
      | some task =>
          let (left, store, channel) := task.step fault s.shared.store s.shared.channel
          some { s with
            shared := { s.shared with store, channel }
            tasks := settle s.tasks t left }
      | none => none
  | .crash t, s => some { s with tasks := s.tasks.eraseIdx t }
  | .notify n again, s => match s.shared.channel[n]? with
      | some notification => some { s with shared := { s.shared with
          notifier := s.shared.notifier.onPmessage notification
          channel := if again then s.shared.channel else s.shared.channel.eraseIdx n } }
      | none => none
  | .miss n, s => some { s with
      shared := { s.shared with channel := s.shared.channel.eraseIdx n } }
  | .elapse seconds, s => some { s with
      shared := { s.shared with store := expire seconds s.shared.store } }

end DistributedSoftmax.System.ServerJobs
