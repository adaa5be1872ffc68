import DistributedSoftmax.Gateway.Publisher
import DistributedSoftmax.System.Jobs
import DistributedSoftmax.Worker.GpuWorker

/-! Jobs with TRANSPORT=zmq_nccl: the gateways publish every slice to the rank
with its index, each rank takes its messages one after the other, and the two
collectives of a slice combine what all ranks contribute. Store, notifications
and the calls on the gateways are those of the other transport. -/

set_option autoImplicit false

namespace DistributedSoftmax.System.NcclJobs
open Gateway Worker
open Jobs (Fault Phase Call CallInput WorkerTask expire)

/-- What a deployment fixes: the gateways, and the ranks with their arithmetic
and the orders in which their launches run. -/
structure Platform where
  gateway : Jobs.Platform
  worldSize : Nat
  usize : worldSize < 2 ^ 64
  f32 : FloatOps Single
  launches : Nat → Launches Single

variable (p : Platform)

def dispatch : Dispatch := ⟨true, p.worldSize⟩

/-- The slices of an admitted request. -/
def slicesOf (request : TaskRequest) : List (List Double) :=
  match requestSlices (dispatch p) p.gateway.env p.gateway.widen request with
  | .ok slices => slices
  | .error _ => []

/-- Where the loop of `run_nccl` stands: in `all_reduce_softmax`, which stops at
two collectives, or in `write_result`. -/
inductive RankPhase where
  | receiving
  | reducingMax (msg : TaskMessage) (resume : Single → Option (Contribution Single (List Single)))
  | reducingSum (msg : TaskMessage) (resume : Single → Option (List Single))
  | writing (task : WorkerTask)
  | exited

structure Rank where
  /-- Messages taken off the socket. -/
  received : Nat
  /-- What it gave to the collectives that it called so far. -/
  contributed : List Single
  phase : RankPhase

/-- The queue of the shared state is not used: every rank has a channel of its
own, with all that was ever sent to it. -/
structure State where
  shared : Jobs.Shared
  channels : List (List (Json Double))
  calls : List Call
  ranks : List Rank

def State.initial : State :=
  ⟨⟨.empty, [], [], .empty⟩, List.replicate p.worldSize [], [],
    List.replicate p.worldSize ⟨0, [], .receiving⟩⟩

def State.requests (s : State) : List TaskRequest := s.calls.map Call.request

inductive Action where
  | submit (request : TaskRequest) (now : Nat)
  | call (c : Nat) (input : CallInput)
  | receive (r : Nat)
  /-- The collective that a rank waits in is complete. -/
  | reduced (r : Nat)
  | write (r : Nat) (fault : Fault)
  /-- A rank leaves its loop through an error or a panic. -/
  | exit (r : Nat)
  | notify (n : Nat) (again : Bool)
  | miss (n : Nat)
  | elapse (seconds : Nat)
  deriving DecidableEq, Repr

/-- A call as it starts: refused, or about to store its metadata. -/
def start (request : TaskRequest) (now : Nat) : Call :=
  match requestSlices (dispatch p) p.gateway.env p.gateway.widen request with
  | .error status => ⟨request, .returned (.error status)⟩
  | .ok slices => ⟨request, .storing (submittedMetadata request slices.length now)⟩

/-- A step of a call. Only the slices and where they go differ by transport. -/
def callStep (call : Call) (shared : Jobs.Shared) (channels : List (List (Json Double))) :
    CallInput → Option (Phase × Jobs.Shared × List (List (Json Double)))
  | .publish failed => match call.phase with
      | .publishing sliceId => match (slicesOf p call.request)[sliceId]? with
          | some data =>
              if failed then
                some (.returned (.error (.internal ("Publish failed: " ++ p.gateway.publishError))),
                  shared, channels)
              else match ZmqMultiPublisher.publish channels (publishSubject (dispatch p) sliceId)
                  (taskMessage call.request sliceId data) with
                | .ok channels => some (.publishing (sliceId + 1), shared, channels)
                | .error error =>
                    some (.returned (.error (.internal ("Publish failed: " ++ error))), shared, channels)
          | none => none
      | _ => none
  | .register => match call.phase with
      | .publishing sliceId =>
          if sliceId = (slicesOf p call.request).length then
            let (notifier, receiver) := shared.notifier.registerJob call.request.jobId
            some (.waiting (.start (slicesOf p call.request).length receiver),
              { shared with notifier }, channels)
          else none
      | _ => none
  | input => (call.step p.gateway shared input).map fun (phase, shared) => (phase, shared, channels)

/-- The message for which `run_nccl` joins the collectives. -/
def joined (message : Json Double) : Option TaskMessage :=
  (TaskMessage.ofJson p.gateway.serde (p.gateway.serde.wire message)).filter
    fun msg => msg.task == "softmax"

/-- A message is skipped, or `all_reduce_softmax` comes to its first collective. -/
def Rank.receive (r : Nat) (rank : Rank) (message : Json Double) : Rank :=
  match joined p message with
  | none => { rank with received := rank.received + 1 }
  | some msg => match allReduceSoftmax p.f32 (p.launches r) (msg.data.map p.gateway.narrow) with
      | none => ⟨rank.received + 1, rank.contributed, .exited⟩
      | some c => ⟨rank.received + 1, rank.contributed ++ [c.value], .reducingMax msg c.resume⟩

/-- What the ranks gave to collective `k`, once all of them have called it. -/
def collected (ranks : List Rank) (k : Nat) : Option (List Single) :=
  ranks.mapM fun rank => rank.contributed[k]?

/-- Behind the collective in which the rank waits. -/
def Rank.reduced (rank : Rank) (ranks : List Rank) : Option Rank :=
  match rank.phase with
  | .reducingMax msg resume =>
      (collected ranks (rank.contributed.length - 1)).map fun values =>
        match resume (p.f32.foldMax values) with
        | none => { rank with phase := .exited }
        | some c => ⟨rank.received, rank.contributed ++ [c.value], .reducingSum msg c.resume⟩
  | .reducingSum msg resume =>
      (collected ranks (rank.contributed.length - 1)).map fun values =>
        match resume (p.f32.sum values) with
        | none => { rank with phase := .exited }
        | some probs => { rank with
            phase := .writing ⟨msg.jobId, msg.sliceId, encodeNormalized probs, false⟩ }
  | _ => none

/-- Behind one operation of `write_result`: a SET that fails ends the loop. -/
def afterWrite (task : WorkerTask) : Option WorkerTask → RankPhase
  | some next => .writing next
  | none => if task.written then .receiving else .exited

def step : Action → State → Option State
  | .submit request now, s => some { s with calls := s.calls ++ [start p request now] }
  | .call c input, s => match s.calls[c]? with
      | some call => match callStep p call s.shared s.channels input with
          | some (phase, shared, channels) =>
              some { s with shared, channels, calls := s.calls.set c { call with phase } }
          | none => none
      | none => none
  | .receive r, s => match s.ranks[r]? with
      | some rank => match rank.phase, (s.channels[r]?.getD [])[rank.received]? with
          | .receiving, some message =>
              some { s with ranks := s.ranks.set r (rank.receive p r message) }
          | _, _ => none
      | none => none
  | .reduced r, s => match s.ranks[r]? with
      | some rank => match rank.reduced p s.ranks with
          | some rank => some { s with ranks := s.ranks.set r rank }
          | none => none
      | none => none
  | .write r fault, s => match s.ranks[r]? with
      | some rank => match rank.phase with
          | .writing task =>
              let (left, store, channel) := task.step fault s.shared.store s.shared.channel
              some { s with
                shared := { s.shared with store, channel }
                ranks := s.ranks.set r { rank with phase := afterWrite task left } }
          | _ => none
      | none => none
  | .exit r, s => match s.ranks[r]? with
      | some rank => some { s with ranks := s.ranks.set r { rank with phase := .exited } }
      | none => none
  | .notify n again, s => match s.shared.channel[n]? with
      | some notification => some { s with shared := { s.shared with
          notifier := s.shared.notifier.notify notification.channelName
          channel := if again then s.shared.channel else s.shared.channel.eraseIdx n } }
      | none => none
  | .miss n, s => some { s with
      shared := { s.shared with channel := s.shared.channel.eraseIdx n } }
  | .elapse seconds, s => some { s with
      shared := { s.shared with store := expire seconds s.shared.store } }

end DistributedSoftmax.System.NcclJobs
