import DistributedSoftmax.Gateway.Publisher
import DistributedSoftmax.Gateway.Slicing
import DistributedSoftmax.System.Jobs

/-! `submit_task` from the request to the call of the aggregator, as one run: the
checks, the metadata and the loop that publishes the slices, for either
publisher. -/

set_option autoImplicit false

namespace DistributedSoftmax.System.Submission
open Foundations.ByteString Foundations.KeyValue
open Gateway Jobs

/-- What `submit_task` writes to. -/
structure Outputs (C : Type) where
  store : Store
  channels : C

section program
variable (p : Platform) {C : Type} (publish : C → String → String → Except String C)
  (dispatch : Dispatch) (request : TaskRequest)

/-- The payload of the message for one slice. -/
def payload (sliceId : Nat) (data : List Double) : String :=
  p.serde.print (taskMessage request sliceId data)

/-- The loop over the slices from `sliceId` on. What was published before a
publish failed stays published. -/
def publishLoop : Nat → List (List Double) → C → C × Except Status Unit
  | _, [], channels => (channels, .ok ())
  | sliceId, data :: rest, channels =>
      match publish channels (publishSubject dispatch sliceId) (payload p request sliceId data) with
      | .error error => (channels, .error (.internal ("Publish failed: " ++ error)))
      | .ok channels => publishLoop (sliceId + 1) rest channels

/-- `submit_task` up to `aggregate`, with the number of slices it then waits for. -/
def submitTask (fault : Fault) (now : Nat) (outputs : Outputs C) : Outputs C × Except Status Nat :=
  match requestSlices dispatch p.env p.widen request with
  | .error status => (outputs, .error status)
  | .ok slices =>
      let (store, reply) := attempt fault (RedisManager.setJobMetadata p.env p.serde request.jobId
        (submittedMetadata request slices.length now)) outputs.store
      if reply = some .ok then
        let (channels, published) := publishLoop p publish dispatch request 0 slices outputs.channels
        (⟨store, channels⟩, published.map fun _ => slices.length)
      else (⟨store, outputs.channels⟩, .error (.internal "Failed to store job metadata"))

end program

section program
variable {p : Platform} {C : Type} {publish : C → String → String → Except String C}
  {dispatch : Dispatch} {request : TaskRequest} {fault : Fault} {now : Nat} {outputs : Outputs C}

theorem submitTask_refused {status : Status}
    (refused : requestSlices dispatch p.env p.widen request = .error status) :
    submitTask p publish dispatch request fault now outputs = (outputs, .error status) := by
  rw [submitTask, refused]

/-- An admitted request whose metadata was stored, and whose messages were all published. -/
theorem submitTask_published {slices : List (List Double)} {channels : C} {store' : Store}
    (admitted : requestSlices dispatch p.env p.widen request = .ok slices)
    (stored : attempt fault (RedisManager.setJobMetadata p.env p.serde request.jobId
      (submittedMetadata request slices.length now)) outputs.store = (store', some .ok))
    (published : publishLoop p publish dispatch request 0 slices outputs.channels = (channels, .ok ())) :
    submitTask p publish dispatch request fault now outputs =
      (⟨store', channels⟩, .ok slices.length) := by
  simp only [submitTask, admitted, stored, published, if_true, Except.map]

end program

section ranks
variable (p : Platform) (request : TaskRequest) {worldSize : Nat}

/-- The loop with one channel for each rank: each slice goes to the rank with
its index, and the other ranks get nothing. -/
theorem publishLoop_ranks (rest : List (List Double)) (sliceId : Nat) (senders : List (List String))
    (enough : sliceId + rest.length ≤ senders.length) (bound : senders.length ≤ 2 ^ 64) :
    ∃ after, publishLoop p ZmqMultiPublisher.publish ⟨true, worldSize⟩ request sliceId rest senders =
        (after, .ok ()) ∧
      after.length = senders.length ∧
      (∀ k data, rest[k]? = some data → ∃ sent, senders[sliceId + k]? = some sent ∧
        after[sliceId + k]? = some (sent ++ [payload p request (sliceId + k) data])) ∧
      ∀ rank, rank < sliceId ∨ sliceId + rest.length ≤ rank → after[rank]? = senders[rank]? := by
  induction rest generalizing sliceId senders with
  | nil =>
    refine ⟨senders, rfl, rfl, ?_, fun _ _ => rfl⟩
    intro k data at_k
    cases at_k
  | cons data rest ih =>
    rw [List.length_cons] at enough ⊢
    obtain ⟨sent, open_⟩ : ∃ sent, senders[sliceId]? = some sent :=
      ⟨_, List.getElem?_eq_getElem (by omega)⟩
    let senders' := senders.set sliceId (sent ++ [payload p request sliceId data])
    have length : senders'.length = senders.length := List.length_set
    obtain ⟨after, ran, lengthAfter, delivered, others⟩ :=
      ih (sliceId + 1) senders' (by omega) (by omega)
    refine ⟨after, ?_, lengthAfter.trans length, ?_, ?_⟩
    · rw [publishLoop, show publishSubject ⟨true, worldSize⟩ sliceId = toString sliceId from rfl,
        publish_of_getElem? (by omega) open_]
      exact ran
    · intro k other at_k
      cases k with
      | zero =>
        cases at_k
        refine ⟨sent, open_, ?_⟩
        rw [Nat.add_zero, others sliceId (.inl (Nat.lt_succ_self sliceId)),
          List.getElem?_set_self (by omega)]
      | succ k =>
        obtain ⟨before, atRank, gets⟩ := delivered k other at_k
        rw [Nat.add_right_comm, List.getElem?_set_ne (by omega)] at atRank
        rw [Nat.add_right_comm] at gets
        exact ⟨before, atRank, gets⟩
    · intro rank outside
      rw [others rank (by omega), List.getElem?_set_ne (by omega)]

end ranks

end DistributedSoftmax.System.Submission
