import DistributedSoftmax.Foundations.Decimal

/-! gateway-rs/src/publisher/zmq.rs: the publisher with one channel, and the one
with a channel for each rank. There the subject of a message is the rank as a
decimal string. -/

set_option autoImplicit false

namespace DistributedSoftmax.Gateway
open Foundations.Decimal

variable {α : Type}

/-- `ZmqPublisher::publish` on an open channel. -/
def ZmqPublisher.publish (sent : List α) (_subject : String) (payload : α) :
    Except String (List α) :=
  .ok (sent ++ [payload])

/-- `ZmqMultiPublisher::publish` on open channels, each a first-in first-out queue. -/
def ZmqMultiPublisher.publish (senders : List (List α)) (subject : String) (payload : α) :
    Except String (List (List α)) :=
  match parseUnsigned 64 subject with
  | none => .error ("ZmqMultiPublisher: invalid rank '" ++ subject ++ "'")
  | some rank => match senders[rank]? with
      | none => .error ("ZmqMultiPublisher: rank " ++ toString rank ++ " out of range")
      | some sent => .ok (senders.set rank (sent ++ [payload]))

/-- A message that was queued for a decimal subject was queued for that rank only. -/
theorem publish_toString {senders senders' : List (List α)} {rank : Nat} {payload : α}
    (published : ZmqMultiPublisher.publish senders (toString rank) payload = .ok senders') :
    ∃ sent, senders[rank]? = some sent ∧ senders' = senders.set rank (sent ++ [payload]) := by
  unfold ZmqMultiPublisher.publish at published
  split at published
  · cases published
  · rename_i parsed same
    cases parseUnsigned_toString_eq_some same
    split at published
    · cases published
    · rename_i sent open_
      exact ⟨sent, open_, (Except.ok.inj published).symm⟩

/-- The subject of a rank that has a channel is read back as that rank. -/
theorem publish_of_getElem? {senders : List (List α)} {rank : Nat} {sent : List α} {payload : α}
    (bound : rank < 2 ^ 64) (open_ : senders[rank]? = some sent) :
    ZmqMultiPublisher.publish senders (toString rank) payload =
      .ok (senders.set rank (sent ++ [payload])) := by
  rw [ZmqMultiPublisher.publish, parseUnsigned_toString bound]
  simp only [open_]

end DistributedSoftmax.Gateway
