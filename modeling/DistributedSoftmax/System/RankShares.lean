import DistributedSoftmax.System.Submission

/-! TRANSPORT=zmq_nccl: the vector of a job is cut into as many slices as there
are ranks, and each rank gets the message for its slice and no other one. -/

set_option autoImplicit false

namespace DistributedSoftmax.System
open Gateway Jobs Submission

/-- The parts of a vector, cut as evenly as possible. -/
structure EvenShares {α : Type} (vector : List α) (worldSize : Nat) (shares : List (List α)) :
    Prop where
  cut : evenChunks vector worldSize = some shares
  count : shares.length = worldSize
  nonempty : ∀ share ∈ shares, share ≠ []
  whole : shares.flatten = vector
  descending : (shares.map List.length).Pairwise (· ≥ ·)
  even : ∀ share ∈ shares, ∀ other ∈ shares, share.length ≤ other.length + 1

/-- Each rank got one more message, the one for the share with its index. -/
structure Delivered (p : Platform) (request : TaskRequest) (shares : List (List Double))
    (before after : List (List String)) : Prop where
  ranks : after.length = before.length
  share : ∀ (rank : Nat) data, shares[rank]? = some data → ∃ sent, before[rank]? = some sent ∧
    after[rank]? = some (sent ++ [payload p request rank data])

theorem evenShares {α : Type} {vector : List α} {worldSize : Nat} (positive : 1 ≤ worldSize)
    (long : worldSize ≤ vector.length) :
    EvenShares vector worldSize ((List.range worldSize).map (evenChunk vector worldSize)) where
  cut := evenChunks_eq vector positive
  count := by rw [List.length_map, List.length_range]
  nonempty share member := by
    obtain ⟨i, index, rfl⟩ := List.mem_map.mp member
    exact evenChunk_nonempty (List.mem_range.mp index) long
  whole := evenChunks_flatten vector positive
  descending := by
    have lengths : ((List.range worldSize).map (evenChunk vector worldSize)).map List.length =
        (List.range worldSize).map (evenTake vector.length worldSize) := by
      rw [List.map_map]
      exact List.map_congr_left fun i member => length_evenChunk vector (List.mem_range.mp member)
    rw [lengths, List.pairwise_map]
    exact List.pairwise_lt_range.imp fun before => evenTake_antitone _ _ before.le
  even share member other member' := by
    obtain ⟨i, index, rfl⟩ := List.mem_map.mp member
    obtain ⟨j, index', rfl⟩ := List.mem_map.mp member'
    rw [length_evenChunk vector (List.mem_range.mp index),
      length_evenChunk vector (List.mem_range.mp index')]
    exact evenTake_le_succ _ _ i j

/-- A vector with an entry for each rank is cut evenly, share `i` is queued for
rank `i` under slice identifier `i`, and no subject is refused; so the call ends
well when its metadata is stored. A shorter vector is refused before anything is
written. -/
def RankDispatch (p : Platform) (worldSize : Nat) (senders : List (List String))
    (request : TaskRequest) : Prop :=
  (request.task = "softmax" → worldSize ≤ request.vector.length →
    ∃ shares after, EvenShares (request.vector.map p.widen) worldSize shares ∧
      publishLoop p ZmqMultiPublisher.publish ⟨true, worldSize⟩ request 0 shares senders =
        (after, .ok ()) ∧
      Delivered p request shares senders after ∧
      ∀ fault now store store', attempt fault (RedisManager.setJobMetadata p.env p.serde
          request.jobId (submittedMetadata request worldSize now)) store = (store', some .ok) →
        submitTask p ZmqMultiPublisher.publish ⟨true, worldSize⟩ request fault now
          ⟨store, senders⟩ = (⟨store', after⟩, .ok worldSize)) ∧
  (request.vector.length < worldSize → ∀ fault now store, ∃ message,
    submitTask p ZmqMultiPublisher.publish ⟨true, worldSize⟩ request fault now ⟨store, senders⟩ =
      (⟨store, senders⟩, .error (.invalidArgument message)) ∧
    (request.task = "softmax" → request.vector ≠ [] →
      message = tooShort request.vector.length worldSize))

end DistributedSoftmax.System
