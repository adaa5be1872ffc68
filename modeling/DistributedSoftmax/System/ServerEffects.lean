import DistributedSoftmax.System.JobEffects
import DistributedSoftmax.System.ServerJobs

/-! What one step of the C++ gateway does: to the call that makes it, and to
the calls that were made so far. -/

set_option autoImplicit false

namespace DistributedSoftmax.System.ServerJobs
open Foundations.ByteString Foundations.KeyValue
open Gateway Worker
open Jobs (Fault WorkerTask attempt)

/-- What one step of a call does, case by case. -/
inductive Call.Effect (p : Platform) (call : Call) (shared : Shared) :
    CallInput → Phase → Shared → Prop where
  | store {now : Nat} {fault : Fault} : call.phase = .storing now →
      Effect p call shared (.store fault) (.publishing 0)
        { shared with store := (attempt fault (.setEx (RedisConfig.metadataKey call.request.jobId)
            (utf8 (metadataText p call.request now)) p.metadataTtl) shared.store).1 }
  | publish {sliceId : Nat} {data : List Double} {lost : Bool} :
      call.phase = .publishing sliceId → (slicesOf p call.request)[sliceId]? = some data →
      Effect p call shared (.publish lost) (.publishing (sliceId + 1))
        (if lost then shared
          else { shared with queue := shared.queue ++ [taskMessage call.request sliceId data] })
  | register {sliceId : Nat} : call.phase = .publishing sliceId →
      Effect p call shared .register
        (preReadFrom (totalOf p call.request) 0 (List.replicate (totalOf p call.request) .default))
        { shared with notifier :=
            shared.notifier.registerJob call.request.jobId (totalOf p call.request) }
  | preRead {i : Nat} {stats : List (SliceStats Double)} {failed ok : Bool} {s : SliceStats Double} :
      call.phase = .preReading i stats →
      readAt p call.request i stats failed shared.store = (ok, s) →
      Effect p call shared (.read failed)
        (if ok then .counting i (stats.set i s)
          else preReadFrom (totalOf p call.request) (i + 1) (stats.set i s)) shared
  | reread {i : Nat} {stats : List (SliceStats Double)} {failed ok : Bool} {s : SliceStats Double} :
      call.phase = .rereading i stats → ((stats[i]?).getD .default).expValues = [] →
      readAt p call.request i stats failed shared.store = (ok, s) →
      Effect p call shared (.read failed)
        (if ok then rereadFrom p (totalOf p call.request) (i + 1) (stats.set i s)
          else .returned (ServerJobs.failed call.request.jobId)) shared
  | count {i : Nat} {stats : List (SliceStats Double)} : call.phase = .counting i stats →
      Effect p call shared .count (preReadFrom (totalOf p call.request) (i + 1) stats)
        { shared with notifier := shared.notifier.notifySlice call.request.jobId }
  | wake {stats : List (SliceStats Double)} : call.phase = .waiting stats →
      shared.notifier.satisfied call.request.jobId (totalOf p call.request) = true →
      Effect p call shared .wake (.leaving true stats) shared
  | expire {stats : List (SliceStats Double)} : call.phase = .waiting stats →
      Effect p call shared .expire (.leaving false stats) shared
  | unregister {ok : Bool} {stats : List (SliceStats Double)} : call.phase = .leaving ok stats →
      Effect p call shared .unregister
        (if ok then rereadFrom p (totalOf p call.request) 0 stats
          else .returned (ServerJobs.failed call.request.jobId))
        { shared with notifier := shared.notifier.unregisterJob call.request.jobId }
  | skip {i : Nat} {stats : List (SliceStats Double)} : call.phase = .rereading i stats →
      ((stats[i]?).getD .default).expValues ≠ [] →
      Effect p call shared .skip (rereadFrom p (totalOf p call.request) (i + 1) stats) shared
  | storeResult {values : List Double} {fault : Fault} : call.phase = .storingResult values →
      Effect p call shared (.storeResult fault) (.storingProgress values)
        { shared with store := (attempt fault (.setEx (RedisConfig.resultKey call.request.jobId)
            (utf8 (resultText p values)) p.resultTtl) shared.store).1 }
  | storeProgress {values : List Double} {fault : Fault} {now : Nat} :
      call.phase = .storingProgress values →
      Effect p call shared (.storeProgress fault now)
        (match resultFloats p.json p.workers.narrow (resultText p values) with
          | some result => .returned (.ok result)
          | none => .returned (.error (.internal "Failed to parse result")))
        { shared with store := (attempt fault (.setEx (RedisConfig.progressKey call.request.jobId)
            (utf8 (progressText p call.request.jobId now)) p.progressTtl) shared.store).1 }

variable {p : Platform}

theorem Call.step_effect {call : Call} {shared shared' : Shared} {input : CallInput} {phase : Phase}
    (applied : call.step p shared input = some (phase, shared')) :
    call.Effect p shared input phase shared' := by
  cases input with
  | store fault =>
    simp only [Call.step] at applied
    split at applied
    · rename_i now stands
      cases applied
      exact .store stands
    · cases applied
  | publish lost =>
    simp only [Call.step] at applied
    split at applied
    · rename_i sliceId stands
      split at applied
      · rename_i data at_slice
        cases applied
        exact .publish stands at_slice
      · cases applied
    · cases applied
  | register =>
    simp only [Call.step] at applied
    split at applied
    · rename_i sliceId stands
      cases (Option.ite_none_right_eq_some.mp applied).2
      exact .register stands
    · cases applied
  | read failed =>
    simp only [Call.step] at applied
    split at applied
    · rename_i i stats stands
      cases applied
      exact .preRead stands rfl
    · rename_i i stats stands
      obtain ⟨unread, applied⟩ := Option.ite_none_right_eq_some.mp applied
      cases applied
      exact .reread stands (List.isEmpty_iff.mp unread) rfl
    · cases applied
  | count =>
    simp only [Call.step] at applied
    split at applied
    · rename_i i stats stands
      cases applied
      exact .count stands
    · cases applied
  | wake =>
    simp only [Call.step] at applied
    split at applied
    · rename_i stats stands
      obtain ⟨satisfied, applied⟩ := Option.ite_none_right_eq_some.mp applied
      cases applied
      exact .wake stands satisfied
    · cases applied
  | expire =>
    simp only [Call.step] at applied
    split at applied
    · rename_i stats stands
      cases (Option.ite_none_left_eq_some.mp applied).2
      exact .expire stands
    · cases applied
  | unregister =>
    simp only [Call.step] at applied
    split at applied
    · rename_i ok stats stands
      cases applied
      exact .unregister stands
    · cases applied
  | skip =>
    simp only [Call.step] at applied
    split at applied
    · rename_i i stats stands
      obtain ⟨read, applied⟩ := Option.ite_none_left_eq_some.mp applied
      cases applied
      refine .skip stands fun empty => read ?_
      rw [empty]
      rfl
    · cases applied
  | storeResult fault =>
    simp only [Call.step] at applied
    split at applied
    · rename_i values stands
      cases applied
      exact .storeResult stands
    · cases applied
  | storeProgress fault now =>
    simp only [Call.step] at applied
    split at applied
    · rename_i values stands
      cases applied
      exact .storeProgress stands
    · cases applied

/-- The calls that a submission leaves as they were, or abandons. -/
theorem mem_submit {request : TaskRequest} {now : Nat} {s : State} {call : Call}
    (member : call ∈ (submit p request now s).calls) :
    call ∈ s.calls ∨ call.phase = .crashed ∨
      call.request = request ∧ ((∃ status, call.phase = .returned (.error status)) ∨
        call.phase = .storing now ∧ request.task = "softmax" ∧
          (countsOf p request).isSome = true) := by
  unfold submit at member
  split at member
  · rcases List.mem_append.mp member with before | new
    · exact .inl before
    · cases List.mem_singleton.mp new
      exact .inr (.inr ⟨rfl, .inl ⟨_, rfl⟩⟩)
  rename_i softmax
  split at member
  · rename_i counts admitted
    rcases List.mem_append.mp member with before | new
    · exact .inl before
    · cases List.mem_singleton.mp new
      exact .inr (.inr ⟨rfl, .inr ⟨rfl, not_not.mp softmax, admitted ▸ rfl⟩⟩)
  · rcases List.mem_append.mp member with before | new
    · obtain ⟨old, known, rfl⟩ := List.mem_map.mp before
      unfold Call.abandon
      split
      · exact .inl known
      · exact .inr (.inl rfl)
    · cases List.mem_singleton.mp new
      exact .inr (.inl rfl)

theorem abandon_request (call : Call) : call.abandon.request = call.request := by
  unfold Call.abandon
  split <;> rfl

theorem submit_requests (request : TaskRequest) (now : Nat) (s : State) :
    (submit p request now s).requests = s.requests ++ [request] := by
  unfold submit
  split
  · exact List.map_append
  split
  · exact List.map_append
  · have same : Call.request ∘ Call.abandon = Call.request := funext abandon_request
    simp only [State.requests, List.map_append, List.map_map, same]
    rfl

theorem submit_shared (request : TaskRequest) (now : Nat) (s : State) :
    (submit p request now s).tasks = s.tasks ∧
    (submit p request now s).shared.store = s.shared.store ∧
    (submit p request now s).shared.queue = s.shared.queue ∧
    (submit p request now s).shared.channel = s.shared.channel := by
  unfold submit
  split
  · exact ⟨rfl, rfl, rfl, rfl⟩
  split <;> exact ⟨rfl, rfl, rfl, rfl⟩

theorem requests_set {s : State} {c : Nat} {call : Call} (at_c : s.calls[c]? = some call)
    (phase : Phase) : (s.calls.set c { call with phase }).map Call.request = s.requests := by
  obtain ⟨index, rfl⟩ := List.getElem?_eq_some_iff.mp at_c
  rw [List.map_set, State.requests, ← List.getElem_map Call.request (h := by simpa using index),
    List.set_getElem_self]

end DistributedSoftmax.System.ServerJobs
