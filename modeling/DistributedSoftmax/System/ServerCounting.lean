import DistributedSoftmax.System.ServerResults

/-! The counters of the C++ gateway. A call goes on when as many slices as it
needs were counted, but a slice that was read beforehand counts again when its
notification arrives, and so does one that is notified twice. -/

set_option autoImplicit false

namespace DistributedSoftmax.System.ServerJobs
open Foundations.ByteString Foundations.KeyValue Foundations.Transition
open Gateway Worker
open Jobs (Fault WorkerTask attempt settle expire taskOf sliceDone Framed)

/-- The slices that were counted for a job since it was registered, and whether
one of them ever counted again. -/
structure Tally where
  seen : List String
  repeated : Bool
  deriving DecidableEq, Repr

def Tally.restart (tally : Tally) : Tally := { tally with seen := [] }

def Tally.count (tally : Tally) (sliceId : String) : Tally :=
  ⟨sliceId :: tally.seen, tally.repeated || tally.seen.contains sliceId⟩

/-- The system with a tally of every job, which it does not look at. -/
structure Counted where
  state : State
  tally : String → Tally

namespace Counted

def empty : Counted := ⟨.empty, fun _ => ⟨[], false⟩⟩

/-- A slice counts for a job that is registered. -/
def counting (s : Counted) (jobId sliceId : String) : String → Tally :=
  if (s.state.shared.notifier.jobs jobId).isSome then
    Function.update s.tally jobId ((s.tally jobId).count sliceId)
  else s.tally

def tallied (s : Counted) : Action → String → Tally
  | .call c .register => match s.state.calls[c]? with
      | some call => Function.update s.tally call.request.jobId
          (s.tally call.request.jobId).restart
      | none => s.tally
  | .call c .count => match s.state.calls[c]? with
      | some ⟨request, .counting i _⟩ => s.counting request.jobId (toString i)
      | _ => s.tally
  | .notify n _ => match s.state.shared.channel[n]? with
      | some notification => match stripPrefix? "slice_done:" notification.channelName with
          | some jobId => s.counting jobId notification.payload
          | none => s.tally
      | none => s.tally
  | _ => s.tally

def step (p : Platform) (action : Action) (s : Counted) : Option Counted :=
  (ServerJobs.step p action s.state).map fun next => ⟨next, s.tallied action⟩

end Counted

variable {p : Platform} {s next : Counted} {action : Action} {jobId : String}

/-- What one step does to the counter and the tally of one job. -/
inductive Told (jobId : String) (s next : Counted) : Prop where
  | same : next.state.shared.notifier.jobs jobId = s.state.shared.notifier.jobs jobId →
      next.tally jobId = s.tally jobId → Told jobId s next
  | gone : next.state.shared.notifier.jobs jobId = none →
      next.tally jobId = s.tally jobId → Told jobId s next
  | fresh {total : Nat} : next.state.shared.notifier.jobs jobId = some ⟨0, total⟩ →
      next.tally jobId = (s.tally jobId).restart → Told jobId s next
  | counted {counter : Server.JobState} {sliceId : String} :
      s.state.shared.notifier.jobs jobId = some counter →
      next.state.shared.notifier.jobs jobId =
        some { counter with received := counter.received + 1 } →
      next.tally jobId = (s.tally jobId).count sliceId →
      (∃ notification ∈ s.state.shared.channel, notification.payload = sliceId ∧
        stripPrefix? "slice_done:" notification.channelName = some jobId) ∨
      (∃ call ∈ s.state.calls, call.request.jobId = jobId ∧
        ∃ i stats, call.phase = .counting i stats ∧ sliceId = toString i) →
      Told jobId s next

/-- A count for some job, seen from the job in question. -/
theorem told_counting {other sliceId : String}
    (notifier : next.state.shared.notifier = s.state.shared.notifier.notifySlice other)
    (tally : next.tally = s.counting other sliceId)
    (source : (∃ notification ∈ s.state.shared.channel, notification.payload = sliceId ∧
        stripPrefix? "slice_done:" notification.channelName = some other) ∨
      (∃ call ∈ s.state.calls, call.request.jobId = other ∧
        ∃ i stats, call.phase = .counting i stats ∧ sliceId = toString i)) :
    Told jobId s next := by
  rw [Counted.counting] at tally
  by_cases own : jobId = other
  · subst own
    have after := s.state.shared.notifier.notifySlice_self jobId
    rw [← notifier] at after
    cases registered : s.state.shared.notifier.jobs jobId with
    | none =>
      rw [registered] at after tally
      exact .same (after.trans registered.symm) (congrFun tally jobId)
    | some counter =>
      rw [registered] at after tally
      refine .counted registered after ?_ source
      exact (congrFun tally jobId).trans (Function.update_self _ _ _)
  · have after := s.state.shared.notifier.notifySlice_of_ne own
    rw [← notifier] at after
    refine .same after ((congrFun tally jobId).trans ?_)
    split
    · exact Function.update_of_ne own _ _
    · rfl

theorem step_told (taken : Counted.step p action s = some next) : Told jobId s next := by
  obtain ⟨state, applied, rfl⟩ := Option.map_eq_some_iff.mp taken
  cases action with
  | submit request now =>
    cases applied
    unfold submit
    split
    · exact .same rfl rfl
    split
    · exact .same rfl rfl
    · exact .gone rfl rfl
  | call c input =>
    simp only [ServerJobs.step] at applied
    split at applied
    · rename_i call at_c
      split at applied
      · rename_i phase shared stepped
        cases applied
        cases Call.step_effect stepped with
        | store | preRead | reread | wake | expire | skip | storeResult | storeProgress =>
          exact .same rfl rfl
        | publish =>
          refine .same ?_ rfl
          simp only
          split <;> rfl
        | register =>
          have tally : s.tallied (.call c .register) = Function.update s.tally call.request.jobId
              (s.tally call.request.jobId).restart := by
            simp only [Counted.tallied, at_c]
          by_cases own : jobId = call.request.jobId
          · subst own
            exact .fresh (Function.update_self _ _ _)
              ((congrFun tally _).trans (Function.update_self _ _ _))
          · exact .same (Function.update_of_ne own _ _)
              ((congrFun tally _).trans (Function.update_of_ne own _ _))
        | @count i stats stands =>
          refine told_counting rfl ?_
            (.inr ⟨call, List.mem_of_getElem? at_c, rfl, i, stats, stands, rfl⟩)
          obtain ⟨request, phase⟩ := call
          cases stands
          simp only [Counted.tallied, at_c]
        | unregister =>
          by_cases own : jobId = call.request.jobId
          · subst own
            exact .gone (Function.update_self _ _ _) rfl
          · exact .same (Function.update_of_ne own _ _) rfl
      · cases applied
    · cases applied
  | receive m again =>
    simp only [ServerJobs.step] at applied
    split at applied
    · cases applied
      refine .same ?_ rfl
      simp only
      split <;> rfl
    · cases applied
  | work t fault =>
    simp only [ServerJobs.step] at applied
    split at applied
    · cases applied
      exact .same rfl rfl
    · cases applied
  | lose | crash | miss | elapse =>
    cases applied
    exact .same rfl rfl
  | notify n again =>
    simp only [ServerJobs.step] at applied
    split at applied
    · rename_i notification at_n
      cases applied
      cases job : stripPrefix? "slice_done:" notification.channelName with
      | none =>
        refine .same ?_ ?_
        · simp only [Server.SliceNotifier.onPmessage, job]
        · simp only [Counted.tallied, at_n, job]
      | some other =>
        refine told_counting ?_ ?_ (.inl ⟨notification, List.mem_of_getElem? at_n, rfl, job⟩)
        · simp only [Server.SliceNotifier.onPmessage, job]
        · simp only [Counted.tallied, at_n, job]
    · cases applied

/-- The slice is stored. -/
def Kept (store : Store) (jobId : String) (i : Nat) : Prop :=
  (store (RedisConfig.sliceKey jobId i)).isSome = true

/-- The slices of the job have no lifetime. -/
def Lasting (store : Store) (jobId : String) : Prop :=
  ∀ (i : Nat) entry, store (RedisConfig.sliceKey jobId i) = some entry → entry.ttl = none

/-- Every slice of the job stays as it is, or a worker writes it. -/
def Grows (jobId : String) (store store' : Store) : Prop :=
  ∀ i, store' (RedisConfig.sliceKey jobId i) = store (RedisConfig.sliceKey jobId i) ∨
    ∃ value, store' (RedisConfig.sliceKey jobId i) = some ⟨value, none⟩

section stores
variable {store store' : Store}

theorem Grows.refl : Grows jobId store store := fun _ => .inl rfl

theorem Grows.kept (grows : Grows jobId store store') {i : Nat} (kept : Kept store jobId i) :
    Kept store' jobId i := by
  unfold Kept at kept ⊢
  rcases grows i with same | ⟨value, written⟩
  · rwa [same]
  · rw [written, Option.isSome_some]

theorem Grows.lasting (grows : Grows jobId store store') (lasting : Lasting store jobId) :
    Lasting store' jobId := by
  intro i entry stored
  rcases grows i with same | ⟨value, written⟩
  · exact lasting i entry (same.symm.trans stored)
  · cases written.symm.trans stored
    exact rfl

theorem grows_setEx (fault : Fault) {key : String} (value : Bytes) (seconds : Nat)
    (other : ∀ i, key ≠ RedisConfig.sliceKey jobId i) :
    Grows jobId store (attempt fault (.setEx key value seconds) store).1 :=
  fun i => .inl (Jobs.attempt_frame fault store (other i).symm)

theorem grows_set (fault : Fault) (key : String) (value : Bytes) :
    Grows jobId store (attempt fault (.set key value) store).1 := by
  intro i
  by_cases own : RedisConfig.sliceKey jobId i = key
  · cases fault with
    | lost => exact .inl (rfl)
    | none | unacknowledged =>
      refine .inr ⟨value, ?_⟩
      rw [own]
      exact Function.update_self _ _ _
  · exact .inl (Jobs.attempt_frame fault store own)

theorem grows_expire (lasting : Lasting store jobId) (seconds : Nat) :
    Grows jobId store (expire seconds store) := by
  intro i
  left
  unfold expire
  split
  · rename_i value ttl stored
    cases lasting i _ stored
  · exact rfl

end stores

/-- No other vector has the identifier of the request, and no identifier is nested in it. -/
structure Undisturbed (request : TaskRequest) (requests : List TaskRequest) : Prop where
  only : ∀ other ∈ requests, other.jobId = request.jobId → other.vector = request.vector
  flat : ∀ other ∈ requests, ¬ Nested request.jobId other.jobId

section system
variable {s next : State} {request : TaskRequest}

theorem step_requests (applied : step p action s = some next) :
    ∀ r ∈ s.requests, r ∈ next.requests := by
  intro r member
  cases action with
  | submit request now =>
    cases applied
    rw [submit_requests]
    exact List.mem_append_left _ member
  | call c input =>
    simp only [step] at applied
    split at applied
    · rename_i call at_c
      split at applied
      · rename_i phase shared stepped
        cases applied
        rw [State.requests, requests_set at_c]
        exact member
      · cases applied
    · cases applied
  | receive | work | notify =>
    simp only [step] at applied
    split at applied
    · cases applied
      exact member
    · cases applied
  | lose | crash | miss | elapse =>
    cases applied
    exact member

theorem Undisturbed.of_step (applied : step p action s = some next)
    (undisturbed : Undisturbed request next.requests) : Undisturbed request s.requests where
  only other member := undisturbed.only other (step_requests applied other member)
  flat other member := undisturbed.flat other (step_requests applied other member)

theorem step_grows (applied : step p action s = some next)
    (undisturbed : Undisturbed request s.requests)
    (lasting : Lasting s.shared.store request.jobId) :
    Grows request.jobId s.shared.store next.shared.store := by
  cases action with
  | submit other now =>
    cases applied
    rw [(submit_shared other now s).2.1]
    exact .refl
  | call c input =>
    simp only [step] at applied
    split at applied
    · rename_i call at_c
      split at applied
      · rename_i phase shared stepped
        cases applied
        have member : call.request ∈ s.requests :=
          List.mem_map.mpr ⟨call, List.mem_of_getElem? at_c, rfl⟩
        cases Call.step_effect stepped with
        | store =>
          exact grows_setEx _ _ _ fun i => (RedisConfig.sliceKey_ne_metadataKey _ _ i).symm
        | storeResult =>
          have apart := undisturbed.flat call.request member
          exact grows_setEx _ _ _ fun i => (Jobs.sliceKey_ne_resultKey apart i).symm
        | storeProgress =>
          exact grows_setEx _ _ _ fun i => (RedisConfig.sliceKey_ne_progressKey _ _ i).symm
        | publish =>
          simp only
          split <;> exact .refl
        | register | preRead | reread | count | wake | expire | unregister | skip => exact .refl
      · cases applied
    · cases applied
  | receive m again =>
    simp only [step] at applied
    split at applied
    · cases applied
      simp only
      split <;> exact .refl
    · cases applied
  | work t fault =>
    simp only [step] at applied
    split at applied
    · rename_i task at_t
      cases applied
      unfold WorkerTask.step
      split
      · exact .refl
      · exact grows_set fault _ _
    · cases applied
  | notify =>
    simp only [step] at applied
    split at applied
    · cases applied
      exact .refl
    · cases applied
  | lose | crash | miss =>
    cases applied
    exact .refl
  | elapse seconds =>
    cases applied
    exact grows_expire lasting seconds

/-- A slice counts as written by its worker when Redis has acknowledged it. -/
theorem step_written (applied : step p action s = some next) {task : WorkerTask}
    (member : task ∈ next.tasks) (written : task.written = true) :
    task ∈ s.tasks ∨ Kept next.shared.store task.jobId task.sliceId := by
  cases action with
  | submit request now =>
    cases applied
    rw [(submit_shared request now s).1] at member
    exact .inl member
  | call c input =>
    simp only [step] at applied
    split at applied
    · split at applied
      · cases applied
        exact .inl member
      · cases applied
    · cases applied
  | receive m again =>
    simp only [step] at applied
    split at applied
    · rename_i message at_m
      cases applied
      rcases List.mem_append.mp member with before | new
      · exact .inl before
      · -- A task starts before its SET.
        unfold taskOf at new
        split at new
        · cases List.mem_singleton.mp new
          cases written
        · cases new
    · cases applied
  | work t fault =>
    simp only [step] at applied
    split at applied
    · rename_i before at_t
      cases applied
      rcases Jobs.mem_settle member with old | new
      · exact .inl old
      · right
        unfold WorkerTask.step at new ⊢
        split at new
        · cases new
        · rename_i unwritten
          obtain ⟨acknowledged, same⟩ := Option.ite_none_right_eq_some.mp new
          cases same
          rw [if_neg unwritten]
          cases fault with
          | none =>
            simp only [Kept, attempt, Command.exec]
            exact Option.isSome_iff_exists.mpr ⟨_, Function.update_self _ _ _⟩
          | lost | unacknowledged => cases acknowledged
    · cases applied
  | crash t =>
    cases applied
    exact .inl (List.mem_of_mem_eraseIdx member)
  | notify =>
    simp only [step] at applied
    split at applied
    · cases applied
      exact .inl member
    · cases applied
  | lose | miss | elapse =>
    cases applied
    exact .inl member

/-- A notification tells of a slice that its worker has written. -/
theorem step_channel (applied : step p action s = some next) {notification : Notification}
    (member : notification ∈ next.shared.channel) :
    notification ∈ s.shared.channel ∨ ∃ task ∈ s.tasks, task.written = true ∧
      notification = sliceDone task.jobId task.sliceId := by
  cases action with
  | submit request now =>
    cases applied
    rw [(submit_shared request now s).2.2.2] at member
    exact .inl member
  | call c input =>
    simp only [step] at applied
    split at applied
    · rename_i call at_c
      split at applied
      · rename_i phase shared stepped
        cases applied
        left
        cases Call.step_effect stepped with
        | publish =>
          simp only at member
          split at member <;> exact member
        | store | register | preRead | reread | count | wake | expire | unregister | skip
        | storeResult | storeProgress => exact member
      · cases applied
    · cases applied
  | receive m again =>
    simp only [step] at applied
    split at applied
    · cases applied
      simp only at member
      split at member <;> exact .inl member
    · cases applied
  | work t fault =>
    simp only [step] at applied
    split at applied
    · rename_i task at_t
      cases applied
      unfold WorkerTask.step at member
      split at member
      · rename_i written
        simp only at member
        split at member
        · exact .inl member
        · rcases List.mem_append.mp member with before | new
          · exact .inl before
          · exact .inr ⟨task, List.mem_of_getElem? at_t, written, List.mem_singleton.mp new⟩
      · exact .inl member
    · cases applied
  | notify n again =>
    simp only [step] at applied
    split at applied
    · cases applied
      left
      simp only at member
      split at member
      · exact member
      · exact List.mem_of_mem_eraseIdx member
    · cases applied
  | miss n =>
    cases applied
    exact .inl (List.mem_of_mem_eraseIdx member)
  | lose | crash | elapse =>
    cases applied
    exact .inl member

/-- A call stands where it stood, took a step, or has just come or ended. -/
theorem step_mem_calls (applied : step p action s = some next) {call : Call}
    (member : call ∈ next.calls) :
    call ∈ s.calls ∨
    (call.phase = .crashed ∨ (∃ status, call.phase = .returned (.error status)) ∨
      ∃ now, call.phase = .storing now) ∨
    ∃ old ∈ s.calls, call.request = old.request ∧
      ∃ input shared, old.step p s.shared input = some (call.phase, shared) := by
  cases action with
  | submit request now =>
    cases applied
    rcases mem_submit member with before | ended | ⟨-, refused | ⟨started, -⟩⟩
    · exact .inl before
    · exact .inr (.inl (.inl ended))
    · exact .inr (.inl (.inr (.inl refused)))
    · exact .inr (.inl (.inr (.inr ⟨now, started⟩)))
  | call c input =>
    simp only [step] at applied
    split at applied
    · rename_i old at_c
      split at applied
      · rename_i phase shared stepped
        cases applied
        rcases List.mem_or_eq_of_mem_set member with before | rfl
        · exact .inl before
        · exact .inr (.inr ⟨old, List.mem_of_getElem? at_c, rfl, input, shared, stepped⟩)
      · cases applied
    · cases applied
  | receive | work | notify =>
    simp only [step] at applied
    split at applied
    · cases applied
      exact .inl member
    · cases applied
  | lose | crash | miss | elapse =>
    cases applied
    exact .inl member

end system

end DistributedSoftmax.System.ServerJobs
