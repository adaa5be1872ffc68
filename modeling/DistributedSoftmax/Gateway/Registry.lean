import DistributedSoftmax.Gateway.ReadHistory

/-! Any number of `wait_for_all_slices` calls on one `SliceNotifier`, with the
messages of the subscriber in between. Registration overwrites and deregistration
deletes by the job identifier alone, and a call that is dropped at an await point
does not come to its deregistration. -/

set_option autoImplicit false

namespace DistributedSoftmax.Gateway
open Foundations.Transition

/-- Where a call stands. With the loop goes the number of notifications for its
job since it last looked. -/
inductive WaitCallPoint where
  | entering
  | looping (waiting : Waiting) (unseen : Nat)
  | finished (outcome : Except String (List (SliceStats Double)))
  | dropped
  deriving DecidableEq, Repr

structure WaitCall where
  jobId : String
  totalSlices : Nat
  point : WaitCallPoint
  deriving DecidableEq, Repr

/-- What happens to a call in its loop. -/
inductive LoopEvent where
  | read (outcome : ReadOutcome)
  | skip
  | endPass (expired : Bool)
  | wake
  deriving DecidableEq, Repr

def LoopEvent.on (notifier : SliceNotifier) : LoopEvent → WaitEvent
  | .read outcome => .read outcome
  | .skip => .skip
  | .endPass expired => .endPass expired
  | .wake => .wake notifier

structure Registry where
  notifier : SliceNotifier
  calls : List WaitCall

namespace Registry

def empty : Registry := ⟨.empty, []⟩

inductive Action where
  | enter (jobId : String) (totalSlices : Nat)
  | register (c : Nat)
  | loop (c : Nat) (event : LoopEvent)
  | notify (channelName : String)
  /-- The future of the call is dropped: at an await point, as the client went away. -/
  | drop (c : Nat)
  deriving DecidableEq, Repr

/-- A notification of the job counts for every call that waits for the job. -/
def told (channelName : String) (call : WaitCall) : WaitCall :=
  match call.point with
  | .looping waiting unseen =>
      if stripPrefix? "slice_done:" channelName = some call.jobId then
        { call with point := .looping waiting (unseen + 1) }
      else call
  | _ => call

theorem told_jobId (channelName : String) (call : WaitCall) :
    (told channelName call).jobId = call.jobId := by
  unfold told
  split
  · split <;> rfl
  · rfl

theorem told_point {channelName : String} {call : WaitCall} {waiting : Waiting} {unseen : Nat}
    (point : (told channelName call).point = .looping waiting unseen) :
    ∃ before, call.point = .looping waiting before ∧
      unseen = if stripPrefix? "slice_done:" channelName = some call.jobId then before + 1
        else before := by
  unfold told at point
  split at point
  · rename_i waiting' before looping
    refine ⟨before, ?_⟩
    split at point
    · rename_i named
      cases point
      exact ⟨looping, (if_pos named).symm⟩
    · rename_i other_job
      rw [looping] at point
      cases point
      exact ⟨looping, (if_neg other_job).symm⟩
  · rename_i no_loop
    exact absurd point (no_loop waiting unseen)

/-- One event in the loop of call `c`; out of the loop the job is unregistered. -/
def loopStep (registry : Registry) (c : Nat) (call : WaitCall) (waiting : Waiting) (unseen : Nat)
    (event : LoopEvent) : Option Registry :=
  match waiting.step call.jobId (event.on registry.notifier) with
  | none => none
  | some next => match next.point with
      | .left outcome => some ⟨registry.notifier.unregisterJob call.jobId,
          registry.calls.set c { call with point := .finished outcome }⟩
      | _ => some ⟨registry.notifier, registry.calls.set c
          { call with point := .looping next (if event = .wake then 0 else unseen) }⟩

def step : Action → Registry → Option Registry
  | .enter jobId totalSlices, registry =>
      some { registry with calls := registry.calls ++ [⟨jobId, totalSlices, .entering⟩] }
  | .register c, registry => match registry.calls[c]? with
      | none => none
      | some call => match call.point with
          | .entering =>
              let (notifier, receiver) := registry.notifier.registerJob call.jobId
              some ⟨notifier, registry.calls.set c
                { call with point := .looping (.start call.totalSlices receiver) 0 }⟩
          | _ => none
  | .loop c event, registry => match registry.calls[c]? with
      | none => none
      | some call => match call.point with
          | .looping waiting unseen => registry.loopStep c call waiting unseen event
          | _ => none
  | .notify channelName, registry =>
      some ⟨registry.notifier.notify channelName, registry.calls.map (told channelName)⟩
  -- Nothing is unregistered here: the deregistration stands after the loop.
  | .drop c, registry => match registry.calls[c]? with
      | none => none
      | some call => match call.point with
          | .entering | .looping _ _ =>
              some { registry with calls := registry.calls.set c { call with point := .dropped } }
          | .finished _ | .dropped => none

/-- Call `c` is between its registration and its deregistration. -/
def Looping (registry : Registry) (c : Nat) (jobId : String) (waiting : Waiting) (unseen : Nat) :
    Prop :=
  ∃ call, registry.calls[c]? = some call ∧ call.jobId = jobId ∧ call.point = .looping waiting unseen

/-- Some call is between its registration and its deregistration for the job. -/
def InProgress (registry : Registry) (jobId : String) : Prop :=
  ∃ c waiting unseen, registry.Looping c jobId waiting unseen

end Registry

/-- `changed` returns without waiting: the channel is closed, or it has a version
that the receiver has not seen. -/
def Receiver.ReturnsAtOnce (receiver : Receiver) (notifier : SliceNotifier) : Prop :=
  ¬ notifier.Live receiver.channel ∨ receiver.Pending notifier

namespace Registry

-- The clause is an equivalence: a call that spins on a closed channel returns at
-- once without a notification, and that is a defect as well as a missed one.
/-- Every call in its loop can be reached under its job, and `changed` returns at
once exactly when a notification for the job came that the call has not seen. -/
def Connected (registry : Registry) : Prop :=
  ∀ c jobId waiting unseen, registry.Looping c jobId waiting unseen →
    registry.notifier.jobs jobId = some waiting.receiver.channel ∧
      (waiting.receiver.ReturnsAtOnce registry.notifier ↔ unseen ≠ 0)

/-- The map has entries for jobs only that some call waits for. -/
def Tidy (registry : Registry) : Prop :=
  ∀ jobId channel, registry.notifier.jobs jobId = some channel → registry.InProgress jobId

/-- A call is registered only when no other call waits for its job. -/
def Exclusive (action : Action) (registry : Registry) : Prop :=
  match action with
  | .register c => ∀ call, registry.calls[c]? = some call → call.point = .entering →
      ¬ registry.InProgress call.jobId
  | _ => True

/-- A call is dropped out of its loop only when its job has no entry, or another
call for the job will delete the entry. -/
def LeavesNothing (action : Action) (registry : Registry) : Prop :=
  match action with
  | .drop c => ∀ jobId waiting unseen, registry.Looping c jobId waiting unseen →
      registry.notifier.jobs jobId = none ∨
        ∃ other, other ≠ c ∧ ∃ waiting' unseen', registry.Looping other jobId waiting' unseen'
  | _ => True

variable {registry next : Registry}

/-- What one action does to the registry and the calls. -/
theorem step_cases {action : Action} (applied : step action registry = some next) :
    (∃ jobId totalSlices, action = .enter jobId totalSlices ∧
      next = { registry with calls := registry.calls ++ [⟨jobId, totalSlices, .entering⟩] }) ∨
    (∃ c call, action = .register c ∧ registry.calls[c]? = some call ∧ call.point = .entering ∧
      next = ⟨(registry.notifier.registerJob call.jobId).1, registry.calls.set c { call with
        point := .looping (.start call.totalSlices ⟨registry.notifier.next, 0⟩) 0 }⟩) ∨
    (∃ c call waiting unseen event after, action = .loop c event ∧
      registry.calls[c]? = some call ∧ call.point = .looping waiting unseen ∧
      waiting.step call.jobId (event.on registry.notifier) = some after ∧
      ((∃ outcome, next = ⟨registry.notifier.unregisterJob call.jobId,
          registry.calls.set c { call with point := .finished outcome }⟩) ∨
        next = ⟨registry.notifier, registry.calls.set c
          { call with point := .looping after (if event = .wake then 0 else unseen) }⟩)) ∨
    (∃ channelName, action = .notify channelName ∧
      next = ⟨registry.notifier.notify channelName, registry.calls.map (told channelName)⟩) ∨
    (∃ c call, action = .drop c ∧ registry.calls[c]? = some call ∧
      next = { registry with calls := registry.calls.set c { call with point := .dropped } }) := by
  cases action with
  | enter jobId totalSlices =>
    cases applied
    exact .inl ⟨jobId, totalSlices, rfl, rfl⟩
  | register c =>
    simp only [step] at applied
    split at applied
    · cases applied
    rename_i call at_c
    split at applied
    · rename_i point
      cases applied
      exact .inr (.inl ⟨c, call, rfl, at_c, point, rfl⟩)
    · cases applied
  | loop c event =>
    simp only [step] at applied
    split at applied
    · cases applied
    rename_i call at_c
    split at applied
    · rename_i waiting unseen point
      simp only [loopStep] at applied
      split at applied
      · cases applied
      rename_i after moved
      refine .inr (.inr (.inl ⟨c, call, waiting, unseen, event, after, rfl, at_c, point, moved, ?_⟩))
      split at applied
      · rename_i outcome _
        cases applied
        exact .inl ⟨outcome, rfl⟩
      · cases applied
        exact .inr rfl
    · cases applied
  | notify channelName =>
    cases applied
    exact .inr (.inr (.inr (.inl ⟨channelName, rfl, rfl⟩)))
  | drop c =>
    simp only [step] at applied
    split at applied
    · cases applied
    rename_i call at_c
    split at applied
    · cases applied
      exact .inr (.inr (.inr (.inr ⟨c, call, rfl, at_c, rfl⟩)))
    · cases applied
      exact .inr (.inr (.inr (.inr ⟨c, call, rfl, at_c, rfl⟩)))
    · cases applied
    · cases applied

section looping
variable {notifier : SliceNotifier} {c k : Nat} {jobId : String} {waiting : Waiting} {unseen : Nat}

/-- Only the call that was set can have changed. -/
theorem looping_set {call : WaitCall}
    (looping : Looping ⟨notifier, registry.calls.set c call⟩ k jobId waiting unseen) :
    (k = c ∧ call.jobId = jobId ∧ call.point = .looping waiting unseen) ∨
      (k ≠ c ∧ registry.Looping k jobId waiting unseen) := by
  obtain ⟨other, at_k, own⟩ := looping
  rw [List.getElem?_set] at at_k
  split at at_k
  · rename_i same
    split at at_k
    · cases at_k
      exact .inl ⟨same.symm, own⟩
    · cases at_k
  · rename_i apart
    exact .inr ⟨Ne.symm apart, other, at_k, own⟩

theorem looping_set_of_ne {call : WaitCall} (apart : k ≠ c)
    (looping : registry.Looping k jobId waiting unseen) :
    Looping ⟨notifier, registry.calls.set c call⟩ k jobId waiting unseen := by
  obtain ⟨other, at_k, own⟩ := looping
  exact ⟨other, (List.getElem?_set_ne (Ne.symm apart)).trans at_k, own⟩

theorem looping_enter {totalSlices : Nat} {entered : String} :
    Looping ⟨notifier, registry.calls ++ [⟨entered, totalSlices, .entering⟩]⟩ k jobId waiting unseen ↔
      registry.Looping k jobId waiting unseen := by
  constructor
  · rintro ⟨call, at_k, own⟩
    rw [List.getElem?_append] at at_k
    split at at_k
    · exact ⟨call, at_k, own⟩
    · cases List.mem_singleton.mp (List.mem_of_getElem? at_k)
      cases own.2
  · rintro ⟨call, at_k, own⟩
    obtain ⟨index, -⟩ := List.getElem?_eq_some_iff.mp at_k
    exact ⟨call, (List.getElem?_append_left index).trans at_k, own⟩

/-- A notification changes no call but for the count. -/
theorem looping_told {channelName : String}
    (looping : Looping ⟨notifier, registry.calls.map (told channelName)⟩ k jobId waiting unseen) :
    ∃ before, registry.Looping k jobId waiting before ∧
      unseen = if stripPrefix? "slice_done:" channelName = some jobId then before + 1 else before := by
  obtain ⟨call, at_k, own, point⟩ := looping
  rw [List.getElem?_map, Option.map_eq_some_iff] at at_k
  obtain ⟨other, at_k, rfl⟩ := at_k
  rw [told_jobId] at own
  subst own
  obtain ⟨before, point, count⟩ := told_point point
  exact ⟨before, ⟨other, at_k, rfl, point⟩, count⟩

theorem looping_map_told (channelName : String)
    (looping : registry.Looping k jobId waiting unseen) :
    ∃ after, Looping ⟨notifier, registry.calls.map (told channelName)⟩ k jobId waiting after := by
  obtain ⟨call, at_k, rfl, point⟩ := looping
  have at_k' : (registry.calls.map (told channelName))[k]? = some (told channelName call) := by
    rw [List.getElem?_map, at_k, Option.map_some]
  unfold told at at_k'
  rw [point] at at_k'
  simp only at at_k'
  split at at_k'
  · exact ⟨unseen + 1, _, at_k', rfl, rfl⟩
  · exact ⟨unseen, _, at_k', rfl, point⟩

end looping

/-- Receivers belong to their channels: the loop only marks versions as seen. -/
theorem receiver_of_step {jobId : String} {waiting after : Waiting} {event : LoopEvent}
    {notifier : SliceNotifier} (moved : waiting.step jobId (event.on notifier) = some after) :
    after.receiver = if event = .wake then waiting.receiver.changed notifier else waiting.receiver := by
  rcases Waiting.step_cases moved with ⟨outcome, i, same, -, -, -, rfl⟩ | ⟨i, same, -, -, -, rfl⟩ |
    ⟨expired, i, same, -, -, ⟨-, rfl⟩ | ⟨-, -, rfl⟩ | ⟨-, -, rfl⟩⟩ | ⟨now, same, -, rfl⟩ <;>
    cases event <;> cases same <;> rfl

/-- What holds as long as no two calls wait for one job. -/
structure Inv (registry : Registry) : Prop where
  /-- Channels are numbered in the order of registration, so a new one is fresh. -/
  numbered : registry.notifier.Numbered
  injective : ∀ jobId other channel, registry.notifier.jobs jobId = some channel →
    registry.notifier.jobs other = some channel → jobId = other
  distinct : ∀ c k jobId waiting unseen waiting' unseen',
    registry.Looping c jobId waiting unseen → registry.Looping k jobId waiting' unseen' → c = k
  reachable : ∀ c jobId waiting unseen, registry.Looping c jobId waiting unseen →
    registry.notifier.jobs jobId = some waiting.receiver.channel
  counted : ∀ c jobId waiting unseen, registry.Looping c jobId waiting unseen →
    registry.notifier.version waiting.receiver.channel = waiting.receiver.seen + unseen

theorem not_looping_empty {c : Nat} {jobId : String} {waiting : Waiting} {unseen : Nat} :
    ¬ empty.Looping c jobId waiting unseen := by
  rintro ⟨call, at_c, -⟩
  cases at_c

theorem empty_inv : empty.Inv where
  numbered jobId channel registered := by cases registered
  injective jobId other channel registered := by cases registered
  distinct c k jobId waiting unseen waiting' unseen' looping := absurd looping not_looping_empty
  reachable c jobId waiting unseen looping := absurd looping not_looping_empty
  counted c jobId waiting unseen looping := absurd looping not_looping_empty

theorem Inv.connected (inv : registry.Inv) : registry.Connected := by
  intro c jobId waiting unseen looping
  have reachable := inv.reachable c jobId waiting unseen looping
  have counted := inv.counted c jobId waiting unseen looping
  -- The channel is open, so `changed` waits for a version beyond the one seen.
  refine ⟨reachable, ?_⟩
  constructor
  · rintro (closed | pending)
    · exact absurd ⟨jobId, reachable⟩ closed
    · intro none_unseen
      apply pending
      rw [counted, none_unseen, Nat.add_zero]
  · intro some_unseen
    right
    intro seen
    omega

/-- A registration for a job that nobody waits for. -/
theorem register_inv {c : Nat} {call : WaitCall} (inv : registry.Inv)
    (at_c : registry.calls[c]? = some call) (free : ¬ registry.InProgress call.jobId) :
    Inv ⟨(registry.notifier.registerJob call.jobId).1, registry.calls.set c { call with
      point := .looping (.start call.totalSlices ⟨registry.notifier.next, 0⟩) 0 }⟩ := by
  have others : ∀ {k jobId waiting unseen}, registry.Looping k jobId waiting unseen →
      jobId ≠ call.jobId := by
    rintro k jobId waiting unseen looping rfl
    exact free ⟨k, waiting, unseen, looping⟩
  refine ⟨inv.numbered.registerJob call.jobId, ?_, ?_, ?_, ?_⟩
  · intro jobId other channel registered registered'
    simp only [SliceNotifier.registerJob, Function.update_apply] at registered registered'
    -- The new channel has a number that no registered channel has.
    split at registered <;> split at registered'
    · rename_i first second
      exact first.trans second.symm
    · cases registered
      exact absurd (inv.numbered other _ registered') (Nat.lt_irrefl _)
    · cases registered'
      exact absurd (inv.numbered jobId _ registered) (Nat.lt_irrefl _)
    · exact inv.injective jobId other channel registered registered'
  · intro k k' jobId waiting unseen waiting' unseen' first second
    rcases looping_set first with ⟨rfl, rfl, -⟩ | ⟨-, before⟩ <;>
      rcases looping_set second with ⟨rfl, same, -⟩ | ⟨-, before'⟩
    · rfl
    · exact absurd rfl (others before')
    · exact absurd same.symm (others before)
    · exact inv.distinct k k' jobId _ _ _ _ before before'
  · intro k jobId waiting unseen looping
    rcases looping_set looping with ⟨rfl, rfl, point⟩ | ⟨-, before⟩
    · cases point
      exact Function.update_self _ _ _
    · simp only [SliceNotifier.registerJob, Function.update_of_ne (others before)]
      exact inv.reachable k jobId waiting unseen before
  · intro k jobId waiting unseen looping
    rcases looping_set looping with ⟨rfl, rfl, point⟩ | ⟨-, before⟩
    · cases point
      exact Function.update_self _ _ _
    · have below := inv.numbered jobId _ (inv.reachable k jobId waiting unseen before)
      simp only [SliceNotifier.registerJob, Function.update_of_ne below.ne]
      exact inv.counted k jobId waiting unseen before

/-- The call that leaves takes the entry of its own job only. -/
theorem leave_inv {c : Nat} {call : WaitCall} {waiting : Waiting} {unseen : Nat}
    {outcome : Except String (List (SliceStats Double))} (inv : registry.Inv)
    (at_c : registry.calls[c]? = some call) (point : call.point = .looping waiting unseen) :
    Inv ⟨registry.notifier.unregisterJob call.jobId,
      registry.calls.set c { call with point := .finished outcome }⟩ := by
  -- No other call waits for the job: it would have lost its entry.
  have remaining : ∀ {k jobId waiting' unseen'},
      Looping ⟨registry.notifier.unregisterJob call.jobId,
        registry.calls.set c { call with point := .finished outcome }⟩ k jobId waiting' unseen' →
      registry.Looping k jobId waiting' unseen' ∧ jobId ≠ call.jobId := by
    intro k jobId waiting' unseen' looping
    rcases looping_set looping with ⟨-, -, impossible⟩ | ⟨apart, before⟩
    · cases impossible
    · refine ⟨before, ?_⟩
      rintro rfl
      exact apart (inv.distinct k c _ _ _ _ _ before ⟨call, at_c, rfl, point⟩)
  have kept : ∀ {jobId channel},
      (registry.notifier.unregisterJob call.jobId).jobs jobId = some channel →
        registry.notifier.jobs jobId = some channel := by
    intro jobId channel registered
    simp only [SliceNotifier.unregisterJob, Function.update_apply] at registered
    split at registered
    · cases registered
    · exact registered
  refine ⟨inv.numbered.unregisterJob call.jobId, ?_, ?_, ?_, ?_⟩
  · intro jobId other channel registered registered'
    exact inv.injective jobId other channel (kept registered) (kept registered')
  · intro k k' jobId _ _ _ _ first second
    exact inv.distinct k k' jobId _ _ _ _ (remaining first).1 (remaining second).1
  · intro k jobId waiting' unseen' looping
    obtain ⟨before, other⟩ := remaining looping
    simp only [SliceNotifier.unregisterJob, Function.update_of_ne other]
    exact inv.reachable k jobId waiting' unseen' before
  · intro k jobId waiting' unseen' looping
    exact inv.counted k jobId waiting' unseen' (remaining looping).1

/-- In the loop a call keeps its channel; a wakeup sees all notifications so far. -/
theorem stay_inv {c : Nat} {call : WaitCall} {waiting after : Waiting} {unseen : Nat}
    {event : LoopEvent} (inv : registry.Inv) (at_c : registry.calls[c]? = some call)
    (point : call.point = .looping waiting unseen)
    (moved : waiting.step call.jobId (event.on registry.notifier) = some after) :
    Inv ⟨registry.notifier, registry.calls.set c
      { call with point := .looping after (if event = .wake then 0 else unseen) }⟩ := by
  have looping : registry.Looping c call.jobId waiting unseen := ⟨call, at_c, rfl, point⟩
  have channel : after.receiver.channel = waiting.receiver.channel := by
    rw [receiver_of_step moved]
    split <;> rfl
  refine ⟨inv.numbered, inv.injective, ?_, ?_, ?_⟩
  · intro k k' jobId _ _ _ _ first second
    rcases looping_set first with ⟨rfl, rfl, -⟩ | ⟨-, before⟩ <;>
      rcases looping_set second with ⟨rfl, same, -⟩ | ⟨-, before'⟩
    · rfl
    · exact inv.distinct _ _ _ _ _ _ _ looping before'
    · exact inv.distinct _ _ _ _ _ _ _ before (same ▸ looping)
    · exact inv.distinct _ _ _ _ _ _ _ before before'
  · intro k jobId waiting' unseen' later
    rcases looping_set later with ⟨rfl, rfl, same⟩ | ⟨-, before⟩
    · cases same
      rw [channel]
      exact inv.reachable _ _ _ _ looping
    · exact inv.reachable k jobId waiting' unseen' before
  · intro k jobId waiting' unseen' later
    rcases looping_set later with ⟨rfl, rfl, same⟩ | ⟨-, before⟩
    · cases same
      have counted := inv.counted _ _ _ _ looping
      rw [receiver_of_step moved]
      split
      · rfl
      · exact counted
    · exact inv.counted k jobId waiting' unseen' before

/-- A notification goes to the channel of its job, and to no other. -/
theorem notify_inv (inv : registry.Inv) (channelName : String) :
    Inv ⟨registry.notifier.notify channelName, registry.calls.map (told channelName)⟩ := by
  refine ⟨inv.numbered.notify channelName, ?_, ?_, ?_, ?_⟩
  · intro jobId other channel registered registered'
    rw [SliceNotifier.notify_jobs] at registered registered'
    exact inv.injective jobId other channel registered registered'
  · intro k k' jobId _ _ _ _ first second
    obtain ⟨_, before, -⟩ := looping_told first
    obtain ⟨_, before', -⟩ := looping_told second
    exact inv.distinct k k' jobId _ _ _ _ before before'
  · intro k jobId waiting unseen looping
    obtain ⟨_, before, -⟩ := looping_told looping
    rw [SliceNotifier.notify_jobs]
    exact inv.reachable k jobId waiting _ before
  · intro k jobId waiting unseen looping
    obtain ⟨count, before, same⟩ := looping_told looping
    have counted := inv.counted k jobId waiting count before
    have reachable := inv.reachable k jobId waiting count before
    split at same
    · rename_i named
      rw [same, registry.notifier.notify_version_self named reachable, counted, Nat.add_assoc]
    · rename_i other
      rw [same, registry.notifier.notify_version_of_ne, counted]
      rintro named ⟨stripped, registered⟩
      rw [inv.injective named jobId _ registered reachable] at stripped
      exact other stripped

theorem drop_inv {c : Nat} {call : WaitCall} (inv : registry.Inv) :
    Inv { registry with calls := registry.calls.set c { call with point := .dropped } } := by
  have before : ∀ {k jobId waiting unseen},
      Looping ⟨registry.notifier, registry.calls.set c { call with point := .dropped }⟩
        k jobId waiting unseen → registry.Looping k jobId waiting unseen := by
    intro k jobId waiting unseen looping
    rcases looping_set looping with ⟨-, -, impossible⟩ | ⟨-, before⟩
    · cases impossible
    · exact before
  exact ⟨inv.numbered, inv.injective,
    fun k k' jobId _ _ _ _ first second =>
      inv.distinct k k' jobId _ _ _ _ (before first) (before second),
    fun k jobId waiting unseen looping => inv.reachable k jobId waiting unseen (before looping),
    fun k jobId waiting unseen looping => inv.counted k jobId waiting unseen (before looping)⟩

theorem step_inv {action : Action} (inv : registry.Inv) (exclusive : Exclusive action registry)
    (applied : step action registry = some next) : next.Inv := by
  rcases step_cases applied with ⟨jobId, totalSlices, rfl, rfl⟩ |
    ⟨c, call, rfl, at_c, point, rfl⟩ |
    ⟨c, call, waiting, unseen, event, after, rfl, at_c, point, moved, ⟨outcome, rfl⟩ | rfl⟩ |
    ⟨channelName, rfl, rfl⟩ | ⟨c, call, rfl, at_c, rfl⟩
  · exact ⟨inv.numbered, inv.injective,
      fun k k' jobId _ _ _ _ first second => inv.distinct k k' jobId _ _ _ _
        (looping_enter.mp first) (looping_enter.mp second),
      fun k jobId waiting unseen looping =>
        inv.reachable k jobId waiting unseen (looping_enter.mp looping),
      fun k jobId waiting unseen looping =>
        inv.counted k jobId waiting unseen (looping_enter.mp looping)⟩
  · exact register_inv inv at_c (exclusive call at_c point)
  · exact leave_inv inv at_c point
  · exact stay_inv inv at_c point moved
  · exact notify_inv inv channelName
  · exact drop_inv inv

theorem exclusive_of_refused {action : Action} (refused : step action registry = none) :
    Exclusive action registry := by
  cases action with
  | register c =>
    intro call at_c point
    simp only [step, at_c, point] at refused
    cases refused
  | enter | loop | notify | drop => trivial

/-- A registration takes the entry away from a call that waits for the job. -/
theorem exclusive_of_connected {action : Action} (inv : registry.Inv)
    (applied : step action registry = some next) (connected : next.Connected) :
    Exclusive action registry := by
  cases action with
  | register c =>
    rintro call at_c entering ⟨k, waiting, unseen, looping⟩
    have apart : k ≠ c := by
      rintro rfl
      obtain ⟨other, at_k, -, point⟩ := looping
      rw [at_c, Option.some.injEq] at at_k
      rw [← at_k, entering] at point
      cases point
    simp only [step, at_c, entering, Option.some.injEq] at applied
    subst applied
    -- The entry now names the new channel, which the waiting call does not have.
    have entry := (connected k call.jobId waiting unseen (looping_set_of_ne apart looping)).1
    have below := inv.numbered call.jobId _ (inv.reachable k call.jobId waiting unseen looping)
    simp only [SliceNotifier.registerJob, Function.update_self, Option.some.injEq] at entry
    omega
  | enter | loop | notify | drop => trivial

/-- The calls of a run stay connected to their notifications, in every state of
the run, exactly when no call is registered while another one waits for its job. -/
theorem connected_iff (actions : List Action) :
    Throughout step Connected actions empty ↔ Admitted step Exclusive actions empty := by
  apply throughout_iff_admitted Inv
  · exact fun registry inv => inv.connected
  · exact fun action registry next inv exclusive applied => step_inv inv exclusive applied
  · exact fun action registry refused => exclusive_of_refused refused
  · exact fun action registry next inv applied connected =>
      exclusive_of_connected inv applied connected
  · exact empty_inv

/-- Two calls for one job: the first one waits, the second one finds the slice. -/
def retriedJob : List Action :=
  [.enter "j" 1, .register 0, .loop 0 (.read (.ok none)), .loop 0 (.endPass false),
    .enter "j" 1, .register 1, .loop 1 (.read (.ok (some oneValue))), .loop 1 (.endPass false)]

/-- After that the first call spins: its channel is closed, and `changed` returns
at once though there was no notification. -/
theorem retried_job_disconnected :
    ¬ ∀ actions registry, run step actions empty = some registry → registry.Connected := by
  intro connected
  obtain ⟨registry, ran⟩ : ∃ registry, run step retriedJob empty = some registry := ⟨_, rfl⟩
  have looping : registry.Looping 0 "j" ⟨1, .init 1, ⟨0, 0⟩, .parked⟩ 0 := by
    cases ran
    exact ⟨⟨"j", 1, .looping ⟨1, .init 1, ⟨0, 0⟩, .parked⟩ 0⟩, rfl, rfl, rfl⟩
  have closed : ¬ registry.notifier.Live 0 := by
    cases ran
    rintro ⟨jobId, registered⟩
    by_cases own : jobId = "j" <;>
      simp [SliceNotifier.unregisterJob, empty, SliceNotifier.empty, own] at registered
  have spins := (connected retriedJob registry ran 0 "j" _ _ looping).2.mp (.inl closed)
  exact absurd rfl spins

theorem empty_tidy : empty.Tidy := fun _ _ registered => by cases registered

theorem InProgress.of_ne {c : Nat} {jobId : String} {notifier : SliceNotifier} {call new : WaitCall}
    (progress : registry.InProgress jobId) (at_c : registry.calls[c]? = some call)
    (other : call.jobId ≠ jobId) : InProgress ⟨notifier, registry.calls.set c new⟩ jobId := by
  obtain ⟨k, waiting, unseen, looping⟩ := progress
  have apart : k ≠ c := by
    rintro rfl
    obtain ⟨same, at_k, own, -⟩ := looping
    rw [at_c, Option.some.injEq] at at_k
    exact other (at_k ▸ own)
  exact ⟨k, waiting, unseen, looping_set_of_ne apart looping⟩

theorem step_tidy {action : Action} (tidy : registry.Tidy)
    (leaves : LeavesNothing action registry) (applied : step action registry = some next) :
    next.Tidy := by
  intro jobId channel registered
  rcases step_cases applied with ⟨entered, totalSlices, rfl, rfl⟩ |
    ⟨c, call, rfl, at_c, point, rfl⟩ |
    ⟨c, call, waiting, unseen, event, after, rfl, at_c, point, moved, ⟨outcome, rfl⟩ | rfl⟩ |
    ⟨channelName, rfl, rfl⟩ | ⟨c, call, rfl, at_c, rfl⟩
  · obtain ⟨k, waiting, unseen, looping⟩ := tidy jobId channel registered
    exact ⟨k, waiting, unseen, looping_enter.mpr looping⟩
  · by_cases own : call.jobId = jobId
    · subst own
      exact ⟨c, _, _, _, List.getElem?_set_self (List.getElem?_eq_some_iff.mp at_c).1, rfl, rfl⟩
    · simp only [SliceNotifier.registerJob, Function.update_of_ne (Ne.symm own)] at registered
      exact (tidy jobId channel registered).of_ne at_c own
  · by_cases own : call.jobId = jobId
    · simp only [SliceNotifier.unregisterJob, own, Function.update_self] at registered
      cases registered
    · simp only [SliceNotifier.unregisterJob, Function.update_of_ne (Ne.symm own)] at registered
      exact (tidy jobId channel registered).of_ne at_c own
  · by_cases own : call.jobId = jobId
    · subst own
      exact ⟨c, _, _, _, List.getElem?_set_self (List.getElem?_eq_some_iff.mp at_c).1, rfl, rfl⟩
    · exact (tidy jobId channel registered).of_ne at_c own
  · rw [SliceNotifier.notify_jobs] at registered
    obtain ⟨k, waiting, unseen, looping⟩ := tidy jobId channel registered
    obtain ⟨count, told⟩ := looping_map_told channelName looping
    exact ⟨k, waiting, count, told⟩
  · -- The entry is left to another call, unless the dropped call was not in its loop.
    obtain ⟨k, waiting, unseen, looping⟩ := tidy jobId channel registered
    by_cases same : k = c
    · subst same
      rcases leaves jobId waiting unseen looping with absent | ⟨other, apart, waiting', unseen', still⟩
      · rw [absent] at registered
        cases registered
      · exact ⟨other, waiting', unseen', looping_set_of_ne apart still⟩
    · exact ⟨k, waiting, unseen, looping_set_of_ne same looping⟩

theorem leavesNothing_of_refused {action : Action} (refused : step action registry = none) :
    LeavesNothing action registry := by
  cases action with
  | drop c =>
    rintro jobId waiting unseen ⟨call, at_c, -, point⟩
    simp only [step, at_c, point] at refused
    cases refused
  | enter | register | loop | notify => trivial

theorem leavesNothing_of_tidy {action : Action} (applied : step action registry = some next)
    (tidy : next.Tidy) : LeavesNothing action registry := by
  cases action with
  | drop c =>
    rintro jobId waiting unseen ⟨call, at_c, own, point⟩
    simp only [step, at_c, point, Option.some.injEq] at applied
    subst applied
    cases registered : registry.notifier.jobs jobId with
    | none => exact .inl rfl
    | some channel =>
      obtain ⟨k, waiting', unseen', looping⟩ := tidy jobId channel registered
      rcases looping_set looping with ⟨-, -, impossible⟩ | ⟨apart, still⟩
      · cases impossible
      · exact .inr ⟨k, apart, waiting', unseen', still⟩
  | enter | register | loop | notify => trivial

/-- The map has entries for waiting calls only, in every state of a run, exactly
when no call is dropped that would have had to delete the entry of its job. -/
theorem tidy_iff (actions : List Action) :
    Throughout step Tidy actions empty ↔ Admitted step LeavesNothing actions empty := by
  apply throughout_iff_admitted Tidy
  · exact fun registry tidy => tidy
  · exact fun action registry next tidy leaves applied => step_tidy tidy leaves applied
  · exact fun action registry refused => leavesNothing_of_refused refused
  · exact fun action registry next _ applied tidy => leavesNothing_of_tidy applied tidy
  · exact empty_tidy

/-- A client goes away during the timed wait: the entry stays, with no call left. -/
theorem dropped_call_leaks :
    ¬ ∀ actions registry, run step actions empty = some registry → registry.Tidy := by
  intro tidy
  obtain ⟨registry, ran⟩ : ∃ registry, run step [.enter "j" 1, .register 0,
      .loop 0 (.read (.ok none)), .loop 0 (.endPass false), .drop 0] empty = some registry := ⟨_, rfl⟩
  have registered : registry.notifier.jobs "j" = some 0 := by
    cases ran
    rfl
  obtain ⟨c, waiting, unseen, call, at_c, -, point⟩ := tidy _ registry ran "j" 0 registered
  have calls : registry.calls = [⟨"j", 1, .dropped⟩] := by
    cases ran
    rfl
  rw [calls] at at_c
  rw [List.mem_singleton.mp (List.mem_of_getElem? at_c)] at point
  cases point

end Registry
end DistributedSoftmax.Gateway
