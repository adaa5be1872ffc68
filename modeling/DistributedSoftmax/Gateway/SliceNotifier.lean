import Mathlib.Logic.Function.Basic
import Mathlib.Data.String.Basic

/-! gateway-rs/src/slice_notifier.rs: the registry of the jobs that are waited
for, and the watch channels their notifications arrive on. -/

set_option autoImplicit false

namespace DistributedSoftmax.Gateway

/-- A message that was published on a channel of Redis. -/
structure Notification where
  channelName : String
  payload : String
  deriving DecidableEq, Repr

/-- A `watch::Receiver`: its channel and the version it has seen last. -/
structure Receiver where
  channel : Nat
  seen : Nat
  deriving DecidableEq, Repr

/-- The map from jobs to the senders of their channels. Channels are numbered
in the order of their creation; a sender lives as long as the map holds it. -/
structure SliceNotifier where
  jobs : String → Option Nat
  version : Nat → Nat
  next : Nat

/-- `str::strip_prefix`. -/
def stripPrefix? (before text : String) : Option String :=
  if before.toList.isPrefixOf text.toList then
    some (String.ofList (text.toList.drop before.toList.length))
  else none

theorem stripPrefix?_append (before rest : String) :
    stripPrefix? before (before ++ rest) = some rest := by
  have starts : before.toList.isPrefixOf (before ++ rest).toList = true := by
    rw [List.isPrefixOf_iff_prefix, String.toList_append]
    exact List.prefix_append _ _
  rw [stripPrefix?, if_pos starts, String.toList_append, List.drop_left, String.ofList_toList]

namespace SliceNotifier

def empty : SliceNotifier := ⟨fun _ => none, fun _ => 0, 0⟩

/-- `register_job`: a new channel replaces the one the job may have had. -/
def registerJob (notifier : SliceNotifier) (jobId : String) : SliceNotifier × Receiver :=
  (⟨Function.update notifier.jobs jobId (some notifier.next),
    Function.update notifier.version notifier.next 0, notifier.next + 1⟩,
    ⟨notifier.next, 0⟩)

/-- `unregister_job`: by the identifier alone. -/
def unregisterJob (notifier : SliceNotifier) (jobId : String) : SliceNotifier :=
  { notifier with jobs := Function.update notifier.jobs jobId none }

/-- One message of `subscriber_loop`. -/
def notify (notifier : SliceNotifier) (channelName : String) : SliceNotifier :=
  match stripPrefix? "slice_done:" channelName with
  | none => notifier
  | some jobId => match notifier.jobs jobId with
    | none => notifier
    | some channel =>
        { notifier with version :=
            Function.update notifier.version channel (notifier.version channel + 1) }

variable (notifier : SliceNotifier)

theorem notify_cases (channelName : String) :
    notifier.notify channelName = notifier ∨
      ∃ jobId channel, notifier.jobs jobId = some channel ∧ notifier.notify channelName =
        { notifier with version :=
            Function.update notifier.version channel (notifier.version channel + 1) } := by
  unfold notify
  split
  · exact .inl rfl
  · rename_i jobId _
    split
    · exact .inl rfl
    · rename_i channel registered
      exact .inr ⟨jobId, channel, registered, rfl⟩

theorem notify_jobs (channelName : String) :
    (notifier.notify channelName).jobs = notifier.jobs := by
  rcases notifier.notify_cases channelName with same | ⟨_, _, -, same⟩ <;> rw [same]

theorem notify_next (channelName : String) :
    (notifier.notify channelName).next = notifier.next := by
  rcases notifier.notify_cases channelName with same | ⟨_, _, -, same⟩ <;> rw [same]

/-- A version never goes back. -/
theorem le_version_notify (channelName : String) (channel : Nat) :
    notifier.version channel ≤ (notifier.notify channelName).version channel := by
  rcases notifier.notify_cases channelName with same | ⟨_, bumped, -, same⟩
  · rw [same]
  · rw [same]
    by_cases own : channel = bumped
    · subst own
      simp
    · simp [own]

theorem notify_version_self {channelName jobId : String} {channel : Nat}
    (named : stripPrefix? "slice_done:" channelName = some jobId)
    (registered : notifier.jobs jobId = some channel) :
    (notifier.notify channelName).version channel = notifier.version channel + 1 := by
  simp only [notify, named, registered, Function.update_self]

/-- A message for other jobs leaves the versions of the channel alone. -/
theorem notify_version_of_ne {channelName : String} {channel : Nat}
    (other : ∀ jobId, ¬ (stripPrefix? "slice_done:" channelName = some jobId ∧
      notifier.jobs jobId = some channel)) :
    (notifier.notify channelName).version channel = notifier.version channel := by
  unfold notify
  split
  · rfl
  · rename_i jobId named
    split
    · rfl
    · rename_i bumped registered
      apply Function.update_of_ne
      rintro rfl
      exact other jobId ⟨named, registered⟩

/-- The notification of a registered job is seen on the channel of the job. -/
theorem notify_registered {jobId : String} {channel : Nat}
    (registered : notifier.jobs jobId = some channel) :
    (notifier.notify ("slice_done:" ++ jobId)).version channel = notifier.version channel + 1 :=
  notifier.notify_version_self (stripPrefix?_append _ _) registered

/-- Channel numbers are given out in order. -/
def Numbered : Prop := ∀ jobId channel, notifier.jobs jobId = some channel → channel < notifier.next

variable {notifier}

theorem Numbered.registerJob (numbered : notifier.Numbered) (jobId : String) :
    (notifier.registerJob jobId).1.Numbered := by
  intro other channel registered
  by_cases own : other = jobId
  · subst own
    simp only [SliceNotifier.registerJob, Function.update_self, Option.some.injEq] at registered
    exact registered ▸ Nat.lt_succ_self _
  · simp only [SliceNotifier.registerJob, Function.update_of_ne own] at registered
    exact Nat.lt_succ_of_lt (numbered other channel registered)

theorem Numbered.unregisterJob (numbered : notifier.Numbered) (jobId : String) :
    (notifier.unregisterJob jobId).Numbered := by
  intro other channel registered
  by_cases own : other = jobId
  · subst own
    simp only [SliceNotifier.unregisterJob, Function.update_self] at registered
    cases registered
  · simp only [SliceNotifier.unregisterJob, Function.update_of_ne own] at registered
    exact numbered other channel registered

theorem Numbered.notify (numbered : notifier.Numbered) (channelName : String) :
    (notifier.notify channelName).Numbered := by
  intro other channel registered
  rw [notify_jobs] at registered
  rw [notify_next]
  exact numbered other channel registered

/-- The sender of the channel is still held by the map. -/
def Live (notifier : SliceNotifier) (channel : Nat) : Prop :=
  ∃ jobId, notifier.jobs jobId = some channel

end SliceNotifier

/-- A version the receiver has not seen: `changed` returns at once. -/
def Receiver.Pending (receiver : Receiver) (notifier : SliceNotifier) : Prop :=
  notifier.version receiver.channel ≠ receiver.seen

/-- The receiver after the timed wait: `changed` marks the version as seen, and
when nothing changed there is nothing to mark. -/
def Receiver.changed (receiver : Receiver) (notifier : SliceNotifier) : Receiver :=
  { receiver with seen := notifier.version receiver.channel }

end DistributedSoftmax.Gateway
