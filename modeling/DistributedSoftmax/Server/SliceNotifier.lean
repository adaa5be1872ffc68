import DistributedSoftmax.Gateway.SliceNotifier

/-! server/slice_notifier.h: the counters of the jobs that the C++ gateway waits
for. Any notification of a job counts as one slice more. -/

set_option autoImplicit false

namespace DistributedSoftmax.Server

structure JobState where
  received : Nat
  total : Nat
  deriving DecidableEq, Repr

/-- `jobs_`, behind its mutex. -/
structure SliceNotifier where
  jobs : String → Option JobState

namespace SliceNotifier

def empty : SliceNotifier := ⟨fun _ => none⟩

/-- `registerJob`: a counter that the job may have had starts again. -/
def registerJob (notifier : SliceNotifier) (jobId : String) (totalSlices : Nat) : SliceNotifier :=
  ⟨Function.update notifier.jobs jobId (some ⟨0, totalSlices⟩)⟩

def unregisterJob (notifier : SliceNotifier) (jobId : String) : SliceNotifier :=
  ⟨Function.update notifier.jobs jobId none⟩

/-- `notifySlice`, called by the subscriber thread and for a slice that was read
beforehand. -/
def notifySlice (notifier : SliceNotifier) (jobId : String) : SliceNotifier :=
  match notifier.jobs jobId with
  | some state =>
      ⟨Function.update notifier.jobs jobId (some { state with received := state.received + 1 })⟩
  | none => notifier

/-- `on_pmessage`: the job is in the name of the channel, the payload is not read. -/
def onPmessage (notifier : SliceNotifier) (message : Gateway.Notification) : SliceNotifier :=
  match Gateway.stripPrefix? "slice_done:" message.channelName with
  | some jobId => notifier.notifySlice jobId
  | none => notifier

/-- The condition of `waitForAllSlices`. -/
def satisfied (notifier : SliceNotifier) (jobId : String) (totalSlices : Nat) : Bool :=
  match notifier.jobs jobId with
  | some state => totalSlices ≤ state.received
  | none => false

variable (notifier : SliceNotifier)

theorem notifySlice_of_ne {jobId other : String} (apart : other ≠ jobId) :
    (notifier.notifySlice jobId).jobs other = notifier.jobs other := by
  unfold notifySlice
  split
  · exact Function.update_of_ne apart _ _
  · rfl

theorem notifySlice_self (jobId : String) : (notifier.notifySlice jobId).jobs jobId =
    (notifier.jobs jobId).map fun state => { state with received := state.received + 1 } := by
  unfold notifySlice
  split
  · rename_i state registered
    rw [registered]
    exact Function.update_self _ _ _
  · rename_i absent
    rw [absent]
    rfl

end SliceNotifier
end DistributedSoftmax.Server
