import DistributedSoftmax.Gateway.Collection
import DistributedSoftmax.System.Jobs

/-! The aggregation of one job against the workers and the subscriber: slices
are written before they are announced, announcements arrive at any later time,
before or after the registration, and other jobs come and go. A notification
that was delivered is never lost on the aggregation. -/

set_option autoImplicit false

namespace DistributedSoftmax.System.Wakeup
open Foundations.ByteString Foundations.KeyValue Foundations.Transition
open Gateway Worker Jobs

/-- Where the aggregation stands: before `register_job`, in the loop, or past it. -/
inductive Aggregation where
  | dispatching
  | waiting (waiting : Waiting)
  | left (outcome : Except String (List (SliceStats Double)))

structure State where
  store : Store
  tasks : List WorkerTask
  /-- The notifications that were published and not yet delivered. -/
  channel : List Notification
  /-- The notifications that the subscriber got so far. -/
  delivered : List Notification
  notifier : SliceNotifier
  aggregation : Aggregation

def State.init (store : Store) : State := ⟨store, [], [], [], .empty, .dispatching⟩

inductive Action where
  /-- A worker has computed a slice of some job. -/
  | compute (owner : String) (sliceId : Nat) (payload : Bytes)
  | work (t : Nat) (fault : Fault)
  | crash (t : Nat)
  | deliver (n : Nat) (again : Bool)
  | miss (n : Nat)
  | register
  | readSlice (failed : Bool)
  | skip
  | endPass (expired : Bool)
  | wake
  /-- Aggregations of other jobs, or of this one at another time. -/
  | registerOther (other : String)
  | unregisterOther (other : String)
  /-- Any other Redis command of a gateway. -/
  | command (command : Command)

section
variable (p : Platform) (jobId : String) (totalSlices : Nat)

def waitStep (waiting : Waiting) (event : WaitEvent) (s : State) : Option State :=
  match waiting.step jobId event with
  | none => none
  | some next => match next.point with
      | .left outcome =>
          some { s with aggregation := .left outcome, notifier := s.notifier.unregisterJob jobId }
      | _ => some { s with aggregation := .waiting next }

def step (action : Action) (s : State) : Option State :=
  match action with
  | .compute owner sliceId payload =>
      some { s with tasks := s.tasks ++ [⟨owner, sliceId, payload, false⟩] }
  | .work t fault => match s.tasks[t]? with
      | some task =>
          let (left, store, channel) := task.step fault s.store s.channel
          some { s with store, channel, tasks := settle s.tasks t left }
      | none => none
  | .crash t => some { s with tasks := s.tasks.eraseIdx t }
  | .deliver n again => match s.channel[n]? with
      | some notification => some { s with
          notifier := s.notifier.notify notification.channelName
          delivered := s.delivered ++ [notification]
          channel := if again then s.channel else s.channel.eraseIdx n }
      | none => none
  | .miss n => some { s with channel := s.channel.eraseIdx n }
  | .register => match s.aggregation with
      | .dispatching =>
          let (notifier, receiver) := s.notifier.registerJob jobId
          some { s with notifier, aggregation := .waiting (.start totalSlices receiver) }
      | _ => none
  | .readSlice failed => match s.aggregation with
      | .waiting waiting =>
          waitStep jobId waiting (.read (readOutcome p jobId waiting failed s.store)) s
      | _ => none
  | .skip => match s.aggregation with
      | .waiting waiting => waitStep jobId waiting .skip s
      | _ => none
  | .endPass expired => match s.aggregation with
      | .waiting waiting => waitStep jobId waiting (.endPass expired) s
      | _ => none
  | .wake => match s.aggregation with
      | .waiting waiting => waitStep jobId waiting (.wake s.notifier) s
      | _ => none
  | .registerOther other => some { s with notifier := (s.notifier.registerJob other).1 }
  | .unregisterOther other => some { s with notifier := s.notifier.unregisterJob other }
  | .command command => some { s with store := (command.exec s.store).1 }

/-- A payload that `read_slice` accepts. -/
def Decodes (payload : Bytes) : Prop :=
  ∃ s, readSlice p.serde p.widen (some payload) = .ok (some s)

/-- Redis reads succeed, what workers write for the job decodes, only workers
write slices, and while the aggregation is in its loop no other one uses the
job identifier. -/
def Undisturbed (action : Action) (s : State) : Prop :=
  match action with
  | .compute owner _ payload => owner = jobId → Decodes p payload
  | .readSlice failed => failed = false
  | .registerOther other | .unregisterOther other =>
      other = jobId → ∀ waiting, s.aggregation ≠ .waiting waiting
  | .command command => ∀ i, RedisConfig.sliceKey jobId i ≠ command.key
  | _ => True

/-- Slice `i` is there to be read. -/
def Stored (store : Store) (i : Nat) : Prop :=
  ∃ payload, found store (RedisConfig.sliceKey jobId i) = some payload ∧
    Decodes p payload

/-- The aggregation in its loop: a slice that was announced is held, or still
ahead in the pass, or the announcement is unseen. -/
structure WaitingOk (s : State) (waiting : Waiting) : Prop where
  registered : s.notifier.jobs jobId = some waiting.receiver.channel
  seen : waiting.receiver.seen ≤ s.notifier.version waiting.receiver.channel
  total : waiting.totalSlices = totalSlices
  sound : waiting.Sound fun _ _ => True
  incomplete : waiting.point = .parked → waiting.collector.remaining ≠ 0
  announced : ∀ i < totalSlices, sliceDone jobId i ∈ s.delivered →
    waiting.collector.held[i]? = some true ∨ (∃ k ≤ i, waiting.point = .passing k) ∨
      waiting.receiver.seen < s.notifier.version waiting.receiver.channel

/-- A slice of the job is written before its notification is sent. -/
structure Inv (s : State) : Prop where
  tasks : ∀ task ∈ s.tasks, task.jobId = jobId → Decodes p task.payload ∧
    (task.written = true → Stored p jobId s.store task.sliceId)
  channel : ∀ i, sliceDone jobId i ∈ s.channel → Stored p jobId s.store i
  delivered : ∀ i, sliceDone jobId i ∈ s.delivered → Stored p jobId s.store i
  numbered : s.notifier.Numbered
  waiting : ∀ waiting, s.aggregation = .waiting waiting → WaitingOk jobId totalSlices s waiting

end

/-- What one operation of a worker can do. -/
theorem workerStep_cases {task : WorkerTask} {fault : Fault} {store store' : Store}
    {channel channel' : List Notification} {left : Option WorkerTask}
    (applied : task.step fault store channel = (left, store', channel')) :
    (task.written = true ∧ left = none ∧ store' = store ∧
      (channel' = channel ∨ channel' = channel ++ [sliceDone task.jobId task.sliceId])) ∨
    (task.written = false ∧ channel' = channel ∧
      ((left = none ∧ store' = store) ∨
        ((left = none ∨ left = some { task with written := true }) ∧ store' =
          Function.update store (resultKey task.jobId task.sliceId) (some ⟨task.payload, none⟩)))) := by
  unfold WorkerTask.step at applied
  split at applied
  · rename_i written
    cases applied
    refine .inl ⟨written, rfl, rfl, ?_⟩
    split
    · exact .inl rfl
    · exact .inr rfl
  · rename_i written
    refine .inr ⟨by simpa using written, ?_⟩
    cases fault with
    | none =>
      cases applied
      exact ⟨rfl, .inr ⟨.inr rfl, rfl⟩⟩
    | lost =>
      cases applied
      exact ⟨rfl, .inl ⟨rfl, rfl⟩⟩
    | unacknowledged =>
      cases applied
      exact ⟨rfl, .inr ⟨.inl rfl, rfl⟩⟩

section
variable {p : Platform} {jobId : String} {totalSlices : Nat}

theorem sliceDone_injective {owner : String} {i k : Nat}
    (same : sliceDone owner i = sliceDone jobId k) : owner = jobId ∧ i = k := by
  obtain ⟨channelName, payload⟩ := Notification.mk.inj same
  exact ⟨by simpa [pubChannel] using channelName, Foundations.Decimal.toString_injective payload⟩

theorem Stored.update {store : Store} {i : Nat} (stored : Stored p jobId store i)
    {task : WorkerTask} (fine : task.jobId = jobId → Decodes p task.payload) :
    Stored p jobId (Function.update store (resultKey task.jobId task.sliceId)
      (some ⟨task.payload, none⟩)) i := by
  by_cases same : RedisConfig.sliceKey jobId i = resultKey task.jobId task.sliceId
  · have owner : jobId = task.jobId := (RedisConfig.sliceKey_inj same).1
    exact ⟨task.payload, by rw [found, same, Function.update_self]; rfl, fine owner.symm⟩
  · obtain ⟨payload, present, decodes⟩ := stored
    exact ⟨payload, by rw [found, Function.update_of_ne same]; exact present, decodes⟩

theorem stored_own {store : Store} {task : WorkerTask} (owner : task.jobId = jobId)
    (decodes : Decodes p task.payload) :
    Stored p jobId (Function.update store (resultKey task.jobId task.sliceId)
      (some ⟨task.payload, none⟩)) task.sliceId := by
  subst owner
  exact ⟨task.payload, by rw [found, show RedisConfig.sliceKey task.jobId task.sliceId =
    resultKey task.jobId task.sliceId from rfl, Function.update_self]; rfl, decodes⟩

/-- What the loop knows survives everything that keeps the registration of the
job and lets versions only grow, when no notification is added. -/
theorem WaitingOk.mono {s next : State} {waiting : Waiting}
    (ok : WaitingOk jobId totalSlices s waiting)
    (registered : next.notifier.jobs jobId = s.notifier.jobs jobId)
    (grows : s.notifier.version waiting.receiver.channel ≤
      next.notifier.version waiting.receiver.channel)
    (delivered : next.delivered = s.delivered) : WaitingOk jobId totalSlices next waiting where
  registered := registered.trans ok.registered
  seen := ok.seen.trans grows
  total := ok.total
  sound := ok.sound
  incomplete := ok.incomplete
  announced i inside announced := by
    rw [delivered] at announced
    rcases ok.announced i inside announced with held | ahead | unseen
    · exact .inl held
    · exact .inr (.inl ahead)
    · exact .inr (.inr (unseen.trans_le grows))

/-- What neither notifies nor is a step of the loop leaves what the loop knows. -/
theorem Inv.waiting_frame {s next : State} (inv : Inv p jobId totalSlices s)
    (notifier : next.notifier = s.notifier) (delivered : next.delivered = s.delivered)
    (aggregation : next.aggregation = s.aggregation) :
    ∀ waiting, next.aggregation = .waiting waiting → WaitingOk jobId totalSlices next waiting := by
  intro waiting looping
  rw [aggregation] at looping
  apply (inv.waiting waiting looping).mono _ _ delivered
  · rw [notifier]
  · rw [notifier]

theorem WaitingOk.start {s : State} (notifier : SliceNotifier) :
    WaitingOk jobId totalSlices
      { s with notifier := (notifier.registerJob jobId).1 }
      (.start totalSlices (notifier.registerJob jobId).2) where
  registered := Function.update_self _ _ _
  seen := Nat.zero_le _
  total := rfl
  sound := Waiting.start_sound _ _ _
  incomplete parked := by cases parked
  announced i _ _ := .inr (.inl ⟨0, Nat.zero_le i, rfl⟩)

/-- A delivery for the job is unseen; other deliveries change nothing. -/
theorem WaitingOk.deliver {s next : State} {waiting : Waiting} {notification : Notification}
    (ok : WaitingOk jobId totalSlices s waiting)
    (notified : next.notifier = s.notifier.notify notification.channelName)
    (delivered : next.delivered = s.delivered ++ [notification]) :
    WaitingOk jobId totalSlices next waiting where
  registered := by rw [notified, SliceNotifier.notify_jobs, ok.registered]
  seen := by
    rw [notified]
    exact ok.seen.trans (s.notifier.le_version_notify _ _)
  total := ok.total
  sound := ok.sound
  incomplete := ok.incomplete
  announced i inside announced := by
    rw [delivered] at announced
    rw [notified]
    rcases List.mem_append.mp announced with before | new
    · rcases ok.announced i inside before with held | ahead | unseen
      · exact .inl held
      · exact .inr (.inl ahead)
      · exact .inr (.inr (unseen.trans_le (s.notifier.le_version_notify _ _)))
    · have own : notification.channelName = "slice_done:" ++ jobId := by
        rw [← List.mem_singleton.mp new]
        rfl
      rw [own, s.notifier.notify_registered ok.registered]
      exact .inr (.inr (Nat.lt_succ_of_le ok.seen))

theorem passing_ne_parked (i : Nat) : WaitPoint.passing i ≠ .parked :=
  fun same => WaitPoint.noConfusion same

/-- An event of the loop. When slice `i` is passed over it is held afterwards:
a slice that was announced is there to be read. -/
theorem WaitingOk.step {s : State} {waiting after : Waiting} {event : WaitEvent}
    (ok : WaitingOk jobId totalSlices s waiting)
    (applied : waiting.step jobId event = some after)
    (reads : ∀ i, waiting.wants = some i → sliceDone jobId i ∈ s.delivered →
      ∀ outcome, event = .read outcome → ∃ slice, outcome = .ok (some slice))
    (current : ∀ notifier, event = .wake notifier → notifier = s.notifier)
    (stays : ∀ outcome, after.point ≠ .left outcome) : WaitingOk jobId totalSlices s after := by
  have sound := Waiting.step_sound applied ok.sound fun _ _ _ _ => trivial
  have total := (Waiting.step_totalSlices applied).trans ok.total
  rcases Waiting.step_cases applied with ⟨outcome, k, event_eq, point, inside, clear, rfl⟩ |
    ⟨k, -, point, inside, flag, rfl⟩ |
    ⟨_, k, -, point, past, ⟨-, rfl⟩ | ⟨-, -, rfl⟩ | ⟨some_left, -, rfl⟩⟩ |
    ⟨notifier, event_eq, point, rfl⟩
  · have wanted : waiting.wants = some k := by
      simp only [Waiting.wants, point, inside, clear, and_self, if_true]
    refine ⟨ok.registered, ok.seen, total, sound, fun parked => absurd parked (passing_ne_parked _), ?_⟩
    intro i bound announced
    -- An announced slice is held, or this pass comes to it, or a change is unseen.
    rcases ok.announced i bound announced with held | ⟨j, below, at_j⟩ | unseen
    · exact .inl (waiting.collector.held_read k outcome held)
    · cases point.symm.trans at_j
      rcases Nat.lt_or_eq_of_le below with later | rfl
      · exact .inr (.inl ⟨k + 1, later, rfl⟩)
      · obtain ⟨slice, rfl⟩ := reads k wanted announced outcome event_eq
        exact .inl (Collector.held_read_self clear slice)
    · exact .inr (.inr unseen)
  · refine ⟨ok.registered, ok.seen, total, sound, fun parked => absurd parked (passing_ne_parked _), ?_⟩
    intro i bound announced
    rcases ok.announced i bound announced with held | ⟨j, below, at_j⟩ | unseen
    · exact .inl held
    · cases point.symm.trans at_j
      rcases Nat.lt_or_eq_of_le below with later | rfl
      · exact .inr (.inl ⟨k + 1, later, rfl⟩)
      · exact .inl flag
    · exact .inr (.inr unseen)
  · exact absurd rfl (stays _)
  · exact absurd rfl (stays _)
  · refine ⟨ok.registered, ok.seen, total, sound, fun _ => some_left, ?_⟩
    intro i bound announced
    rcases ok.announced i bound announced with held | ⟨j, below, at_j⟩ | unseen
    · exact .inl held
    · cases point.symm.trans at_j
      have short := ok.total
      omega
    · exact .inr (.inr unseen)
  · cases current notifier event_eq
    refine ⟨ok.registered, Nat.le_refl _, total, sound, fun parked => absurd parked (passing_ne_parked _), ?_⟩
    -- The wakeup has seen every change, and the next pass comes to all indices.
    intro i _ _
    exact .inr (.inl ⟨0, Nat.zero_le i, rfl⟩)

theorem init_inv (store : Store) : Inv p jobId totalSlices (.init store) where
  tasks _ member := nomatch member
  channel _ member := nomatch member
  delivered _ member := nomatch member
  numbered _ _ registered := nomatch registered
  waiting _ same := nomatch same

theorem waitStep_inv {s next : State} {waiting : Waiting} {event : WaitEvent}
    (inv : Inv p jobId totalSlices s) (looping : s.aggregation = .waiting waiting)
    (applied : waitStep jobId waiting event s = some next)
    (reads : ∀ i, waiting.wants = some i → sliceDone jobId i ∈ s.delivered →
      ∀ outcome, event = .read outcome → ∃ slice, outcome = .ok (some slice))
    (current : ∀ notifier, event = .wake notifier → notifier = s.notifier) :
    Inv p jobId totalSlices next := by
  unfold waitStep at applied
  split at applied
  · cases applied
  rename_i after stepped
  split at applied
  · cases applied
    exact ⟨inv.tasks, inv.channel, inv.delivered, inv.numbered.unregisterJob jobId,
      fun _ same => nomatch same⟩
  · rename_i stays
    cases applied
    refine ⟨inv.tasks, inv.channel, inv.delivered, inv.numbered, ?_⟩
    intro loop same
    cases same
    have ok := (inv.waiting waiting looping).step stepped reads current stays
    exact ok.mono rfl (Nat.le_refl _) rfl

/-- A worker writes before it publishes. -/
theorem work_inv {s : State} {t : Nat} {task : WorkerTask} {fault : Fault} {store : Store}
    {channel : List Notification} {left : Option WorkerTask} (inv : Inv p jobId totalSlices s)
    (at_t : s.tasks[t]? = some task)
    (applied : task.step fault s.store s.channel = (left, store, channel)) :
    Inv p jobId totalSlices { s with store, channel, tasks := settle s.tasks t left } := by
  have own := inv.tasks task (List.mem_of_getElem? at_t)
  -- Stored slices stay decodable, a task that goes on has written, and what is
  -- published is stored.
  have effect : (∀ i, Stored p jobId s.store i → Stored p jobId store i) ∧
      (∀ next, left = some next → next.jobId = jobId → Decodes p next.payload ∧
        (next.written = true → Stored p jobId store next.sliceId)) ∧
      (∀ i, sliceDone jobId i ∈ channel → Stored p jobId store i) := by
    rcases workerStep_cases applied with ⟨written, rfl, rfl, sent⟩ |
      ⟨-, rfl, ⟨rfl, rfl⟩ | ⟨result, rfl⟩⟩
    · refine ⟨fun _ stored => stored, (fun _ same => nomatch same), fun i published => ?_⟩
      rcases sent with rfl | rfl
      · exact inv.channel i published
      · rcases List.mem_append.mp published with before | new
        · exact inv.channel i before
        · obtain ⟨owner, rfl⟩ := sliceDone_injective (List.mem_singleton.mp new).symm
          exact (own owner).2 written
    · exact ⟨fun _ stored => stored, (fun _ same => nomatch same), inv.channel⟩
    · have keeps : ∀ i, Stored p jobId s.store i → Stored p jobId (Function.update s.store
          (resultKey task.jobId task.sliceId) (some ⟨task.payload, none⟩)) i :=
        fun i stored => stored.update fun owner => (own owner).1
      refine ⟨keeps, fun next same owner => ?_, fun i published => keeps i (inv.channel i published)⟩
      rcases result with rfl | rfl
      · cases same
      · cases same
        exact ⟨(own owner).1, fun _ => stored_own owner (own owner).1⟩
  obtain ⟨keeps, fresh, sent⟩ := effect
  have stay : ∀ other ∈ s.tasks, other.jobId = jobId → Decodes p other.payload ∧
      (other.written = true → Stored p jobId store other.sliceId) :=
    fun other member owner => ⟨(inv.tasks other member owner).1, fun written =>
      keeps _ ((inv.tasks other member owner).2 written)⟩
  refine ⟨?_, sent, fun i announced => keeps i (inv.delivered i announced), inv.numbered,
    inv.waiting_frame rfl rfl rfl⟩
  intro other later
  rcases mem_settle later with before | new
  · exact stay other before
  · exact fresh other new

theorem step_inv (action : Action) (s next : State) (inv : Inv p jobId totalSlices s)
    (fine : Undisturbed p jobId action s)
    (applied : step p jobId totalSlices action s = some next) : Inv p jobId totalSlices next := by
  cases action with
  | compute owner sliceId payload =>
    cases applied
    refine ⟨?_, inv.channel, inv.delivered, inv.numbered, inv.waiting_frame rfl rfl rfl⟩
    intro task member
    rcases List.mem_append.mp member with before | new
    · exact inv.tasks task before
    · cases List.mem_singleton.mp new
      exact fun own => ⟨fine own, fun written => nomatch written⟩
  | work t fault =>
    simp only [step] at applied
    split at applied
    · rename_i task at_t
      cases applied
      exact work_inv inv at_t rfl
    · cases applied
  | crash t =>
    cases applied
    exact ⟨fun task later => inv.tasks task (List.mem_of_mem_eraseIdx later), inv.channel,
      inv.delivered, inv.numbered, inv.waiting_frame rfl rfl rfl⟩
  | deliver n again =>
    simp only [step] at applied
    split at applied
    · rename_i notification at_n
      cases applied
      refine ⟨inv.tasks, ?_, ?_, inv.numbered.notify _, fun waiting looping =>
        (inv.waiting waiting looping).deliver rfl rfl⟩
      · intro i published
        refine inv.channel i ?_
        simp only at published
        split at published
        · exact published
        · exact List.mem_of_mem_eraseIdx published
      · intro i announced
        rcases List.mem_append.mp announced with before | new
        · exact inv.delivered i before
        · rw [← List.mem_singleton.mp new] at at_n
          exact inv.channel i (List.mem_of_getElem? at_n)
    · cases applied
  | miss n =>
    cases applied
    exact ⟨inv.tasks, fun i published => inv.channel i (List.mem_of_mem_eraseIdx published),
      inv.delivered, inv.numbered, inv.waiting_frame rfl rfl rfl⟩
  | register =>
    simp only [step] at applied
    split at applied
    · cases applied
      refine ⟨inv.tasks, inv.channel, inv.delivered, inv.numbered.registerJob jobId, ?_⟩
      intro waiting looping
      cases looping
      exact (WaitingOk.start s.notifier).mono (s := { s with notifier := _ }) rfl (Nat.le_refl _) rfl
    · cases applied
  | readSlice failed =>
    simp only [step] at applied
    split at applied
    · rename_i waiting looping
      refine waitStep_inv inv looping applied ?_ fun _ same => nomatch same
      intro i wanted announced outcome same
      obtain ⟨payload, present, slice, decodes⟩ := inv.delivered i announced
      cases same
      cases (fine : failed = false)
      refine ⟨slice, ?_⟩
      simp only [readOutcome, wanted, Option.getD_some, present, decodes, Bool.false_eq_true, if_false]
    · cases applied
  | skip | endPass expired =>
    simp only [step] at applied
    split at applied
    · rename_i waiting looping
      exact waitStep_inv inv looping applied (fun _ _ _ _ same => nomatch same)
        fun _ same => nomatch same
    · cases applied
  | wake =>
    simp only [step] at applied
    split at applied
    · rename_i waiting looping
      refine waitStep_inv inv looping applied (fun _ _ _ _ same => nomatch same) ?_
      intro notifier same
      cases same
      rfl
    · cases applied
  | registerOther other =>
    cases applied
    refine ⟨inv.tasks, inv.channel, inv.delivered, inv.numbered.registerJob other, ?_⟩
    intro waiting looping
    have ok := inv.waiting waiting looping
    have distinct : jobId ≠ other := fun same => fine same.symm waiting looping
    have older := inv.numbered jobId _ ok.registered
    refine ok.mono (Function.update_of_ne distinct _ _) ?_ rfl
    exact (Function.update_of_ne (Nat.ne_of_lt older) _ _).ge
  | unregisterOther other =>
    cases applied
    refine ⟨inv.tasks, inv.channel, inv.delivered, inv.numbered.unregisterJob other, ?_⟩
    intro waiting looping
    have distinct : jobId ≠ other := fun same => fine same.symm waiting looping
    exact (inv.waiting waiting looping).mono (Function.update_of_ne distinct _ _) (Nat.le_refl _) rfl
  | command command =>
    cases applied
    have keeps : ∀ i, Stored p jobId s.store i → Stored p jobId (command.exec s.store).1 i := by
      rintro i ⟨payload, present, decodes⟩
      exact ⟨payload, by rw [found, Command.exec_frame s.store (fine i)]; exact present, decodes⟩
    exact ⟨fun task member owner => ⟨(inv.tasks task member owner).1, fun written =>
        keeps _ ((inv.tasks task member owner).2 written)⟩,
      fun i published => keeps i (inv.channel i published),
      fun i announced => keeps i (inv.delivered i announced), inv.numbered,
      inv.waiting_frame rfl rfl rfl⟩

/-- No lost wakeup. Whenever the aggregation is parked with no unseen change,
every slice whose notification was delivered is held; so once the notifications
of all slices were delivered, a parked aggregation has a wakeup pending. -/
theorem no_lost_wakeup {store : Store} {actions : List Action} {s : State}
    (undisturbed : Foundations.Transition.Admitted (step p jobId totalSlices) (Undisturbed p jobId)
      actions (.init store))
    (ran : run (step p jobId totalSlices) actions (.init store) = some s)
    {waiting : Waiting} (looping : s.aggregation = .waiting waiting)
    (parked : waiting.point = .parked) :
    (¬ waiting.receiver.Pending s.notifier → ∀ i < totalSlices,
      sliceDone jobId i ∈ s.delivered → waiting.collector.held[i]? = some true) ∧
    ((∀ i < totalSlices, sliceDone jobId i ∈ s.delivered) →
      waiting.receiver.Pending s.notifier) := by
  have inv : Inv p jobId totalSlices s :=
    run_invariant_of_admitted step_inv (init_inv store) undisturbed ran
  have ok := inv.waiting waiting looping
  have held : ¬ waiting.receiver.Pending s.notifier → ∀ i < totalSlices,
      sliceDone jobId i ∈ s.delivered → waiting.collector.held[i]? = some true := by
    intro seen i inside announced
    rcases ok.announced i inside announced with flag | ⟨k, -, passing⟩ | unseen
    · exact flag
    · rw [parked] at passing
      cases passing
    · exact absurd (Nat.ne_of_gt unseen) seen
  refine ⟨held, fun all => ?_⟩
  by_contra seen
  refine ok.incomplete parked (ok.sound.collected.remaining_eq_zero fun i inside => ?_)
  rw [ok.total] at inside
  exact held seen i inside (all i inside)

end

/-- A payload with one value. -/
def onePayload : Bytes := encodePartial ⟨.zero, .one, [.one]⟩

/-- The slice arrives after the pass went by, and while another job registers. -/
def lateSlice : List Action :=
  [.register, .readSlice false, .compute "j" 0 onePayload, .work 0 .none, .work 0 .none,
    .deliver 0 false, .registerOther "k", .endPass false]

def isParked (s : State) : Bool :=
  match s.aggregation with
  | .waiting waiting => waiting.point = .parked
  | _ => false

theorem no_lost_wakeup_late_slice : ∃ s waiting,
    run (step smallPlatform "j" 1) lateSlice (.init .empty) = some s ∧
      s.aggregation = .waiting waiting ∧ waiting.point = .parked ∧
      (¬ waiting.receiver.Pending s.notifier → ∀ i < 1,
        sliceDone "j" i ∈ s.delivered → waiting.collector.held[i]? = some true) ∧
      ((∀ i < 1, sliceDone "j" i ∈ s.delivered) → waiting.receiver.Pending s.notifier) := by
  have ends : (run (step smallPlatform "j" 1) lateSlice (.init .empty)).map isParked = some true := by
    decide +kernel
  obtain ⟨s, ran, parked⟩ := Option.map_eq_some_iff.mp ends
  unfold isParked at parked
  split at parked
  · rename_i waiting looping
    have fine : ∀ action ∈ lateSlice, ∀ s, Undisturbed smallPlatform "j" action s := by
      intro action member s
      simp only [lateSlice, List.mem_cons, List.not_mem_nil, or_false] at member
      rcases member with rfl | rfl | rfl | rfl | rfl | rfl | rfl | rfl
      · trivial
      · rfl
      · exact fun _ => ⟨_, rfl⟩
      · trivial
      · trivial
      · trivial
      · exact fun same => absurd same (by decide)
      · trivial
    exact ⟨s, waiting, ran, looping, by simpa using parked,
      no_lost_wakeup (admitted_of_forall fine _) ran looping (by simpa using parked)⟩
  · cases parked

end DistributedSoftmax.System.Wakeup
