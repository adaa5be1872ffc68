import DistributedSoftmax.Foundations.Folds
import DistributedSoftmax.System.WorkerPools

/-! Workers that do not fail get their work done: in whatever order they and
their tasks go on, every message is taken and handled, and its slice is stored
and announced. -/

set_option autoImplicit false

namespace DistributedSoftmax.System.WorkerPools
open Foundations.ByteString Foundations.Folds Foundations.KeyValue Foundations.TaskPool Foundations.Transition
open Gateway Worker Jobs

/-- A worker that takes messages and has permits to handle them. -/
structure ReadyProcess (process : Process) : Prop where
  permits : 0 < process.limit
  opened : process.closed = false
  inside : process.loop ≠ .left

/-- There are workers, and all of them are ready. -/
structure Ready (s : State) : Prop where
  some_worker : s.workers ≠ []
  each : ∀ process ∈ s.workers, ReadyProcess process

/-- Nothing is left to do for the workers. -/
def Drained (s : State) : Prop := s.messages = [] ∧ s.tasks = []

/-- How many steps a task needs, with its start. -/
def Handling.left : Handling → Nat
  | .spawned => 3
  | .writing task => if task.written then 1 else 2

def processLeft (process : Process) : Nat :=
  5 * process.channel.length + 4 * process.loop.held.length +
    (process.running.map fun entry => entry.2.left).sum

/-- At most this many steps are left to the workers. -/
def State.left (s : State) : Nat :=
  6 * s.shared.queue.length + (s.workers.map processLeft).sum

variable {p : Platform} {s next : State} {action : Action}

section process
variable {process changed : Process}

/-- Only a socket that fails stops a worker. -/
theorem ReadyProcess.step (ready : ReadyProcess process) {event : Event (Json Double) Handling}
    (stays : event ≠ .close) (applied : process.step .spawned event = some changed) :
    ReadyProcess changed := by
  have limit := step_limit applied
  cases event with
  | arrive message =>
    obtain ⟨-, rfl⟩ := Pool.arrive_eq_some.mp applied
    exact ⟨ready.permits, ready.opened, ready.inside⟩
  | close => exact absurd rfl stays
  | take =>
    obtain ⟨item, rest, receiving, channel, rfl⟩ | ⟨-, -, closed, -⟩ := Pool.take_cases applied
    · exact ⟨ready.permits, ready.opened, fun impossible => nomatch impossible⟩
    · cases ready.opened.symm.trans closed
  | start =>
    obtain ⟨item, acquiring, -, -, channel, closed, loop, running⟩ := Pool.start_cases applied
    refine ⟨limit ▸ ready.permits, closed.trans ready.opened, ?_⟩
    rw [loop]
    exact fun impossible => nomatch impossible
  | settle t left =>
    obtain ⟨_, _, -, -, channel, closed, loop, running⟩ := Pool.settle_cases applied
    exact ⟨limit ▸ ready.permits, closed.trans ready.opened, loop ▸ ready.inside⟩

theorem processLeft_arrive {message : Json Double} (arrived : process.arrive message = some changed) :
    processLeft changed = processLeft process + 5 := by
  obtain ⟨-, rfl⟩ := Pool.arrive_eq_some.mp arrived
  simp only [processLeft, List.length_append, List.length_singleton]
  omega

theorem processLeft_take (opened : process.closed = false) (took : process.take = some changed) :
    processLeft changed < processLeft process := by
  obtain ⟨item, rest, receiving, channel, rfl⟩ | ⟨-, -, closed, -⟩ := Pool.take_cases took
  · simp only [processLeft, receiving, channel, Loop.held, List.length_cons, List.length_nil]
    omega
  · cases opened.symm.trans closed

theorem processLeft_start (started : process.start .spawned = some changed) :
    processLeft changed < processLeft process := by
  obtain ⟨item, acquiring, -, -, channel, -, loop, running⟩ := Pool.start_cases started
  simp only [processLeft, acquiring, channel, loop, running, Loop.held, List.length_cons,
    List.length_nil, List.map_append, List.sum_append, List.map_cons, List.map_nil, List.sum_cons,
    List.sum_nil, Handling.left]
  omega

theorem Handling.left_pos (stage : Handling) : 0 < stage.left := by
  unfold Handling.left
  split
  · omega
  · split <;> omega

theorem processLeft_settle {t : Nat} {left : Option Handling} {item : Json Double} {stage : Handling}
    (at_t : process.running[t]? = some (item, stage))
    (fewer : ∀ stage', left = some stage' → stage'.left < stage.left)
    (settled : process.settle t left = some changed) : processLeft changed < processLeft process := by
  obtain ⟨_, _, same, -, channel, -, loop, running⟩ := Pool.settle_cases settled
  cases at_t.symm.trans same
  simp only [processLeft, channel, loop, running]
  apply Nat.add_lt_add_left
  cases left with
  | none =>
    have shorter := ((perm_eraseIdx at_t).map fun entry => entry.2.left).sum_eq
    have positive : 0 < (item, stage).2.left := stage.left_pos
    rw [List.map_cons, List.sum_cons] at shorter
    simp only [Option.map_none, Foundations.TaskPool.settle]
    omega
  | some stage' => exact sum_map_set_lt at_t (fewer stage' rfl)

end process

/-- What a worker does, it does as a step of its pool. -/
theorem step_process (workers : ∀ action', action ≠ .outside action')
    (applied : step p action s = some next) {process : Process} (member : process ∈ next.workers) :
    process ∈ s.workers ∨ (∃ cfg, action = .connect cfg ∧ Worker.run cfg = some process) ∨
      ∃ before event, before ∈ s.workers ∧ before.step .spawned event = some process ∧
        (event = .close → ∃ w, action = .close w) := by
  have one {s' : State} {w : Nat} (event : Event (Json Double) Handling)
      (applied : s'.update w (Pool.step .spawned event) = some next) (same : s'.workers = s.workers)
      (closes : event = .close → ∃ w, action = .close w) :
      process ∈ s.workers ∨ (∃ cfg, action = .connect cfg ∧ Worker.run cfg = some process) ∨
        ∃ before event, before ∈ s.workers ∧ before.step .spawned event = some process ∧
          (event = .close → ∃ w, action = .close w) := by
    obtain ⟨before, changed, at_w, changes, rfl⟩ := update_eq_some.mp applied
    rw [same] at at_w
    rcases List.mem_or_eq_of_mem_set member with unchanged | rfl
    · exact .inl (same ▸ unchanged)
    · exact .inr (.inr ⟨before, event, List.mem_of_getElem? at_w, changes, closes⟩)
  cases action with
  | outside action => exact absurd rfl (workers action)
  | connect cfg =>
    obtain ⟨fresh, connected, rfl⟩ := Option.map_eq_some_iff.mp applied
    rcases List.mem_append.mp member with before | new
    · exact .inl before
    · rw [List.mem_singleton.mp new]
      exact .inr (.inl ⟨cfg, rfl, connected⟩)
  | pull w m =>
    simp only [step] at applied
    split at applied
    · rename_i message at_m
      exact one (.arrive message) applied rfl fun impossible => by cases impossible
    · cases applied
  | close w => exact one .close applied rfl fun _ => ⟨w, rfl⟩
  | take w => exact one .take applied rfl fun impossible => by cases impossible
  | start w => exact one .start applied rfl fun impossible => by cases impossible
  | handle w t fault =>
    simp only [step] at applied
    split at applied
    · exact one (.settle t _) applied rfl fun impossible => by cases impossible
    · exact one (.settle t _) applied rfl fun impossible => by cases impossible
    · cases applied
  | panic w t => exact one (.settle t none) applied rfl fun impossible => by cases impossible
  | kill w =>
    simp only [step] at applied
    split at applied
    · cases applied
      exact .inl (List.mem_of_mem_eraseIdx member)
    · cases applied

/-- Workers have permits, and their sockets do not fail. -/
def Action.Sound : Action → Prop
  | .connect cfg => 0 < cfg.maxConcurrent
  | .close _ => False
  | .outside _ | .pull _ _ | .take _ | .start _ | .handle _ _ _ | .panic _ _ | .kill _ => True

theorem Action.Working.sound (working : action.Working) : action.Sound := by
  cases action with
  | outside | connect | close | panic | kill => exact working.elim
  | pull | take | start | handle => trivial

theorem step_ready (ready : ∀ process ∈ s.workers, ReadyProcess process) (sound : action.Sound)
    (applied : step p action s = some next) : ∀ process ∈ next.workers, ReadyProcess process := by
  intro process member
  by_cases outside : ∃ action', action = .outside action'
  · obtain ⟨action', rfl⟩ := outside
    simp only [step] at applied
    split at applied
    · obtain ⟨after, -, rfl⟩ := Option.map_eq_some_iff.mp applied
      exact ready process member
    · cases applied
  · rcases step_process (fun action' acts => outside ⟨action', acts⟩) applied member with
      before | ⟨cfg, rfl, connected⟩ | ⟨before, event, inside, changes, closes⟩
    · exact ready process before
    · unfold Worker.run at connected
      split at connected
      · cases connected
        exact ⟨sound, rfl, fun impossible => by cases impossible⟩
      · cases connected
    · refine (ready before inside).step ?_ changes
      intro closed
      obtain ⟨w, rfl⟩ := closes closed
      exact sound

theorem workers_ne_nil (some_worker : s.workers ≠ []) (w : Nat) (changed : Process) :
    s.workers.set w changed ≠ [] := by
  rwa [Ne, ← List.length_eq_zero_iff, List.length_set, List.length_eq_zero_iff]

/-- A step of the workers brings them closer to the end. -/
theorem working_step (ready : Ready s) (working : action.Working)
    (applied : step p action s = some next) : next.workers ≠ [] ∧ next.left < s.left := by
  -- One worker changes, and the others stay as they are.
  have one {w : Nat} {process changed : Process} (at_w : s.workers[w]? = some process)
      (closer : processLeft changed < processLeft process)
      (shared : Shared) (queue : shared.queue = s.shared.queue) :
      s.workers.set w changed ≠ [] ∧
        ({ s with shared, workers := s.workers.set w changed } : State).left < s.left := by
    refine ⟨workers_ne_nil ready.some_worker w changed, ?_⟩
    simp only [State.left, queue]
    exact Nat.add_lt_add_left (sum_map_set_lt at_w closer) _
  cases action with
  | outside | connect | close | panic | kill => exact working.elim
  | pull w m =>
    simp only [step] at applied
    split at applied
    · rename_i message at_m
      obtain ⟨process, changed, at_w, arrived, rfl⟩ := update_eq_some.mp applied
      refine ⟨workers_ne_nil ready.some_worker w changed, ?_⟩
      have count := processLeft_arrive arrived
      have index := (List.getElem?_eq_some_iff.mp at_m).1
      have change : ((s.workers.set w changed).map processLeft).sum + processLeft process =
          (s.workers.map processLeft).sum + processLeft changed := sum_map_set at_w
      simp only [State.left, List.length_eraseIdx_of_lt index]
      omega
    · cases applied
  | take w =>
    obtain ⟨process, changed, at_w, took, rfl⟩ := update_eq_some.mp applied
    have opened := (ready.each process (List.mem_of_getElem? at_w)).opened
    exact one at_w (processLeft_take opened took) s.shared rfl
  | start w =>
    obtain ⟨process, changed, at_w, started, rfl⟩ := update_eq_some.mp applied
    exact one at_w (processLeft_start started) s.shared rfl
  | handle w t fault =>
    cases working
    simp only [step] at applied
    split at applied
    · rename_i message at_wt
      obtain ⟨process, at_w, at_t⟩ := Option.bind_eq_some_iff.mp at_wt
      obtain ⟨_, changed, same, settled, rfl⟩ := update_eq_some.mp applied
      cases at_w.symm.trans same
      refine one at_w (processLeft_settle at_t ?_ settled) s.shared rfl
      intro stage' goes
      obtain ⟨task, first, rfl⟩ := Option.map_eq_some_iff.mp goes
      simp only [Handling.left]
      split <;> omega
    · rename_i message task at_wt
      obtain ⟨process, at_w, at_t⟩ := Option.bind_eq_some_iff.mp at_wt
      obtain ⟨_, changed, same, settled, rfl⟩ := update_eq_some.mp applied
      cases at_w.symm.trans same
      refine one at_w (processLeft_settle at_t ?_ settled) _ rfl
      intro stage' goes
      obtain ⟨task', continued, rfl⟩ := Option.map_eq_some_iff.mp goes
      simp only [WorkerTask.step] at continued
      split at continued
      · cases continued
      · rename_i unwritten
        simp only [attempt, Command.exec, if_true] at continued
        cases continued
        simp only [Handling.left, if_true, unwritten]
        decide
    · cases applied

theorem update_isSome {w : Nat} {process : Process} {change : Process → Option Process}
    (at_w : s.workers[w]? = some process) (changes : (change process).isSome) :
    ∃ next, s.update w change = some next := by
  obtain ⟨changed, applied⟩ := Option.isSome_iff_exists.mp changes
  exact ⟨_, update_eq_some.mpr ⟨process, changed, at_w, applied, rfl⟩⟩

/-- A task can always go on. -/
theorem handle_isSome {w t : Nat} {process : Process} {entry : Json Double × Handling}
    (at_w : s.workers[w]? = some process) (at_t : process.running[t]? = some entry) (fault : Fault) :
    ∃ next, step p (.handle w t fault) s = some next := by
  obtain ⟨message, stage⟩ := entry
  have at_wt : (s.workers[w]?.bind fun process => process.running[t]?) = some (message, stage) := by
    rw [at_w, Option.bind_some, at_t]
  cases stage with
  | spawned =>
    simp only [step, at_wt]
    exact update_isSome at_w (Pool.settle_isSome at_t _)
  | writing task =>
    simp only [step, at_wt]
    exact update_isSome at_w (Pool.settle_isSome at_t _)

/-- As long as something is left to do, some worker can go on. -/
theorem exists_working (ready : Ready s) (unfinished : ¬ Drained s) :
    ∃ action next, action.Working ∧ step p action s = some next := by
  by_cases busy : ∃ process ∈ s.workers, process.running ≠ []
  · obtain ⟨process, member, some_task⟩ := busy
    obtain ⟨w, at_w⟩ := List.getElem?_of_mem member
    obtain ⟨entry, rest, running⟩ := List.exists_cons_of_ne_nil some_task
    have at_0 : process.running[0]? = some entry := by rw [running]; rfl
    obtain ⟨next, applied⟩ := handle_isSome (p := p) at_w at_0 .none
    exact ⟨.handle w 0 .none, next, rfl, applied⟩
  have idle : ∀ process ∈ s.workers, process.running = [] :=
    fun process member => by_contra fun some_task => busy ⟨process, member, some_task⟩
  by_cases held : ∃ process ∈ s.workers, process.waiting ≠ []
  · -- All permits are free, so the loop can go on.
    obtain ⟨process, member, waits⟩ := held
    obtain ⟨w, at_w⟩ := List.getElem?_of_mem member
    have worker := ready.each process member
    have free : process.permits = process.limit := by
      have balanced := process.balanced
      rwa [idle process member] at balanced
    cases loop : process.loop with
    | receiving =>
      have some_message : process.channel ≠ [] := by
        simpa only [Pool.waiting, loop, Loop.held, List.nil_append] using waits
      obtain ⟨message, rest, channel⟩ := List.exists_cons_of_ne_nil some_message
      have takes : process.take.isSome := by
        simp only [Pool.take, loop, channel, Option.isSome_some]
      obtain ⟨next, applied⟩ := update_isSome at_w takes
      exact ⟨.take w, next, trivial, applied⟩
    | acquiring message =>
      have starts : (process.start .spawned).isSome :=
        Pool.start_isSome loop (free ▸ worker.permits)
      obtain ⟨next, applied⟩ := update_isSome at_w starts
      exact ⟨.start w, next, trivial, applied⟩
    | left => exact absurd loop worker.inside
  have nothing : ∀ process ∈ s.workers, messagesAt process = [] ∧ tasksAt process = [] := by
    intro process member
    have waits : process.waiting = [] := by_contra fun some_message => held ⟨process, member, some_message⟩
    simp only [messagesAt, tasksAt, waits, idle process member, List.filterMap_nil, List.append_nil,
      and_self]
  have tasks : s.tasks = [] := List.flatMap_eq_nil_iff.mpr fun process member => (nothing process member).2
  have atWorkers : s.workers.flatMap messagesAt = [] :=
    List.flatMap_eq_nil_iff.mpr fun process member => (nothing process member).1
  have queued : s.shared.queue ≠ [] := by
    intro empty
    refine unfinished ⟨?_, tasks⟩
    rw [State.messages, empty, atWorkers, List.append_nil]
  obtain ⟨message, rest, queue⟩ := List.exists_cons_of_ne_nil queued
  obtain ⟨process, others, workers⟩ := List.exists_cons_of_ne_nil ready.some_worker
  have at_0 : s.workers[0]? = some process := by rw [workers]; rfl
  have opened := (ready.each process (List.mem_of_getElem? at_0)).opened
  have arrives : (process.arrive message).isSome := by
    simp only [Pool.arrive, opened, Bool.false_eq_true, if_false, Option.isSome_some]
  obtain ⟨next, applied⟩ := update_isSome
    (s := { s with shared := { s.shared with queue := s.shared.queue.eraseIdx 0 } }) at_0 arrives
  refine ⟨.pull 0 0, next, trivial, ?_⟩
  rw [← applied, step, queue]
  rfl

/-- A slice that is on its way into the store, or has got there and was announced. -/
def Written (s : State) (task : WorkerTask) : Prop :=
  task ∈ s.tasks ∨ (s.shared.store (resultKey task.jobId task.sliceId)).isSome ∧
    ({ task with written := true } ∈ s.tasks ∨ sliceDone task.jobId task.sliceId ∈ s.shared.channel)

/-- A message that is on its way to a task, or was handled. -/
def Handled (p : Platform) (s : State) (message : Json Double) : Prop :=
  message ∈ s.messages ∨ ∀ task ∈ taskOf p message, Written s task

/-- An operation of a task, when nothing fails. -/
theorem WorkerTask.step_none (task : WorkerTask) (store : Store) (channel : List Notification) :
    (task.written = true ∧ task.step .none store channel =
      (none, store, channel ++ [sliceDone task.jobId task.sliceId])) ∨
    (task.written = false ∧ task.step .none store channel =
      (some { task with written := true },
        (Command.exec store (.set (resultKey task.jobId task.sliceId) task.payload)).1, channel)) := by
  cases written : task.written with
  | true =>
    left
    simp only [Jobs.WorkerTask.step, written, if_true, true_and]
    rfl
  | false =>
    right
    simp only [Jobs.WorkerTask.step, written, Bool.false_eq_true, if_false, true_and]
    rfl

theorem isSome_set {store : Store} {key key' : String} (value : Bytes) (present : (store key).isSome) :
    ((Command.exec store (.set key' value)).1 key).isSome := by
  by_cases same : key = key'
  · rw [same]
    simp only [Command.exec, Function.update_self, Option.isSome_some]
  · have other : key ≠ (Command.set key' value).key := same
    rwa [Command.exec_frame store other]

theorem Written.step {task : WorkerTask} (written : Written s task) (fresh : task.written = false)
    (ours : ∀ action', action ≠ .outside action') (working : action.Working)
    (applied : step p action s = some next) : Written next task := by
  cases step_effect ours applied with
  | moved messages tasks =>
    refine written.imp tasks.mem_iff.mpr fun ⟨stored, rest⟩ => ⟨stored, rest.imp_left tasks.mem_iff.mpr⟩
  | @read action message workers messages tasks =>
    have kept {other : WorkerTask} (member : other ∈ s.tasks) :
        other ∈ ({ s with workers } : State).tasks :=
      tasks.mem_iff.mpr (List.mem_append_right _ member)
    exact written.imp kept fun ⟨stored, rest⟩ => ⟨stored, rest.imp_left kept⟩
  | @worked w t fault other others left store channel workers stepped tasks messages settled =>
    cases working
    have kept {task : WorkerTask} (member : task ∈ s.tasks) (different : task ≠ other) :
        task ∈ ({ s with workers } : State).tasks := by
      rcases List.mem_cons.mp (tasks.mem_iff.mp member) with same | rest
      · exact absurd same different
      · exact settled.mem_iff.mpr (List.mem_append_right _ rest)
    rcases WorkerTask.step_none other s.shared.store s.shared.channel with ⟨done, after⟩ | ⟨due, after⟩
    · -- The task announces its slice.
      cases stepped.symm.trans after
      rcases written with member | ⟨stored, member | announced⟩
      · refine .inl (kept member ?_)
        rintro rfl
        cases fresh.symm.trans done
      · refine .inr ⟨stored, ?_⟩
        by_cases same : ({ task with written := true } : WorkerTask) = other
        · rw [← same]
          exact .inr (List.mem_append_right _ (List.mem_singleton_self _))
        · exact .inl (kept member same)
      · exact .inr ⟨stored, .inr (List.mem_append_left _ announced)⟩
    · -- The task stores its slice.
      cases stepped.symm.trans after
      rcases written with member | ⟨stored, member | announced⟩
      · by_cases same : task = other
        · subst same
          refine .inr ⟨?_, .inl (settled.mem_iff.mpr (List.mem_append_left _ (List.mem_singleton_self _)))⟩
          simp only [Command.exec, Function.update_self, Option.isSome_some]
        · exact .inl (kept member same)
      · refine .inr ⟨isSome_set _ stored, .inl (kept member ?_)⟩
        rintro rfl
        cases due
      · exact .inr ⟨isSome_set _ stored, .inr announced⟩
  | gone failing => exact absurd working failing

theorem mem_taskOf_unwritten {message : Json Double} {task : WorkerTask}
    (member : task ∈ taskOf p message) : task.written = false := by
  unfold taskOf at member
  split at member
  · rw [List.mem_singleton.mp member]
  · cases member

theorem Handled.step {message : Json Double} (handled : Handled p s message)
    (working : action.Working) (applied : step p action s = some next) : Handled p next message := by
  have ours : ∀ action', action ≠ .outside action' := by
    rintro action' rfl
    exact working
  rcases handled with member | written
  · cases step_effect ours applied with
    | moved messages tasks => exact .inl (messages.mem_iff.mpr member)
    | @read action other workers messages tasks =>
      rcases List.mem_cons.mp (messages.mem_iff.mp member) with rfl | rest
      · exact .inr fun task inside => .inl (tasks.mem_iff.mpr (List.mem_append_left _ inside))
      · exact .inl rest
    | worked stepped tasks messages settled => exact .inl (messages.mem_iff.mpr member)
    | gone failing => exact absurd working failing
  · exact .inr fun task inside =>
      (written task inside).step (mem_taskOf_unwritten inside) ours working applied

theorem workers_complete (messages : List (Json Double)) :
    Completes (step p) Action.Working
      (fun s => Ready s ∧ ∀ message ∈ messages, Handled p s message) Drained State.left where
  preserved _ _ _ inv working applied :=
    ⟨⟨(working_step inv.1 working applied).1, step_ready inv.1.each working.sound applied⟩,
      fun message member => (inv.2 message member).step working applied⟩
  closer _ _ _ inv working applied := (working_step inv.1 working applied).2
  enabled _ inv := exists_working inv.1

/-- The slice of a message that a worker accepts is in the store and was announced. -/
def Served (p : Platform) (s : State) (message : Json Double) : Prop :=
  ∀ task ∈ taskOf p message, (s.shared.store (resultKey task.jobId task.sliceId)).isSome ∧
    sliceDone task.jobId task.sliceId ∈ s.shared.channel

theorem Drained.served (drained : Drained s) {message : Json Double} (handled : Handled p s message) :
    Served p s message := by
  intro task inside
  rcases handled with member | written
  · rw [drained.1] at member
    cases member
  · rcases written task inside with member | ⟨stored, member | announced⟩
    · rw [drained.2] at member
      cases member
    · rw [drained.2] at member
      cases member
    · exact ⟨stored, announced⟩

/-- What workers do with the messages that are underway: they can serve all of
them, they do so in a bounded number of steps, and whenever they come to rest
they have done so. -/
def WorkersServe (p : Platform) (s : State) : Prop :=
  (∃ later final, (∀ action ∈ later, action.Working) ∧
    Foundations.Transition.run (step p) later s = some final ∧ Drained final ∧
      ∀ message ∈ s.messages, Served p final message) ∧
  ∀ later final, (∀ action ∈ later, action.Working) →
    Foundations.Transition.run (step p) later s = some final → later.length ≤ s.left ∧
      ((∀ action : Action, action.Working → step p action final = none) →
        Drained final ∧ ∀ message ∈ s.messages, Served p final message)

end DistributedSoftmax.System.WorkerPools
