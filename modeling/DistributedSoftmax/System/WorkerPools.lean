import DistributedSoftmax.System.JobResults
import DistributedSoftmax.Worker.Zmq

/-! Jobs with TRANSPORT=zmq where the workers are processes: each takes messages
into its own channel, handles a bounded number of them at a time, and loses all
that it holds when it is killed. Whatever such workers do, the jobs of the
simpler system, whose workers take a message straight into a task, can do. -/

set_option autoImplicit false

namespace DistributedSoftmax.System.WorkerPools
open Foundations.KeyValue Foundations.TaskPool Foundations.Transition
open Gateway Worker Jobs

/-- Where a spawned `handle_task` stands. -/
inductive Handling where
  /-- It has not yet looked at its message. -/
  | spawned
  | writing (task : WorkerTask)
  deriving DecidableEq, Repr

/-- A worker process, in the loop of `transport::zmq::run`. -/
abbrev Process := Pool (Json Double) Handling

structure State where
  shared : Shared
  calls : List Call
  workers : List Process
  queries : List Query

def State.empty : State := ⟨⟨.empty, [], [], .empty⟩, [], [], []⟩

inductive Action where
  /-- A step of the gateways, their clients, Redis, the transport or time. -/
  | outside (action : Jobs.Action)
  | connect (cfg : ZmqConfig)
  /-- The socket of worker `w` delivers message `m`. -/
  | pull (w m : Nat)
  /-- The socket of worker `w` fails, which ends its thread. -/
  | close (w : Nat)
  | take (w : Nat)
  | start (w : Nat)
  /-- Task `t` of worker `w` goes on to its next await point. -/
  | handle (w t : Nat) (fault : Fault)
  | panic (w t : Nat)
  | kill (w : Nat)
  deriving DecidableEq, Repr

/-- What is not done by a worker. -/
def Outside : Jobs.Action → Bool
  | .receive _ _ | .work _ _ | .crash _ => false
  | .submit _ _ | .call _ _ | .lose _ | .notify _ _ | .miss _ | .ask _ | .answer _ _ | .elapse _ => true

variable (p : Platform)

/-- The state without its workers. -/
def State.others (s : State) : Jobs.State := ⟨s.shared, s.calls, [], s.queries⟩

/-- Worker `w` makes a step of its own. -/
def State.update (s : State) (w : Nat) (change : Process → Option Process) : Option State :=
  (s.workers[w]?.bind change).map fun next => { s with workers := s.workers.set w next }

def step : Action → State → Option State
  | .outside action, s =>
      if Outside action then
        (Jobs.step p action s.others).map fun next =>
          { s with shared := next.shared, calls := next.calls, queries := next.queries }
      else none
  | .connect cfg, s => (run cfg).map fun process => { s with workers := s.workers ++ [process] }
  | .pull w m, s => match s.shared.queue[m]? with
      | some message =>
          { s with shared := { s.shared with queue := s.shared.queue.eraseIdx m } }.update w
            (Pool.arrive message)
      | none => none
  | .close w, s => s.update w Pool.close
  | .take w, s => s.update w Pool.take
  | .start w, s => s.update w (Pool.start .spawned)
  | .handle w t fault, s => match s.workers[w]?.bind fun process => process.running[t]? with
      | some (message, .spawned) =>
          s.update w (Pool.settle t ((taskOf p message).head?.map .writing))
      | some (_, .writing task) =>
          let (left, store, channel) := task.step fault s.shared.store s.shared.channel
          { s with shared := { s.shared with store, channel } }.update w
            (Pool.settle t (left.map .writing))
      | none => none
  | .panic w t, s => s.update w (Pool.settle t none)
  | .kill w, s => if w < s.workers.length then some { s with workers := s.workers.eraseIdx w } else none

/-- The message of a task that has not looked at it. -/
def unread : Json Double × Handling → Option (Json Double)
  | (message, .spawned) => some message
  | (_, .writing _) => none

/-- The slice of a task that has computed it. -/
def computed : Json Double × Handling → Option WorkerTask
  | (_, .spawned) => none
  | (_, .writing task) => some task

/-- The messages in the hands of a worker. -/
def messagesAt (process : Process) : List (Json Double) :=
  process.waiting ++ process.running.filterMap unread

def tasksAt (process : Process) : List WorkerTask := process.running.filterMap computed

/-- The messages that nobody has looked at. -/
def State.messages (s : State) : List (Json Double) := s.shared.queue ++ s.workers.flatMap messagesAt

/-- The slices that are computed and not yet written and announced. -/
def State.tasks (s : State) : List WorkerTask := s.workers.flatMap tasksAt

/-- The state as the simpler system has it, with these messages and tasks. -/
def State.jobs (s : State) (queue : List (Json Double)) (tasks : List WorkerTask) : Jobs.State :=
  ⟨{ s.shared with queue }, s.calls, tasks, s.queries⟩

/-- A state of the simpler system that stands for this one: messages that a
worker has not looked at count as still being on their way. -/
structure Related (s : State) (jobs : Jobs.State) : Prop where
  same : jobs = s.jobs jobs.shared.queue jobs.tasks
  queue : jobs.shared.queue.Perm s.messages
  tasks : jobs.tasks.Perm s.tasks

theorem empty_related : Related .empty .empty := ⟨rfl, .refl _, .refl _⟩

section lists
variable {α β : Type} {f : α → List β} {xs : List α} {i : Nat} {x y : α}

theorem flatMap_perm_eraseIdx (at_i : xs[i]? = some x) :
    (xs.flatMap f).Perm (f x ++ (xs.eraseIdx i).flatMap f) :=
  (perm_eraseIdx at_i).flatMap_right f

/-- One element changes, and its share by as much as the whole. -/
theorem flatMap_set_perm (at_i : xs[i]? = some x) {before after rest : List β}
    (first : (f x).Perm (before ++ rest)) (second : (f y).Perm (after ++ rest)) :
    ∃ others, (xs.flatMap f).Perm (before ++ others) ∧
      ((xs.set i y).flatMap f).Perm (after ++ others) := by
  refine ⟨rest ++ (xs.eraseIdx i).flatMap f, ?_, ?_⟩
  · rw [← List.append_assoc]
    exact (flatMap_perm_eraseIdx at_i).trans (first.append_right _)
  · rw [← List.append_assoc]
    have changed : ((xs.set i y).flatMap f).Perm (f y ++ (xs.eraseIdx i).flatMap f) :=
      (perm_settle at_i (some y)).flatMap_right f
    exact changed.trans (second.append_right _)

theorem flatMap_set_append (at_i : xs[i]? = some x) {more : List β} (grows : (f y).Perm (more ++ f x)) :
    ((xs.set i y).flatMap f).Perm (more ++ xs.flatMap f) := by
  have same : (f x).Perm ([] ++ f x) := .refl _
  obtain ⟨others, before, after⟩ := flatMap_set_perm at_i same grows
  exact after.trans (before.symm.append_left more)

/-- An element that a permutation has at its head is found at some index. -/
theorem exists_index {rest : List α} (perm : xs.Perm (x :: rest)) :
    ∃ i, xs[i]? = some x ∧ (xs.eraseIdx i).Perm rest := by
  obtain ⟨i, at_i⟩ := List.getElem?_of_mem (perm.mem_iff.mpr List.mem_cons_self)
  exact ⟨i, at_i, ((perm_eraseIdx at_i).symm.trans perm).cons_inv⟩

end lists

variable {p : Platform}

section jobs
variable (s : State) {queue : List (Json Double)} {tasks : List WorkerTask}

variable (tasks) in
/-- The simpler system can lose any of its messages. -/
theorem lose_all {gone kept : List (Json Double)} (perm : queue.Perm (gone ++ kept)) :
    ∃ actions queue', Foundations.Transition.run (Jobs.step p) actions (s.jobs queue tasks) =
      some (s.jobs queue' tasks) ∧ queue'.Perm kept := by
  induction gone generalizing queue with
  | nil => exact ⟨[], queue, rfl, perm⟩
  | cons message gone ih =>
    obtain ⟨m, -, rest⟩ := exists_index perm
    obtain ⟨actions, queue', ran, left⟩ := ih rest
    exact ⟨.lose m :: actions, queue', ran, left⟩

variable (queue) in
/-- And any of its tasks. -/
theorem crash_all {gone kept : List WorkerTask} (perm : tasks.Perm (gone ++ kept)) :
    ∃ actions tasks', Foundations.Transition.run (Jobs.step p) actions (s.jobs queue tasks) =
      some (s.jobs queue tasks') ∧ tasks'.Perm kept := by
  induction gone generalizing tasks with
  | nil => exact ⟨[], tasks, rfl, perm⟩
  | cons task gone ih =>
    obtain ⟨t, -, rest⟩ := exists_index perm
    obtain ⟨actions, tasks', ran, left⟩ := ih rest
    exact ⟨.crash t :: actions, tasks', ran, left⟩

theorem waitStep_requeue {jobId : String} {waiting : Waiting} {event : WaitEvent}
    {shared shared' : Shared} {phase : Phase}
    (waited : waitStep p jobId waiting event shared = some (phase, shared')) :
    shared'.queue = shared.queue ∧ ∀ queue,
      waitStep p jobId waiting event { shared with queue } = some (phase, { shared' with queue }) := by
  unfold waitStep at waited ⊢
  split at waited
  · cases waited
  · split at waited
    · cases waited
      exact ⟨rfl, fun _ => rfl⟩
    · cases waited
      exact ⟨rfl, fun _ => rfl⟩

/-- A call adds to the messages on their way and does not look at them. -/
theorem Call.step_requeue {call : Call} {shared shared' : Shared} {input : CallInput} {phase : Phase}
    (stepped : call.step p shared input = some (phase, shared')) :
    ∃ added, shared'.queue = shared.queue ++ added ∧ ∀ queue,
      call.step p { shared with queue } input =
        some (phase, { shared' with queue := queue ++ added }) := by
  cases input with
  | publish failed =>
    simp only [Jobs.Call.step] at stepped ⊢
    split at stepped
    · split at stepped
      · split at stepped
        · rename_i failed
          cases stepped
          refine ⟨[], (List.append_nil _).symm, fun queue => ?_⟩
          simp only [failed, if_true, List.append_nil]
        · rename_i sent
          cases stepped
          refine ⟨[_], rfl, fun queue => ?_⟩
          simp only [sent]
          rfl
      · cases stepped
    · cases stepped
  | register =>
    refine ⟨[], ?_⟩
    simp only [Jobs.Call.step, List.append_nil] at stepped ⊢
    split at stepped
    · split at stepped
      · rename_i all
        cases stepped
        refine ⟨rfl, fun queue => ?_⟩
        rw [if_pos all]
      · cases stepped
    · cases stepped
  | store fault | storeResult fault | storeProgress fault | cancel =>
    refine ⟨[], ?_⟩
    simp only [Jobs.Call.step, List.append_nil] at stepped ⊢
    split at stepped <;> cases stepped
    exact ⟨rfl, fun _ => rfl⟩
  | readSlice failed | skip | endPass expired | wake =>
    refine ⟨[], ?_⟩
    simp only [Jobs.Call.step, List.append_nil] at stepped ⊢
    split at stepped
    · exact waitStep_requeue stepped
    · cases stepped

variable {s} in
variable (tasks) in
/-- What happens outside of the workers happens in the simpler system as well. -/
theorem outside_step {action : Jobs.Action} {next : Jobs.State} {held : List (Json Double)}
    (outside : Outside action = true) (applied : Jobs.step p action s.others = some next)
    (perm : queue.Perm (s.shared.queue ++ held)) :
    ∃ actions queue', Foundations.Transition.run (Jobs.step p) actions (s.jobs queue tasks) =
        some ⟨{ next.shared with queue := queue' }, next.calls, tasks, next.queries⟩ ∧
      queue'.Perm (next.shared.queue ++ held) := by
  cases action with
  | receive _ _ | work _ _ | crash _ => cases outside
  | submit request now =>
    cases applied
    exact ⟨[.submit request now], queue, rfl, perm⟩
  | call c input =>
    simp only [Jobs.step, State.others] at applied
    split at applied
    · rename_i call at_c
      split at applied
      · rename_i phase shared stepped
        cases applied
        obtain ⟨added, grown, requeued⟩ := Call.step_requeue stepped
        refine ⟨[.call c input], queue ++ added, ?_, ?_⟩
        · rw [Foundations.Transition.run, State.jobs, Jobs.step, at_c]
          simp only [requeued]
          rfl
        · rw [grown]
          have moved : (s.shared.queue ++ (added ++ held)).Perm (s.shared.queue ++ (held ++ added)) :=
            List.perm_append_comm.append_left s.shared.queue
          rw [List.append_assoc]
          refine (perm.append_right added).trans ?_
          rw [List.append_assoc]
          exact moved.symm
      · cases applied
    · cases applied
  | lose m =>
    cases applied
    cases at_m : s.shared.queue[m]? with
    | none =>
      have same : s.shared.queue.eraseIdx m = s.shared.queue :=
        List.eraseIdx_of_length_le (List.getElem?_eq_none_iff.mp at_m)
      refine ⟨[], queue, rfl, ?_⟩
      simpa only [State.others, same] using perm
    | some message =>
      have first : queue.Perm ([message] ++ (s.shared.queue.eraseIdx m ++ held)) :=
        perm.trans ((perm_eraseIdx at_m).append_right held)
      exact lose_all s tasks first
  | notify n again =>
    simp only [Jobs.step, State.others] at applied
    split at applied
    · rename_i notification at_n
      cases applied
      refine ⟨[.notify n again], queue, ?_, perm⟩
      rw [Foundations.Transition.run, State.jobs, Jobs.step, at_n]
      rfl
    · cases applied
  | miss n =>
    cases applied
    exact ⟨[.miss n], queue, rfl, perm⟩
  | ask jobId =>
    cases applied
    exact ⟨[.ask jobId], queue, rfl, perm⟩
  | answer q failed =>
    simp only [Jobs.step, State.others] at applied
    split at applied
    · rename_i query at_q
      split at applied
      · rename_i phase stepped
        cases applied
        refine ⟨[.answer q failed], queue, ?_, perm⟩
        rw [Foundations.Transition.run, State.jobs, Jobs.step, at_q]
        simp only [stepped]
        rfl
      · cases applied
    · cases applied
  | elapse seconds =>
    cases applied
    exact ⟨[.elapse seconds], queue, rfl, perm⟩

end jobs

theorem update_eq_some {s next : State} {w : Nat} {change : Process → Option Process} :
    s.update w change = some next ↔ ∃ process changed, s.workers[w]? = some process ∧
      change process = some changed ∧ next = { s with workers := s.workers.set w changed } := by
  simp only [State.update, Option.map_eq_some_iff, Option.bind_eq_some_iff]
  constructor
  · rintro ⟨changed, ⟨process, at_w, applied⟩, rfl⟩
    exact ⟨process, changed, at_w, applied, rfl⟩
  · rintro ⟨process, changed, at_w, applied, rfl⟩
    exact ⟨changed, ⟨process, at_w, applied⟩, rfl⟩

section processes
variable {process changed : Process}

theorem messagesAt_arrive {message : Json Double} (applied : process.arrive message = some changed) :
    (messagesAt changed).Perm (message :: messagesAt process) ∧ tasksAt changed = tasksAt process := by
  obtain ⟨-, rfl⟩ := Pool.arrive_eq_some.mp applied
  refine ⟨?_, rfl⟩
  simp only [messagesAt, Pool.waiting, ← List.append_assoc]
  rw [List.append_assoc]
  exact List.perm_middle

theorem messagesAt_close (applied : process.close = some changed) :
    messagesAt changed = messagesAt process ∧ tasksAt changed = tasksAt process := by
  obtain ⟨-, rfl⟩ := Pool.close_eq_some.mp applied
  exact ⟨rfl, rfl⟩

theorem messagesAt_take (applied : process.take = some changed) :
    messagesAt changed = messagesAt process ∧ tasksAt changed = tasksAt process := by
  obtain ⟨item, rest, receiving, channel, rfl⟩ | ⟨receiving, channel, -, rfl⟩ :=
    Pool.take_cases applied
  · simp only [messagesAt, tasksAt, Pool.waiting, receiving, channel, Loop.held, and_true]
    rfl
  · simp only [messagesAt, tasksAt, Pool.waiting, receiving, Loop.held, and_true]

theorem messagesAt_start (applied : process.start .spawned = some changed) :
    (messagesAt changed).Perm (messagesAt process) ∧ tasksAt changed = tasksAt process := by
  obtain ⟨item, acquiring, -, -, channel, -, loop, running⟩ := Pool.start_cases applied
  constructor
  · simp only [messagesAt, Pool.waiting, acquiring, loop, channel, running, Loop.held,
      List.filterMap_append, List.nil_append, List.cons_append]
    rw [← List.append_assoc]
    exact List.perm_append_comm
  · simp only [tasksAt, running, List.filterMap_append]
    exact List.append_nil _

/-- A task goes on or ends: what it had is replaced by what it has. -/
theorem perm_settled {t : Nat} {left : Option Handling} {item : Json Double} {stage : Handling}
    (at_t : process.running[t]? = some (item, stage)) (applied : process.settle t left = some changed) :
    (∃ rest, (messagesAt process).Perm ((unread (item, stage)).toList ++ rest) ∧
      (messagesAt changed).Perm ((left.bind fun stage => unread (item, stage)).toList ++ rest)) ∧
    ∃ rest, (tasksAt process).Perm ((computed (item, stage)).toList ++ rest) ∧
      (tasksAt changed).Perm ((left.bind fun stage => computed (item, stage)).toList ++ rest) := by
  obtain ⟨_, _, same, -, channel, -, loop, running⟩ := Pool.settle_cases applied
  cases at_t.symm.trans same
  have before := perm_eraseIdx at_t
  have after := perm_settle at_t (left.map fun stage => (item, stage))
  have split {γ : Type} (f : Json Double × Handling → Option γ) (entry : Option (Json Double × Handling))
      (rest : List (Json Double × Handling)) :
      (entry.toList ++ rest).filterMap f = (entry.bind f).toList ++ rest.filterMap f := by
    cases entry with
    | none => rfl
    | some entry => cases image : f entry <;> simp [image]
  constructor
  · refine ⟨process.waiting ++ (process.running.eraseIdx t).filterMap unread, ?_, ?_⟩
    · have moved := before.filterMap unread
      rw [show (item, stage) :: process.running.eraseIdx t =
        (some (item, stage)).toList ++ process.running.eraseIdx t from rfl, split] at moved
      refine (moved.append_left process.waiting).trans ?_
      rw [← List.append_assoc, ← List.append_assoc]
      exact List.perm_append_comm.append_right _
    · have moved := after.filterMap unread
      rw [← running, split, Option.bind_map] at moved
      have same : changed.waiting = process.waiting := by
        rw [Pool.waiting, Pool.waiting, loop, channel]
      rw [messagesAt, same]
      refine (moved.append_left process.waiting).trans ?_
      rw [← List.append_assoc, ← List.append_assoc]
      exact List.perm_append_comm.append_right _
  · refine ⟨(process.running.eraseIdx t).filterMap computed, ?_, ?_⟩
    · have moved := before.filterMap computed
      rwa [show (item, stage) :: process.running.eraseIdx t =
        (some (item, stage)).toList ++ process.running.eraseIdx t from rfl, split] at moved
    · have moved := after.filterMap computed
      rwa [← running, split, Option.bind_map] at moved

end processes

/-- A message gives at most one task. -/
theorem taskOf_eq (message : Json Double) : taskOf p message = (taskOf p message).head?.toList := by
  unfold taskOf
  split <;> rfl

theorem settle_eq (tasks : List WorkerTask) (t : Nat) (left : Option WorkerTask) :
    Jobs.settle tasks t left = Foundations.TaskPool.settle tasks t left := by
  cases left <;> rfl

/-- The steps by which workers that do not fail go on. -/
def Action.Working : Action → Prop
  | .pull _ _ | .take _ | .start _ => True
  | .handle _ _ fault => fault = .none
  | .outside _ | .connect _ | .close _ | .panic _ _ | .kill _ => False

/-- What a step of the workers does to the messages and tasks. -/
inductive Effect (p : Platform) (s : State) : Action → State → Prop where
  | moved {action : Action} {queue : List (Json Double)} {workers : List Process} :
      ({ s with shared := { s.shared with queue }, workers } : State).messages.Perm s.messages →
      ({ s with workers } : State).tasks.Perm s.tasks →
      Effect p s action { s with shared := { s.shared with queue }, workers }
  | read {action : Action} {message : Json Double} {workers : List Process} :
      s.messages.Perm (message :: ({ s with workers } : State).messages) →
      ({ s with workers } : State).tasks.Perm (taskOf p message ++ s.tasks) →
      Effect p s action { s with workers }
  | worked {w t : Nat} {fault : Fault} {task : WorkerTask} {others : List WorkerTask}
      {left : Option WorkerTask} {store : Store} {channel : List Notification}
      {workers : List Process} :
      task.step fault s.shared.store s.shared.channel = (left, store, channel) →
      s.tasks.Perm (task :: others) →
      ({ s with workers } : State).messages.Perm s.messages →
      ({ s with workers } : State).tasks.Perm (left.toList ++ others) →
      Effect p s (.handle w t fault) { s with shared := { s.shared with store, channel }, workers }
  | gone {action : Action} {messages : List (Json Double)} {tasks : List WorkerTask}
      {workers : List Process} : ¬ action.Working →
      s.messages.Perm (messages ++ ({ s with workers } : State).messages) →
      s.tasks.Perm (tasks ++ ({ s with workers } : State).tasks) →
      Effect p s action { s with workers }

section effect
variable {s next : State} {action : Action} {w : Nat} {process changed : Process}

theorem messages_perm {others before : List (Json Double)} {workers : List Process}
    (perm : (workers.flatMap messagesAt).Perm (before ++ others)) :
    (s.shared.queue ++ workers.flatMap messagesAt).Perm (before ++ (s.shared.queue ++ others)) := by
  refine (perm.append_left _).trans ?_
  rw [← List.append_assoc, ← List.append_assoc]
  exact List.perm_append_comm.append_right _

theorem Effect.updated (at_w : s.workers[w]? = some process)
    (messages : (messagesAt changed).Perm (messagesAt process))
    (tasks : tasksAt changed = tasksAt process) :
    Effect p s action { s with workers := s.workers.set w changed } := by
  have sameMessages : (messagesAt changed).Perm ([] ++ messagesAt process) := messages
  have sameTasks : (tasksAt changed).Perm ([] ++ tasksAt process) := .of_eq tasks
  exact .moved ((flatMap_set_append at_w sameMessages).append_left _) (flatMap_set_append at_w sameTasks)

theorem Effect.pulled {m : Nat} {message : Json Double} (at_m : s.shared.queue[m]? = some message)
    (at_w : s.workers[w]? = some process) (arrived : process.arrive message = some changed) :
    Effect p s action { s with
      shared := { s.shared with queue := s.shared.queue.eraseIdx m }
      workers := s.workers.set w changed } := by
  obtain ⟨messages, tasks⟩ := messagesAt_arrive arrived
  have oneMore : (messagesAt changed).Perm ([message] ++ messagesAt process) := messages
  have sameTasks : (tasksAt changed).Perm ([] ++ tasksAt process) := .of_eq tasks
  refine .moved ?_ (flatMap_set_append at_w sameTasks)
  refine ((flatMap_set_append at_w oneMore).append_left _).trans ?_
  exact List.perm_middle.trans ((perm_eraseIdx at_m).symm.append_right _)

theorem Effect.settled {t : Nat} {stage : Handling} {message : Json Double}
    (at_w : s.workers[w]? = some process) (at_t : process.running[t]? = some (message, stage))
    {left : Option Handling} (settled : process.settle t left = some changed) :
    ∃ messages tasks, s.messages.Perm ((unread (message, stage)).toList ++ messages) ∧
      ({ s with workers := s.workers.set w changed } : State).messages.Perm
        ((left.bind fun stage => unread (message, stage)).toList ++ messages) ∧
      s.tasks.Perm ((computed (message, stage)).toList ++ tasks) ∧
      ({ s with workers := s.workers.set w changed } : State).tasks.Perm
        ((left.bind fun stage => computed (message, stage)).toList ++ tasks) := by
  obtain ⟨⟨rest, firstMessages, thenMessages⟩, rest', firstTasks, thenTasks⟩ := perm_settled at_t settled
  obtain ⟨others, before, after⟩ := flatMap_set_perm at_w firstMessages thenMessages
  obtain ⟨others', before', after'⟩ := flatMap_set_perm at_w firstTasks thenTasks
  exact ⟨_, others', messages_perm before, messages_perm after, before', after'⟩

/-- Every step of the workers has one of these effects. -/
theorem step_effect (workers : ∀ action', action ≠ .outside action')
    (applied : step p action s = some next) : Effect p s action next := by
  cases action with
  | outside action => exact absurd rfl (workers action)
  | connect cfg =>
    obtain ⟨process, connected, rfl⟩ := Option.map_eq_some_iff.mp applied
    unfold Worker.run at connected
    split at connected
    · cases connected
      refine .moved ?_ ?_
      · simp only [State.messages, List.flatMap_append]
        exact .of_eq (congrArg _ (List.append_nil _))
      · simp only [State.tasks, List.flatMap_append]
        exact .of_eq (List.append_nil _)
    · cases connected
  | pull w m =>
    simp only [step] at applied
    split at applied
    · rename_i message at_m
      obtain ⟨process, changed, at_w, arrived, rfl⟩ := update_eq_some.mp applied
      exact .pulled at_m at_w arrived
    · cases applied
  | close w =>
    obtain ⟨process, changed, at_w, changes, rfl⟩ := update_eq_some.mp applied
    obtain ⟨messages, tasks⟩ := messagesAt_close changes
    exact .updated at_w (.of_eq messages) tasks
  | take w =>
    obtain ⟨process, changed, at_w, changes, rfl⟩ := update_eq_some.mp applied
    obtain ⟨messages, tasks⟩ := messagesAt_take changes
    exact .updated at_w (.of_eq messages) tasks
  | start w =>
    obtain ⟨process, changed, at_w, changes, rfl⟩ := update_eq_some.mp applied
    obtain ⟨messages, tasks⟩ := messagesAt_start changes
    exact .updated at_w messages tasks
  | handle w t fault =>
    simp only [step] at applied
    split at applied
    · rename_i message at_wt
      obtain ⟨process, at_w, at_t⟩ := Option.bind_eq_some_iff.mp at_wt
      obtain ⟨_, changed, same, settled, rfl⟩ := update_eq_some.mp applied
      cases at_w.symm.trans same
      obtain ⟨messages, tasks, before, after, before', after'⟩ := Effect.settled at_w at_t settled
      have noMessage : ((taskOf p message).head?.map Handling.writing).bind
          (fun stage => unread (message, stage)) = none := by
        cases (taskOf p message).head? <;> rfl
      have theTask : ((taskOf p message).head?.map Handling.writing).bind
          (fun stage => computed (message, stage)) = (taskOf p message).head? := by
        cases (taskOf p message).head? <;> rfl
      rw [noMessage] at after
      rw [theTask, ← taskOf_eq] at after'
      exact .read (before.trans (after.symm.cons message)) (after'.trans (before'.symm.append_left _))
    · rename_i message task at_wt
      obtain ⟨process, at_w, at_t⟩ := Option.bind_eq_some_iff.mp at_wt
      obtain ⟨_, changed, same, settled, rfl⟩ := update_eq_some.mp applied
      cases at_w.symm.trans same
      obtain ⟨messages, tasks, before, after, before', after'⟩ := Effect.settled at_w at_t settled
      have noMessage (left : Option WorkerTask) :
          (left.map Handling.writing).bind (fun stage => unread (message, stage)) = none := by
        cases left <;> rfl
      have theTask (left : Option WorkerTask) :
          (left.map Handling.writing).bind (fun stage => computed (message, stage)) = left := by
        cases left <;> rfl
      rw [noMessage] at after
      rw [theTask] at after'
      exact .worked rfl before' (after.trans before.symm) after'
    · cases applied
  | panic w t =>
    obtain ⟨process, changed, at_w, changes, rfl⟩ := update_eq_some.mp applied
    obtain ⟨item, stage, at_t, -⟩ := Pool.settle_cases changes
    obtain ⟨messages, tasks, before, after, before', after'⟩ := Effect.settled at_w at_t changes
    exact .gone id (before.trans (after.symm.append_left _)) (before'.trans (after'.symm.append_left _))
  | kill w =>
    simp only [step] at applied
    split at applied
    · rename_i inside
      cases applied
      have at_w := List.getElem?_eq_getElem inside
      exact .gone id (messages_perm (flatMap_perm_eraseIdx at_w)) (flatMap_perm_eraseIdx at_w)
    · cases applied

end effect

/-- The two levels: every step here is matched by steps of the simpler system. -/
theorem simulates : Simulates (step p) (Jobs.step p) Related := by
  intro action s next jobs related applied
  by_cases outside : ∃ action', action = .outside action'
  · obtain ⟨action, rfl⟩ := outside
    simp only [step] at applied
    split at applied
    · rename_i outside
      obtain ⟨after, happened, rfl⟩ := Option.map_eq_some_iff.mp applied
      obtain ⟨actions, queue', ran, perm⟩ :=
        outside_step jobs.tasks outside happened related.queue
      rw [← related.same] at ran
      exact ⟨actions, _, ran, rfl, perm, related.tasks⟩
    · cases applied
  · have same := related.same
    cases step_effect (fun action' acts => outside ⟨action', acts⟩) applied with
    | moved messages tasks =>
      exact ⟨[], jobs, rfl, same, related.queue.trans messages.symm, related.tasks.trans tasks.symm⟩
    | @read action message workers messages tasks =>
      obtain ⟨m, at_m, left⟩ := exists_index (related.queue.trans messages)
      refine ⟨[.receive m false],
        s.jobs (jobs.shared.queue.eraseIdx m) (jobs.tasks ++ taskOf p message), ?_, rfl, left, ?_⟩
      · rw [Foundations.Transition.run, Jobs.step, at_m]
        simp only [Option.bind_some, Foundations.Transition.run, Bool.false_eq_true, if_false]
        rw [same]
        rfl
      · exact (related.tasks.append_right _).trans (List.perm_append_comm.trans tasks.symm)
    | @worked w t fault task others left store channel workers stepped tasks messages settled =>
      obtain ⟨t', at_t', rest⟩ := exists_index (related.tasks.trans tasks)
      refine ⟨[.work t' fault], ⟨{ s.shared with store, channel, queue := jobs.shared.queue }, s.calls,
        Jobs.settle jobs.tasks t' left, s.queries⟩, ?_, rfl, related.queue.trans messages.symm, ?_⟩
      · rw [Foundations.Transition.run, Jobs.step, at_t']
        simp only [Option.bind_some, Foundations.Transition.run]
        rw [same]
        simp only [State.jobs, stepped]
      · rw [settle_eq]
        exact (perm_settle at_t' left).trans ((rest.append_left _).trans settled.symm)
    | @gone action messages tasks workers _ messagesGone tasksGone =>
      obtain ⟨losing, queue', ranLosing, left⟩ :=
        lose_all s jobs.tasks (related.queue.trans messagesGone)
      obtain ⟨crashing, tasks', ranCrashing, stay⟩ :=
        crash_all s queue' (related.tasks.trans tasksGone)
      refine ⟨losing ++ crashing, s.jobs queue' tasks', ?_, rfl, left, stay⟩
      rw [run_append, same, ranLosing]
      exact ranCrashing

/-- Whatever the jobs with worker processes reach, the simpler system reaches
with the same calls, queries, store and notifications. -/
theorem pools_refine {s : State} (reached : Reachable (step p) .empty s) :
    ∃ jobs, Reachable (Jobs.step p) .empty jobs ∧ Related s jobs := by
  obtain ⟨actions, ran⟩ := reached
  exact simulates.reachable empty_related ran

/-- One job of one value; the worker is killed between its two operations. -/
def killedRun : List Action :=
  [.connect ⟨"ipc:///tmp/softmax_tasks", 1⟩, .outside (.submit ⟨"a", "softmax", zeros 1⟩ 0),
    .outside (.call 0 (.store .none)), .outside (.call 0 (.publish false)),
    .pull 0 0, .take 0, .start 0, .handle 0 0 .none, .handle 0 0 .none, .kill 0]

theorem pools_refine_killed :
    ∃ s, Foundations.Transition.run (step smallPlatform) killedRun .empty = some s ∧
      ∃ jobs, Reachable (Jobs.step smallPlatform) .empty jobs ∧ Related s jobs := by
  have ran : (Foundations.Transition.run (step smallPlatform) killedRun .empty).isSome := by
    decide +kernel
  obtain ⟨s, final⟩ := Option.isSome_iff_exists.mp ran
  exact ⟨s, final, pools_refine ⟨killedRun, final⟩⟩

/-- So what a job returns does not depend on how its workers are run. -/
theorem pools_returned_expected (documented : p.serde.Documented) {s : State}
    (reached : Reachable (step p) .empty s) {call : Call} (member : call ∈ s.calls)
    {result : List Single} (returned : call.phase = .returned (.ok result))
    (only : ∀ other ∈ s.calls, other.request.jobId = call.request.jobId →
      other.request.vector = call.request.vector) : expected p call.request = some result := by
  obtain ⟨jobs, jobsReached, related⟩ := pools_refine reached
  have same : jobs.calls = s.calls := congrArg Jobs.State.calls related.same
  exact returned_expected documented jobsReached (same ▸ member) returned (same ▸ only)

end DistributedSoftmax.System.WorkerPools
