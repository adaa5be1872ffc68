import DistributedSoftmax.Foundations.TaskPool
import DistributedSoftmax.System.Validation

/-! No dead ends: whatever happened in a run without faults, an open call whose
job identifier is fresh can still be answered. When the workers go first and the
call goes on once they are idle, every continuation ends with its answer, after
a number of steps that is known in advance. -/

set_option autoImplicit false

namespace DistributedSoftmax.System.Jobs
open Foundations.Folds Foundations.KeyValue Foundations.TaskPool Foundations.Transition
open Gateway Worker

/-- Nothing is left to receive or to write. -/
def Idle (s : State) : Prop := s.shared.queue = [] ∧ ∀ task ∈ s.tasks, task.written = true

instance (s : State) : Decidable (Idle s) :=
  inferInstanceAs (Decidable (s.shared.queue = [] ∧ ∀ task ∈ s.tasks, task.written = true))

/-- The steps of a schedule that lets the workers go first: a message is taken
or a task goes on, and call `c` only moves when the workers are idle. -/
def workersFirst (p : Platform) (c : Nat) (action : Action) (s : State) : Option State :=
  match action with
  | .receive _ false | .work _ .none => step p action s
  | .call c' _ => if c' = c ∧ Idle s then step p action s else none
  | _ => none

/-- How many operations a task has before it. -/
def WorkerTask.left (task : WorkerTask) : Nat := if task.written then 1 else 2

/-- At most this many steps are left until call `c` is answered. -/
def stepsLeft (p : Platform) (request : TaskRequest) (c : Nat) (s : State) : Nat :=
  4 * ((s.calls[c]?.map fun call => callSteps (slicesOf p request).length call.phase).getD 0) +
    3 * s.shared.queue.length + (s.tasks.map WorkerTask.left).sum

variable {p : Platform} {request : TaskRequest} {c : Nat} {s next : State} {action : Action}

theorem workersFirst_cases (applied : workersFirst p c action s = some next) :
    (∃ m message, action = .receive m false ∧ s.shared.queue[m]? = some message ∧
      next = { s with
        shared := { s.shared with queue := s.shared.queue.eraseIdx m }
        tasks := s.tasks ++ taskOf p message }) ∨
    (∃ t task left store channel, action = .work t .none ∧ s.tasks[t]? = some task ∧
      task.step .none s.shared.store s.shared.channel = (left, store, channel) ∧
      next = { s with
        shared := { s.shared with store, channel }
        tasks := settle s.tasks t left }) ∨
    ∃ input call phase shared, action = .call c input ∧ Idle s ∧ s.calls[c]? = some call ∧
      call.step p s.shared input = some (phase, shared) ∧
      next = { s with shared, calls := s.calls.set c { call with phase } } := by
  unfold workersFirst at applied
  split at applied
  · rename_i m
    simp only [Jobs.step] at applied
    split at applied
    · rename_i message at_m
      cases applied
      exact .inl ⟨m, message, rfl, at_m, rfl⟩
    · cases applied
  · rename_i t
    simp only [Jobs.step] at applied
    split at applied
    · rename_i task at_t
      cases applied
      exact .inr (.inl ⟨t, task, _, _, _, rfl, at_t, rfl, rfl⟩)
    · cases applied
  · split at applied
    · rename_i c' input turn
      obtain ⟨rfl, idle⟩ := turn
      simp only [Jobs.step] at applied
      split at applied
      · rename_i call at_c
        split at applied
        · rename_i phase shared stepped
          cases applied
          exact .inr (.inr ⟨input, call, phase, shared, rfl, idle, at_c, stepped, rfl⟩)
        · cases applied
      · cases applied
    · cases applied
  · cases applied

theorem requests_of_workersFirst (applied : workersFirst p c action s = some next) :
    next.requests = s.requests := by
  rcases workersFirst_cases applied with ⟨_, _, -, -, rfl⟩ | ⟨_, _, _, _, _, -, -, -, rfl⟩ |
    ⟨_, _, phase, _, -, -, at_c, -, rfl⟩
  · rfl
  · rfl
  · exact requests_set at_c phase

theorem step_of_workersFirst (applied : workersFirst p c action s = some next) :
    step p action s = some next := by
  unfold workersFirst at applied
  split at applied
  · exact applied
  · exact applied
  · split at applied
    · exact applied
    · cases applied
  · cases applied

/-- A call that can be answered: its job identifier is fresh, and nothing has
gone wrong for it so far. -/
structure OnTheWay (p : Platform) (request : TaskRequest) (c : Nat) (s : State) : Prop where
  reached : Reachable (step p) .empty s
  good : Good p request c s
  fresh : Fresh c request.jobId s
  made : ∃ call, s.calls[c]? = some call ∧ call.request = request

section steps
variable (documented : p.serde.Documented) (accepts : p.Accepts) (servable : Servable p request)
include documented accepts servable

theorem OnTheWay.step (way : OnTheWay p request c s) (faultFree : action.FaultFree)
    (applied : workersFirst p c action s = some next) : OnTheWay p request c next := by
  have stepped := step_of_workersFirst applied
  obtain ⟨call, at_c, own⟩ := way.made
  obtain ⟨later, at_later, same, -⟩ := step_calls stepped at_c
  refine ⟨way.reached.trans ⟨[action], run_cons_eq_some.mpr ⟨next, stepped, rfl⟩⟩,
    step_good documented accepts servable faultFree (reachable_inv documented way.reached)
      way.good stepped, ?_, ⟨later, at_later, same.trans own⟩⟩
  intro c' other at_c' apart
  -- No call is new, and the other calls rest.
  have before : s.calls[c']? = some other := by
    rcases workersFirst_cases applied with ⟨_, _, rfl, -, rfl⟩ | ⟨_, _, _, _, _, rfl, -, -, rfl⟩ |
      ⟨_, _, _, _, rfl, -, -, -, rfl⟩
    · exact at_c'
    · exact at_c'
    · rwa [List.getElem?_set_ne (Ne.symm apart)] at at_c'
  exact way.fresh c' other before apart

end steps

theorem length_taskOf_le (message : Json Double) : ((taskOf p message).map WorkerTask.left).sum ≤ 2 := by
  unfold taskOf
  split
  · simp [WorkerTask.left]
  · simp

theorem left_settle {t : Nat} {task : WorkerTask} (at_t : s.tasks[t]? = some task)
    {left : Option WorkerTask} {store : Store} {channel : List Notification}
    (worked : task.step .none s.shared.store s.shared.channel = (left, store, channel)) :
    ((Jobs.settle s.tasks t left).map WorkerTask.left).sum < (s.tasks.map WorkerTask.left).sum := by
  have positive : 0 < task.left := by
    unfold WorkerTask.left
    split <;> omega
  have gone : ((s.tasks.eraseIdx t).map WorkerTask.left).sum < (s.tasks.map WorkerTask.left).sum := by
    have shorter := ((perm_eraseIdx at_t).map WorkerTask.left).sum_eq
    rw [List.map_cons, List.sum_cons] at shorter
    omega
  unfold WorkerTask.step at worked
  split at worked
  · cases worked
    exact gone
  · rename_i unwritten
    cases worked
    split
    · exact sum_map_set_lt at_t (by simp [WorkerTask.left, unwritten])
    · exact gone

/-- A call puts at most one message into the queue at a time. -/
theorem Call.Effect.length_queue_le {call : Call} {shared shared' : Shared} {input : CallInput}
    {phase : Phase} (effect : call.Effect p shared input phase shared') :
    shared'.queue.length ≤ shared.queue.length + 1 := by
  cases effect with
  | publish => simp
  | wait _ _ stepped =>
    obtain ⟨_, -, ⟨_, -, -, rfl⟩ | ⟨-, -, rfl⟩⟩ := waitStep_cases stepped
    · exact Nat.le_succ _
    · exact Nat.le_succ _
  | _ => exact Nat.le_succ _

theorem Idle.handled (idle : Idle s) : Handled p request s where
  left i data _ queued := by
    rw [idle.1] at queued
    cases queued
  right task working _ := idle.2 task working

theorem OnTheWay.closer (way : OnTheWay p request c s) (documented : p.serde.Documented)
    (keeps : p.KeepsLength) (servable : Servable p request) (faultFree : action.FaultFree)
    (applied : workersFirst p c action s = some next) :
    stepsLeft p request c next < stepsLeft p request c s := by
  rcases workersFirst_cases applied with ⟨m, message, rfl, at_m, rfl⟩ |
    ⟨t, task, left, store, channel, rfl, at_t, worked, rfl⟩ |
    ⟨input, call, phase, shared, rfl, idle, at_c, stepped, rfl⟩
  · have task := length_taskOf_le (p := p) message
    have index := (List.getElem?_eq_some_iff.mp at_m).1
    simp only [stepsLeft, List.map_append, List.sum_append, List.length_eraseIdx_of_lt index]
    omega
  · have fewer := left_settle at_t worked
    simp only [stepsLeft]
    omega
  · obtain ⟨call', at_c', own⟩ := way.made
    cases at_c.symm.trans at_c'
    have fewer := callSteps_lt keeps servable idle.handled (reachable_inv documented way.reached)
      at_c own (way.good call at_c own way.fresh) faultFree stepped
    have queue := (Call.step_effect stepped).length_queue_le
    have inside := (List.getElem?_eq_some_iff.mp at_c).1
    simp only [stepsLeft, List.getElem?_set_self inside, at_c, Option.map_some, Option.getD_some]
    omega

/-- As long as the call is open, a worker can go on, or else the call can. -/
theorem OnTheWay.enabled (way : OnTheWay p request c s) (documented : p.serde.Documented)
    (unanswered : ¬ Answered c s) :
    ∃ action next, action.FaultFree ∧ workersFirst p c action s = some next := by
  by_cases idle : Idle s
  · obtain ⟨call, at_c, own⟩ := way.made
    obtain ⟨input, faultFree, possible⟩ := call_enabled (reachable_inv documented way.reached) at_c
      (way.good call at_c own way.fresh)
      fun outcome returned => unanswered ⟨call, outcome, at_c, returned⟩
    obtain ⟨⟨phase, shared⟩, stepped⟩ := Option.isSome_iff_exists.mp possible
    refine ⟨.call c input, { s with shared, calls := s.calls.set c { call with phase } },
      faultFree, ?_⟩
    rw [workersFirst, if_pos ⟨rfl, idle⟩, Jobs.step, at_c]
    simp only [stepped]
  · rcases queued : s.shared.queue with _ | ⟨message, rest⟩
    · -- Only a task can be left, and it goes on.
      have working : ∃ task ∈ s.tasks, task.written = false := by
        by_contra none_left
        refine idle ⟨queued, fun task member => ?_⟩
        cases written : task.written with
        | true => rfl
        | false => exact absurd ⟨task, member, written⟩ none_left
      obtain ⟨task, member, -⟩ := working
      obtain ⟨t, at_t⟩ := List.mem_iff_getElem?.mp member
      have possible : (workersFirst p c (.work t .none) s).isSome = true := by
        simp only [workersFirst, Jobs.step, at_t, Option.isSome_some]
      obtain ⟨next, applied⟩ := Option.isSome_iff_exists.mp possible
      exact ⟨.work t .none, next, rfl, applied⟩
    · have possible : (workersFirst p c (.receive 0 false) s).isSome = true := by
        simp only [workersFirst, Jobs.step, queued, List.getElem?_cons_zero, Option.isSome_some]
      obtain ⟨next, applied⟩ := Option.isSome_iff_exists.mp possible
      exact ⟨.receive 0 false, next, trivial, applied⟩

theorem workersFirst_completes (documented : p.serde.Documented) (accepts : p.Accepts)
    (keeps : p.KeepsLength) (servable : Servable p request) :
    Completes (workersFirst p c) Action.FaultFree (OnTheWay p request c) (Answered c)
      (stepsLeft p request c) where
  preserved _ _ _ way faultFree applied := way.step documented accepts servable faultFree applied
  closer _ _ _ way faultFree applied := way.closer documented keeps servable faultFree applied
  enabled _ way unanswered := way.enabled documented unanswered

/-- Call `c` is answered OK with the result of its request. -/
def AnsweredOk (p : Platform) (request : TaskRequest) (c : Nat) (s : State) : Prop :=
  ∃ call result, s.calls[c]? = some call ∧ call.request = request ∧
    call.phase = .returned (.ok result) ∧ expected p request = some result ∧
      result.length = request.vector.length

theorem OnTheWay.answeredOk (way : OnTheWay p request c s) (documented : p.serde.Documented)
    (keeps : p.KeepsLength) (answered : Answered c s) : AnsweredOk p request c s := by
  obtain ⟨call, at_c, own⟩ := way.made
  obtain ⟨call', outcome, at_c', returned⟩ := answered
  cases at_c.symm.trans at_c'
  have good := way.good call at_c own way.fresh
  rw [returned] at good
  cases outcome with
  | error status => exact good.elim
  | ok result =>
    have same := returned_expected documented way.reached (List.mem_of_getElem? at_c) returned
      fun other member jobId => by
        rw [way.fresh.only at_c own other.request (List.mem_map_of_mem member)
          (jobId.trans (congrArg TaskRequest.jobId own)), own]
    rw [own] at same
    exact ⟨call, result, at_c, own, returned, same, expected_length documented keeps same⟩

/-- What is granted to call `c` in state `s`. -/
structure Answerable (p : Platform) (request : TaskRequest) (c : Nat) (s : State) : Prop where
  /-- Some continuation without faults answers it. -/
  possible : ∃ actions final, (∀ action ∈ actions, action.FaultFree) ∧
    run (Jobs.step p) actions s = some final ∧ AnsweredOk p request c final
  /-- With the workers first every continuation is short, and ends with the answer. -/
  inevitable : ∀ actions final, (∀ action ∈ actions, action.FaultFree) →
    run (workersFirst p c) actions s = some final →
      actions.length ≤ stepsLeft p request c s ∧
        ((∀ action, action.FaultFree → workersFirst p c action final = none) →
          AnsweredOk p request c final)

theorem run_of_workersFirst {actions : List Action} {final : State}
    (ran : run (workersFirst p c) actions s = some final) :
    run (Jobs.step p) actions s = some final := by
  induction actions generalizing s with
  | nil => exact ran
  | cons action rest ih =>
    obtain ⟨next, applied, ranRest⟩ := run_cons_eq_some.mp ran
    exact run_cons_eq_some.mpr ⟨next, step_of_workersFirst applied, ih ranRest⟩

/-- The invariants of a finite run without faults. -/
theorem good_of_run (documented : p.serde.Documented) (accepts : p.Accepts)
    (servable : Servable p request) {past : List Action} (ran : run (Jobs.step p) past .empty = some s)
    (faultFree : ∀ action ∈ past, action.FaultFree) : Good p request c s := by
  have preserved : ∀ action s next, Inv p s ∧ Good p request c s → action.FaultFree →
      Jobs.step p action s = some next → Inv p next ∧ Good p request c next := by
    rintro action s next ⟨inv, good⟩ fine applied
    exact ⟨step_inv documented action s next inv applied,
      step_good documented accepts servable fine inv good applied⟩
  have start : Inv p .empty ∧ Good p request c .empty :=
    ⟨empty_inv, fun call at_c => by cases at_c⟩
  exact (run_invariant_of_admitted preserved start
    (admitted_of_forall (fun action member _ => faultFree action member) _) ran).2

/-- The default settings, in rounded arithmetic. -/
noncomputable def roundedPlatform : Platform := .cpu (fun _ => none) JsonText.serde Rounded.floats "" ""

theorem roundedPlatform_accepts : roundedPlatform.Accepts := ⟨by decide, by decide, by decide⟩

/-- One zero, submitted when nothing has happened. -/
noncomputable def submittedZero : State :=
  { State.empty with calls := [Call.start roundedPlatform ⟨"j", "softmax", zeros 1⟩ 0] }

theorem servable_zero : Servable roundedPlatform ⟨"j", "softmax", zeros 1⟩ := by
  have framed : Framed ⟨"j", "softmax", zeros 1⟩ := by simp [Framed, zeros]
  have fits : SizeFits (fun _ => none) ⟨"j", "softmax", zeros 1⟩ := by
    have four : numSlices (fun _ => none) = 4 := rfl
    simp [SizeFits, four, zeros]
  have finite : ∀ x ∈ zeros 1, x.isFinite = true := by
    intro x member
    rw [List.eq_of_mem_replicate member]
    rfl
  have admitted : Admitted roundedPlatform ⟨"j", "softmax", zeros 1⟩ :=
    (admitted_iff rfl (by decide) framed).mpr fits
  exact servable_cpu JsonText.serde_documented Rounded.ieee754_floats admitted framed finite

theorem fresh_zero : Fresh 0 "j" submittedZero := by
  intro c' other at_c' apart
  cases c' with
  | zero => exact absurd rfl apart
  | succ c' => cases at_c'

theorem run_submittedZero : run (Jobs.step roundedPlatform) [.submit ⟨"j", "softmax", zeros 1⟩ 0] .empty =
    some submittedZero :=
  rfl

theorem faultFree_submittedZero :
    ∀ action ∈ [Action.submit ⟨"j", "softmax", zeros 1⟩ 0], action.FaultFree := by
  intro action member
  rw [List.mem_singleton.mp member]
  trivial

/-- The submission of one zero runs to its answer. -/
theorem exists_answered_zero : ∃ final, Reachable (Jobs.step roundedPlatform) .empty final ∧
    final.requests = [⟨"j", "softmax", zeros 1⟩] ∧
      AnsweredOk roundedPlatform ⟨"j", "softmax", zeros 1⟩ 0 final := by
  have way : OnTheWay roundedPlatform ⟨"j", "softmax", zeros 1⟩ 0 submittedZero :=
    ⟨⟨_, run_submittedZero⟩, good_of_run JsonText.serde_documented roundedPlatform_accepts
      servable_zero run_submittedZero faultFree_submittedZero, fresh_zero,
      _, List.getElem?_cons_zero, start_request _ 0⟩
  have complete := workersFirst_completes (c := 0) JsonText.serde_documented roundedPlatform_accepts
    (cpu_keepsLength ..) servable_zero
  obtain ⟨actions, final, each, ran, answered⟩ := complete.reaches way
  obtain ⟨later, -⟩ := complete.bounded way each ran
  refine ⟨final, later.reached, ?_,
    later.answeredOk JsonText.serde_documented (cpu_keepsLength ..) answered⟩
  have keeps : ∀ action s next, s.requests = [⟨"j", "softmax", zeros 1⟩] →
      workersFirst roundedPlatform 0 action s = some next →
        next.requests = [⟨"j", "softmax", zeros 1⟩] :=
    fun _ _ _ same applied => (requests_of_workersFirst applied).trans same
  have start : submittedZero.requests = [⟨"j", "softmax", zeros 1⟩] :=
    congrArg (fun request => [request]) (start_request _ 0)
  exact run_invariant keeps start ran

end DistributedSoftmax.System.Jobs
