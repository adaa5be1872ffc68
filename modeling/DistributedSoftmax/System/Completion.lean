import DistributedSoftmax.System.FaultFree

/-! Completion of calls in runs without faults: as soon as the slices of a job
are handled, every step of its call brings it closer to its answer, and some
step is always possible. Under a fair schedule the call returns OK. -/

set_option autoImplicit false

namespace DistributedSoftmax.System.Jobs
open Foundations.ByteString Foundations.KeyValue Foundations.Transition
open Gateway Worker

/-- How many steps the loop needs at most, when every read succeeds: a pass
that skipped over a missing slice is followed by a second one. -/
def waitingSteps (waiting : Waiting) : Nat :=
  match waiting.point with
  | .passing i => waiting.totalSlices - i + 3 +
      if ∀ k < i, waiting.collector.held[k]? = some true then 0 else waiting.totalSlices + 2
  | .parked => waiting.totalSlices + 4
  | .left _ => 0

section waiting
variable {jobId : String} {waiting next : Waiting} {event : WaitEvent}

theorem two_lt_waitingSteps (applied : waiting.step jobId event = some next)
    {outcome : Except String (List (SliceStats Double))} (left : next.point = .left outcome) :
    2 < waitingSteps waiting := by
  rcases Waiting.step_cases applied with ⟨_, _, -, -, -, -, rfl⟩ | ⟨_, -, -, -, -, rfl⟩ |
    ⟨_, _, -, point, -, -⟩ | ⟨_, -, -, rfl⟩
  · cases left
  · cases left
  · rw [waitingSteps, point]
    simp only
    omega
  · cases left

/-- An index that is passed over and held afterwards brings the loop closer. -/
theorem passing_lt {i : Nat} (point : waiting.point = .passing i) (inside : i < waiting.totalSlices)
    (onward : next.point = .passing (i + 1)) (total : next.totalSlices = waiting.totalSlices)
    (keeps : ∀ k : Nat, waiting.collector.held[k]? = some true → next.collector.held[k]? = some true)
    (held : next.collector.held[i]? = some true) : waitingSteps next < waitingSteps waiting := by
  simp only [waitingSteps, point, onward, total]
  by_cases all : ∀ k < i, waiting.collector.held[k]? = some true
  · have filled : ∀ k < i + 1, next.collector.held[k]? = some true :=
      Nat.forall_lt_succ_right.mpr ⟨fun k below => keeps k (all k below), held⟩
    rw [if_pos all, if_pos filled]
    omega
  · rw [if_neg all]
    split <;> omega

/-- With reads that succeed, every event brings the loop closer to its end. -/
theorem waitingSteps_lt {good : Nat → SliceStats Double → Prop}
    (applied : waiting.step jobId event = some next)
    (sound : waiting.Sound good)
    (reads : ∀ outcome, event = .read outcome → ∃ held, outcome = .ok (some held))
    (stays : ∀ outcome, next.point ≠ .left outcome) : waitingSteps next < waitingSteps waiting := by
  rcases Waiting.step_cases applied with ⟨outcome, i, rfl, point, inside, clear, rfl⟩ |
    ⟨i, -, point, inside, flag, rfl⟩ |
    ⟨_, i, -, point, past, ⟨-, rfl⟩ | ⟨-, -, rfl⟩ | ⟨some_left, -, rfl⟩⟩ |
    ⟨notifier, -, point, rfl⟩
  · obtain ⟨held, rfl⟩ := reads _ rfl
    apply passing_lt point inside
    · rfl
    · rfl
    · exact fun k before => waiting.collector.held_read i _ before
    · exact Collector.held_read_self clear held
  · apply passing_lt point inside
    · rfl
    · rfl
    · exact fun _ before => before
    · exact flag
  · exact absurd rfl (stays _)
  · exact absurd rfl (stays _)
  · simp only [waitingSteps, point]
    -- The pass ends with a slice missing, so it had skipped one: a second pass follows.
    have gap : ¬ ∀ k < i, waiting.collector.held[k]? = some true := fun all =>
      some_left (sound.collected.remaining_eq_zero fun k below => all k (by omega))
    rw [if_neg gap]
    omega
  · simp only [waitingSteps, point]
    rw [if_pos fun k below => absurd below (Nat.not_lt_zero k)]
    omega

end waiting

/-- How many steps a call of a job with `n` slices needs at most, when the reads
of its loop succeed. -/
def callSteps (n : Nat) : Phase → Nat
  | .storing _ => 2 * n + 5
  | .publishing sliceId => n - sliceId + n + 4
  | .waiting waiting => waitingSteps waiting
  | .storingResult _ => 2
  | .storingProgress _ => 1
  | .returned _ | .dropped => 0

variable {p : Platform} {request : TaskRequest} {c : Nat} {s next : State} {call : Call}

/-- No message of the job is in the queue, and no worker still has to write a
slice of it. -/
def Handled (p : Platform) (request : TaskRequest) (s : State) : Prop :=
  (∀ (i : Nat) data, (slicesOf p request)[i]? = some data →
    taskMessage request i data ∉ s.shared.queue) ∧
  ∀ task ∈ s.tasks, task.jobId = request.jobId → task.written = true

/-- When everything is handled, every slice that was published can be read. -/
theorem Handled.readable (handled : Handled p request s) (keeps : p.KeepsLength)
    (servable : Servable p request) {k : Nat} (underway : SlicesUnderway p request s k) {i : Nat}
    (below : i < k) (inside : i < (slicesOf p request).length) :
    ∃ held, readSlice p.serde p.widen
      (found s.shared.store (RedisConfig.sliceKey request.jobId i)) = .ok (some held) := by
  have at_i := List.getElem?_eq_getElem inside
  obtain ⟨stats, computed, way⟩ := underway i below _ at_i
  rcases way with queued | working | stored
  · exact absurd queued (handled.1 i _ at_i)
  · cases handled.2 _ working rfl
  · have short : stats.expValues.length < 2 ^ 32 := by
      rw [workerStats_length keeps computed]
      exact Nat.lt_of_le_of_lt (servable.admitted.length_le_of_mem (List.getElem_mem inside))
        servable.short
    refine ⟨ofPartial p.widen stats, ?_⟩
    rw [found, stored, Option.map_some, readSlice_encodePartial, readPartial_encodePartial _ short]

/-- A step of the call itself, once everything is handled. -/
theorem callSteps_lt (keeps : p.KeepsLength) (servable : Servable p request)
    (handled : Handled p request s) (inv : Inv p s) (at_c : s.calls[c]? = some call)
    (own : call.request = request) (good : PhaseGood p request s call.phase) {input : CallInput}
    {phase : Phase} {shared : Shared} (faultFree : (Action.call c input).FaultFree)
    (applied : call.step p s.shared input = some (phase, shared)) :
    callSteps (slicesOf p request).length phase <
      callSteps (slicesOf p request).length call.phase := by
  cases Call.step_effect applied with
  | store stands =>
    rw [stands]
    split <;> simp only [callSteps] <;> omega
  | publishFailed => cases faultFree
  | publish stands at_slice =>
    rw [own] at at_slice
    have inside := (List.getElem?_eq_some_iff.mp at_slice).1
    rw [stands]
    simp only [callSteps]
    omega
  | register stands all =>
    rw [own] at all
    rw [stands]
    simp only [callSteps, waitingSteps, Waiting.start, all]
    rw [if_pos fun k below => absurd below (Nat.not_lt_zero k)]
    omega
  | @wait waiting _ event _ _ stands event_of stepped =>
    obtain ⟨after, moved, ⟨outcome, left, rfl, rfl⟩ | ⟨stays, rfl, rfl⟩⟩ := waitStep_cases stepped
    · have more := two_lt_waitingSteps moved left
      rw [stands]
      unfold afterWaiting
      split
      · simp only [callSteps]
        omega
      · split <;> simp only [callSteps] <;> omega
    · have ok := inv.calls call (List.mem_of_getElem? at_c)
      rw [stands] at ok good ⊢
      refine waitingSteps_lt moved ok.2.2 ?_ stays
      -- Every slice is stored already, so the read finds one.
      rintro outcome rfl
      cases event_of with
      | readSlice failed =>
        cases (faultFree : failed = false)
        obtain ⟨i, wanted, inside⟩ := Waiting.wants_of_read moved
        rw [ok.2.1, own] at inside
        rw [readOutcome, if_neg Bool.false_ne_true, wanted, own]
        exact handled.readable keeps servable good.1 inside inside
  | storeResult stands =>
    rw [stands]
    split <;> simp only [callSteps] <;> omega
  | storeProgress stands =>
    rw [stands]
    split
    · split <;> simp only [callSteps] <;> omega
    · simp only [callSteps]
      omega
  | cancel => exact faultFree.elim

/-- A call that has not returned can go on without a fault. -/
theorem call_enabled (inv : Inv p s) (at_c : s.calls[c]? = some call)
    (good : PhaseGood p request s call.phase)
    (unanswered : ∀ outcome, call.phase ≠ .returned outcome) :
    ∃ input, (Action.call c input).FaultFree ∧ (call.step p s.shared input).isSome = true := by
  have ok := inv.calls call (List.mem_of_getElem? at_c)
  cases stands : call.phase with
  | storing metadata => exact ⟨.store .none, rfl, by simp only [Call.step, stands]; rfl⟩
  | publishing sliceId =>
    rw [stands] at ok
    rcases Nat.lt_or_eq_of_le ok.2 with inside | all
    · refine ⟨.publish false, rfl, ?_⟩
      simp only [Call.step, stands, List.getElem?_eq_getElem inside]
      rfl
    · refine ⟨.register, trivial, ?_⟩
      simp only [Call.step, stands, if_pos all]
      rfl
  | waiting waiting =>
    rw [stands] at ok good
    -- What the loop can do, the call can do.
    have moves : ∀ event, (waiting.step call.request.jobId event).isSome = true →
        (waitStep p call.request.jobId waiting event s.shared).isSome = true := by
      intro event possible
      obtain ⟨next, stepped⟩ := Option.isSome_iff_exists.mp possible
      simp only [waitStep, stepped]
      split <;> rfl
    rcases Waiting.step_enabled ok.2.2 good.2 with read | skip | done | wake
    · refine ⟨.readSlice false, rfl, ?_⟩
      simp only [Call.step, stands]
      exact moves _ (read _)
    · refine ⟨.skip, trivial, ?_⟩
      simp only [Call.step, stands]
      exact moves _ skip
    · refine ⟨.endPass false, rfl, ?_⟩
      simp only [Call.step, stands]
      exact moves _ done
    · refine ⟨.wake, trivial, ?_⟩
      simp only [Call.step, stands]
      exact moves _ (wake _)
  | storingResult values => exact ⟨.storeResult .none, rfl, by simp only [Call.step, stands]; rfl⟩
  | storingProgress values =>
    exact ⟨.storeProgress .none 0, rfl, by simp only [Call.step, stands]; rfl⟩
  | returned outcome => exact absurd stands (unanswered outcome)
  | dropped =>
    rw [stands] at good
    exact good.elim

/-- An endless run without faults; the system may also rest. -/
structure FaultFreeRun (p : Platform) (trace : Nat → State) : Prop where
  init : trace 0 = .empty
  next : ∀ t, trace (t + 1) = trace t ∨
    ∃ action : Action, action.FaultFree ∧ step p action (trace t) = some (trace (t + 1))

/-- Call `c` takes a step of its own at time `t`. -/
def Acts (p : Platform) (c : Nat) (trace : Nat → State) (t : Nat) : Prop :=
  ∃ input, (Action.call c input).FaultFree ∧
    step p (.call c input) (trace t) = some (trace (t + 1))

def Answered (c : Nat) (s : State) : Prop :=
  ∃ call outcome, s.calls[c]? = some call ∧ call.phase = .returned outcome

/-- What a run without faults grants one call: it was made, under a fresh job
identifier; from some time on the workers have handled what was published for
it; and its handler is scheduled again and again until it returns. -/
structure Served (p : Platform) (request : TaskRequest) (c : Nat) (trace : Nat → State) : Prop where
  submitted : ∃ t call, (trace t).calls[c]? = some call ∧ call.request = request
  fresh : ∀ t, Fresh c request.jobId (trace t)
  handled : ∃ start, ∀ t ≥ start, Handled p request (trace t)
  scheduled : ∀ t, ∃ later ≥ t, Acts p c trace later ∨ Answered c (trace later)

section runs
variable {trace : Nat → State}

theorem FaultFreeRun.reachable (ran : FaultFreeRun p trace) (t : Nat) :
    Reachable (step p) .empty (trace t) := by
  induction t with
  | zero =>
    rw [ran.init]
    exact reachable_refl _
  | succ t ih =>
    rcases ran.next t with rests | ⟨action, -, applied⟩
    · rwa [rests]
    · refine ih.trans ⟨[action], ?_⟩
      rw [run, applied]
      rfl

theorem FaultFreeRun.good (ran : FaultFreeRun p trace) (documented : p.serde.Documented)
    (accepts : p.Accepts) (servable : Servable p request) (t : Nat) :
    Good p request c (trace t) := by
  induction t with
  | zero =>
    rw [ran.init]
    intro call at_c
    cases at_c
  | succ t ih =>
    rcases ran.next t with rests | ⟨action, faultFree, applied⟩
    · rwa [rests]
    · exact step_good documented accepts servable faultFree
        (reachable_inv documented (ran.reachable t)) ih applied

/-- A call that was made stays, and only its own steps change it. -/
theorem FaultFreeRun.call_next (ran : FaultFreeRun p trace) {t : Nat}
    (at_c : (trace t).calls[c]? = some call) :
    ∃ later, (trace (t + 1)).calls[c]? = some later ∧ later.request = call.request ∧
      (later = call ∨ Acts p c trace t) := by
  rcases ran.next t with rests | ⟨action, faultFree, applied⟩
  · exact ⟨call, by rwa [rests], rfl, .inl rfl⟩
  · obtain ⟨later, at_later, same, unchanged⟩ := step_calls applied at_c
    refine ⟨later, at_later, same, ?_⟩
    by_cases acts : ∃ input, action = .call c input
    · obtain ⟨input, rfl⟩ := acts
      exact .inr ⟨input, faultFree, applied⟩
    · exact .inl (unchanged fun input acting => acts ⟨input, acting⟩)

/-- Its own steps bring the call closer to its answer. -/
theorem FaultFreeRun.acts_lt (ran : FaultFreeRun p trace) (documented : p.serde.Documented)
    (accepts : p.Accepts) (keeps : p.KeepsLength) (servable : Servable p request) {t : Nat}
    (fresh : Fresh c request.jobId (trace t)) (handled : Handled p request (trace t))
    (at_c : (trace t).calls[c]? = some call) (own : call.request = request)
    (acts : Acts p c trace t) {later : Call} (at_later : (trace (t + 1)).calls[c]? = some later) :
    callSteps (slicesOf p request).length later.phase <
      callSteps (slicesOf p request).length call.phase := by
  obtain ⟨input, faultFree, applied⟩ := acts
  simp only [step, at_c] at applied
  split at applied
  · rename_i phase shared stepped
    rw [← Option.some.inj applied,
      List.getElem?_set_self (List.getElem?_eq_some_iff.mp at_c).1] at at_later
    cases at_later
    exact callSteps_lt keeps servable handled (reachable_inv documented (ran.reachable t)) at_c own
      (ran.good documented accepts servable t call at_c own fresh) faultFree stepped
  · cases applied

theorem FaultFreeRun.callSteps_le (ran : FaultFreeRun p trace) (documented : p.serde.Documented)
    (accepts : p.Accepts) (keeps : p.KeepsLength) (servable : Servable p request)
    (fresh : ∀ t, Fresh c request.jobId (trace t)) {start t : Nat}
    (handled : ∀ t ≥ start, Handled p request (trace t)) (since : start ≤ t)
    (at_c : (trace t).calls[c]? = some call) (own : call.request = request) (d : Nat) :
    ∃ later, (trace (t + d)).calls[c]? = some later ∧ later.request = request ∧
      callSteps (slicesOf p request).length later.phase ≤
        callSteps (slicesOf p request).length call.phase := by
  induction d with
  | zero => exact ⟨call, at_c, own, Nat.le_refl _⟩
  | succ d ih =>
    obtain ⟨middle, at_middle, ownMiddle, le⟩ := ih
    obtain ⟨later, at_later, same, rests | acts⟩ := ran.call_next at_middle
    · exact ⟨later, at_later, same.trans ownMiddle, rests ▸ le⟩
    · have lt := ran.acts_lt documented accepts keeps servable (fresh _)
        (handled _ (by omega)) at_middle ownMiddle acts at_later
      exact ⟨later, at_later, same.trans ownMiddle, lt.le.trans le⟩

theorem FaultFreeRun.call_stays (ran : FaultFreeRun p trace) {t : Nat}
    (at_c : (trace t).calls[c]? = some call) (d : Nat) :
    ∃ later, (trace (t + d)).calls[c]? = some later ∧ later.request = call.request := by
  induction d with
  | zero => exact ⟨call, at_c, rfl⟩
  | succ d ih =>
    obtain ⟨middle, at_middle, sameMiddle⟩ := ih
    obtain ⟨later, at_later, same, -⟩ := ran.call_next at_middle
    exact ⟨later, at_later, same.trans sameMiddle⟩

/-- An identifier that is fresh was fresh before. -/
theorem FaultFreeRun.fresh_of_later (ran : FaultFreeRun p trace) {jobId : String} {t d : Nat}
    (fresh : Fresh c jobId (trace (t + d))) : Fresh c jobId (trace t) := by
  induction d with
  | zero => exact fresh
  | succ d ih =>
    rcases ran.next (t + d) with rests | ⟨action, -, applied⟩
    · rw [Nat.add_succ, rests] at fresh
      exact ih fresh
    · exact ih (fresh.of_step applied)

/-- As long as it is not answered, the call comes closer to its answer. -/
theorem FaultFreeRun.closer (ran : FaultFreeRun p trace) (served : Served p request c trace)
    (documented : p.serde.Documented) (accepts : p.Accepts) (keeps : p.KeepsLength)
    (servable : Servable p request) {start t : Nat}
    (handled : ∀ t ≥ start, Handled p request (trace t)) (since : start ≤ t)
    (at_c : (trace t).calls[c]? = some call) (own : call.request = request) :
    (∃ t, Answered c (trace t)) ∨ ∃ later ≥ start, ∃ next, (trace later).calls[c]? = some next ∧
      next.request = request ∧ callSteps (slicesOf p request).length next.phase <
        callSteps (slicesOf p request).length call.phase := by
  obtain ⟨later, after, acts | answered⟩ := served.scheduled t
  · obtain ⟨d, rfl⟩ := Nat.exists_eq_add_of_le after
    obtain ⟨middle, at_middle, ownMiddle, le⟩ := ran.callSteps_le documented accepts keeps
      servable served.fresh handled since at_c own d
    obtain ⟨last, at_last, same, -⟩ := ran.call_next at_middle
    have lt := ran.acts_lt documented accepts keeps servable (served.fresh _)
      (handled _ (by omega)) at_middle ownMiddle acts at_last
    exact .inr ⟨t + d + 1, by omega, last, at_last, same.trans ownMiddle, lt.trans_le le⟩
  · exact .inl ⟨later, answered⟩

theorem FaultFreeRun.answered (ran : FaultFreeRun p trace) (served : Served p request c trace)
    (documented : p.serde.Documented) (accepts : p.Accepts) (keeps : p.KeepsLength)
    (servable : Servable p request) : ∃ t, Answered c (trace t) := by
  obtain ⟨start, handled⟩ := served.handled
  -- The induction is on the number of steps that the call still needs at most.
  have ends : ∀ n t, start ≤ t → ∀ call, (trace t).calls[c]? = some call →
      call.request = request → callSteps (slicesOf p request).length call.phase = n →
      ∃ t, Answered c (trace t) := by
    intro n
    induction n using Nat.strong_induction_on with
    | _ n ih =>
      intro t since call at_c own count
      rcases ran.closer served documented accepts keeps servable handled since at_c own with
        answered | ⟨later, after, next, at_next, ownNext, lt⟩
      · exact answered
      · exact ih _ (count ▸ lt) later after next at_next ownNext rfl
  obtain ⟨t, call, at_c, own⟩ := served.submitted
  obtain ⟨later, at_later, same⟩ := ran.call_stays at_c start
  exact ends _ (t + start) (Nat.le_add_left start t) later at_later (same.trans own) rfl

/-- Call `c` has the request at all times. -/
theorem FaultFreeRun.own (ran : FaultFreeRun p trace) (served : Served p request c trace) {t : Nat}
    (at_c : (trace t).calls[c]? = some call) : call.request = request := by
  obtain ⟨made, first, at_made, own⟩ := served.submitted
  obtain ⟨later, at_later, same⟩ := ran.call_stays at_c made
  obtain ⟨later', at_later', same'⟩ := ran.call_stays at_made t
  rw [Nat.add_comm] at at_later'
  cases at_later.symm.trans at_later'
  exact same.symm.trans (same'.trans own)

/-- A served call returns OK, with as many values as its request has. -/
theorem FaultFreeRun.returns (ran : FaultFreeRun p trace) (served : Served p request c trace)
    (documented : p.serde.Documented) (accepts : p.Accepts) (keeps : p.KeepsLength)
    (servable : Servable p request) :
    ∃ t call result, (trace t).calls[c]? = some call ∧ call.request = request ∧
      call.phase = .returned (.ok result) ∧ result.length = request.vector.length := by
  obtain ⟨t, call, outcome, at_c, returned⟩ :=
    ran.answered served documented accepts keeps servable
  have own := ran.own served at_c
  have good := ran.good documented accepts servable t call at_c own (served.fresh t)
  rw [returned] at good
  cases outcome with
  | error status => exact good.elim
  | ok result =>
    refine ⟨t, call, result, at_c, own, returned, ?_⟩
    have same := returned_expected documented (ran.reachable t) (List.mem_of_getElem? at_c) returned
      fun other member jobId => by
        rw [(served.fresh t).only at_c own other.request (List.mem_map_of_mem member)
          (jobId.trans (congrArg TaskRequest.jobId own)), own]
    rw [own] at same
    exact expected_length documented keeps same

end runs

/-- The states of a finite run, which rests at its end. -/
def statesOf (p : Platform) (actions : List Action) (t : Nat) : State :=
  (run (step p) (actions.take t) .empty).getD .empty

theorem statesOf_faultFree {actions : List Action} {final : State}
    (ran : run (step p) actions .empty = some final)
    (faultFree : ∀ action ∈ actions, action.FaultFree) : FaultFreeRun p (statesOf p actions) where
  init := by rw [statesOf, List.take_zero, run, Option.getD_some]
  next t := by
    rcases Nat.lt_or_ge t actions.length with inside | past
    · have split : actions.take (t + 1) = actions.take t ++ [actions[t]] := by
        rw [List.take_append_getElem inside]
      have whole : (run (step p) (actions.take (t + 1)) .empty).isSome = true := by
        rw [← List.take_append_drop (t + 1) actions, run_append] at ran
        obtain ⟨middle, first, -⟩ := Option.bind_eq_some_iff.mp ran
        rw [first]
        rfl
      obtain ⟨after, reached⟩ := Option.isSome_iff_exists.mp whole
      have taken := reached
      rw [split, run_append, Option.bind_eq_some_iff] at taken
      obtain ⟨before, first, last⟩ := taken
      obtain ⟨after', applied, ended⟩ := run_cons_eq_some.mp last
      cases ended
      refine .inr ⟨actions[t], faultFree _ (List.getElem_mem inside), ?_⟩
      rw [statesOf, statesOf, first, reached]
      exact applied
    · refine .inl ?_
      rw [statesOf, statesOf, List.take_of_length_le past, List.take_of_length_le (Nat.le_succ_of_le past)]

theorem statesOf_final {actions : List Action} {final : State}
    (ran : run (step p) actions .empty = some final) {t : Nat} (past : actions.length ≤ t) :
    statesOf p actions t = final := by
  rw [statesOf, List.take_of_length_le past, ran, Option.getD_some]

/-- A call that a finite run without faults answers is served. -/
theorem statesOf_served {actions : List Action} {final : State}
    (ran : run (step p) actions .empty = some final)
    (faultFree : ∀ action ∈ actions, action.FaultFree) (at_c : final.calls[c]? = some call)
    (own : call.request = request) {outcome : Except Status (List Single)}
    (answered : call.phase = .returned outcome)
    (fresh : Fresh c request.jobId final) (handled : Handled p request final) :
    Served p request c (statesOf p actions) where
  submitted := ⟨actions.length, call, by rwa [statesOf_final ran le_rfl], own⟩
  fresh t := (statesOf_faultFree ran faultFree).fresh_of_later (d := actions.length) <| by
    rwa [statesOf_final ran (Nat.le_add_left _ _)]
  handled := ⟨actions.length, fun t past => by rwa [statesOf_final ran past]⟩
  scheduled t := ⟨t + actions.length, Nat.le_add_right _ _, .inr
    ⟨call, outcome, by rwa [statesOf_final ran (Nat.le_add_left _ _)], answered⟩⟩

/-- Such runs exist: one value is submitted and returned. -/
theorem aloneRun_served : ∃ trace, FaultFreeRun smallPlatform trace ∧
    Served smallPlatform ⟨"j", "softmax", zeros 1⟩ 0 trace := by
  have ended : (run (step smallPlatform) aloneRun .empty).map (fun s =>
      (s.calls, s.tasks.all WorkerTask.written, s.shared.queue.isEmpty)) = some
        ([⟨⟨"j", "softmax", zeros 1⟩, .returned (.ok [Single.one])⟩], true, true) := by
    decide +kernel
  obtain ⟨final, ran, facts⟩ := Option.map_eq_some_iff.mp ended
  simp only [Prod.mk.injEq, List.all_eq_true, List.isEmpty_iff] at facts
  obtain ⟨calls, written, empty⟩ := facts
  have faultFree : ∀ action ∈ aloneRun, action.FaultFree := by
    simp [aloneRun, Action.FaultFree]
  refine ⟨_, statesOf_faultFree ran faultFree,
    statesOf_served ran faultFree (by rw [calls]; rfl) rfl rfl ?_ ⟨?_, ?_⟩⟩
  · intro c other at_c apart
    rw [calls] at at_c
    cases c with
    | zero => exact absurd rfl apart
    | succ c => cases at_c
  · intro i data _ queued
    rw [empty] at queued
    cases queued
  · exact fun task working _ => written task working

end DistributedSoftmax.System.Jobs
