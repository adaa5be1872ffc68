import Mathlib.Data.List.Basic

/-! Executable transition systems. An action either applies to a state or is
refused; a run is a list of actions none of which is refused. The induction
over runs is done here once, with and without a condition on the steps. -/

set_option autoImplicit false

namespace Foundations.Transition

variable {State Action : Type}

/-- Apply the actions from left to right; a refused action refuses the run. -/
def run (step : Action → State → Option State) : List Action → State → Option State
  | [], state => some state
  | action :: rest, state => (step action state).bind (run step rest)

/-- Every action of the run is taken in a state where it is admitted. -/
def Admitted (step : Action → State → Option State) (ok : Action → State → Prop) :
    List Action → State → Prop
  | [], _ => True
  | action :: rest, state =>
      ok action state ∧ match step action state with
        | some next => Admitted step ok rest next
        | none => True

instance decidableAdmitted (step : Action → State → Option State) (ok : Action → State → Prop)
    [∀ action state, Decidable (ok action state)] :
    (actions : List Action) → (state : State) → Decidable (Admitted step ok actions state)
  | [], _ => isTrue trivial
  | action :: rest, state =>
      match applied : step action state with
      | some next =>
          have := decidableAdmitted step ok rest next
          decidable_of_iff (ok action state ∧ Admitted step ok rest next)
            (by simp only [Admitted, applied])
      | none => decidable_of_iff (ok action state) (by simp only [Admitted, applied, and_true])

/-- The property holds in every state that the run reaches, the first included. -/
def Throughout (step : Action → State → Option State) (good : State → Prop) :
    List Action → State → Prop
  | [], state => good state
  | action :: rest, state =>
      good state ∧ match step action state with
        | some next => Throughout step good rest next
        | none => True

/-- Some run leads from the first state to the second. -/
def Reachable (step : Action → State → Option State) (start final : State) : Prop :=
  ∃ actions, run step actions start = some final

variable {step : Action → State → Option State}

theorem run_cons_eq_some {action : Action} {rest : List Action} {start final : State} :
    run step (action :: rest) start = some final ↔
      ∃ next, step action start = some next ∧ run step rest next = some final := by
  simp [run, Option.bind_eq_some_iff]

theorem run_append (first rest : List Action) (start : State) :
    run step (first ++ rest) start = (run step first start).bind (run step rest) := by
  induction first generalizing start with
  | nil => rfl
  | cons action first ih =>
    simp only [List.cons_append, run]
    cases applied : step action start with
    | none => rfl
    | some next => simpa using ih next

theorem reachable_refl (start : State) : Reachable step start start := ⟨[], rfl⟩

theorem Reachable.trans {first second third : State} (left : Reachable step first second)
    (right : Reachable step second third) : Reachable step first third := by
  obtain ⟨before, runBefore⟩ := left
  obtain ⟨after, runAfter⟩ := right
  exact ⟨before ++ after, by rw [run_append, runBefore]; exact runAfter⟩

/-- A step that is admitted preserves the invariant, hence so does a run whose
steps are all admitted. -/
theorem run_invariant_of_admitted {ok : Action → State → Prop} {inv : State → Prop}
    (preserved : ∀ action state next, inv state → ok action state →
      step action state = some next → inv next)
    {actions : List Action} {start final : State} (holds : inv start)
    (admitted : Admitted step ok actions start)
    (ran : run step actions start = some final) : inv final := by
  induction actions generalizing start with
  | nil =>
    cases ran
    exact holds
  | cons action rest ih =>
    obtain ⟨next, applied, ranRest⟩ := run_cons_eq_some.mp ran
    have rest_admitted := admitted.2
    rw [applied] at rest_admitted
    exact ih (preserved action start next holds admitted.1 applied) rest_admitted ranRest

theorem admitted_of_forall {ok : Action → State → Prop} {actions : List Action}
    (fine : ∀ action ∈ actions, ∀ state, ok action state) (start : State) :
    Admitted step ok actions start := by
  induction actions generalizing start with
  | nil => trivial
  | cons action rest ih =>
    refine ⟨fine action List.mem_cons_self start, ?_⟩
    split
    · exact ih (fun later member => fine later (List.mem_cons_of_mem _ member)) _
    · trivial

theorem Admitted.of_append {ok : Action → State → Prop} {first rest : List Action}
    {start middle : State} (admitted : Admitted step ok (first ++ rest) start)
    (ran : run step first start = some middle) :
    Admitted step ok first start ∧ Admitted step ok rest middle := by
  induction first generalizing start with
  | nil =>
    cases ran
    exact ⟨trivial, admitted⟩
  | cons action first ih =>
    obtain ⟨next, applied, ranRest⟩ := run_cons_eq_some.mp ran
    have later := admitted.2
    rw [applied] at later
    obtain ⟨left, right⟩ := ih later ranRest
    refine ⟨⟨admitted.1, ?_⟩, right⟩
    rw [applied]
    exact left

theorem Admitted.and_forall {ok : Action → State → Prop} {fine : Action → Prop}
    {actions : List Action} {start : State} (admitted : Admitted step ok actions start)
    (each : ∀ action ∈ actions, fine action) :
    Admitted step (fun action state => ok action state ∧ fine action) actions start := by
  induction actions generalizing start with
  | nil => trivial
  | cons action rest ih =>
    refine ⟨⟨admitted.1, each action List.mem_cons_self⟩, ?_⟩
    have later := admitted.2
    split
    · rename_i next applied
      rw [applied] at later
      exact ih later fun other member => each other (List.mem_cons_of_mem _ member)
    · trivial

theorem run_invariant {inv : State → Prop}
    (preserved : ∀ action state next, inv state → step action state = some next → inv next)
    {actions : List Action} {start final : State} (holds : inv start)
    (ran : run step actions start = some final) : inv final := by
  have admitted : Admitted step (fun _ _ => True) actions start :=
    admitted_of_forall (fun _ _ _ => trivial) start
  exact run_invariant_of_admitted
    (fun action state next inv _ applied => preserved action state next inv applied)
    holds admitted ran

theorem Reachable.invariant {inv : State → Prop}
    (preserved : ∀ action state next, inv state → step action state = some next → inv next)
    {start final : State} (holds : inv start) (reached : Reachable step start final) :
    inv final := by
  obtain ⟨actions, ran⟩ := reached
  exact run_invariant preserved holds ran

theorem Throughout.head {good : State → Prop} {actions : List Action} {state : State}
    (always : Throughout step good actions state) : good state := by
  cases actions with
  | nil => exact always
  | cons action rest => exact always.1

theorem Throughout.final {good : State → Prop} {actions : List Action} {start final : State}
    (always : Throughout step good actions start) (ran : run step actions start = some final) :
    good final := by
  induction actions generalizing start with
  | nil =>
    cases ran
    exact always
  | cons action rest ih =>
    obtain ⟨next, applied, ranRest⟩ := run_cons_eq_some.mp ran
    have later := always.2
    rw [applied] at later
    exact ih later ranRest

/-- Admitted steps preserve an invariant, and a step into a good state is
admitted: then a run is good throughout exactly when its steps are admitted. -/
theorem throughout_iff_admitted {ok : Action → State → Prop} {good : State → Prop}
    (inv : State → Prop)
    (strong : ∀ state, inv state → good state)
    (preserved : ∀ action state next, inv state → ok action state →
      step action state = some next → inv next)
    (refused : ∀ action state, step action state = none → ok action state)
    (broken : ∀ action state next, inv state → step action state = some next →
      good next → ok action state)
    {actions : List Action} {start : State} (holds : inv start) :
    Throughout step good actions start ↔ Admitted step ok actions start := by
  induction actions generalizing start with
  | nil => exact ⟨fun _ => trivial, fun _ => strong start holds⟩
  | cons action rest ih =>
    simp only [Throughout, Admitted]
    cases applied : step action start with
    | none => exact ⟨fun _ => ⟨refused action start applied, trivial⟩,
        fun _ => ⟨strong start holds, trivial⟩⟩
    | some next =>
      constructor
      · intro always
        have admitted := broken action start next holds applied always.2.head
        exact ⟨admitted, (ih (preserved action start next holds admitted applied)).mp always.2⟩
      · intro admitted
        have later := preserved action start next holds admitted.1 applied
        exact ⟨strong start holds, (ih later).mpr admitted.2⟩

/-- Every own step comes closer to the goal, and as long as the goal is not
reached some own step is possible. -/
structure Completes (step : Action → State → Option State) (own : Action → Prop)
    (inv done : State → Prop) (distance : State → Nat) : Prop where
  preserved : ∀ action state next, inv state → own action → step action state = some next → inv next
  closer : ∀ action state next, inv state → own action → step action state = some next →
    distance next < distance state
  enabled : ∀ state, inv state → ¬ done state →
    ∃ action next, own action ∧ step action state = some next

section completes
variable {own : Action → Prop} {inv done : State → Prop} {distance : State → Nat}

theorem Completes.bounded (completes : Completes step own inv done distance) {actions : List Action}
    {start final : State} (holds : inv start) (each : ∀ action ∈ actions, own action)
    (ran : run step actions start = some final) :
    inv final ∧ actions.length + distance final ≤ distance start := by
  induction actions generalizing start with
  | nil =>
    cases ran
    exact ⟨holds, Nat.le_of_eq (Nat.zero_add _)⟩
  | cons action rest ih =>
    obtain ⟨next, applied, ranRest⟩ := run_cons_eq_some.mp ran
    have mine := each action List.mem_cons_self
    have closer := completes.closer action start next holds mine applied
    obtain ⟨last, bound⟩ := ih (completes.preserved action start next holds mine applied)
      (fun later member => each later (List.mem_cons_of_mem _ member)) ranRest
    refine ⟨last, ?_⟩
    rw [List.length_cons]
    omega

/-- A state without an own step is the goal. -/
theorem Completes.of_stuck (completes : Completes step own inv done distance) {state : State}
    (holds : inv state) (stuck : ∀ action, own action → step action state = none) : done state := by
  by_contra unfinished
  obtain ⟨action, next, mine, applied⟩ := completes.enabled state holds unfinished
  cases (stuck action mine).symm.trans applied

theorem Completes.reaches (completes : Completes step own inv done distance) {start : State}
    (holds : inv start) : ∃ actions final, (∀ action ∈ actions, own action) ∧
      run step actions start = some final ∧ done final := by
  induction bound : distance start using Nat.strongRecOn generalizing start with
  | _ n ih =>
    by_cases finished : done start
    · exact ⟨[], start, fun _ member => absurd member List.not_mem_nil, rfl, finished⟩
    · obtain ⟨action, next, mine, applied⟩ := completes.enabled start holds finished
      obtain ⟨rest, final, each, ran, ended⟩ :=
        ih _ (bound ▸ completes.closer action start next holds mine applied)
          (completes.preserved action start next holds mine applied) rfl
      refine ⟨action :: rest, final, ?_, run_cons_eq_some.mpr ⟨next, applied, ran⟩, ended⟩
      intro other member
      rcases List.mem_cons.mp member with rfl | later
      · exact mine
      · exact each other later

end completes

/-- Every step of the concrete system is matched by steps of the abstract one. -/
def Simulates {State' Action' : Type} (step : Action → State → Option State)
    (step' : Action' → State' → Option State') (related : State → State' → Prop) : Prop :=
  ∀ action state next abstract, related state abstract → step action state = some next →
    ∃ actions abstract', run step' actions abstract = some abstract' ∧ related next abstract'

/-- What the concrete system reaches, the abstract one reaches as well. -/
theorem Simulates.reachable {State' Action' : Type} {step' : Action' → State' → Option State'}
    {related : State → State' → Prop} (simulates : Simulates step step' related)
    {actions : List Action} {start final : State} {abstract : State'}
    (holds : related start abstract) (ran : run step actions start = some final) :
    ∃ abstract', Reachable step' abstract abstract' ∧ related final abstract' := by
  induction actions generalizing start abstract with
  | nil =>
    cases ran
    exact ⟨abstract, reachable_refl abstract, holds⟩
  | cons action rest ih =>
    obtain ⟨next, applied, ranRest⟩ := run_cons_eq_some.mp ran
    obtain ⟨matching, middle, matched, later⟩ := simulates action start next abstract holds applied
    obtain ⟨abstract', reached, last⟩ := ih later ranRest
    exact ⟨abstract', Reachable.trans ⟨matching, matched⟩ reached, last⟩

end Foundations.Transition
