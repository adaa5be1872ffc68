import DistributedSoftmax.System.FinalResult

/-! The status of a job whose submission failed. The status `failed` is derived
from a final result that cannot be read back, and no error exit of `submit_task`
stores anything else that `get_result` would read as a failure. So a failed
submission is visible only when the aggregate itself was unreadable. -/

set_option autoImplicit false

namespace DistributedSoftmax.System.Jobs
open Foundations.ByteString Foundations.KeyValue Foundations.Transition
open Gateway Worker

variable (p : Platform)

-- Every error exit of `submit_task` after the metadata is excluded but the last:
-- the others leave no final result, and `get_result` counts slices instead.
/-- A step by which call `c` does not fail without an unreadable result in Redis;
and such a result is neither overwritten by a slice nor expires before the
metadata. -/
def failsVisibly (c : Nat) (action : Action) (s : State) : Bool :=
  match s.calls[c]? with
  | none => true
  | some call => match action, call.phase with
    | .call c' (.store fault), .storing _ =>
        decide (c' = c → fault = .unacknowledged → RedisConfig.metadataTtl p.env = 0)
    | .call c' (.publish failed), .publishing _ => decide (c' = c → failed = false)
    | .call c' (.endPass expired), .waiting waiting =>
        decide (c' = c → if waiting.collector.remaining = 0 then
          (aggregateStats p.aggregateSoftmax waiting.collector.stats).isOk = true
          else expired = false)
    | .call c' (.storeResult fault), .storingResult _ =>
        decide (c' = c → fault = .none ∧ RedisConfig.resultTtl p.env ≠ 0)
    | .call c' (.storeProgress fault _), .storingProgress values =>
        decide (c' = c → (fault = .none ∧ RedisConfig.progressTtl p.env ≠ 0) ∨
          Unreadable p (resultStr p values))
    | .work t fault, .storingProgress _ | .work t fault, .returned (.error _) =>
        match s.tasks[t]? with
        | none => true
        | some task => decide (task.written = false → fault ≠ .lost →
            Worker.resultKey task.jobId task.sliceId = RedisConfig.resultKey call.request.jobId →
              s.shared.store (RedisConfig.metadataKey call.request.jobId) = none)
    | .elapse seconds, .storingProgress _ | .elapse seconds, .returned (.error _) =>
        decide (expire seconds s.shared.store (RedisConfig.resultKey call.request.jobId) = none →
          expire seconds s.shared.store (RedisConfig.metadataKey call.request.jobId) = none)
    | _, _ => true

/-- A run of such steps. -/
def AlwaysFailsVisibly (c : Nat) (actions : List Action) (s : State) : Prop :=
  Foundations.Transition.Admitted (step p) (fun action s => failsVisibly p c action s = true)
    actions s
  deriving Decidable

/-- The metadata is gone, or the text is there as the final result. -/
def Held (jobId : String) (s : State) (raw : String) : Prop :=
  s.shared.store (RedisConfig.metadataKey jobId) = none ∨
    found s.shared.store (RedisConfig.resultKey jobId) = some (utf8 raw)

/-- The keys of the job against the phase of its only call. -/
def FailureStands (jobId : String) (s : State) : Option Phase → Prop
  | none | some (.storing _) => s.shared.store (RedisConfig.metadataKey jobId) = none
  | some (.storingProgress values) => Held jobId s (resultStr p values)
  | some (.returned (.error _)) => s.shared.store (RedisConfig.metadataKey jobId) = none ∨
      ∃ raw, Unreadable p raw ∧ found s.shared.store (RedisConfig.resultKey jobId) = some (utf8 raw)
  | _ => True

variable {p} {s next : State} {action : Action} {c : Nat} {jobId : String}

/-- A result that a failed submission left behind stays as long as the metadata. -/
theorem held_stays {call : Call} (raw : String) (alone : Alone c call.request.jobId s)
    (applied : step p action s = some next) (at_c : s.calls[c]? = some call)
    (stands : (∃ values, call.phase = .storingProgress values) ∨
      ∃ status, call.phase = .returned (.error status))
    (other : ∀ fault, action ≠ .call c (.store fault))
    (other' : ∀ fault, action ≠ .call c (.storeResult fault))
    (visible : failsVisibly p c action s = true) (held : Held call.request.jobId s raw) :
    Held call.request.jobId next raw := by
  -- Metadata that is gone stays gone; a text that is there may age or be overwritten.
  rcases held with gone | present
  · exact .inl (metadata_stays_gone alone applied other gone)
  rcases step_resultKey alone applied with same | ⟨seconds, rfl, same⟩ |
    ⟨fault, _, _, acts, -⟩ | ⟨t, fault, task, rfl, at_t, unwritten, executed, own, -⟩
  · right
    rwa [found, same]
  · have outlives : expire seconds s.shared.store (RedisConfig.resultKey call.request.jobId) = none →
        expire seconds s.shared.store (RedisConfig.metadataKey call.request.jobId) = none := by
      rcases stands with ⟨values, phase⟩ | ⟨status, phase⟩ <;>
        simpa only [failsVisibly, at_c, phase, decide_eq_true_eq] using visible
    cases applied
    by_cases expired : expire seconds s.shared.store
        (RedisConfig.resultKey call.request.jobId) = none
    · exact .inl (outlives expired)
    · exact .inr ((found_expire expired).trans present)
  · exact absurd acts (other' fault)
  · have gone : s.shared.store (RedisConfig.metadataKey call.request.jobId) = none := by
      rcases stands with ⟨values, phase⟩ | ⟨status, phase⟩ <;>
        simp only [failsVisibly, at_c, phase, at_t, decide_eq_true_eq] at visible <;>
        exact visible unwritten executed own
    exact .inl (metadata_stays_gone alone applied other gone)

/-- SETEX without an acknowledgement, where it was not executed unnoticed. -/
theorem attempt_setEx_refused {fault : Fault} {key : String} {value : Bytes} {seconds : Nat}
    {store store' : Store} {reply : Option Reply}
    (attempted : attempt fault (.setEx key value seconds) store = (store', reply))
    (refused : reply ≠ some .ok) (noticed : fault = .unacknowledged → seconds = 0) :
    store' = store := by
  cases fault with
  | lost =>
    cases attempted
    rfl
  | none | unacknowledged =>
    simp only [attempt, Command.exec] at attempted
    split at attempted
    · cases attempted
      rfl
    · rename_i positive
      cases attempted
      first | exact absurd rfl refused | exact absurd (noticed rfl) positive

/-- Out of the loop a call fails by the timeout or by the aggregation. -/
theorem wait_failsVisibly {call : Call} {waiting : Waiting} {input : CallInput} {event : WaitEvent}
    {phase : Phase} {shared : Shared} (at_c : s.calls[c]? = some call)
    (stands : call.phase = .waiting waiting)
    (event_of : Waits p call.request.jobId waiting s.shared input event)
    (waited : waitStep p call.request.jobId waiting event s.shared = some (phase, shared))
    (visible : failsVisibly p c (.call c input) s = true) :
    (∃ later, phase = .waiting later) ∨ ∃ values, phase = .storingResult values := by
  obtain ⟨after, moved, ⟨outcome, left, rfl, -⟩ | ⟨-, rfl, -⟩⟩ := waitStep_cases waited
  · right
    rcases Waiting.step_cases moved with ⟨_, _, -, -, -, -, rfl⟩ | ⟨_, -, -, -, -, rfl⟩ |
      ⟨expired, _, rfl, -, -, ⟨none_left, rfl⟩ | ⟨some_left, late, rfl⟩ | ⟨-, -, rfl⟩⟩ |
      ⟨_, -, -, rfl⟩
    · cases left
    · cases left
    · cases left
      cases event_of
      simp only [failsVisibly, at_c, stands, none_left, if_true, decide_eq_true_eq] at visible
      have aggregated := visible trivial
      simp only [afterWaiting]
      cases result : aggregateStats p.aggregateSoftmax waiting.collector.stats with
      | ok values => exact ⟨values, rfl⟩
      | error message =>
        rw [result] at aggregated
        cases aggregated
    · cases event_of
      simp only [failsVisibly, at_c, stands, if_neg some_left, decide_eq_true_eq] at visible
      exact absurd late (by rw [visible trivial]; decide)
    · cases left
    · cases left
  · exact .inl ⟨after, rfl⟩

/-- A step of the call itself. -/
theorem failureStands_of_call {call : Call} (alone : Alone c call.request.jobId s)
    (at_c : s.calls[c]? = some call) {input : CallInput} {phase : Phase} {shared : Shared}
    (stepped : call.step p s.shared input = some (phase, shared))
    (applied : step p (.call c input) s =
      some { s with shared, calls := s.calls.set c { call with phase } })
    (visible : failsVisibly p c (.call c input) s = true)
    (stands : FailureStands p call.request.jobId s (some call.phase)) :
    FailureStands p call.request.jobId { s with shared, calls := s.calls.set c { call with phase } }
      (some phase) := by
  cases Call.step_effect stepped with
  | @store metadata fault store reply before attempted =>
    rw [before] at stands
    by_cases acknowledged : reply = some .ok
    · rw [if_pos acknowledged]
      trivial
    · rw [if_neg acknowledged]
      simp only [failsVisibly, at_c, before, decide_eq_true_eq] at visible
      have same := attempt_setEx_refused attempted acknowledged (visible trivial)
      exact .inl (same ▸ stands)
  | publishFailed before =>
    simp only [failsVisibly, at_c, before, decide_eq_true_eq] at visible
    exact absurd (visible trivial) (by decide)
  | publish | register | cancel => trivial
  | wait before event_of waited =>
    rcases wait_failsVisibly at_c before event_of waited visible with ⟨_, rfl⟩ | ⟨_, rfl⟩ <;> trivial
  | @storeResult values fault store reply before attempted =>
    simp only [failsVisibly, at_c, before, decide_eq_true_eq] at visible
    obtain ⟨rfl, positive⟩ := visible trivial
    have acknowledged := attempt_setEx positive attempted
    subst acknowledged
    rw [if_pos rfl]
    exact .inr (congrArg (Option.map Entry.value) (attempt_setEx_ok attempted))
  | @storeProgress values fault now store reply before attempted =>
    rw [before] at stands
    have held := held_stays _ alone applied at_c (.inl ⟨values, before⟩)
      (fun _ same => by cases same) (fun _ same => by cases same) visible stands
    simp only [failsVisibly, at_c, before, decide_eq_true_eq] at visible
    by_cases acknowledged : reply = some .ok
    · subst acknowledged
      rw [if_pos rfl] at held ⊢
      split
      · trivial
      · rename_i unreadable
        rw [unreadable] at held
        exact held.imp_right fun stored => ⟨_, unreadable, stored⟩
    · rw [if_neg acknowledged] at held ⊢
      rcases visible trivial with ⟨rfl, positive⟩ | unreadable
      · exact absurd (attempt_setEx positive attempted) acknowledged
      · exact held.imp_right fun stored => ⟨_, unreadable, stored⟩

theorem step_failureStands (alone : Alone c jobId next) (applied : step p action s = some next)
    (visible : failsVisibly p c action s = true)
    (stands : FailureStands p jobId s (s.calls[c]?.map Call.phase)) :
    FailureStands p jobId next (next.calls[c]?.map Call.phase) := by
  have before := alone.of_step applied
  apply step_phase (P := FailureStands p jobId) applied c _ _ _ stands
  · intro other stands
    have gone := metadata_stays_gone before applied fun _ => other _
    cases at_c : s.calls[c]? with
    | none =>
      rw [at_c] at stands
      exact gone stands
    | some call =>
      obtain rfl : call.request.jobId = jobId := (before c call at_c).mpr rfl
      rw [at_c, Option.map_some] at stands
      rw [Option.map_some]
      have stays := fun raw final => held_stays raw before applied at_c final
        (fun _ => other _) (fun _ => other _) visible
      cases phase : call.phase with
      | storing metadata =>
        rw [phase] at stands
        exact gone stands
      | storingProgress values =>
        rw [phase] at stands
        exact stays _ (.inl ⟨values, phase⟩) stands
      | returned outcome =>
        rw [phase] at stands
        cases outcome with
        | ok result => trivial
        | error status =>
          rcases stands with absent | ⟨raw, unreadable, stored⟩
          · exact .inl (gone absent)
          · have held := stays raw (.inr ⟨status, phase⟩) (.inr stored)
            exact held.imp_right fun stored => ⟨raw, unreadable, stored⟩
      | publishing | waiting | storingResult | dropped => trivial
  · rintro request now rfl gone
    unfold Call.start
    split
    · exact .inl gone
    · exact gone
  · rintro call input phase shared at_c rfl stepped rfl stands
    obtain rfl : call.request.jobId = jobId := (before c call at_c).mpr rfl
    exact failureStands_of_call before at_c stepped applied visible stands

/-- Redis answers the reads of `get_result`. -/
def ReadsWork : Action → Prop
  | .answer _ failed => failed = false
  | _ => True

/-- A query that has seen nothing but the failure. -/
def SeesFailure (p : Platform) : QueryPhase → Prop
  | .lifetime _ raw => Unreadable p raw
  | .counting _ _ _ => False
  | .answered (.ok response) => response.status = "failed"
  | .metadata | .result _ | .answered (.error _) => True

/-- The submission has failed, and the queries from number `n` on see it, as long
as the metadata lives. -/
structure Failed (p : Platform) (c n : Nat) (jobId : String) (s : State) : Prop where
  returned : ∃ call status, s.calls[c]? = some call ∧ call.phase = .returned (.error status)
  stands : Alone c jobId s → FailureStands p jobId s (s.calls[c]?.map Call.phase)
  queries : Alone c jobId s → s.shared.store (RedisConfig.metadataKey jobId) ≠ none →
    ∀ q query, n ≤ q → s.queries[q]? = some query → query.jobId = jobId → SeesFailure p query.phase

theorem decodeJobMetadata_ne_none {value : Bytes} :
    RedisManager.decodeJobMetadata p.serde (some value) ≠ .ok none := by
  intro read
  simp only [RedisManager.decodeJobMetadata, RedisManager.getStr, bind, Except.bind] at read
  cases valid : fromUtf8? value with
  | none =>
    simp only [valid] at read
    cases read
  | some text =>
    simp only [valid] at read
    split at read <;> cases read

/-- One read of a query, with the metadata alive and an unreadable result. -/
theorem query_seesFailure {query : Query} {store : Store} {phase : QueryPhase} {raw : String}
    (applied : query.step p store false = some phase)
    (alive : store (RedisConfig.metadataKey query.jobId) ≠ none) (unreadable : Unreadable p raw)
    (stored : found store (RedisConfig.resultKey query.jobId) = some (utf8 raw))
    (sees : SeesFailure p query.phase) : SeesFailure p phase := by
  cases Query.step_effect applied with
  | error | known => trivial
  | unknown _ absent =>
    obtain ⟨entry, present⟩ := Option.ne_none_iff_exists'.mp alive
    rw [found, present] at absent
    exact absurd absent decodeJobMetadata_ne_none
  | noResult _ lost =>
    rcases lost with impossible | absent
    · cases impossible
    · exact absurd (stored ▸ getStr_utf8 raw) (absent raw)
  | hasResult _ read =>
    rw [stored, getStr_utf8] at read
    cases read
    exact unreadable
  | final ttl before =>
    rw [before] at sees
    exact finalResponse_of_unreadable sees ttl
  | count before | progress before =>
    rw [before] at sees
    cases sees

theorem returned_stays {call : Call} {outcome : Except Status (List Single)}
    (applied : step p action s = some next) (at_c : s.calls[c]? = some call)
    (returned : call.phase = .returned outcome) : next.calls[c]? = some call := by
  rcases step_call applied at_c with ⟨-, same⟩ | ⟨input, phase, shared, rfl, stepped, rfl⟩
  · exact same
  · cases input <;> simp only [Call.step, returned] at stepped <;> cases stepped

theorem step_failed {n : Nat} (failed : Failed p c n jobId s)
    (visible : failsVisibly p c action s = true) (works : ReadsWork action)
    (applied : step p action s = some next) : Failed p c n jobId next := by
  obtain ⟨call, status, at_c, returned⟩ := failed.returned
  have same := returned_stays applied at_c returned
  refine ⟨⟨call, status, same, returned⟩, fun alone => ?_, fun alone alive => ?_⟩
  · exact step_failureStands alone applied visible (failed.stands (alone.of_step applied))
  · have before := alone.of_step applied
    have lived : s.shared.store (RedisConfig.metadataKey jobId) ≠ none := by
      intro gone
      apply alive
      apply metadata_stays_gone before applied _ gone
      rintro fault rfl
      simp only [step, at_c, Call.step, returned] at applied
      cases applied
    -- The metadata lives, so the text is there, and every read finds it.
    have sees := failed.queries before lived
    have stands := failed.stands before
    rw [at_c, Option.map_some, returned] at stands
    obtain ⟨raw, unreadable, stored⟩ := stands.resolve_left lived
    intro q query above at_q own
    rcases step_queries applied with unchanged | ⟨asked, -, rfl⟩ |
      ⟨k, asked, lost, phase, rfl, at_k, stepped, rfl⟩
    · rw [unchanged] at at_q
      exact sees q query above at_q own
    · rw [List.getElem?_append] at at_q
      split at at_q
      · exact sees q query above at_q own
      · cases List.mem_singleton.mp (List.mem_of_getElem? at_q)
        trivial
    · cases works
      rw [List.getElem?_set] at at_q
      split at at_q
      · rename_i same
        subst same
        split at at_q
        · cases at_q
          subst own
          exact query_seesFailure stepped lived unreadable stored (sees k asked above at_k rfl)
        · cases at_q
      · exact sees q query above at_q own

theorem empty_failureStands : FailureStands p jobId .empty (State.empty.calls[c]?.map Call.phase) :=
  rfl

/-- A submission that failed is visible as failed, if it failed visibly: for a
job that is submitted once, every answer that is asked for after the failure and
given while the metadata lives is the status `failed`. -/
theorem failure_visible {before after : List Action} {failedState final : State}
    (ranBefore : run (step p) before .empty = some failedState)
    (ranAfter : run (step p) after failedState = some final)
    (visibleBefore : AlwaysFailsVisibly p c before .empty)
    (visibleAfter : AlwaysFailsVisibly p c after failedState)
    (works : ∀ action ∈ after, ReadsWork action) {call : Call} {status : Status}
    (at_c : failedState.calls[c]? = some call) (returned : call.phase = .returned (.error status))
    (alone : Alone c call.request.jobId final)
    (alive : final.shared.store (RedisConfig.metadataKey call.request.jobId) ≠ none) :
    ∀ q query response, failedState.queries.length ≤ q → final.queries[q]? = some query →
      query.jobId = call.request.jobId → query.phase = .answered (.ok response) →
        response.status = "failed" := by
  have stood : Alone c call.request.jobId failedState →
      FailureStands p call.request.jobId failedState (failedState.calls[c]?.map Call.phase) := by
    apply run_invariant_of_admitted _ (fun _ => empty_failureStands) visibleBefore ranBefore
    intro action s next stands visible applied alone
    exact step_failureStands alone applied visible (stands (alone.of_step applied))
  have start : Failed p c failedState.queries.length call.request.jobId failedState := by
    refine ⟨⟨call, status, at_c, returned⟩, stood, fun _ _ q query above at_q => ?_⟩
    have inside := (List.getElem?_eq_some_iff.mp at_q).1
    omega
  have failed : Failed p c failedState.queries.length call.request.jobId final := by
    apply run_invariant_of_admitted _ start (visibleAfter.and_forall works) ranAfter
    intro action s next failed admitted applied
    exact step_failed failed admitted.1 admitted.2 applied
  intro q query response later at_q own answered
  have sees := failed.queries alone alive q query later at_q own
  rw [answered] at sees
  exact sees

/-- Two values whose aggregate is no number in the small arithmetic. -/
def unreadableRun : List Action :=
  [.submit ⟨"j", "softmax", [Single.one, Single.two]⟩ 0, .call 0 (.store .none),
    .call 0 (.publish false), .call 0 (.publish false), .receive 0 false, .receive 0 false,
    .work 0 .none, .work 1 .none, .call 0 .register, .call 0 (.readSlice false),
    .call 0 (.readSlice false), .call 0 (.endPass false), .call 0 (.storeResult .none),
    .call 0 (.storeProgress .none 0)]

/-- One query of the job. -/
def oneQuery : List Action := [.ask "j", .answer 0 false, .answer 0 false, .answer 0 false]

/-- Two runs, one after the other: the calls and the number of queries after the
first, the calls, the queries and the metadata after the second. -/
def outcomesOf (p : Platform) (before after : List Action) :
    Option ((List Call × Nat) × List Call × List Query × Bool) := do
  let s ← run (step p) before .empty
  let t ← run (step p) after s
  return ((s.calls, s.queries.length), t.calls, t.queries,
    (t.shared.store (RedisConfig.metadataKey "j")).isSome)

theorem outcomesOf_eq {before after : List Action} {calls later : List Call} {queries : List Query}
    {n : Nat} (ran : outcomesOf p before after = some ((calls, n), later, queries, true)) :
    ∃ s t, run (step p) before .empty = some s ∧ run (step p) after s = some t ∧
      s.calls = calls ∧ s.queries.length = n ∧ t.calls = later ∧ t.queries = queries ∧
        t.shared.store (RedisConfig.metadataKey "j") ≠ none := by
  simp only [outcomesOf, Option.bind_eq_bind, Option.bind_eq_some_iff, Option.pure_def,
    Option.some.injEq, Prod.mk.injEq] at ran
  obtain ⟨s, ranBefore, t, ranAfter, ⟨callsBefore, count⟩, callsAfter, queriesAfter, alive⟩ := ran
  exact ⟨s, t, ranBefore, ranAfter, callsBefore, count, callsAfter, queriesAfter,
    Option.isSome_iff_ne_none.mp alive⟩

def unreadableCall : Call :=
  ⟨⟨"j", "softmax", [Single.one, Single.two]⟩, .returned (.error (.internal "Failed to parse result"))⟩

def unreadableAnswer : ResultResponse := ⟨"j", "failed", "Failed to parse result", [], 2, 2⟩

theorem outcomesOf_unreadableRun : outcomesOf readingPlatform unreadableRun oneQuery =
    some (([unreadableCall], 0), [unreadableCall], [⟨"j", .answered (.ok unreadableAnswer)⟩], true) := by
  decide +kernel

theorem oneQuery_works : ∀ action ∈ oneQuery, ReadsWork action := by
  intro action member
  simp only [oneQuery, List.mem_cons, List.not_mem_nil, or_false] at member
  rcases member with rfl | rfl | rfl | rfl
  · trivial
  all_goals rfl

theorem failure_visible_unreadable : unreadableAnswer.status = "failed" := by
  obtain ⟨s, t, ranBefore, ranAfter, calls, count, later, queries, alive⟩ :=
    outcomesOf_eq outcomesOf_unreadableRun
  have visible : AlwaysFailsVisibly readingPlatform 0 (unreadableRun ++ oneQuery) .empty := by
    decide +kernel
  obtain ⟨visibleBefore, visibleAfter⟩ := Admitted.of_append visible ranBefore
  have at_c : s.calls[0]? = some unreadableCall := congrArg (fun calls => calls[0]?) calls
  have at_q : t.queries[0]? = some ⟨"j", .answered (.ok unreadableAnswer)⟩ :=
    congrArg (fun queries => queries[0]?) queries
  exact failure_visible ranBefore ranAfter visibleBefore visibleAfter oneQuery_works at_c rfl
    (alone_of_singleton later) alive 0 _ unreadableAnswer (Nat.le_of_eq count) at_q rfl rfl

/-- The deadline passes before any worker is there. -/
def timedOutRun : List Action :=
  [.submit ⟨"j", "softmax", zeros 1⟩ 0, .call 0 (.store .none), .call 0 (.publish false),
    .call 0 .register, .call 0 (.readSlice false), .call 0 (.endPass true)]

def timedOutCall : Call :=
  ⟨⟨"j", "softmax", zeros 1⟩, .returned (aggregationFailed (waitTimeout "j"))⟩

theorem outcomesOf_timedOutRun :
    outcomesOf readingPlatform timedOutRun (oneQuery ++ [.answer 0 false]) = some
      (([timedOutCall], 0), [timedOutCall],
        [⟨"j", .answered (.ok (progressResponse "j" 1 0))⟩], true) := by
  decide +kernel

/-- The submission timed out, and the job is reported as pending. -/
theorem timed_out_pending :
    ¬ ∀ (p : Platform), p.serde.Documented →
      ∀ (before after : List Action) (failedState final : State),
        run (step p) before .empty = some failedState → run (step p) after failedState = some final →
        (∀ action ∈ after, ReadsWork action) → ∀ (c : Nat) (call : Call) (status : Status),
          failedState.calls[c]? = some call → call.phase = .returned (.error status) →
          Alone c call.request.jobId final →
          final.shared.store (RedisConfig.metadataKey call.request.jobId) ≠ none →
            ∀ q query response, failedState.queries.length ≤ q → final.queries[q]? = some query →
              query.jobId = call.request.jobId → query.phase = .answered (.ok response) →
                response.status = "failed" := by
  intro visible
  obtain ⟨s, t, ranBefore, ranAfter, calls, count, later, queries, alive⟩ :=
    outcomesOf_eq outcomesOf_timedOutRun
  have works : ∀ action ∈ oneQuery ++ [.answer 0 false], ReadsWork action := by
    intro action member
    rcases List.mem_append.mp member with first | last
    · exact oneQuery_works action first
    · rw [List.mem_singleton.mp last]
      rfl
  have at_c : s.calls[0]? = some timedOutCall := congrArg (fun calls => calls[0]?) calls
  have at_q : t.queries[0]? = some ⟨"j", .answered (.ok (progressResponse "j" 1 0))⟩ :=
    congrArg (fun queries => queries[0]?) queries
  have status := visible readingPlatform JsonText.objectSerde_documented _ _ s t ranBefore ranAfter
    works 0 timedOutCall _ at_c rfl (alone_of_singleton later) alive 0 _
    (progressResponse "j" 1 0) (Nat.le_of_eq count) at_q rfl rfl
  exact absurd status (by decide)

end DistributedSoftmax.System.Jobs
