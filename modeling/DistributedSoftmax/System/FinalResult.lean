import DistributedSoftmax.System.FaultFree
import DistributedSoftmax.System.JobKeys

/-! The final result of a job that is submitted once. It is stored before the
progress entry, and an error between the two writes is reported as a failed
submission although the result is there. As long as the two writes are not torn
apart, an error of `submit_task` means that no result is ever reported. -/

set_option autoImplicit false

namespace DistributedSoftmax.System.Jobs
open Foundations.ByteString Foundations.KeyValue Foundations.Transition
open Gateway Worker

variable (p : Platform)

/-- No vector is read back from the text. -/
def Unreadable (raw : String) : Prop := resultFloats p.serde p.narrow raw = none
  deriving Decidable

/-- The query has not found a final result that is a vector. -/
def NotReady : QueryPhase → Prop
  | .lifetime _ raw => Unreadable p raw
  | .answered (.ok response) => response.status ≠ "ready"
  | _ => True

/-- The job has no final result, and no query was told that it has one. -/
structure NoResult (jobId : String) (s : State) : Prop where
  store : ∀ raw, found s.shared.store (RedisConfig.resultKey jobId) = some (utf8 raw) →
    Unreadable p raw
  queries : ∀ query ∈ s.queries, query.jobId = jobId → NotReady p query.phase

/-- The final result against the phase of the only call for the job. -/
def ResultStands (jobId : String) (s : State) : Option Phase → Prop
  | some (.storingProgress values) =>
      found s.shared.store (RedisConfig.resultKey jobId) = some (utf8 (resultStr p values)) ∧
        (Unreadable p (resultStr p values) → NoResult p jobId s)
  | some (.returned (.ok _)) | some .dropped => True
  | _ => NoResult p jobId s

-- A condition on the state before the step and on the step alone. Only the phases
-- around the two writes are concerned; everything else may fail as it likes.
/-- The two writes of `store_final_result` for call `c` are not torn apart: the
first one does not take effect unnoticed, the second one succeeds, and in between
the result is neither overwritten by a slice nor expires. A vector that cannot be
read back does not matter. -/
def notTorn (c : Nat) (action : Action) (s : State) : Bool :=
  match s.calls[c]? with
  | none => true
  | some call => match action, call.phase with
    | .call c' (.storeResult fault), .storingResult values =>
        decide (c' = c → fault = .unacknowledged →
          RedisConfig.resultTtl p.env = 0 ∨ Unreadable p (resultStr p values))
    | .call c' (.storeProgress fault _), .storingProgress values =>
        decide (c' = c → (fault = .none ∧ RedisConfig.progressTtl p.env ≠ 0) ∨
          Unreadable p (resultStr p values))
    | .work t fault, .storingProgress _ => match s.tasks[t]? with
        | none => true
        | some task => decide (task.written = false → fault ≠ .lost →
            Worker.resultKey task.jobId task.sliceId ≠ RedisConfig.resultKey call.request.jobId)
    | .elapse seconds, .storingProgress _ =>
        decide (expire seconds s.shared.store (RedisConfig.resultKey call.request.jobId) ≠ none)
    | _, _ => true

/-- A run of steps that do not tear the writes of call `c` apart. -/
def NeverTorn (c : Nat) (actions : List Action) (s : State) : Prop :=
  Foundations.Transition.Admitted (step p) (fun action s => notTorn p c action s = true) actions s
  deriving Decidable

variable {p} {s next : State} {action : Action} {c : Nat} {jobId : String}

/-- Without a result nothing is reported as ready, and only the call itself can
store a result that is. -/
theorem NoResult.step (documented : p.serde.Documented) (inv : Inv p s)
    (alone : Alone c jobId s) (quiet : NoResult p jobId s) (applied : step p action s = some next)
    (fine : ∀ fault call values, action = .call c (.storeResult fault) →
      s.calls[c]? = some call → call.phase = .storingResult values → fault ≠ .lost →
        RedisConfig.resultTtl p.env ≠ 0 → Unreadable p (resultStr p values)) :
    NoResult p jobId next := by
  constructor
  · intro raw later
    rcases step_resultKey alone applied with same | ⟨seconds, -, same⟩ |
      ⟨fault, call, values, acts, at_c, stands, executed, positive, same⟩ |
      ⟨t, fault, task, -, at_t, -, -, -, same⟩
    · rw [found, same] at later
      exact quiet.store raw later
    · rw [found, same] at later
      exact quiet.store raw (found_of_expire later)
    · rw [found, same, Option.map_some, Option.some.injEq] at later
      rw [← utf8_injective later]
      exact fine fault call values acts at_c stands executed positive
    · rw [found, same, Option.map_some, Option.some.injEq] at later
      obtain ⟨stats, -, payload⟩ := inv.tasks task (List.mem_of_getElem? at_t)
      exact resultFloats_encodePartial documented (later.symm.trans payload)
  · intro query member own
    rcases step_queries applied with same | ⟨asked, -, rfl⟩ |
      ⟨q, before, failed, phase, -, at_q, stepped, rfl⟩
    · rw [same] at member
      exact quiet.queries query member own
    · rcases List.mem_append.mp member with before | new
      · exact quiet.queries query before own
      · cases List.mem_singleton.mp new
        trivial
    · rcases List.mem_or_eq_of_mem_set member with other | rfl
      · exact quiet.queries query other own
      · have ok := quiet.queries before (List.mem_of_getElem? at_q) own
        cases Query.step_effect stepped with
        | error | known | noResult | count => trivial
        | unknown => simp [NotReady, notFound]
        | hasResult _ read =>
          have stored := getStr_eq_some read
          rw [show before.jobId = jobId from own] at stored
          exact quiet.store _ stored
        | final ttl stands =>
          rw [stands] at ok
          simp [NotReady, finalResponse_of_unreadable ok ttl]
        | progress _ _ =>
          simp only [NotReady, progressResponse_status]
          split <;> decide

/-- Phases in which the job has no result. -/
def Quiet : Phase → Prop
  | .storingProgress _ | .returned (.ok _) | .dropped => False
  | _ => True

theorem resultStands_of_noResult {phase : Phase} (calm : Quiet phase)
    (quiet : NoResult p jobId s) : ResultStands p jobId s (some phase) := by
  cases phase with
  | storingProgress | dropped => cases calm
  | returned outcome =>
    cases outcome with
    | ok result => cases calm
    | error status => exact quiet
  | storing | publishing | waiting | storingResult => exact quiet

theorem quiet_afterWaiting (outcome : Except String (List (SliceStats Double))) :
    Quiet (afterWaiting p outcome) := by
  rcases afterWaiting_cases outcome with ⟨_, same⟩ | ⟨_, same⟩ <;> rw [same] <;> trivial

/-- The text of the result stays between the two writes. -/
theorem resultStr_stays {call : Call} {values : List Double}
    (alone : Alone c call.request.jobId s) (applied : step p action s = some next)
    (at_c : s.calls[c]? = some call) (stands : call.phase = .storingProgress values)
    (other : ∀ fault, action ≠ .call c (.storeResult fault)) (whole : notTorn p c action s = true)
    (stored : found s.shared.store (RedisConfig.resultKey call.request.jobId) =
      some (utf8 (resultStr p values))) :
    found next.shared.store (RedisConfig.resultKey call.request.jobId) =
      some (utf8 (resultStr p values)) := by
  -- The key is the call's own, but for expiry and for slices of a job that nests it.
  rcases step_resultKey alone applied with same | ⟨seconds, rfl, same⟩ |
    ⟨fault, _, _, acts, -⟩ | ⟨t, fault, task, rfl, at_t, unwritten, executed, own, -⟩
  · rwa [found, same]
  · simp only [notTorn, at_c, stands, decide_eq_true_eq] at whole
    rw [found, same, ← found, found_expire whole]
    exact stored
  · exact absurd acts (other fault)
  · simp only [notTorn, at_c, stands, at_t, decide_eq_true_eq] at whole
    exact absurd own (whole unwritten executed)

/-- A step of the call itself. -/
theorem resultStands_of_call (documented : p.serde.Documented) (inv : Inv p s) {call : Call}
    (alone : Alone c call.request.jobId s) (at_c : s.calls[c]? = some call) {input : CallInput}
    {phase : Phase} {shared : Shared}
    (stepped : call.step p s.shared input = some (phase, shared))
    (applied : step p (.call c input) s =
      some { s with shared, calls := s.calls.set c { call with phase } })
    (whole : notTorn p c (.call c input) s = true)
    (stands : ResultStands p call.request.jobId s (some call.phase)) :
    ResultStands p call.request.jobId { s with shared, calls := s.calls.set c { call with phase } }
      (some phase) := by
  -- A call that had no result has none after a step that stores none.
  have calmly : NoResult p call.request.jobId s → (∀ fault, input ≠ .storeResult fault) →
      NoResult p call.request.jobId { s with shared, calls := s.calls.set c { call with phase } } := by
    intro quiet other
    apply quiet.step documented inv alone applied
    intro fault _ _ acts
    exact absurd (Action.call.inj acts).2 (other fault)
  cases Call.step_effect stepped with
  | @store metadata fault store reply before attempted =>
    rw [before] at stands
    apply resultStands_of_noResult
    · split <;> trivial
    · exact calmly stands (fun _ same => by cases same)
  | publishFailed before | publish before | register before =>
    rw [before] at stands
    exact calmly stands (fun _ same => by cases same)
  | @wait waiting _ event _ _ before event_of waited =>
    rw [before] at stands
    apply resultStands_of_noResult
    · obtain ⟨_, _, ⟨outcome, _, rfl, _⟩ | ⟨_, rfl, _⟩⟩ := waitStep_cases waited
      · exact quiet_afterWaiting outcome
      · trivial
    · apply calmly stands
      rintro fault rfl
      cases event_of
  | @storeResult values fault store reply before attempted =>
    rw [before] at stands
    have quietly : (fault ≠ .lost → RedisConfig.resultTtl p.env ≠ 0 →
        Unreadable p (resultStr p values)) →
        NoResult p call.request.jobId { s with
          shared := { s.shared with store }
          calls := s.calls.set c { call with
            phase := if reply = some .ok then .storingProgress values
              else .returned (aggregationFailed p.redisError) } } := by
      intro unreadable
      apply NoResult.step documented inv alone stands applied
      intro _ _ _ acts at_c' stands' executed positive
      cases acts
      cases at_c.symm.trans at_c'
      cases before.symm.trans stands'
      exact unreadable executed positive
    by_cases acknowledged : reply = some .ok
    · subst acknowledged
      rw [if_pos rfl] at quietly ⊢
      constructor
      · exact congrArg (Option.map Entry.value) (attempt_setEx_ok attempted)
      · exact fun unreadable => quietly fun _ _ => unreadable
    · -- Not acknowledged: the write was lost, refused, or executed unnoticed.
      rw [if_neg acknowledged] at quietly ⊢
      apply resultStands_of_noResult (by trivial)
      apply quietly
      intro executed positive
      cases fault with
      | lost => exact absurd rfl executed
      | none => exact absurd (attempt_setEx positive attempted) acknowledged
      | unacknowledged =>
        simp only [notTorn, at_c, before, decide_eq_true_eq] at whole
        exact (whole trivial trivial).resolve_left positive
  | @storeProgress values fault now store reply before attempted =>
    rw [before] at stands
    have quietly := fun unreadable => calmly (stands.2 unreadable) (fun _ same => by cases same)
    by_cases acknowledged : reply = some .ok
    · subst acknowledged
      rw [if_pos rfl] at quietly ⊢
      split
      · trivial
      · rename_i unreadable
        rw [unreadable] at quietly
        exact quietly unreadable
    · rw [if_neg acknowledged] at quietly ⊢
      simp only [notTorn, at_c, before, decide_eq_true_eq] at whole
      rcases whole trivial with ⟨rfl, positive⟩ | unreadable
      · exact absurd (attempt_setEx positive attempted) acknowledged
      · exact quietly unreadable
  | cancel => trivial

theorem quiet_start (request : TaskRequest) (now : Nat) : Quiet (Call.start p request now).phase := by
  unfold Call.start
  split <;> trivial

theorem step_resultStands (documented : p.serde.Documented) (inv : Inv p s)
    (alone : Alone c jobId next) (applied : step p action s = some next)
    (whole : notTorn p c action s = true)
    (stands : ResultStands p jobId s (s.calls[c]?.map Call.phase)) :
    ResultStands p jobId next (next.calls[c]?.map Call.phase) := by
  have before := alone.of_step applied
  apply step_phase (P := ResultStands p jobId) applied c _ _ _ stands
  · intro other stands
    have stays : NoResult p jobId s → NoResult p jobId next := by
      intro quiet
      apply quiet.step documented inv before applied
      intro fault _ _ acts
      exact absurd acts (other _)
    cases at_c : s.calls[c]? with
    | none =>
      rw [at_c] at stands
      exact stays stands
    | some call =>
      obtain rfl : call.request.jobId = jobId := (before c call at_c).mpr rfl
      rw [at_c, Option.map_some] at stands
      rw [Option.map_some]
      cases phase : call.phase with
      | storingProgress values =>
        rw [phase] at stands
        refine ⟨?_, fun unreadable => stays (stands.2 unreadable)⟩
        exact resultStr_stays before applied at_c phase (fun _ => other _) whole stands.1
      | returned outcome =>
        rw [phase] at stands
        cases outcome with
        | ok result => trivial
        | error status => exact stays stands
      | dropped => trivial
      | storing | publishing | waiting | storingResult =>
        rw [phase] at stands
        exact stays stands
  · rintro request now rfl quiet
    exact resultStands_of_noResult (quiet_start request now) ⟨quiet.store, quiet.queries⟩
  · rintro call input phase shared at_c rfl stepped rfl stands
    obtain rfl : call.request.jobId = jobId := (before c call at_c).mpr rfl
    exact resultStands_of_call documented inv before at_c stepped applied whole stands

/-- What a run keeps up that does not tear the writes of call `c` apart. -/
def ResultSound (p : Platform) (c : Nat) (jobId : String) (s : State) : Prop :=
  Inv p s ∧ (Alone c jobId s → ResultStands p jobId s (s.calls[c]?.map Call.phase))

theorem empty_resultSound : ResultSound p c jobId .empty := by
  refine ⟨empty_inv, fun _ => ?_⟩
  constructor
  · intro raw absent
    cases absent
  · intro query member
    cases member

theorem run_resultStands (documented : p.serde.Documented) {actions : List Action}
    (ran : run (step p) actions .empty = some s)
    (whole : NeverTorn p c actions .empty)
    (alone : Alone c jobId s) : ResultStands p jobId s (s.calls[c]?.map Call.phase) := by
  have sound : ResultSound p c jobId s := by
    apply run_invariant_of_admitted _ empty_resultSound whole ran
    intro action s next sound whole applied
    refine ⟨step_inv documented action s next sound.1 applied, fun alone => ?_⟩
    apply step_resultStands documented sound.1 alone applied whole
    exact sound.2 (alone.of_step applied)
  exact sound.2 alone

/-- A job that is submitted once, in a run that does not tear its two writes
apart: when the submission returned an error, no query reports a result, and at
the moment it returns OK the final-result key holds the vector it returns. -/
theorem result_only_with_ok (documented : p.serde.Documented) {actions : List Action}
    (ran : run (step p) actions .empty = some s)
    (whole : NeverTorn p c actions .empty)
    {call : Call} (at_c : s.calls[c]? = some call) (alone : Alone c call.request.jobId s) :
    (∀ status, call.phase = .returned (.error status) →
      ∀ query ∈ s.queries, query.jobId = call.request.jobId →
        ∀ response, query.phase = .answered (.ok response) → response.status ≠ "ready") ∧
    ∀ action next result, step p action s = some next →
      (∀ outcome, call.phase ≠ .returned outcome) →
      next.calls[c]? = some { call with phase := .returned (.ok result) } →
        ∃ raw, found next.shared.store (RedisConfig.resultKey call.request.jobId) =
          some (utf8 raw) ∧ resultFloats p.serde p.narrow raw = some result := by
  have stands := run_resultStands documented ran whole alone
  rw [at_c, Option.map_some] at stands
  constructor
  · intro status returned query member own response answered
    rw [returned] at stands
    have calm := stands.queries query member own
    rw [answered] at calm
    exact calm
  · intro action next result applied waits returns
    rcases step_call applied at_c with ⟨-, same⟩ | ⟨input, phase, shared, rfl, stepped, rfl⟩
    · rw [same, Option.some.injEq] at returns
      exact absurd (congrArg Call.phase returns) (waits _)
    · have index := (List.getElem?_eq_some_iff.mp at_c).1
      rw [List.getElem?_set_self index, Option.some.injEq] at returns
      have returned : phase = .returned (.ok result) := congrArg Call.phase returns
      -- Only the second write leads to a result.
      cases Call.step_effect stepped with
      | store | storeResult => split at returned <;> cases returned
      | publishFailed | publish | register | cancel => cases returned
      | wait _ _ waited =>
        obtain ⟨_, _, ⟨outcome, _, rfl, _⟩ | ⟨_, rfl, _⟩⟩ := waitStep_cases waited
        · have calm := quiet_afterWaiting (p := p) outcome
          rw [returned] at calm
          cases calm
        · cases returned
      | @storeProgress values fault now store reply before attempted =>
        rw [before] at stands
        split at returned
        · split at returned
          · rename_i values' readable
            cases returned
            refine ⟨_, ?_, readable⟩
            have other := RedisConfig.resultKey_ne_progressKey call.request.jobId call.request.jobId
            have kept : store _ = s.shared.store _ :=
              congrFun (congrArg Prod.fst attempted).symm _ |>.trans (attempt_frame fault _ other)
            exact (congrArg (Option.map Entry.value) kept).trans stands.1
          · cases returned
        · cases returned

/-- The small deployment with a parser that reads job metadata. -/
def readingPlatform : Platform := { smallPlatform with serde := JsonText.objectSerde }

theorem alone_of_singleton {call : Call} (calls : s.calls = [call]) :
    Alone 0 call.request.jobId s := by
  intro c' other at_c'
  rw [calls] at at_c'
  obtain ⟨index, -⟩ := List.getElem?_eq_some_iff.mp at_c'
  obtain rfl : c' = 0 := Nat.lt_one_iff.mp index
  cases at_c'
  exact ⟨fun _ => rfl, fun _ => rfl⟩

/-- A job alone, up to the first of the two writes. -/
def halfStoredRun : List Action :=
  [.submit ⟨"j", "softmax", zeros 1⟩ 0, .call 0 (.store .none), .call 0 (.publish false),
    .receive 0 false, .work 0 .none, .call 0 .register, .call 0 (.readSlice false),
    .call 0 (.endPass false), .call 0 (.storeResult .none)]

theorem result_only_with_ok_alone : ∃ next raw,
    run (step readingPlatform) (halfStoredRun ++ [.call 0 (.storeProgress .none 0)]) .empty = some next ∧
      found next.shared.store (RedisConfig.resultKey "j") = some (utf8 raw) ∧
        resultFloats readingPlatform.serde readingPlatform.narrow raw = some [Single.one] := by
  have calls : (run (step readingPlatform) halfStoredRun .empty).bind (fun s =>
      (step readingPlatform (.call 0 (.storeProgress .none 0)) s).map fun next =>
        (s.calls, next.calls)) =
      some ([⟨⟨"j", "softmax", zeros 1⟩, .storingProgress [Double.one]⟩],
        [⟨⟨"j", "softmax", zeros 1⟩, .returned (.ok [Single.one])⟩]) := by
    decide +kernel
  obtain ⟨s, ran, moved⟩ := Option.bind_eq_some_iff.mp calls
  obtain ⟨next, applied, same⟩ := Option.map_eq_some_iff.mp moved
  obtain ⟨before, after⟩ := Prod.mk.inj same
  have whole : NeverTorn readingPlatform 0 halfStoredRun .empty := by decide +kernel
  have at_c : s.calls[0]? = some ⟨⟨"j", "softmax", zeros 1⟩, .storingProgress [Double.one]⟩ :=
    congrArg (fun calls => calls[0]?) before
  obtain ⟨raw, stored, readable⟩ := (result_only_with_ok (p := readingPlatform)
    JsonText.objectSerde_documented ran whole at_c (alone_of_singleton before)).2
      _ next [Single.one] applied (fun _ impossible => by cases impossible)
      (congrArg (fun calls => calls[0]?) after)
  refine ⟨next, raw, ?_, stored, readable⟩
  rw [run_append, ran]
  exact (congrArg (Option.bind · some) applied).trans rfl

/-- The calls and the queries a run ends with. -/
def outcomesAfter (p : Platform) (actions : List Action) : Option (List Call × List Query) :=
  (run (step p) actions .empty).map fun s => (s.calls, s.queries)

/-- The progress entry cannot be written, and then the job is queried. -/
def tornRun : List Action :=
  [.submit ⟨"j", "softmax", zeros 1⟩ 0, .call 0 (.store .none), .call 0 (.publish false),
    .receive 0 false, .work 0 .none, .call 0 .register, .call 0 (.readSlice false),
    .call 0 (.endPass false), .call 0 (.storeResult .none), .call 0 (.storeProgress .lost 0),
    .ask "j", .answer 0 false, .answer 0 false, .answer 0 false]

def tornAnswer : ResultResponse :=
  ⟨"j", "ready", "Result ready (expires in 3600 seconds)", [Single.one], 1, 1⟩

theorem outcomesAfter_tornRun : outcomesAfter readingPlatform tornRun = some
    ([⟨⟨"j", "softmax", zeros 1⟩, .returned (aggregationFailed "connection refused")⟩],
      [⟨"j", .answered (.ok tornAnswer)⟩]) := by
  decide +kernel

/-- The submission failed, and its result is reported. -/
theorem torn_result_reported :
    ¬ ∀ (p : Platform), p.serde.Documented → ∀ (actions : List Action) (s : State),
      run (step p) actions .empty = some s → ∀ (c : Nat) (call : Call), s.calls[c]? = some call →
        Alone c call.request.jobId s → ∀ status, call.phase = .returned (.error status) →
          ∀ query ∈ s.queries, query.jobId = call.request.jobId →
            ∀ response, query.phase = .answered (.ok response) → response.status ≠ "ready" := by
  intro safe
  obtain ⟨s, ran, outcomes⟩ := Option.map_eq_some_iff.mp outcomesAfter_tornRun
  obtain ⟨calls, queries⟩ := Prod.mk.inj outcomes
  have at_c : s.calls[0]? = some ⟨⟨"j", "softmax", zeros 1⟩,
      .returned (aggregationFailed "connection refused")⟩ := congrArg (fun calls => calls[0]?) calls
  refine safe readingPlatform JsonText.objectSerde_documented tornRun s ran 0 _ at_c
    (alone_of_singleton calls) _ rfl ⟨"j", .answered (.ok tornAnswer)⟩ ?_ rfl tornAnswer rfl rfl
  rw [queries]
  exact List.mem_singleton_self _

end DistributedSoftmax.System.Jobs
