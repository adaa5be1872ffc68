import DistributedSoftmax.System.Jobs

/-! What one step of the system does: to the call that makes it, to the list of
calls, and to the store. Whatever follows about steps is derived from this. -/

set_option autoImplicit false

namespace DistributedSoftmax.System.Jobs
open Foundations.ByteString Foundations.KeyValue
open Gateway Worker

variable {p : Platform}

theorem attempt_frame (fault : Fault) {command : Command} (store : Store) {key : String}
    (other : key ≠ command.key) : (attempt fault command store).1 key = store key := by
  cases fault with
  | none | unacknowledged => exact Command.exec_frame store other
  | lost => rfl

/-- SETEX was acknowledged: it was executed, with a lifetime that Redis accepts. -/
theorem attempt_setEx_ok {fault : Fault} {key : String} {value : Bytes} {seconds : Nat}
    {store store' : Store}
    (attempted : attempt fault (.setEx key value seconds) store = (store', some .ok)) :
    store' key = some ⟨value, some seconds⟩ := by
  cases fault with
  | none =>
    simp only [attempt, Command.exec] at attempted
    split at attempted
    · cases attempted
    · cases attempted
      exact Function.update_self _ _ _
  | lost | unacknowledged => cases attempted

/-- The event of the loop that an input of the call stands for. -/
inductive Waits (p : Platform) (jobId : String) (waiting : Waiting) (shared : Shared) :
    CallInput → WaitEvent → Prop where
  | readSlice (failed : Bool) : Waits p jobId waiting shared (.readSlice failed)
      (.read (readOutcome p jobId waiting failed shared.store))
  | skip : Waits p jobId waiting shared .skip .skip
  | endPass (expired : Bool) : Waits p jobId waiting shared (.endPass expired) (.endPass expired)
  | wake : Waits p jobId waiting shared .wake (.wake shared.notifier)

/-- What one step of a call does, case by case. -/
inductive Call.Effect (p : Platform) (call : Call) (shared : Shared) :
    CallInput → Phase → Shared → Prop where
  | store {metadata : JobMetadata} {fault : Fault} {store : Store} {reply : Option Reply} :
      call.phase = .storing metadata →
      attempt fault (RedisManager.setJobMetadata p.env p.serde call.request.jobId metadata)
        shared.store = (store, reply) →
      Effect p call shared (.store fault)
        (if reply = some .ok then .publishing 0
          else .returned (.error (.internal "Failed to store job metadata")))
        { shared with store }
  | publishFailed {sliceId : Nat} : call.phase = .publishing sliceId →
      Effect p call shared (.publish true)
        (.returned (.error (.internal ("Publish failed: " ++ p.publishError)))) shared
  | publish {sliceId : Nat} {data : List Double} : call.phase = .publishing sliceId →
      (slicesOf p call.request)[sliceId]? = some data →
      Effect p call shared (.publish false) (.publishing (sliceId + 1))
        { shared with queue := shared.queue ++ [taskMessage call.request sliceId data] }
  | register {sliceId : Nat} : call.phase = .publishing sliceId →
      sliceId = (slicesOf p call.request).length →
      Effect p call shared .register
        (.waiting (.start sliceId (shared.notifier.registerJob call.request.jobId).2))
        { shared with notifier := (shared.notifier.registerJob call.request.jobId).1 }
  | wait {waiting : Waiting} {input : CallInput} {event : WaitEvent} {phase : Phase}
      {shared' : Shared} : call.phase = .waiting waiting →
      Waits p call.request.jobId waiting shared input event →
      waitStep p call.request.jobId waiting event shared = some (phase, shared') →
      Effect p call shared input phase shared'
  | storeResult {values : List Double} {fault : Fault} {store : Store} {reply : Option Reply} :
      call.phase = .storingResult values →
      attempt fault (RedisManager.setFinalResult p.env call.request.jobId (resultStr p values))
        shared.store = (store, reply) →
      Effect p call shared (.storeResult fault)
        (if reply = some .ok then .storingProgress values
          else .returned (aggregationFailed p.redisError))
        { shared with store }
  | storeProgress {values : List Double} {fault : Fault} {now : Nat} {store : Store}
      {reply : Option Reply} : call.phase = .storingProgress values →
      attempt fault (RedisManager.updateProgress p.env p.serde now call.request.jobId "completed")
        shared.store = (store, reply) →
      Effect p call shared (.storeProgress fault now)
        (if reply = some .ok then
          match resultFloats p.serde p.narrow (resultStr p values) with
          | some result => .returned (.ok result)
          | none => .returned (.error (.internal "Failed to parse result"))
        else .returned (aggregationFailed p.redisError))
        { shared with store }
  | cancel : Effect p call shared .cancel .dropped shared

theorem Call.step_effect {call : Call} {shared shared' : Shared} {input : CallInput} {phase : Phase}
    (applied : call.step p shared input = some (phase, shared')) :
    call.Effect p shared input phase shared' := by
  cases input with
  | store fault =>
    simp only [Call.step] at applied
    split at applied
    · rename_i metadata stands
      cases applied
      exact .store stands rfl
    · cases applied
  | publish failed =>
    simp only [Call.step] at applied
    split at applied
    · rename_i sliceId stands
      split at applied
      · rename_i data at_slice
        cases failed with
        | true =>
          cases applied
          exact .publishFailed stands
        | false =>
          cases applied
          exact .publish stands at_slice
      · cases applied
    · cases applied
  | register =>
    simp only [Call.step] at applied
    split at applied
    · rename_i sliceId stands
      split at applied
      · rename_i all
        cases applied
        have effect : call.Effect p shared .register _ _ := .register stands all
        rwa [all] at effect
      · cases applied
    · cases applied
  | readSlice failed =>
    simp only [Call.step] at applied
    split at applied
    · rename_i waiting stands
      exact .wait stands (.readSlice failed) applied
    · cases applied
  | skip =>
    simp only [Call.step] at applied
    split at applied
    · rename_i waiting stands
      exact .wait stands .skip applied
    · cases applied
  | endPass expired =>
    simp only [Call.step] at applied
    split at applied
    · rename_i waiting stands
      exact .wait stands (.endPass expired) applied
    · cases applied
  | wake =>
    simp only [Call.step] at applied
    split at applied
    · rename_i waiting stands
      exact .wait stands .wake applied
    · cases applied
  | storeResult fault =>
    simp only [Call.step] at applied
    split at applied
    · rename_i values stands
      cases applied
      exact .storeResult stands rfl
    · cases applied
  | storeProgress fault now =>
    simp only [Call.step] at applied
    split at applied
    · rename_i values stands
      cases applied
      exact .storeProgress stands rfl
    · cases applied
  | cancel =>
    simp only [Call.step] at applied
    split at applied
    · cases applied
    · cases applied
    · cases applied
      exact .cancel

/-- What one event of the loop does to the call and to the registry. -/
theorem waitStep_cases {jobId : String} {waiting : Waiting} {event : WaitEvent}
    {shared shared' : Shared} {phase : Phase}
    (applied : waitStep p jobId waiting event shared = some (phase, shared')) :
    ∃ next, waiting.step jobId event = some next ∧
      ((∃ outcome, next.point = .left outcome ∧ phase = afterWaiting p outcome ∧
          shared' = { shared with notifier := shared.notifier.unregisterJob jobId }) ∨
        ((∀ outcome, next.point ≠ .left outcome) ∧ phase = .waiting next ∧ shared' = shared)) := by
  unfold waitStep at applied
  split at applied
  · cases applied
  rename_i next stepped
  refine ⟨next, stepped, ?_⟩
  split at applied
  · rename_i outcome left
    cases applied
    exact .inl ⟨outcome, left, rfl, rfl⟩
  · rename_i stays
    cases applied
    exact .inr ⟨stays, rfl, rfl⟩

/-- Out of the loop a call has failed, or it stores a result next. -/
theorem afterWaiting_cases (outcome : Except String (List (SliceStats Double))) :
    (∃ message, afterWaiting p outcome = .returned (aggregationFailed message)) ∨
      ∃ values, afterWaiting p outcome = .storingResult values := by
  unfold afterWaiting
  split
  · exact .inl ⟨_, rfl⟩
  · split
    · exact .inl ⟨_, rfl⟩
    · exact .inr ⟨_, rfl⟩

section steps
variable {s next : State}

/-- A call keeps its request, and calls are only added. -/
theorem step_calls {action : Action} (applied : step p action s = some next) {c' : Nat}
    {other : Call} (at_c' : s.calls[c']? = some other) :
    ∃ later, next.calls[c']? = some later ∧ later.request = other.request ∧
      ((∀ input, action ≠ .call c' input) → later = other) := by
  cases action with
  | submit made now =>
    cases applied
    obtain ⟨index, -⟩ := List.getElem?_eq_some_iff.mp at_c'
    exact ⟨other, (List.getElem?_append_left index).trans at_c', rfl, fun _ => rfl⟩
  | call c'' input =>
    simp only [Jobs.step] at applied
    split at applied
    · rename_i acting at_c''
      split at applied
      · rename_i phase shared stepped
        cases applied
        by_cases same : c'' = c'
        · subst same
          cases at_c''.symm.trans at_c'
          refine ⟨{ other with phase }, List.getElem?_set_self ?_, rfl, fun apart => ?_⟩
          · exact (List.getElem?_eq_some_iff.mp at_c').1
          · exact absurd rfl (apart input)
        · exact ⟨other, (List.getElem?_set_ne same).trans at_c', rfl, fun _ => rfl⟩
      · cases applied
    · cases applied
  | receive m again | notify n again =>
    simp only [Jobs.step] at applied
    split at applied
    · cases applied
      exact ⟨other, at_c', rfl, fun _ => rfl⟩
    · cases applied
  | work t fault =>
    simp only [Jobs.step] at applied
    split at applied
    · cases applied
      exact ⟨other, at_c', rfl, fun _ => rfl⟩
    · cases applied
  | answer q failed =>
    simp only [Jobs.step] at applied
    split at applied
    · split at applied
      · cases applied
        exact ⟨other, at_c', rfl, fun _ => rfl⟩
      · cases applied
    · cases applied
  | lose m | crash t | miss n | ask jobId | elapse seconds =>
    cases applied
    exact ⟨other, at_c', rfl, fun _ => rfl⟩

/-- A call that is new was submitted just now. -/
theorem step_calls_new {action : Action} (applied : step p action s = some next) {c' : Nat}
    (absent : s.calls[c']? = none) {later : Call} (at_c' : next.calls[c']? = some later) :
    ∃ made now, later = Call.start p made now ∧
      next = { s with calls := s.calls ++ [Call.start p made now] } := by
  have none_new : next.calls.length ≠ s.calls.length := by
    intro same
    have index := (List.getElem?_eq_some_iff.mp at_c').1
    rw [same] at index
    rw [List.getElem?_eq_getElem index] at absent
    cases absent
  cases action with
  | submit made now =>
    cases applied
    refine ⟨made, now, ?_, rfl⟩
    rw [List.getElem?_append_right (List.getElem?_eq_none_iff.mp absent)] at at_c'
    exact List.mem_singleton.mp (List.mem_of_getElem? at_c')
  | call c'' input =>
    simp only [Jobs.step] at applied
    split at applied
    · split at applied
      · cases applied
        exact absurd List.length_set none_new
      · cases applied
    · cases applied
  | receive m again | notify n again | work t fault =>
    simp only [Jobs.step] at applied
    split at applied
    · cases applied
      exact absurd rfl none_new
    · cases applied
  | answer q failed =>
    simp only [Jobs.step] at applied
    split at applied
    · split at applied
      · cases applied
        exact absurd rfl none_new
      · cases applied
    · cases applied
  | lose m | crash t | miss n | ask jobId | elapse seconds =>
    cases applied
    exact absurd rfl none_new

/-- The commands that change the store, where and by whom they are issued. -/
inductive Issues (p : Platform) (s : State) : Action → Fault → Command → Prop where
  | metadata {c : Nat} {call : Call} {m : JobMetadata} {fault : Fault} :
      s.calls[c]? = some call → call.phase = .storing m →
      Issues p s (.call c (.store fault)) fault
        (RedisManager.setJobMetadata p.env p.serde call.request.jobId m)
  | result {c : Nat} {call : Call} {values : List Double} {fault : Fault} :
      s.calls[c]? = some call → call.phase = .storingResult values →
      Issues p s (.call c (.storeResult fault)) fault
        (RedisManager.setFinalResult p.env call.request.jobId (resultStr p values))
  | progress {c : Nat} {call : Call} {values : List Double} {fault : Fault} {now : Nat} :
      s.calls[c]? = some call → call.phase = .storingProgress values →
      Issues p s (.call c (.storeProgress fault now)) fault
        (RedisManager.updateProgress p.env p.serde now call.request.jobId "completed")
  | slice {t : Nat} {task : WorkerTask} {fault : Fault} :
      s.tasks[t]? = some task → task.written = false →
      Issues p s (.work t fault) fault (.set (resultKey task.jobId task.sliceId) task.payload)

/-- The store changes by time passing and by the commands issued, and not otherwise. -/
theorem step_store {action : Action} (applied : step p action s = some next) :
    next.shared.store = s.shared.store ∨
    (∃ seconds, action = .elapse seconds ∧ next.shared.store = expire seconds s.shared.store) ∨
    ∃ fault command, Issues p s action fault command ∧
      next.shared.store = (attempt fault command s.shared.store).1 := by
  cases action with
  | call c input =>
    simp only [Jobs.step] at applied
    split at applied
    · rename_i call at_c
      split at applied
      · rename_i phase shared stepped
        cases applied
        cases Call.step_effect stepped with
        | store stands attempted =>
          exact .inr (.inr ⟨_, _, .metadata at_c stands, (congrArg Prod.fst attempted).symm⟩)
        | storeResult stands attempted =>
          exact .inr (.inr ⟨_, _, .result at_c stands, (congrArg Prod.fst attempted).symm⟩)
        | storeProgress stands attempted =>
          exact .inr (.inr ⟨_, _, .progress at_c stands, (congrArg Prod.fst attempted).symm⟩)
        | publishFailed | publish | register | cancel => exact .inl rfl
        | wait _ _ waited =>
          obtain ⟨_, _, ⟨_, _, _, rfl⟩ | ⟨_, _, rfl⟩⟩ := waitStep_cases waited <;> exact .inl rfl
      · cases applied
    · cases applied
  | work t fault =>
    simp only [Jobs.step] at applied
    split at applied
    · rename_i task at_t
      cases applied
      simp only [WorkerTask.step]
      split
      · exact .inl rfl
      · rename_i unwritten
        exact .inr (.inr ⟨_, _, .slice at_t (Bool.eq_false_iff.mpr unwritten), rfl⟩)
    · cases applied
  | receive m again =>
    simp only [Jobs.step] at applied
    split at applied
    · cases applied
      left
      split <;> rfl
    · cases applied
  | notify n again =>
    simp only [Jobs.step] at applied
    split at applied
    · cases applied
      exact .inl rfl
    · cases applied
  | answer q failed =>
    simp only [Jobs.step] at applied
    split at applied
    · split at applied
      · cases applied
        exact .inl rfl
      · cases applied
    · cases applied
  | elapse seconds =>
    cases applied
    exact .inr (.inl ⟨seconds, rfl, rfl⟩)
  | submit request now | lose m | crash t | miss n | ask jobId =>
    cases applied
    exact .inl rfl

/-- A call changes by its own steps only. -/
theorem step_call {action : Action} (applied : step p action s = some next) {c : Nat}
    {call : Call} (at_c : s.calls[c]? = some call) :
    ((∀ input, action ≠ .call c input) ∧ next.calls[c]? = some call) ∨
      ∃ input phase shared, action = .call c input ∧
        call.step p s.shared input = some (phase, shared) ∧
          next = { s with shared, calls := s.calls.set c { call with phase } } := by
  by_cases own : ∃ input, action = .call c input
  · obtain ⟨input, rfl⟩ := own
    simp only [Jobs.step, at_c] at applied
    split at applied
    · rename_i phase shared stepped
      cases applied
      exact .inr ⟨input, phase, shared, rfl, stepped, rfl⟩
    · cases applied
  · obtain ⟨later, at_later, -, same⟩ := step_calls applied at_c
    have other : ∀ input, action ≠ .call c input := fun input acts => own ⟨input, acts⟩
    exact .inl ⟨other, same other ▸ at_later⟩

/-- The rule for what the phase of one call says about the state: others act, the
call is made, or it makes a step. -/
theorem step_phase {P : State → Option Phase → Prop} {action : Action}
    (applied : step p action s = some next) (c : Nat)
    (idle : (∀ input, action ≠ .call c input) →
      P s (s.calls[c]?.map Call.phase) → P next (s.calls[c]?.map Call.phase))
    (made : ∀ request now, next = { s with calls := s.calls ++ [Call.start p request now] } →
      P s none → P next (some (Call.start p request now).phase))
    (own : ∀ call input phase shared, s.calls[c]? = some call → action = .call c input →
      call.step p s.shared input = some (phase, shared) →
        next = { s with shared, calls := s.calls.set c { call with phase } } →
          P s (some call.phase) → P next (some phase))
    (before : P s (s.calls[c]?.map Call.phase)) : P next (next.calls[c]?.map Call.phase) := by
  cases at_c : s.calls[c]? with
  | none =>
    rw [at_c] at idle before
    cases at_next : next.calls[c]? with
    | none =>
      apply idle _ before
      rintro input rfl
      simp only [Jobs.step, at_c] at applied
      cases applied
    | some later =>
      obtain ⟨request, now, rfl, same⟩ := step_calls_new applied at_c at_next
      exact made request now same before
  | some call =>
    rw [at_c] at idle before
    rcases step_call applied at_c with ⟨other, same⟩ | ⟨input, phase, shared, acts, stepped, same⟩
    · rw [same]
      exact idle other before
    · have later : next.calls[c]? = some { call with phase } := by
        rw [same, List.getElem?_set_self (List.getElem?_eq_some_iff.mp at_c).1]
      rw [later]
      exact own call input phase shared at_c acts stepped same before

/-- Queries are asked, and they change by their own steps, which change nothing else. -/
theorem step_queries {action : Action} (applied : step p action s = some next) :
    next.queries = s.queries ∨
    (∃ jobId, action = .ask jobId ∧ next = { s with queries := s.queries ++ [⟨jobId, .metadata⟩] }) ∨
    ∃ q query failed phase, action = .answer q failed ∧ s.queries[q]? = some query ∧
      query.step p s.shared.store failed = some phase ∧
        next = { s with queries := s.queries.set q { query with phase } } := by
  cases action with
  | ask jobId =>
    cases applied
    exact .inr (.inl ⟨jobId, rfl, rfl⟩)
  | answer q failed =>
    simp only [Jobs.step] at applied
    split at applied
    · rename_i query at_q
      split at applied
      · rename_i phase stepped
        cases applied
        exact .inr (.inr ⟨q, query, failed, phase, rfl, at_q, stepped, rfl⟩)
      · cases applied
    · cases applied
  | call c input =>
    simp only [Jobs.step] at applied
    split at applied
    · split at applied
      · cases applied
        exact .inl rfl
      · cases applied
    · cases applied
  | receive m again | notify n again | work t fault =>
    simp only [Jobs.step] at applied
    split at applied
    · cases applied
      exact .inl rfl
    · cases applied
  | submit request now | lose m | crash t | miss n | elapse seconds =>
    cases applied
    exact .inl rfl

end steps

/-- What one read of `get_result` does, case by case. -/
inductive Query.Effect (p : Platform) (query : Query) (store : Store) (failed : Bool) :
    QueryPhase → Prop where
  | error (message : String) : query.phase = .metadata →
      Effect p query store failed (.answered (.error (.internal message)))
  | unknown : query.phase = .metadata →
      RedisManager.decodeJobMetadata p.serde (found store (RedisConfig.metadataKey query.jobId)) =
        .ok none →
      Effect p query store failed (.answered (.ok (notFound query.jobId)))
  | known {m : JobMetadata} : query.phase = .metadata →
      RedisManager.decodeJobMetadata p.serde (found store (RedisConfig.metadataKey query.jobId)) =
        .ok (some m) →
      Effect p query store failed (.result m)
  | noResult {m : JobMetadata} : query.phase = .result m →
      (failed = true ∨ ∀ raw,
        RedisManager.getStr (found store (RedisConfig.resultKey query.jobId)) ≠ .ok (some raw)) →
      Effect p query store failed (.counting m 0 0)
  | hasResult {m : JobMetadata} {raw : String} : query.phase = .result m →
      RedisManager.getStr (found store (RedisConfig.resultKey query.jobId)) = .ok (some raw) →
      Effect p query store failed (.lifetime m raw)
  | final {m : JobMetadata} {raw : String} (ttl : Int) : query.phase = .lifetime m raw →
      Effect p query store failed
        (.answered (.ok (finalResponse p.serde p.narrow query.jobId m.totalSlices raw ttl)))
  | count {m : JobMetadata} {i completed : Nat} : query.phase = .counting m i completed →
      i < m.totalSlices →
      Effect p query store failed (.counting m (i + 1)
        (if (!failed && (store (RedisConfig.sliceKey query.jobId i)).isSome) then completed + 1
          else completed))
  | progress {m : JobMetadata} {i completed : Nat} : query.phase = .counting m i completed →
      m.totalSlices ≤ i →
      Effect p query store failed
        (.answered (.ok (progressResponse query.jobId m.totalSlices completed)))

theorem Query.step_effect {query : Query} {store : Store} {failed : Bool} {phase : QueryPhase}
    (applied : query.step p store failed = some phase) : query.Effect p store failed phase := by
  unfold Query.step at applied
  split at applied
  · rename_i stands
    split at applied
    · cases applied
      exact .error _ stands
    · split at applied
      · rename_i absent
        cases applied
        exact .unknown stands absent
      · rename_i m decoded
        cases applied
        exact .known stands decoded
      · cases applied
        exact .error _ stands
  · rename_i m stands
    split at applied
    · rename_i lost
      cases applied
      exact .noResult stands (.inl lost)
    · split at applied
      · rename_i raw read
        cases applied
        exact .hasResult stands read
      · rename_i absent
        cases applied
        exact .noResult stands (.inr absent)
  · rename_i m raw stands
    cases applied
    exact .final _ stands
  · rename_i m i completed stands
    split at applied
    · rename_i inside
      cases applied
      exact .count stands inside
    · rename_i past
      cases applied
      exact .progress stands (Nat.le_of_not_lt past)
  · cases applied

end DistributedSoftmax.System.Jobs
