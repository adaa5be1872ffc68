import DistributedSoftmax.System.JobResults
import DistributedSoftmax.System.KeySpace

/-! Runs without faults: every operation succeeds, nothing is lost, no deadline
passes. Each slice that was published is then in the queue, at a worker or
stored, and a call whose slices can all be computed never errs. -/

set_option autoImplicit false

namespace DistributedSoftmax.System.Jobs
open Foundations.ByteString Foundations.KeyValue Foundations.Transition
open Gateway Worker

/-- Redis answers, messages and workers are not lost, the deadline of a call
does not pass, and its client stays. Notifications may be missed. -/
def Action.FaultFree : Action → Prop
  | .call _ (.store fault) | .call _ (.storeResult fault) | .call _ (.storeProgress fault _) =>
      fault = .none
  | .call _ (.publish failed) | .call _ (.readSlice failed) => failed = false
  | .call _ (.endPass expired) => expired = false
  | .call _ .cancel => False
  | .call _ .register | .call _ .skip | .call _ .wake => True
  | .work _ fault => fault = .none
  | .lose _ | .crash _ => False
  | .submit _ _ | .receive _ _ | .notify _ _ | .miss _ | .ask _ | .answer _ _ | .elapse _ => True

/-- Redis accepts the configured lifetimes: none of them is zero. -/
structure Platform.Accepts (p : Platform) : Prop where
  metadata : RedisConfig.metadataTtl p.env ≠ 0
  result : RedisConfig.resultTtl p.env ≠ 0
  progress : RedisConfig.progressTtl p.env ≠ 0

/-- A request whose slices the workers accept, and whose aggregate can be
written as JSON and read back. -/
structure Servable (p : Platform) (request : TaskRequest) : Prop where
  admitted : Admitted p request
  short : request.vector.length < 2 ^ 32
  accepted : ∀ data ∈ slicesOf p request, ∃ stats, workerStats p data = some stats
  answered : ∀ partials, (slicesOf p request).mapM (workerStats p) = some partials →
    ∃ values, p.aggregateSoftmax (partials.map (ofPartial p.widen)) = .ok values ∧
      ∀ v ∈ values, v.isFinite = true

/-- Call `c` is the only one with the job identifier, and no other one has its
final result under a slice key of the job. -/
def Fresh (c : Nat) (jobId : String) (s : State) : Prop :=
  ∀ c' other, s.calls[c']? = some other → c' ≠ c →
    other.request.jobId ≠ jobId ∧ ¬ Nested jobId other.request.jobId

variable (p : Platform) (request : TaskRequest)

/-- Slice `i` waits in the queue, is at a worker, or is stored. -/
def Underway (s : State) (i : Nat) (data : List Double) (stats : PartialStats Double Single) : Prop :=
  taskMessage request i data ∈ s.shared.queue ∨
    (⟨request.jobId, i, encodePartial stats, false⟩ : WorkerTask) ∈ s.tasks ∨
    s.shared.store (RedisConfig.sliceKey request.jobId i) = some ⟨encodePartial stats, none⟩

/-- The first `k` slices are on their way. -/
def SlicesUnderway (s : State) (k : Nat) : Prop :=
  ∀ i < k, ∀ data, (slicesOf p request)[i]? = some data →
    ∃ stats, workerStats p data = some stats ∧ Underway request s i data stats

/-- Where a call can be in a run without faults. -/
def PhaseGood (s : State) : Phase → Prop
  | .storing _ => True
  | .publishing sliceId => SlicesUnderway p request s sliceId
  | .waiting waiting => SlicesUnderway p request s (slicesOf p request).length ∧
      ∀ outcome, waiting.point ≠ .left outcome
  | .storingResult values | .storingProgress values => ∀ v ∈ values, v.isFinite = true
  | .returned (.ok _) => True
  | .returned (.error _) | .dropped => False

variable {p request}

theorem not_nested_self (jobId : String) : ¬ Nested jobId jobId := by
  rintro ⟨sliceId, same⟩
  have lengths := congrArg String.length same
  rw [String.length_append, String.length_append] at lengths
  have colon : (":" : String).length = 1 := rfl
  omega

theorem sliceKey_ne_resultKey {jobId owner : String} (apart : ¬ Nested jobId owner) (i : Nat) :
    RedisConfig.sliceKey jobId i ≠ RedisConfig.resultKey owner := by
  intro same
  rw [RedisConfig.sliceKey_eq_resultKey] at same
  exact apart ⟨i, (RedisConfig.resultKey_injective same).symm⟩

/-- A step of a call keeps the messages of the queue and the slices of jobs it
is not nested in. -/
theorem Call.step_frame {call : Call} {shared shared' : Shared} {input : CallInput} {phase : Phase}
    (applied : call.step p shared input = some (phase, shared')) {jobId : String}
    (apart : ¬ Nested jobId call.request.jobId) :
    (∀ message ∈ shared.queue, message ∈ shared'.queue) ∧
      ∀ i, shared'.store (RedisConfig.sliceKey jobId i) =
        shared.store (RedisConfig.sliceKey jobId i) := by
  have written : ∀ {fault : Fault} {command : Command} {store : Store} {reply : Option Reply},
      attempt fault command shared.store = (store, reply) →
      (∀ i, RedisConfig.sliceKey jobId i ≠ command.key) →
      ∀ i, store (RedisConfig.sliceKey jobId i) = shared.store (RedisConfig.sliceKey jobId i) := by
    intro fault command store reply attempted other i
    rw [← attempt_frame fault shared.store (other i), attempted]
  cases Call.step_effect applied with
  | store _ attempted =>
    exact ⟨fun _ queued => queued,
      written attempted fun i => RedisConfig.sliceKey_ne_metadataKey _ _ _⟩
  | publishFailed | cancel => exact ⟨fun _ queued => queued, fun _ => rfl⟩
  | publish => exact ⟨fun _ queued => List.mem_append_left _ queued, fun _ => rfl⟩
  | register => exact ⟨fun _ queued => queued, fun _ => rfl⟩
  | wait _ _ stepped =>
    obtain ⟨_, _, ⟨_, _, _, rfl⟩ | ⟨_, _, rfl⟩⟩ := waitStep_cases stepped <;>
      exact ⟨fun _ queued => queued, fun _ => rfl⟩
  | storeResult _ attempted =>
    exact ⟨fun _ queued => queued, written attempted (sliceKey_ne_resultKey apart)⟩
  | storeProgress _ attempted =>
    exact ⟨fun _ queued => queued,
      written attempted fun i => RedisConfig.sliceKey_ne_progressKey _ _ _⟩

theorem mem_eraseIdx_or_eq {α : Type} {xs : List α} {n : Nat} {x y : α} (member : x ∈ xs)
    (at_n : xs[n]? = some y) : x = y ∨ x ∈ xs.eraseIdx n := by
  obtain ⟨k, at_k⟩ := List.mem_iff_getElem?.mp member
  by_cases same : k = n
  · subst same
    exact .inl (Option.some.inj (at_k.symm.trans at_n))
  · exact .inr (List.mem_eraseIdx_iff_getElem?.mpr ⟨k, same, at_k⟩)

theorem mem_set_or_eq {α : Type} {xs : List α} {n : Nat} {x y z : α} (member : x ∈ xs)
    (at_n : xs[n]? = some y) : x = y ∨ x ∈ xs.set n z := by
  obtain ⟨k, at_k⟩ := List.mem_iff_getElem?.mp member
  by_cases same : n = k
  · subst same
    exact .inl (Option.some.inj (at_k.symm.trans at_n))
  · exact .inr (List.mem_of_getElem? ((List.getElem?_set_ne same).trans at_k))

/-- A message whose slice can be computed is accepted. -/
theorem handleTask_taskMessage {i : Nat} {data : List Double} {stats : PartialStats Double Single}
    (softmax : request.task = "softmax") (bound : i < 2 ^ 64)
    (computed : workerStats p data = some stats) :
    ∃ values, handleTask p.serde p.computePartial
      (some (p.serde.wire (taskMessage request i data))) =
        .ok (⟨request.jobId, i, request.task, values⟩, encodePartial stats) := by
  rw [workerStats, Option.bind_eq_bind, Option.bind_eq_some_iff] at computed
  obtain ⟨values, read, computed⟩ := computed
  split at computed
  · cases computed
  rename_i nonempty
  have result : p.computePartial values = .ok stats := by
    cases result : p.computePartial values with
    | error message =>
      rw [result] at computed
      cases computed
    | ok other =>
      rw [result] at computed
      cases computed
      rfl
  refine ⟨values, handleTask_eq_ok.mpr ⟨?_, softmax, ?_, stats, result, rfl⟩⟩
  · rw [Option.bind_some, ofJson_taskMessage, if_pos bound, read]
    rfl
  · exact fun empty => nonempty (List.isEmpty_iff.mpr empty)

theorem taskOf_taskMessage {i : Nat} {data : List Double} {stats : PartialStats Double Single}
    (softmax : request.task = "softmax") (bound : i < 2 ^ 64)
    (computed : workerStats p data = some stats) :
    taskOf p (taskMessage request i data) =
      [⟨request.jobId, i, encodePartial stats, false⟩] := by
  obtain ⟨values, accepted⟩ := handleTask_taskMessage softmax bound computed
  rw [taskOf, accepted]

theorem Admitted.flatten_slicesOf (admitted : Admitted p request) :
    (slicesOf p request).flatten = request.vector.map p.widen :=
  cutSlices_flatten (requestSlices_eq_ok.mp admitted).2.2

theorem Admitted.slicesOf_nonempty (admitted : Admitted p request) :
    ∀ data ∈ slicesOf p request, data ≠ [] :=
  cutSlices_nonempty (requestSlices_eq_ok.mp admitted).2.2

theorem Admitted.length_slicesOf_le (admitted : Admitted p request) :
    (slicesOf p request).length ≤ request.vector.length := by
  have count := length_le_flatten admitted.slicesOf_nonempty
  rwa [admitted.flatten_slicesOf, List.length_map] at count

theorem Admitted.length_le_of_mem (admitted : Admitted p request) {data : List Double}
    (member : data ∈ slicesOf p request) : data.length ≤ request.vector.length := by
  have part := (List.sublist_flatten_of_mem member).length_le
  rwa [admitted.flatten_slicesOf, List.length_map] at part

section preserved
variable {c : Nat} {s next : State} {call : Call}

/-- Whoever has the job identifier made this request. -/
theorem Fresh.only (fresh : Fresh c request.jobId s) (at_c : s.calls[c]? = some call)
    (own : call.request = request) :
    ∀ other ∈ s.requests, other.jobId = request.jobId → other = request := by
  intro other made jobId
  obtain ⟨otherCall, member, rfl⟩ := List.mem_map.mp made
  obtain ⟨c', at_c'⟩ := List.mem_iff_getElem?.mp member
  by_cases same : c' = c
  · subst same
    cases at_c.symm.trans at_c'
    exact own
  · exact absurd jobId (fresh c' otherCall at_c' same).1

theorem SliceFor.own {requests : List TaskRequest} {i : Nat} {data : List Double}
    {stats stats' : PartialStats Double Single}
    (only : ∀ other ∈ requests, other.jobId = request.jobId → other = request)
    (at_i : (slicesOf p request)[i]? = some data) (computed : workerStats p data = some stats)
    (slice : SliceFor p requests request.jobId i stats') : stats' = stats := by
  obtain ⟨other, made, jobId, data', at_i', computed'⟩ := slice
  rw [only other made jobId] at at_i'
  cases at_i.symm.trans at_i'
  exact Option.some.inj (computed'.symm.trans computed)

theorem WorkerTask.step_none (task : WorkerTask) (store : Store) (channel : List Notification) :
    task.step .none store channel =
      if task.written then (none, store, channel ++ [sliceDone task.jobId task.sliceId])
      else (some { task with written := true },
        Function.update store (resultKey task.jobId task.sliceId) (some ⟨task.payload, none⟩),
        channel) := rfl

/-- A worker step without a fault keeps every slice of the job on its way: it can
only write what belongs there. -/
theorem Underway.work {i t : Nat} {data : List Double} {stats : PartialStats Double Single}
    {task : WorkerTask} (inv : Inv p s)
    (only : ∀ other ∈ s.requests, other.jobId = request.jobId → other = request)
    (at_i : (slicesOf p request)[i]? = some data) (computed : workerStats p data = some stats)
    (at_t : s.tasks[t]? = some task) (underway : Underway request s i data stats)
    (applied : step p (.work t .none) s = some next) : Underway request next i data stats := by
  simp only [step, at_t, WorkerTask.step_none] at applied
  cases written : task.written with
  | true =>
    rw [written] at applied
    cases applied
    rcases underway with queued | working | stored
    · exact .inl queued
    · rcases mem_eraseIdx_or_eq working at_t with same | stays
      · rw [← same] at written
        cases written
      · exact .inr (.inl stays)
    · exact .inr (.inr stored)
  | false =>
    rw [written] at applied
    cases applied
    -- A write under the key of the slice has the payload of the slice.
    have writes : RedisConfig.sliceKey request.jobId i = resultKey task.jobId task.sliceId →
        task.payload = encodePartial stats := by
      intro same
      obtain ⟨jobId, sliceId⟩ := RedisConfig.sliceKey_inj same
      obtain ⟨stats', slice, payload⟩ := inv.tasks task (List.mem_of_getElem? at_t)
      rw [← jobId, ← sliceId] at slice
      rw [payload, slice.own only at_i computed]
    have kept : s.shared.store (RedisConfig.sliceKey request.jobId i) =
        some ⟨encodePartial stats, none⟩ →
        Function.update s.shared.store (resultKey task.jobId task.sliceId)
          (some ⟨task.payload, none⟩) (RedisConfig.sliceKey request.jobId i) =
            some ⟨encodePartial stats, none⟩ := by
      intro stored
      by_cases same : RedisConfig.sliceKey request.jobId i = resultKey task.jobId task.sliceId
      · rw [same, Function.update_self, writes same]
      · rw [Function.update_of_ne same, stored]
    rcases underway with queued | working | stored
    · exact .inl queued
    · rcases mem_set_or_eq working at_t with same | stays
      · refine .inr (.inr ?_)
        rw [← same]
        exact Function.update_self _ _ _
      · exact .inr (.inl stays)
    · exact .inr (.inr (kept stored))

theorem expire_lasting {store : Store} {key : String} {value : Bytes} (seconds : Nat)
    (stored : store key = some ⟨value, none⟩) : expire seconds store key = some ⟨value, none⟩ := by
  rw [expire, stored]

theorem Underway.call_step {i c' : Nat} {data : List Double} {stats : PartialStats Double Single}
    {acting : Call} {input : CallInput} {phase : Phase} {shared : Shared}
    (fresh : Fresh c request.jobId s) (at_c : s.calls[c]? = some call) (own : call.request = request)
    (at_c' : s.calls[c']? = some acting)
    (stepped : acting.step p s.shared input = some (phase, shared))
    (underway : Underway request s i data stats) :
    Underway request { s with shared, calls := s.calls.set c' { acting with phase } } i data stats := by
  -- Its keys are not slice keys of this job: it is the job itself, or not nested.
  have apart : ¬ Nested request.jobId acting.request.jobId := by
    by_cases same : c' = c
    · subst same
      cases at_c.symm.trans at_c'
      rw [own]
      exact not_nested_self _
    · exact (fresh c' acting at_c' same).2
  obtain ⟨queue, store⟩ := Call.step_frame stepped apart
  rcases underway with queued | working | stored
  · exact .inl (queue _ queued)
  · exact .inr (.inl working)
  · exact .inr (.inr ((store i).trans stored))

/-- A message that leaves the queue goes to a worker. -/
theorem Underway.receive {i m : Nat} {data : List Double} {stats : PartialStats Double Single}
    {message : Json Double} (admitted : Admitted p request) (bound : i < 2 ^ 64)
    (computed : workerStats p data = some stats) (at_m : s.shared.queue[m]? = some message)
    (again : Bool) (underway : Underway request s i data stats) :
    Underway request { s with
      shared := if again then s.shared else { s.shared with queue := s.shared.queue.eraseIdx m }
      tasks := s.tasks ++ taskOf p message } i data stats := by
  rcases underway with queued | working | stored
  · cases again with
    | true => exact .inl queued
    | false =>
      rcases mem_eraseIdx_or_eq queued at_m with same | stays
      · -- The message left the queue, and its slice is with the worker now.
        refine .inr (.inl (List.mem_append_right _ ?_))
        rw [← same, taskOf_taskMessage (requestSlices_eq_ok.mp admitted).1 bound computed]
        exact List.mem_singleton_self _
      · exact .inl stays
  · exact .inr (.inl (List.mem_append_left _ working))
  · refine .inr (.inr ?_)
    split <;> exact stored

/-- No step without a fault loses a slice that was published. -/
theorem Underway.step {i : Nat} {data : List Double} {stats : PartialStats Double Single}
    {action : Action} (faultFree : action.FaultFree) (inv : Inv p s)
    (admitted : Admitted p request) (bound : i < 2 ^ 64)
    (fresh : Fresh c request.jobId s) (at_c : s.calls[c]? = some call) (own : call.request = request)
    (at_i : (slicesOf p request)[i]? = some data) (computed : workerStats p data = some stats)
    (underway : Underway request s i data stats) (applied : step p action s = some next) :
    Underway request next i data stats := by
  cases action with
  | submit other now =>
    cases applied
    exact underway
  | call c' input =>
    simp only [Jobs.step] at applied
    split at applied
    · rename_i acting at_c'
      split at applied
      · rename_i phase shared stepped
        cases applied
        exact underway.call_step fresh at_c own at_c' stepped
      · cases applied
    · cases applied
  | receive m again =>
    simp only [Jobs.step] at applied
    split at applied
    · rename_i message at_m
      cases applied
      exact underway.receive admitted bound computed at_m again
    · cases applied
  | lose m => exact faultFree.elim
  | work t fault =>
    cases faultFree
    cases at_t : s.tasks[t]? with
    | none =>
      simp only [Jobs.step, at_t] at applied
      cases applied
    | some task => exact underway.work inv (fresh.only at_c own) at_i computed at_t applied
  | crash t => exact faultFree.elim
  | notify n again =>
    simp only [Jobs.step] at applied
    split at applied
    · cases applied
      exact underway
    · cases applied
  | miss n =>
    cases applied
    exact underway
  | ask jobId =>
    cases applied
    exact underway
  | answer q failed =>
    simp only [Jobs.step] at applied
    split at applied
    · split at applied
      · cases applied
        exact underway
      · cases applied
    · cases applied
  | elapse seconds =>
    cases applied
    rcases underway with queued | working | stored
    · exact .inl queued
    · exact .inr (.inl working)
    · exact .inr (.inr (expire_lasting seconds stored))

theorem SlicesUnderway.step {action : Action} {k : Nat} (faultFree : action.FaultFree)
    (inv : Inv p s) (servable : Servable p request) (fresh : Fresh c request.jobId s)
    (at_c : s.calls[c]? = some call) (own : call.request = request)
    (underway : SlicesUnderway p request s k) (applied : step p action s = some next) :
    SlicesUnderway p request next k := by
  intro i below data at_i
  obtain ⟨stats, computed, way⟩ := underway i below data at_i
  have inside : i < (slicesOf p request).length := (List.getElem?_eq_some_iff.mp at_i).1
  have bound : i < 2 ^ 64 := by
    have count := servable.admitted.length_slicesOf_le
    have short := servable.short
    omega
  exact ⟨stats, computed,
    way.step faultFree inv servable.admitted bound fresh at_c own at_i computed applied⟩

theorem Fresh.of_step {action : Action} {jobId : String} (fresh : Fresh c jobId next)
    (applied : step p action s = some next) : Fresh c jobId s := by
  intro c' other at_c' apart
  obtain ⟨later, at_later, same, -⟩ := step_calls applied at_c'
  rw [← same]
  exact fresh c' later at_later apart

end preserved

section phases
variable {c : Nat} {s next : State} {call : Call}

theorem PhaseGood.mono {phase : Phase} (good : PhaseGood p request s phase)
    (keeps : ∀ k, SlicesUnderway p request s k → SlicesUnderway p request next k) :
    PhaseGood p request next phase := by
  cases phase with
  | publishing sliceId => exact keeps _ good
  | waiting waiting => exact ⟨keeps _ good.1, good.2⟩
  | returned outcome =>
    cases outcome with
    | ok result => trivial
    | error status => exact good
  | storing | storingResult | storingProgress | dropped => exact good

theorem aggregateStats_ofPartial {D S : Type}
    (aggregateSoftmax : List (SliceStats D) → Except String (List D)) (widen : S → D)
    (partials : List (PartialStats D S)) :
    aggregateStats aggregateSoftmax (partials.map (ofPartial widen)) =
      aggregateSoftmax (partials.map (ofPartial widen)) := by
  cases partials <;> rfl

/-- A complete set of slices of the job has a finite aggregate. -/
theorem Servable.aggregated (servable : Servable p request) {requests : List TaskRequest}
    (only : ∀ other ∈ requests, other.jobId = request.jobId → other = request)
    {stats : List (SliceStats Double)} (lengths : stats.length = (slicesOf p request).length)
    (good : ∀ i held, stats[i]? = some held → GoodSlice p requests request.jobId i held) :
    ∃ values, aggregateStats p.aggregateSoftmax stats = .ok values ∧
      ∀ v ∈ values, v.isFinite = true := by
  obtain ⟨partials, computed, rfl⟩ := mapM_of_getElem? lengths fun i held at_i =>
    (good i held at_i).own (fun other made jobId => by rw [only other made jobId])
      (lengths ▸ (List.getElem?_eq_some_iff.mp at_i).1)
  obtain ⟨values, aggregated, finite⟩ := servable.answered partials computed
  exact ⟨values, (aggregateStats_ofPartial _ _ _).trans aggregated, finite⟩

theorem attempt_setEx {key : String} {value : Bytes} {seconds : Nat} (positive : seconds ≠ 0)
    {store store' : Store} {reply : Option Reply}
    (attempted : attempt .none (.setEx key value seconds) store = (store', reply)) :
    reply = some .ok := by
  simp only [attempt, Command.exec, if_neg positive] at attempted
  cases attempted
  rfl

theorem resultFloats_of_finite (documented : p.serde.Documented) {values : List Double}
    (finite : ∀ v ∈ values, v.isFinite = true) :
    ∃ result, resultFloats p.serde p.narrow (resultStr p values) = some result := by
  rw [resultFloats, resultStr, documented.array_parse, Option.bind_some,
    SerdeJson.toDoubles?_wire_of_finite finite]
  exact ⟨_, rfl⟩

/-- The loop is left with an error only when the deadline passed. -/
theorem Waits.timeout {jobId : String} {waiting after : Waiting} {shared : Shared}
    {input : CallInput} {event : WaitEvent} (event_of : Waits p jobId waiting shared input event)
    (moved : waiting.step jobId event = some after) {message : String}
    (left : after.point = .left (.error message)) : ¬ (Action.call c input).FaultFree := by
  rcases Waiting.step_cases moved with ⟨_, _, -, -, -, -, rfl⟩ | ⟨_, -, -, -, -, rfl⟩ |
    ⟨expired, _, same, -, -, ⟨-, rfl⟩ | ⟨-, late, rfl⟩ | ⟨-, -, rfl⟩⟩ | ⟨_, -, -, rfl⟩
  · cases left
  · cases left
  · cases left
  · subst late
    cases event_of with
    | endPass =>
      cases same
      exact fun faultFree => nomatch faultFree
    | readSlice | skip | wake => cases same
  · cases left
  · cases left

/-- A step of the call itself keeps it on a good way. -/
theorem Call.step_good (documented : p.serde.Documented) (accepts : p.Accepts)
    (servable : Servable p request) {input : CallInput} {phase : Phase} {shared : Shared}
    (faultFree : (Action.call c input).FaultFree) (inv : Inv p s)
    (fresh : Fresh c request.jobId s) (at_c : s.calls[c]? = some call) (own : call.request = request)
    (good : PhaseGood p request s call.phase)
    (applied : call.step p s.shared input = some (phase, shared))
    (keeps : ∀ k, SlicesUnderway p request s k → SlicesUnderway p request next k)
    (queue : next.shared.queue = shared.queue) : PhaseGood p request next phase := by
  have only := fresh.only at_c own
  cases Call.step_effect applied with
  | store stands attempted =>
    cases faultFree
    rw [attempt_setEx accepts.metadata attempted, if_pos rfl]
    exact fun i below => absurd below (Nat.not_lt_zero i)
  | publishFailed => cases faultFree
  | @publish sliceId data stands at_slice =>
    rw [stands] at good
    intro i below data' at_i
    rcases Nat.lt_succ_iff_lt_or_eq.mp below with earlier | rfl
    · exact keeps sliceId good i earlier data' at_i
    · rw [own] at at_slice queue
      cases at_slice.symm.trans at_i
      obtain ⟨stats, computed⟩ := servable.accepted data (List.mem_of_getElem? at_i)
      refine ⟨stats, computed, .inl ?_⟩
      rw [queue]
      exact List.mem_append_right _ (List.mem_singleton_self _)
  | register stands all =>
    rw [stands, all, own] at good
    exact ⟨keeps _ good, fun outcome left => nomatch left⟩
  | @wait waiting _ event _ _ stands event_of stepped =>
    rw [stands] at good
    obtain ⟨after, moved, ⟨outcome, left, rfl, rfl⟩ | ⟨stays, rfl, rfl⟩⟩ := waitStep_cases stepped
    · have ok := inv.calls call (List.mem_of_getElem? at_c)
      rw [stands] at ok
      have total := (Waiting.step_totalSlices moved).trans ok.2.1
      have sound := Waiting.step_sound moved ok.2.2 (event_of.good documented inv.store)
      cases outcome with
      -- Without a fault the deadline does not pass.
      | error message => exact absurd faultFree (event_of.timeout moved left)
      | ok stats =>
        obtain ⟨rfl, none_left⟩ := sound.leftComplete stats left
        rw [own] at sound total
        obtain ⟨values, aggregated, finite⟩ := servable.aggregated only
          (sound.collected.lengthStats.trans total) fun i held at_i =>
            sound.collected.complete none_left at_i
        rw [afterWaiting, aggregated]
        exact finite
    · exact ⟨keeps _ good.1, stays⟩
  | storeResult stands attempted =>
    cases faultFree
    rw [attempt_setEx accepts.result attempted, if_pos rfl]
    rw [stands] at good
    exact good
  | storeProgress stands attempted =>
    cases faultFree
    rw [stands] at good
    obtain ⟨result, read⟩ := resultFloats_of_finite documented good
    rw [attempt_setEx accepts.progress attempted, if_pos rfl, read]
    trivial
  | cancel => exact faultFree.elim

/-- While its job identifier is fresh, call `c` with the request is on a good way. -/
def Good (p : Platform) (request : TaskRequest) (c : Nat) (s : State) : Prop :=
  ∀ call, s.calls[c]? = some call → call.request = request → Fresh c request.jobId s →
    PhaseGood p request s call.phase

theorem step_good (documented : p.serde.Documented) (accepts : p.Accepts)
    (servable : Servable p request) {action : Action} (faultFree : action.FaultFree)
    (inv : Inv p s) (good : Good p request c s) (applied : step p action s = some next) :
    Good p request c next := by
  intro later at_later own freshNext
  have fresh := freshNext.of_step applied
  cases at_c : s.calls[c]? with
  | none =>
    obtain ⟨made, now, rfl, -⟩ := step_calls_new applied at_c at_later
    rw [start_request] at own
    subst own
    rw [Call.start, servable.admitted]
    trivial
  | some call =>
    rcases step_call applied at_c with ⟨-, same⟩ | ⟨input, phase, shared, rfl, stepped, rfl⟩
    · cases at_later.symm.trans same
      apply (good _ at_c own fresh).mono
      exact fun k underway => underway.step faultFree inv servable fresh at_c own applied
    · rw [List.getElem?_set_self (List.getElem?_eq_some_iff.mp at_c).1] at at_later
      cases at_later
      have keeps : ∀ k, SlicesUnderway p request s k → SlicesUnderway p request _ k :=
        fun k underway => underway.step faultFree inv servable fresh at_c own applied
      exact Call.step_good documented accepts servable faultFree inv fresh at_c own
        (good _ at_c own fresh) stepped keeps rfl

end phases
end DistributedSoftmax.System.Jobs
