import DistributedSoftmax.Gateway.Collection
import DistributedSoftmax.Gateway.StatusView
import DistributedSoftmax.System.JobEffects
import DistributedSoftmax.System.Messages
import DistributedSoftmax.System.SliceCodec

/-! What a job can return. Every stored value and every slice in flight belongs
to some request that was made; a value under a slice key that is no encoded
slice is rejected by the decoder. So all a call can collect are slices computed
for requests with its own job identifier. -/

set_option autoImplicit false

namespace DistributedSoftmax.System.Jobs
open Foundations.ByteString Foundations.KeyValue Foundations.Transition
open Gateway Worker

variable (p : Platform)

/-- The statistics a worker computes for a slice, unless it rejects the slice. -/
def workerStats (data : List Double) : Option (PartialStats Double Single) := do
  let values ← received p.serde data
  if values.isEmpty then none else (p.computePartial values).toOption

/-- What a job returns when nothing else interferes: its own slices, computed
one by one and aggregated in their order. -/
def expected (request : TaskRequest) : Option (List Single) := do
  let slices ← (requestSlices .zmq p.env p.widen request).toOption
  let stats ← slices.mapM (workerStats p)
  let values ← (aggregateStats p.aggregateSoftmax (stats.map (ofPartial p.widen))).toOption
  resultFloats p.serde p.narrow (resultStr p values)

/-- A message of the gateway, taken by a worker: the slice it names is computed. -/
theorem mem_taskOf {request : TaskRequest} {sliceId : Nat} {data : List Double} {task : WorkerTask}
    (member : task ∈ taskOf p (taskMessage request sliceId data)) :
    task.jobId = request.jobId ∧ task.sliceId = sliceId ∧
      ∃ stats, workerStats p data = some stats ∧ task.payload = encodePartial stats := by
  unfold taskOf at member
  split at member
  · rename_i msg payload accepted
    obtain ⟨parsed, -, nonempty, stats, computed, rfl⟩ := handleTask_eq_ok.mp accepted
    cases List.mem_singleton.mp member
    rw [Option.bind_some, ofJson_taskMessage] at parsed
    split at parsed
    · obtain ⟨values, read, rfl⟩ := Option.map_eq_some_iff.mp parsed
      refine ⟨rfl, rfl, stats, ?_, rfl⟩
      have someValues : values.isEmpty = false := List.isEmpty_eq_false_iff.mpr nonempty
      simp only at computed
      rw [workerStats, read, Option.bind_eq_bind, Option.bind_some, someValues, computed]
      rfl
    · cases parsed
  · cases member

section requests
variable (requests : List TaskRequest)

/-- Statistics of slice `i` of some request with the job identifier. -/
def SliceFor (jobId : String) (i : Nat) (stats : PartialStats Double Single) : Prop :=
  ∃ request ∈ requests, request.jobId = jobId ∧
    ∃ data, (slicesOf p request)[i]? = some data ∧ workerStats p data = some stats

/-- What a gateway may hold as slice `i` of the job. -/
def GoodSlice (jobId : String) (i : Nat) (s : SliceStats Double) : Prop :=
  ∃ stats, SliceFor p requests jobId i stats ∧ s = ofPartial p.widen stats

/-- The request passed the checks. -/
def Admitted (request : TaskRequest) : Prop :=
  requestSlices .zmq p.env p.widen request = .ok (slicesOf p request)

/-- The aggregate of slices that were computed for the job identifier, as many
as the request has. -/
def FinalFor (request : TaskRequest) (values : List Double) : Prop :=
  request ∈ requests ∧ Admitted p request ∧ ∃ stats : List (SliceStats Double),
    stats.length = (slicesOf p request).length ∧
    (∀ i s, stats[i]? = some s → GoodSlice p requests request.jobId i s) ∧
    aggregateStats p.aggregateSoftmax stats = .ok values

/-- The result a client can be given for the job identifier. -/
def ResultFor (request : TaskRequest) (result : List Single) : Prop :=
  ∃ values, FinalFor p requests request values ∧
    resultFloats p.serde p.narrow (resultStr p values) = some result

/-- What can be stored under a key. -/
inductive Written : String → Bytes → Prop where
  | slice {jobId : String} {i : Nat} {stats : PartialStats Double Single} :
      SliceFor p requests jobId i stats →
        Written (RedisConfig.sliceKey jobId i) (encodePartial stats)
  | result {request : TaskRequest} {values : List Double} : FinalFor p requests request values →
      Written (RedisConfig.resultKey request.jobId) (utf8 (resultStr p values))
  | metadata (jobId : String) (value : Bytes) : Written (RedisConfig.metadataKey jobId) value
  | progress (jobId : String) (value : Bytes) : Written (RedisConfig.progressKey jobId) value

/-- A task message on its way belongs to a request. -/
def MessageOk (message : Json Double) : Prop :=
  ∃ request ∈ requests, ∃ i data, (slicesOf p request)[i]? = some data ∧
    message = taskMessage request i data

def TaskOk (task : WorkerTask) : Prop :=
  ∃ stats, SliceFor p requests task.jobId task.sliceId stats ∧ task.payload = encodePartial stats

def PhaseOk (request : TaskRequest) : Phase → Prop
  | .storing _ => Admitted p request
  | .publishing sliceId => Admitted p request ∧ sliceId ≤ (slicesOf p request).length
  | .waiting waiting => Admitted p request ∧
      waiting.totalSlices = (slicesOf p request).length ∧
      waiting.Sound (GoodSlice p requests request.jobId)
  | .storingResult values | .storingProgress values => FinalFor p requests request values
  | .returned (.ok result) => ResultFor p requests request result
  | .returned (.error _) | .dropped => True

def QueryOk (jobId : String) : QueryPhase → Prop
  | .lifetime _ raw => Written p requests (RedisConfig.resultKey jobId) (utf8 raw)
  | .answered (.ok response) => response.status = "ready" →
      ∃ request, request.jobId = jobId ∧ ResultFor p requests request response.result
  | _ => True

end requests

/-- Everything in the system belongs to the requests that were made. -/
structure Inv (s : State) : Prop where
  queue : ∀ message ∈ s.shared.queue, MessageOk p s.requests message
  store : s.shared.store.All (Written p s.requests)
  tasks : ∀ task ∈ s.tasks, TaskOk p s.requests task
  calls : ∀ call ∈ s.calls, PhaseOk p s.requests call.request call.phase
  queries : ∀ query ∈ s.queries, QueryOk p s.requests query.jobId query.phase

section mono
variable {p} {requests later : List TaskRequest} (grows : ∀ r ∈ requests, r ∈ later)
include grows

theorem SliceFor.mono {jobId : String} {i : Nat} {stats : PartialStats Double Single}
    (slice : SliceFor p requests jobId i stats) : SliceFor p later jobId i stats := by
  obtain ⟨request, member, own⟩ := slice
  exact ⟨request, grows request member, own⟩

theorem GoodSlice.mono {jobId : String} {i : Nat} {s : SliceStats Double}
    (good : GoodSlice p requests jobId i s) : GoodSlice p later jobId i s := by
  obtain ⟨stats, slice, same⟩ := good
  exact ⟨stats, slice.mono grows, same⟩

theorem FinalFor.mono {request : TaskRequest} {values : List Double}
    (final : FinalFor p requests request values) : FinalFor p later request values := by
  obtain ⟨member, admitted, stats, length, good, aggregated⟩ := final
  exact ⟨grows request member, admitted, stats, length,
    fun i s at_i => (good i s at_i).mono grows, aggregated⟩

theorem ResultFor.mono {request : TaskRequest} {result : List Single}
    (returned : ResultFor p requests request result) : ResultFor p later request result := by
  obtain ⟨values, final, same⟩ := returned
  exact ⟨values, final.mono grows, same⟩

theorem Written.mono {key : String} {value : Bytes} (written : Written p requests key value) :
    Written p later key value := by
  cases written with
  | slice slice => exact .slice (slice.mono grows)
  | result final => exact .result (final.mono grows)
  | metadata jobId => exact .metadata jobId value
  | progress jobId => exact .progress jobId value

theorem PhaseOk.mono {request : TaskRequest} {phase : Phase}
    (ok : PhaseOk p requests request phase) : PhaseOk p later request phase := by
  cases phase with
  | storing metadata => exact ok
  | publishing sliceId => exact ok
  | waiting waiting => exact ⟨ok.1, ok.2.1, ok.2.2.mono fun i s good => good.mono grows⟩
  | storingResult values => exact FinalFor.mono grows ok
  | storingProgress values => exact FinalFor.mono grows ok
  | returned outcome =>
    cases outcome with
    | ok result => exact ResultFor.mono grows ok
    | error status => trivial
  | dropped => trivial

theorem QueryOk.mono {jobId : String} {phase : QueryPhase}
    (ok : QueryOk p requests jobId phase) : QueryOk p later jobId phase := by
  cases phase with
  | lifetime metadata raw => exact Written.mono grows ok
  | answered response =>
    cases response with
    | ok response =>
      intro ready
      obtain ⟨request, own, returned⟩ := ok ready
      exact ⟨request, own, returned.mono grows⟩
    | error status => trivial
  | metadata | result | counting => trivial

end mono

theorem utf8_injective {first second : String} (same : utf8 first = utf8 second) :
    first = second := by
  have texts := congrArg fromUtf8? same
  rw [fromUtf8?_utf8, fromUtf8?_utf8] at texts
  exact Option.some.inj texts

theorem getStr_eq_some {value : Option Bytes} {raw : String}
    (read : RedisManager.getStr value = .ok (some raw)) : value = some (utf8 raw) := by
  unfold RedisManager.getStr at read
  split at read
  · cases read
  · split at read
    · rename_i text valid
      cases read
      rw [utf8_of_fromUtf8? valid]
    · cases read

section reading
variable {p} {requests : List TaskRequest} (documented : p.serde.Documented)
include documented

/-- The bytes of a slice are no vector. -/
theorem resultFloats_encodePartial {raw : String} {stats : PartialStats Double Single}
    (same : utf8 raw = encodePartial stats) :
    resultFloats p.serde p.narrow raw = none := by
  have head : (utf8 raw).head? = some 0x01 := by rw [same]; rfl
  have rejected := documented.control_rejected raw 0x01 head (.inl rfl)
  rw [resultFloats, rejected]
  rfl

/-- A final result under a slice key is no slice: the text of an array has no field. -/
theorem readSlice_resultStr (values : List Double) :
    readSlice p.serde p.widen (some (utf8 (resultStr p values))) = .error .missingExpValues := by
  have head : (utf8 (resultStr p values)).head? = some 0x5B := documented.array_bracket values
  cases bytes : utf8 (resultStr p values) with
  | nil =>
    rw [bytes] at head
    cases head
  | cons magic rest =>
    have bracket : magic = 0x5B := by
      rw [bytes] at head
      exact Option.some.inj head
    have text : fromUtf8? (magic :: rest) = some (resultStr p values) := by
      rw [← bytes, fromUtf8?_utf8]
    have array : (p.serde.wire (Json.ofDoubles values)).field "exp_values" = .null := rfl
    have first : magic ≠ 0x01 := by rw [bracket]; decide
    have second : magic ≠ 0x02 := by rw [bracket]; decide
    rw [readSlice, if_neg first, if_neg second, readJson]
    simp only [text, resultStr, documented.array_parse values, array]
    rfl

/-- What the decoder accepts under a slice key was computed for that slice. -/
theorem Written.goodSlice {jobId : String} {i : Nat} {value : Bytes}
    (written : Written p requests (RedisConfig.sliceKey jobId i) value) {s : SliceStats Double}
    (read : readSlice p.serde p.widen (some value) = .ok (some s)) :
    GoodSlice p requests jobId i s := by
  generalize key_eq : RedisConfig.sliceKey jobId i = key at written
  cases written with
  | slice slice =>
    obtain ⟨rfl, rfl⟩ := RedisConfig.sliceKey_inj key_eq
    exact ⟨_, slice, readSlice_encodePartial_eq_some p.serde p.widen read⟩
  | result final =>
    rw [readSlice_resultStr documented] at read
    cases read
  | metadata other => exact absurd key_eq (RedisConfig.sliceKey_ne_metadataKey _ _ _)
  | progress other => exact absurd key_eq (RedisConfig.sliceKey_ne_progressKey _ _ _)

/-- A text under a final-result key that is read as a vector is a final result
of the job: the bytes of a slice are no JSON. -/
theorem Written.resultFor {jobId raw : String}
    (written : Written p requests (RedisConfig.resultKey jobId) (utf8 raw)) {result : List Single}
    (read : resultFloats p.serde p.narrow raw = some result) :
    ∃ request, request.jobId = jobId ∧ ResultFor p requests request result := by
  generalize key_eq : RedisConfig.resultKey jobId = key at written
  generalize value_eq : utf8 raw = value at written
  cases written with
  | slice slice =>
    rw [resultFloats_encodePartial documented value_eq] at read
    cases read
  | @result request values final =>
    have text : raw = resultStr p values := utf8_injective value_eq
    exact ⟨request, (RedisConfig.resultKey_injective key_eq).symm, values, final, text ▸ read⟩
  | metadata other => exact absurd key_eq (RedisConfig.resultKey_ne_metadataKey _ _)
  | progress other => exact absurd key_eq (RedisConfig.resultKey_ne_progressKey _ _)

end reading

theorem All_attempt {P : String → Bytes → Prop} {store : Store} (all : store.All P) (fault : Fault)
    {command : Command} (fine : ∀ value, command.written = some value → P command.key value) :
    Store.All P (attempt fault command store).1 := by
  cases fault with
  | none | unacknowledged => exact all.exec fine
  | lost => exact all

theorem All_expire {P : String → Bytes → Prop} {store : Store} (all : store.All P)
    (seconds : Nat) : Store.All P (expire seconds store) := by
  intro key entry present
  unfold expire at present
  split at present
  · rename_i value ttl stored
    split at present
    · cases present
    · cases present
      exact all key ⟨value, some ttl⟩ stored
  · exact all key entry present

section steps
variable {p} {requests : List TaskRequest}

theorem waitStep_ok {request : TaskRequest} {waiting : Waiting} {event : WaitEvent}
    {shared shared' : Shared} {phase : Phase}
    (applied : waitStep p request.jobId waiting event shared = some (phase, shared'))
    (member : request ∈ requests) (ok : PhaseOk p requests request (.waiting waiting))
    (fine : ∀ i s, waiting.wants = some i → event = .read (.ok (some s)) →
      GoodSlice p requests request.jobId i s) :
    PhaseOk p requests request phase ∧ shared'.store = shared.store ∧
      shared'.queue = shared.queue := by
  unfold waitStep at applied
  split at applied
  · cases applied
  rename_i next stepped
  have total : next.totalSlices = (slicesOf p request).length :=
    (Waiting.step_totalSlices stepped).trans ok.2.1
  have sound := Waiting.step_sound stepped ok.2.2 fine
  split at applied
  · rename_i outcome left
    cases applied
    refine ⟨?_, rfl, rfl⟩
    cases outcome with
    | error message => trivial
    | ok stats =>
      obtain ⟨rfl, none_left⟩ := sound.leftComplete stats left
      simp only [afterWaiting]
      split
      · trivial
      · rename_i values aggregated
        exact ⟨member, ok.1, next.collector.stats, sound.collected.lengthStats.trans total,
          fun i s at_i => sound.collected.complete none_left at_i, aggregated⟩
  · cases applied
    exact ⟨⟨ok.1, total, sound⟩, rfl, rfl⟩

/-- Whatever a call reads as slice `i` is good for it. -/
theorem readOutcome_good (documented : p.serde.Documented) {store : Store}
    (all : store.All (Written p requests)) {jobId : String} {waiting : Waiting} {failed : Bool}
    {i : Nat} {s : SliceStats Double} (wanted : waiting.wants = some i)
    (read : readOutcome p jobId waiting failed store = .ok (some s)) :
    GoodSlice p requests jobId i s := by
  unfold readOutcome at read
  split at read
  · cases read
  rw [wanted, Option.getD_some, found] at read
  cases stored : store (RedisConfig.sliceKey jobId i) with
  | none =>
    rw [stored] at read
    cases read
  | some entry =>
    rw [stored] at read
    exact (all _ entry stored).goodSlice documented read

/-- What the loop reads is good for the index it reads. -/
theorem Waits.good (documented : p.serde.Documented)
    {jobId : String} {waiting : Waiting} {shared : Shared} {input : CallInput} {event : WaitEvent}
    (event_of : Waits p jobId waiting shared input event)
    (all : shared.store.All (Written p requests)) :
    ∀ i held, waiting.wants = some i → event = .read (.ok (some held)) →
      GoodSlice p requests jobId i held := by
  intro i held wanted same
  cases event_of with
  | readSlice failed => exact readOutcome_good documented all wanted (WaitEvent.read.inj same)
  | skip | endPass | wake => cases same

theorem Call.step_ok (documented : p.serde.Documented) {call : Call} {shared shared' : Shared}
    {input : CallInput} {phase : Phase}
    (applied : call.step p shared input = some (phase, shared'))
    (member : call.request ∈ requests) (all : shared.store.All (Written p requests))
    (ok : PhaseOk p requests call.request call.phase) :
    PhaseOk p requests call.request phase ∧ shared'.store.All (Written p requests) ∧
      ∀ message ∈ shared'.queue, message ∈ shared.queue ∨ MessageOk p requests message := by
  have unchanged : ∀ message ∈ shared.queue,
      message ∈ shared.queue ∨ MessageOk p requests message := fun _ queued => .inl queued
  -- Whatever becomes of a write, the store is good if the value written is.
  have after : ∀ {fault : Fault} {command : Command} {store : Store} {reply : Option Reply},
      attempt fault command shared.store = (store, reply) →
      (∀ value, command.written = some value → Written p requests command.key value) →
      store.All (Written p requests) := by
    intro fault command store reply attempted fine
    have changed := All_attempt all fault fine
    rwa [attempted] at changed
  cases Call.step_effect applied with
  | store stands attempted =>
    rw [stands] at ok
    refine ⟨?_, after attempted fun value _ => .metadata call.request.jobId value, unchanged⟩
    split
    · exact ⟨ok, Nat.zero_le _⟩
    · trivial
  | publishFailed | cancel => exact ⟨trivial, all, unchanged⟩
  | @publish sliceId data stands at_slice =>
    rw [stands] at ok
    have inside : sliceId < (slicesOf p call.request).length :=
      (List.getElem?_eq_some_iff.mp at_slice).1
    refine ⟨⟨ok.1, inside⟩, all, fun message queued => ?_⟩
    rcases List.mem_append.mp queued with before | new
    · exact .inl before
    · cases List.mem_singleton.mp new
      exact .inr ⟨call.request, member, sliceId, data, at_slice, rfl⟩
  | register stands published =>
    rw [stands] at ok
    exact ⟨⟨ok.1, published, Waiting.start_sound _ _ _⟩, all, unchanged⟩
  | wait stands event_of stepped =>
    rw [stands] at ok
    obtain ⟨phaseOk, store, queue⟩ := waitStep_ok stepped member ok (event_of.good documented all)
    rw [store, queue]
    exact ⟨phaseOk, all, unchanged⟩
  | storeResult stands attempted =>
    rw [stands] at ok
    refine ⟨?_, after attempted ?_, unchanged⟩
    · split
      · exact ok
      · trivial
    · intro value written
      cases written
      exact .result ok
  | @storeProgress values _ _ _ _ stands attempted =>
    rw [stands] at ok
    refine ⟨?_, after attempted fun value _ => .progress call.request.jobId value, unchanged⟩
    split
    · split
      · rename_i result read
        exact ⟨values, ok, read⟩
      · trivial
    · trivial

theorem WorkerTask.step_ok {task : WorkerTask} {fault : Fault} {store store' : Store}
    {channel channel' : List Notification} {left : Option WorkerTask}
    (applied : task.step fault store channel = (left, store', channel'))
    (ok : TaskOk p requests task) (all : store.All (Written p requests)) :
    (∀ next, left = some next → TaskOk p requests next) ∧ store'.All (Written p requests) := by
  unfold WorkerTask.step at applied
  split at applied
  · cases applied
    refine ⟨?_, all⟩
    intro next same
    cases same
  · cases applied
    refine ⟨?_, All_attempt all fault ?_⟩
    · intro next same
      cases (Option.ite_none_right_eq_some.mp same).2
      exact ok
    · intro value written
      cases written
      obtain ⟨stats, slice, encoded⟩ := ok
      rw [encoded]
      exact .slice slice

theorem Query.step_ok (documented : p.serde.Documented) {query : Query} {store : Store}
    {failed : Bool} {phase : QueryPhase} (applied : query.step p store failed = some phase)
    (all : store.All (Written p requests)) (ok : QueryOk p requests query.jobId query.phase) :
    QueryOk p requests query.jobId phase := by
  cases Query.step_effect applied with
  | error | known | noResult | count => trivial
  | unknown =>
    intro ready
    exact absurd ready (by simp [notFound])
  | hasResult _ read =>
    obtain ⟨entry, stored, same⟩ := Option.map_eq_some_iff.mp (getStr_eq_some read)
    have written := all _ entry stored
    rwa [same] at written
  | final ttl stands =>
    rw [stands] at ok
    intro ready
    unfold finalResponse at ready ⊢
    split at ready
    · rename_i result read
      exact Written.resultFor documented ok read
    · exact absurd ready (by simp)
  | progress =>
    intro ready
    rw [progressResponse_status] at ready
    split at ready <;> exact absurd ready (by decide)

end steps

variable {p}

theorem requests_set {s : State} {c : Nat} {call : Call} (at_c : s.calls[c]? = some call)
    (phase : Phase) : (s.calls.set c { call with phase }).map Call.request = s.requests := by
  obtain ⟨index, rfl⟩ := List.getElem?_eq_some_iff.mp at_c
  rw [List.map_set, State.requests, ← List.getElem_map Call.request (h := by simpa using index),
    List.set_getElem_self]

theorem start_ok (requests : List TaskRequest) (request : TaskRequest) (now : Nat) :
    PhaseOk p requests (Call.start p request now).request (Call.start p request now).phase := by
  unfold Call.start
  split
  · trivial
  · rename_i slices admitted
    simp only [PhaseOk, Admitted, slicesOf, admitted]

theorem start_request (request : TaskRequest) (now : Nat) :
    (Call.start p request now).request = request := by
  unfold Call.start
  split <;> rfl

section actions
variable {s : State} (inv : Inv p s)
include inv

/-- What belonged to a request still does after a submission: requests are only added. -/
theorem submit_inv (request : TaskRequest) (now : Nat) :
    Inv p { s with calls := s.calls ++ [Call.start p request now] } := by
  have grows : ∀ r ∈ s.requests, r ∈ (s.calls ++ [Call.start p request now]).map Call.request := by
    intro r member
    rw [List.map_append]
    exact List.mem_append_left _ member
  refine ⟨?_, ?_, ?_, ?_, ?_⟩
  · intro message queued
    obtain ⟨r, member, own⟩ := inv.queue message queued
    exact ⟨r, grows r member, own⟩
  · intro key entry stored
    exact (inv.store key entry stored).mono grows
  · intro task member
    obtain ⟨stats, slice, same⟩ := inv.tasks task member
    exact ⟨stats, slice.mono grows, same⟩
  · intro call member
    rcases List.mem_append.mp member with before | new
    · exact (inv.calls call before).mono grows
    · cases List.mem_singleton.mp new
      exact start_ok _ request now
  · intro query member
    exact (inv.queries query member).mono grows

theorem call_inv (documented : p.serde.Documented) {c : Nat} {call : Call}
    (at_c : s.calls[c]? = some call) {input : CallInput} {phase : Phase} {shared : Shared}
    (stepped : call.step p s.shared input = some (phase, shared)) :
    Inv p { s with shared, calls := s.calls.set c { call with phase } } := by
  have member : call.request ∈ s.requests :=
    List.mem_map.mpr ⟨call, List.mem_of_getElem? at_c, rfl⟩
  obtain ⟨phaseOk, store, queue⟩ := Call.step_ok documented stepped member inv.store
    (inv.calls call (List.mem_of_getElem? at_c))
  have same := requests_set at_c phase
  refine ⟨?_, ?_, ?_, ?_, ?_⟩
  · intro message queued
    rw [State.requests, same]
    rcases queue message queued with before | new
    · exact inv.queue message before
    · exact new
  · rw [State.requests, same]
    exact store
  · rw [State.requests, same]
    exact inv.tasks
  · rw [State.requests, same]
    intro other later
    rcases List.mem_or_eq_of_mem_set later with before | rfl
    · exact inv.calls other before
    · exact phaseOk
  · rw [State.requests, same]
    exact inv.queries

theorem receive_inv {m : Nat} {message : Json Double} (at_m : s.shared.queue[m]? = some message)
    (again : Bool) :
    Inv p { s with
      shared := if again then s.shared else { s.shared with queue := s.shared.queue.eraseIdx m }
      tasks := s.tasks ++ taskOf p message } := by
  refine ⟨?_, ?_, ?_, inv.calls, inv.queries⟩
  · intro other queued
    refine inv.queue other ?_
    split at queued
    · exact queued
    · exact List.mem_of_mem_eraseIdx queued
  · intro key entry stored
    refine inv.store key entry ?_
    split at stored <;> exact stored
  · intro task member
    rcases List.mem_append.mp member with before | new
    · exact inv.tasks task before
    · -- The task is for the slice that the message carries.
      obtain ⟨request, made, i, data, at_slice, rfl⟩ :=
        inv.queue message (List.mem_of_getElem? at_m)
      obtain ⟨jobId, sliceId, stats, computed, payload⟩ := mem_taskOf p new
      exact ⟨stats, ⟨request, made, jobId.symm, data, sliceId ▸ at_slice, computed⟩, payload⟩

theorem work_inv {t : Nat} {task : WorkerTask} (at_t : s.tasks[t]? = some task) {fault : Fault}
    {left : Option WorkerTask} {store : Store} {channel : List Notification}
    (worked : task.step fault s.shared.store s.shared.channel = (left, store, channel)) :
    Inv p { s with shared := { s.shared with store, channel }, tasks := settle s.tasks t left } := by
  obtain ⟨ok, store⟩ := WorkerTask.step_ok worked
    (inv.tasks task (List.mem_of_getElem? at_t)) inv.store
  refine ⟨inv.queue, store, ?_, inv.calls, inv.queries⟩
  intro other later
  rcases mem_settle later with before | new
  · exact inv.tasks other before
  · exact ok other new

theorem answer_inv (documented : p.serde.Documented) {q : Nat} {query : Query}
    (at_q : s.queries[q]? = some query) {failed : Bool} {phase : QueryPhase}
    (stepped : query.step p s.shared.store failed = some phase) :
    Inv p { s with queries := s.queries.set q { query with phase } } := by
  refine ⟨inv.queue, inv.store, inv.tasks, inv.calls, ?_⟩
  intro other later
  rcases List.mem_or_eq_of_mem_set later with before | rfl
  · exact inv.queries other before
  · have ok := inv.queries query (List.mem_of_getElem? at_q)
    have after := Query.step_ok documented stepped inv.store ok
    exact after

end actions

/-- Every step keeps the invariant, whatever fails, is lost or is repeated. -/
theorem step_inv (documented : p.serde.Documented) (action : Action) (s next : State)
    (inv : Inv p s) (applied : step p action s = some next) : Inv p next := by
  cases action with
  | submit request now =>
    cases applied
    exact submit_inv inv request now
  | call c input =>
    simp only [step] at applied
    split at applied
    · rename_i call at_c
      split at applied
      · rename_i phase shared stepped
        cases applied
        exact call_inv inv documented at_c stepped
      · cases applied
    · cases applied
  | receive m again =>
    simp only [step] at applied
    split at applied
    · rename_i message at_m
      cases applied
      exact receive_inv inv at_m again
    · cases applied
  | lose m =>
    cases applied
    exact ⟨fun message queued => inv.queue message (List.mem_of_mem_eraseIdx queued), inv.store,
      inv.tasks, inv.calls, inv.queries⟩
  | work t fault =>
    simp only [step] at applied
    split at applied
    · rename_i task at_t
      cases applied
      exact work_inv inv at_t rfl
    · cases applied
  | crash t =>
    cases applied
    exact ⟨inv.queue, inv.store, fun task later => inv.tasks task (List.mem_of_mem_eraseIdx later),
      inv.calls, inv.queries⟩
  | notify n again =>
    simp only [step] at applied
    split at applied
    · cases applied
      exact ⟨inv.queue, inv.store, inv.tasks, inv.calls, inv.queries⟩
    · cases applied
  | miss n =>
    cases applied
    exact ⟨inv.queue, inv.store, inv.tasks, inv.calls, inv.queries⟩
  | ask jobId =>
    cases applied
    refine ⟨inv.queue, inv.store, inv.tasks, inv.calls, ?_⟩
    intro query member
    rcases List.mem_append.mp member with before | new
    · exact inv.queries query before
    · cases List.mem_singleton.mp new
      trivial
  | answer q failed =>
    simp only [step] at applied
    split at applied
    · rename_i query at_q
      split at applied
      · rename_i phase stepped
        cases applied
        exact answer_inv inv documented at_q stepped
      · cases applied
    · cases applied
  | elapse seconds =>
    cases applied
    exact ⟨inv.queue, All_expire inv.store seconds, inv.tasks, inv.calls, inv.queries⟩

theorem empty_inv : Inv p .empty where
  queue _ queued := by cases queued
  store _ _ stored := by cases stored
  tasks _ member := by cases member
  calls _ member := by cases member
  queries _ member := by cases member

theorem reachable_inv (documented : p.serde.Documented) {s : State}
    (reached : Reachable (step p) .empty s) : Inv p s :=
  reached.invariant (step_inv documented) empty_inv

end DistributedSoftmax.System.Jobs
