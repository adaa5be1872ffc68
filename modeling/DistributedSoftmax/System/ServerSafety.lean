import DistributedSoftmax.System.JobResults
import DistributedSoftmax.System.ServerEffects

/-! What a job can return on the C++ gateway. As on the other gateway every
stored value and every slice in flight belongs to a request that was made, and a
slice that is held was computed for the job identifier. -/

set_option autoImplicit false

namespace DistributedSoftmax.System.ServerJobs
open Foundations.ByteString Foundations.KeyValue Foundations.Transition
open Gateway Worker
open Jobs (Fault WorkerTask attempt found settle expire taskOf workerStats All_attempt All_expire)

variable (p : Platform)

/-- The request passes the check and its vector can be cut. -/
def Admitted (request : TaskRequest) : Prop :=
  request.task = "softmax" ∧ (countsOf p request).isSome = true

section requests
variable (requests : List TaskRequest)

/-- Statistics of slice `i` of some request with the job identifier. -/
def SliceFor (jobId : String) (i : Nat) (stats : PartialStats Double Single) : Prop :=
  ∃ request ∈ requests, request.jobId = jobId ∧
    ∃ data, (slicesOf p request)[i]? = some data ∧ workerStats p.workers data = some stats

def GoodSlice (jobId : String) (i : Nat) (s : SliceStats Double) : Prop :=
  ∃ stats, SliceFor p requests jobId i stats ∧ s = ofPartial p.workers.widen stats

/-- What a call holds while it waits: a place for every slice, and in each what
was computed for it or nothing yet. -/
structure Holding (request : TaskRequest) (stats : List (SliceStats Double)) : Prop where
  admitted : Admitted p request
  lengths : stats.length = totalOf p request
  each : ∀ (i : Nat) s, stats[i]? = some s →
    s.expValues = [] ∨ GoodSlice p requests request.jobId i s

/-- The slices below `n` are there. -/
def Complete (request : TaskRequest) (n : Nat) (stats : List (SliceStats Double)) : Prop :=
  ∀ (i : Nat) s, i < n → stats[i]? = some s → GoodSlice p requests request.jobId i s

/-- The aggregate of slices that were computed for the job identifier, as many
as the request has. -/
def FinalFor (request : TaskRequest) (values : List Double) : Prop :=
  Admitted p request ∧ ∃ stats : List (SliceStats Double), stats.length = totalOf p request ∧
    (∀ (i : Nat) s, stats[i]? = some s → GoodSlice p requests request.jobId i s) ∧
    values = Server.aggregateSoftmax p.fl stats

def ResultFor (request : TaskRequest) (result : List Single) : Prop :=
  ∃ values, FinalFor p requests request values ∧
    resultFloats p.json p.workers.narrow (resultText p values) = some result

/-- What can be stored under a key. -/
inductive Written : String → Bytes → Prop where
  | slice {jobId : String} {i : Nat} {stats : PartialStats Double Single} :
      SliceFor p requests jobId i stats →
        Written (RedisConfig.sliceKey jobId i) (encodePartial stats)
  | result (jobId : String) (values : List Double) :
      Written (RedisConfig.resultKey jobId) (utf8 (resultText p values))
  | metadata (jobId : String) (value : Bytes) : Written (RedisConfig.metadataKey jobId) value
  | progress (jobId : String) (value : Bytes) : Written (RedisConfig.progressKey jobId) value

def MessageOk (message : Json Double) : Prop :=
  ∃ request ∈ requests, ∃ i data, (slicesOf p request)[i]? = some data ∧
    message = taskMessage request i data

def TaskOk (task : WorkerTask) : Prop :=
  ∃ stats, SliceFor p requests task.jobId task.sliceId stats ∧ task.payload = encodePartial stats

def PhaseOk (request : TaskRequest) : Phase → Prop
  | .storing _ | .publishing _ => Admitted p request
  | .preReading _ stats | .counting _ stats | .waiting stats | .leaving _ stats =>
      Holding p requests request stats
  | .rereading i stats =>
      Holding p requests request stats ∧ Complete p requests request i stats
  | .storingResult values | .storingProgress values => FinalFor p requests request values
  | .returned (.ok result) => ResultFor p requests request result
  | .returned (.error _) | .crashed => True

end requests

/-- Everything in the system belongs to the requests that were made. -/
structure Inv (s : State) : Prop where
  queue : ∀ message ∈ s.shared.queue, MessageOk p s.requests message
  store : s.shared.store.All (Written p s.requests)
  tasks : ∀ task ∈ s.tasks, TaskOk p s.requests task
  calls : ∀ call ∈ s.calls, PhaseOk p s.requests call.request call.phase

section mono
variable {p} {requests later : List TaskRequest} (grows : ∀ r ∈ requests, r ∈ later)
include grows

theorem SliceFor.mono {jobId : String} {i : Nat} {stats : PartialStats Double Single}
    (slice : SliceFor p requests jobId i stats) : SliceFor p later jobId i stats := by
  obtain ⟨request, member, own⟩ := slice
  exact ⟨request, grows request member, own⟩

theorem GoodSlice.mono {jobId : String} {i : Nat} {s : SliceStats Double}
    (good : GoodSlice p requests jobId i s) : GoodSlice p later jobId i s := by
  obtain ⟨stats, slice, same⟩ := good
  exact ⟨stats, slice.mono grows, same⟩

theorem Holding.mono {request : TaskRequest} {stats : List (SliceStats Double)}
    (holding : Holding p requests request stats) : Holding p later request stats where
  admitted := holding.admitted
  lengths := holding.lengths
  each i s at_i := (holding.each i s at_i).imp_right fun good => good.mono grows

theorem FinalFor.mono {request : TaskRequest} {values : List Double}
    (final : FinalFor p requests request values) : FinalFor p later request values := by
  obtain ⟨admitted, stats, lengths, good, aggregated⟩ := final
  exact ⟨admitted, stats, lengths, fun i s at_i => (good i s at_i).mono grows, aggregated⟩

theorem Written.mono {key : String} {value : Bytes} (written : Written p requests key value) :
    Written p later key value := by
  cases written with
  | slice slice => exact .slice (slice.mono grows)
  | result jobId values => exact .result jobId values
  | metadata jobId => exact .metadata jobId value
  | progress jobId => exact .progress jobId value

theorem PhaseOk.mono {request : TaskRequest} {phase : Phase}
    (ok : PhaseOk p requests request phase) : PhaseOk p later request phase := by
  cases phase with
  | storing | publishing => exact ok
  | crashed => trivial
  | preReading | counting | waiting | leaving => exact Holding.mono grows ok
  | rereading i stats =>
    exact ⟨ok.1.mono grows, fun k s below at_k => (ok.2 k s below at_k).mono grows⟩
  | storingResult values => exact FinalFor.mono grows ok
  | storingProgress values => exact FinalFor.mono grows ok
  | returned outcome =>
    cases outcome with
    | ok result =>
      obtain ⟨values, final, read⟩ := ok
      exact ⟨values, final.mono grows, read⟩
    | error status => trivial

end mono

theorem set_getD_self {α : Type} (xs : List α) (i : Nat) (other : α) :
    xs.set i ((xs[i]?).getD other) = xs := by
  rcases Nat.lt_or_ge i xs.length with inside | outside
  · rw [List.getElem?_eq_getElem inside, Option.getD_some, List.set_getElem_self]
  · exact List.set_eq_of_length_le outside

section reading
variable {p} {requests : List TaskRequest} (documented : p.json.Documented)
include documented

/-- A final result under a slice key is no slice: the text of an array has no field. -/
theorem readSlice_resultText (values : List Double) (out : SliceStats Double) :
    Server.readSlice p.json p.workers.widen (some (utf8 (resultText p values))) out =
      (false, out) := by
  have head : (utf8 (resultText p values)).head? = some 0x5B := documented.array_bracket values
  cases bytes : utf8 (resultText p values) with
  | nil =>
    rw [bytes] at head
    cases head
  | cons magic rest =>
    have bracket : magic = 0x5B := by
      rw [bytes] at head
      exact Option.some.inj head
    have text : fromUtf8? (magic :: rest) = some (resultText p values) := by
      rw [← bytes, fromUtf8?_utf8]
    have first : magic ≠ 0x01 := by rw [bracket]; decide
    have second : magic ≠ 0x02 := by rw [bracket]; decide
    have array : (p.json.wire (Json.ofDoubles values)).required "exp_values" = none := rfl
    rw [Server.readSlice, if_neg first, if_neg second, Server.readJson, text, Option.bind_some,
      resultText, documented.array_parse values]
    simp only [array]

/-- What is found under a slice key is the slice, or it is not read and nothing changes. -/
theorem Written.readSlice {jobId : String} {i : Nat} {value : Bytes}
    (written : Written p requests (RedisConfig.sliceKey jobId i) value) (out : SliceStats Double) :
    (∃ s, Server.readSlice p.json p.workers.widen (some value) out = (true, s) ∧
      GoodSlice p requests jobId i s) ∨
    Server.readSlice p.json p.workers.widen (some value) out = (false, out) := by
  generalize key_eq : RedisConfig.sliceKey jobId i = key at written
  cases written with
  | @slice _ _ stats slice =>
    obtain ⟨rfl, rfl⟩ := RedisConfig.sliceKey_inj key_eq
    rcases Nat.lt_or_ge stats.expValues.length (2 ^ 32) with bound | overlong
    · left
      refine ⟨ofPartial p.workers.widen stats, ?_, stats, slice, rfl⟩
      have read := readPartial_encodePartial p.workers.widen bound
      simp only [encodePartial, List.cons_append, magicPartial] at read ⊢
      rw [Server.readSlice, if_pos rfl, read]
    · right
      have read := readPartial_overlong p.workers.widen overlong
      simp only [encodePartial, List.cons_append, magicPartial] at read ⊢
      rw [Server.readSlice, if_pos rfl, read]
  | result other values => exact .inr (readSlice_resultText documented values out)
  | metadata other => exact absurd key_eq (RedisConfig.sliceKey_ne_metadataKey _ _ _)
  | progress other => exact absurd key_eq (RedisConfig.sliceKey_ne_progressKey _ _ _)

/-- Whatever a call reads as slice `i` is good for it, and otherwise nothing changes. -/
theorem readAt_good {request : TaskRequest} {i : Nat} {stats : List (SliceStats Double)}
    {failed ok : Bool} {store : Store} {s : SliceStats Double}
    (all : store.All (Written p requests))
    (read : readAt p request i stats failed store = (ok, s)) :
    if ok then GoodSlice p requests request.jobId i s else s = (stats[i]?).getD .default := by
  unfold readAt at read
  cases value : (if failed then none else found store (RedisConfig.sliceKey request.jobId i)) with
  | none =>
    rw [value] at read
    cases read
    rfl
  | some value' =>
    rw [value] at read
    have present : found store (RedisConfig.sliceKey request.jobId i) = some value' := by
      split at value
      · cases value
      · exact value
    obtain ⟨entry, stored, rfl⟩ := Option.map_eq_some_iff.mp present
    rcases (all _ entry stored).readSlice documented ((stats[i]?).getD .default) with
      ⟨slice, accepted, good⟩ | refused
    · rw [accepted] at read
      cases read
      exact good
    · rw [refused] at read
      cases read
      rfl

end reading

section steps
variable {p} {requests : List TaskRequest}

theorem Holding.start {request : TaskRequest} (admitted : Admitted p request) :
    Holding p requests request (List.replicate (totalOf p request) .default) where
  admitted := admitted
  lengths := List.length_replicate
  each i s at_i := by
    cases List.eq_of_mem_replicate (List.mem_of_getElem? at_i)
    exact .inl rfl

section reads
variable {request : TaskRequest} {i : Nat} {stats : List (SliceStats Double)}
  (holding : Holding p requests request stats)
include holding

theorem Holding.set {s : SliceStats Double} (good : GoodSlice p requests request.jobId i s) :
    Holding p requests request (stats.set i s) where
  admitted := holding.admitted
  lengths := List.length_set.trans holding.lengths
  each k t at_k := by
    by_cases same : i = k
    · subst same
      rw [List.getElem?_set_self'] at at_k
      obtain ⟨_, -, rfl⟩ := Option.map_eq_some_iff.mp at_k
      exact .inr good
    · rw [List.getElem?_set_ne same] at at_k
      exact holding.each k t at_k

theorem Holding.read {ok : Bool} {s : SliceStats Double}
    (fine : if ok then GoodSlice p requests request.jobId i s else s = (stats[i]?).getD .default) :
    Holding p requests request (stats.set i s) := by
  cases ok with
  | true => exact holding.set fine
  | false =>
    rw [if_neg Bool.false_ne_true] at fine
    rw [fine, set_getD_self]
    exact holding

theorem preReadFrom_ok (total : Nat) : PhaseOk p requests request (preReadFrom total i stats) := by
  unfold preReadFrom
  split <;> exact holding

/-- Behind the last slice the aggregate is final. -/
theorem rereadFrom_ok (complete : Complete p requests request i stats) :
    PhaseOk p requests request (rereadFrom p (totalOf p request) i stats) := by
  unfold rereadFrom
  split
  · exact ⟨holding, complete⟩
  · refine ⟨holding.admitted, stats, holding.lengths, fun k s at_k => complete k s ?_ at_k, rfl⟩
    have inside : k < stats.length := (List.getElem?_eq_some_iff.mp at_k).1
    have lengths := holding.lengths
    omega

end reads

theorem Call.step_ok (documented : p.json.Documented) {call : Call} {shared shared' : Shared}
    {input : CallInput} {phase : Phase}
    (applied : call.step p shared input = some (phase, shared'))
    (member : call.request ∈ requests) (all : shared.store.All (Written p requests))
    (ok : PhaseOk p requests call.request call.phase) :
    PhaseOk p requests call.request phase ∧ shared'.store.All (Written p requests) ∧
      ∀ message ∈ shared'.queue, message ∈ shared.queue ∨ MessageOk p requests message := by
  have unchanged : ∀ message ∈ shared.queue,
      message ∈ shared.queue ∨ MessageOk p requests message := fun _ queued => .inl queued
  -- A SETEX stores the value under the key, or does nothing.
  have after : ∀ (fault : Fault) (key : String) (value : Bytes) (ttl : Nat),
      Written p requests key value →
      Store.All (Written p requests) (attempt fault (.setEx key value ttl) shared.store).1 := by
    intro fault key value ttl fine
    refine All_attempt all fault fun other written => ?_
    cases written
    exact fine
  cases Call.step_effect applied with
  | store stands =>
    rw [stands] at ok
    exact ⟨ok, after _ _ _ _ (.metadata _ _), unchanged⟩
  | @publish sliceId data lost stands at_slice =>
    rw [stands] at ok
    refine ⟨ok, ?_, fun message queued => ?_⟩
    · split <;> exact all
    split at queued
    · exact .inl queued
    · rcases List.mem_append.mp queued with before | new
      · exact .inl before
      · cases List.mem_singleton.mp new
        exact .inr ⟨call.request, member, sliceId, data, at_slice, rfl⟩
  | register stands =>
    rw [stands] at ok
    exact ⟨preReadFrom_ok (Holding.start ok) _, all, unchanged⟩
  | preRead stands read =>
    rw [stands] at ok
    have holding := Holding.read ok (readAt_good documented all read)
    refine ⟨?_, all, unchanged⟩
    split
    · exact holding
    · exact preReadFrom_ok holding _
  | @reread i stats failed read s stands empty answered =>
    rw [stands] at ok
    refine ⟨?_, all, unchanged⟩
    have fine := readAt_good documented all answered
    split
    · rename_i found
      rw [if_pos found] at fine
      refine rereadFrom_ok (ok.1.set fine) fun k t below at_k => ?_
      by_cases same : i = k
      · subst same
        rw [List.getElem?_set_self'] at at_k
        obtain ⟨_, -, rfl⟩ := Option.map_eq_some_iff.mp at_k
        exact fine
      · rw [List.getElem?_set_ne same] at at_k
        exact ok.2 k t (by omega) at_k
    · trivial
  | count stands =>
    rw [stands] at ok
    exact ⟨preReadFrom_ok ok _, all, unchanged⟩
  | wake stands | expire stands =>
    rw [stands] at ok
    exact ⟨ok, all, unchanged⟩
  | unregister stands =>
    rw [stands] at ok
    refine ⟨?_, all, unchanged⟩
    split
    · exact rereadFrom_ok ok fun k t below => absurd below (Nat.not_lt_zero k)
    · trivial
  | @skip i stats stands read =>
    rw [stands] at ok
    refine ⟨rereadFrom_ok ok.1 fun k t below at_k => ?_, all, unchanged⟩
    by_cases same : i = k
    · subst same
      rw [at_k] at read
      exact (ok.1.each i t at_k).resolve_left read
    · exact ok.2 k t (by omega) at_k
  | storeResult stands =>
    rw [stands] at ok
    exact ⟨ok, after _ _ _ _ (.result _ _), unchanged⟩
  | @storeProgress values fault now stands =>
    rw [stands] at ok
    refine ⟨?_, after _ _ _ _ (.progress _ _), unchanged⟩
    split
    · rename_i result read
      exact ⟨values, ok, read⟩
    · trivial

theorem WorkerTask.step_ok {task : WorkerTask} {fault : Fault} {store store' : Store}
    {channel channel' : List Notification} {left : Option WorkerTask}
    (applied : task.step fault store channel = (left, store', channel'))
    (ok : TaskOk p requests task) (all : store.All (Written p requests)) :
    (∀ next, left = some next → TaskOk p requests next) ∧ store'.All (Written p requests) := by
  unfold WorkerTask.step at applied
  split at applied
  · cases applied
    refine ⟨?_, all⟩
    intro next same
    cases same
  · cases applied
    refine ⟨?_, All_attempt all fault ?_⟩
    · intro next same
      cases (Option.ite_none_right_eq_some.mp same).2
      exact ok
    · intro value written
      cases written
      obtain ⟨stats, slice, encoded⟩ := ok
      rw [encoded]
      exact .slice slice

end steps

variable {p} {s : State}

theorem submit_inv (inv : Inv p s) (request : TaskRequest) (now : Nat) :
    Inv p (submit p request now s) := by
  have grows : ∀ r ∈ s.requests, r ∈ (submit p request now s).requests := by
    intro r member
    rw [submit_requests]
    exact List.mem_append_left _ member
  obtain ⟨tasks, store, queue, -⟩ := submit_shared (p := p) request now s
  refine ⟨?_, ?_, ?_, ?_⟩
  · rw [queue]
    intro message queued
    obtain ⟨r, member, own⟩ := inv.queue message queued
    exact ⟨r, grows r member, own⟩
  · rw [store]
    intro key entry stored
    exact (inv.store key entry stored).mono grows
  · rw [tasks]
    intro task member
    obtain ⟨stats, slice, same⟩ := inv.tasks task member
    exact ⟨stats, slice.mono grows, same⟩
  · intro call member
    rcases mem_submit member with before | ended | ⟨rfl, ⟨status, refused⟩ | ⟨started, admitted⟩⟩
    · exact (inv.calls call before).mono grows
    · rw [ended]
      trivial
    · rw [refused]
      trivial
    · rw [started]
      exact admitted

theorem call_inv (inv : Inv p s) (documented : p.json.Documented) {c : Nat} {call : Call}
    (at_c : s.calls[c]? = some call) {input : CallInput} {phase : Phase} {shared : Shared}
    (stepped : call.step p s.shared input = some (phase, shared)) :
    Inv p { s with shared, calls := s.calls.set c { call with phase } } := by
  have member : call.request ∈ s.requests :=
    List.mem_map.mpr ⟨call, List.mem_of_getElem? at_c, rfl⟩
  obtain ⟨phaseOk, store, queue⟩ := Call.step_ok documented stepped member inv.store
    (inv.calls call (List.mem_of_getElem? at_c))
  have same := requests_set at_c phase
  refine ⟨?_, ?_, ?_, ?_⟩
  · intro message queued
    rw [State.requests, same]
    rcases queue message queued with before | new
    · exact inv.queue message before
    · exact new
  · rw [State.requests, same]
    exact store
  · rw [State.requests, same]
    exact inv.tasks
  · rw [State.requests, same]
    intro other later
    rcases List.mem_or_eq_of_mem_set later with before | rfl
    · exact inv.calls other before
    · exact phaseOk

theorem receive_inv (inv : Inv p s) {m : Nat} {message : Json Double}
    (at_m : s.shared.queue[m]? = some message) (again : Bool) :
    Inv p { s with
      shared := if again then s.shared else { s.shared with queue := s.shared.queue.eraseIdx m }
      tasks := s.tasks ++ taskOf p.workers message } := by
  refine ⟨?_, ?_, ?_, inv.calls⟩
  · intro other queued
    refine inv.queue other ?_
    split at queued
    · exact queued
    · exact List.mem_of_mem_eraseIdx queued
  · intro key entry stored
    refine inv.store key entry ?_
    split at stored <;> exact stored
  · intro task member
    rcases List.mem_append.mp member with before | new
    · exact inv.tasks task before
    · -- The task is for the slice that the message carries.
      obtain ⟨request, made, i, data, at_slice, rfl⟩ :=
        inv.queue message (List.mem_of_getElem? at_m)
      obtain ⟨jobId, sliceId, stats, computed, payload⟩ := Jobs.mem_taskOf p.workers new
      exact ⟨stats, ⟨request, made, jobId.symm, data, sliceId ▸ at_slice, computed⟩, payload⟩

theorem step_inv (documented : p.json.Documented) (action : Action) (s next : State)
    (inv : Inv p s) (applied : step p action s = some next) : Inv p next := by
  cases action with
  | submit request now =>
    cases applied
    exact submit_inv inv request now
  | call c input =>
    simp only [step] at applied
    split at applied
    · rename_i call at_c
      split at applied
      · rename_i phase shared stepped
        cases applied
        exact call_inv inv documented at_c stepped
      · cases applied
    · cases applied
  | receive m again =>
    simp only [step] at applied
    split at applied
    · rename_i message at_m
      cases applied
      exact receive_inv inv at_m again
    · cases applied
  | lose m =>
    cases applied
    exact ⟨fun message queued => inv.queue message (List.mem_of_mem_eraseIdx queued), inv.store,
      inv.tasks, inv.calls⟩
  | work t fault =>
    simp only [step] at applied
    split at applied
    · rename_i task at_t
      cases applied
      obtain ⟨ok, store⟩ := WorkerTask.step_ok (p := p) rfl
        (inv.tasks task (List.mem_of_getElem? at_t)) inv.store
      refine ⟨inv.queue, store, fun other later => ?_, inv.calls⟩
      rcases Jobs.mem_settle later with before | new
      · exact inv.tasks other before
      · exact ok other new
    · cases applied
  | crash t =>
    cases applied
    exact ⟨inv.queue, inv.store, fun task later => inv.tasks task (List.mem_of_mem_eraseIdx later),
      inv.calls⟩
  | notify n again =>
    simp only [step] at applied
    split at applied
    · cases applied
      exact ⟨inv.queue, inv.store, inv.tasks, inv.calls⟩
    · cases applied
  | miss n =>
    cases applied
    exact ⟨inv.queue, inv.store, inv.tasks, inv.calls⟩
  | elapse seconds =>
    cases applied
    exact ⟨inv.queue, All_expire inv.store seconds, inv.tasks, inv.calls⟩

theorem empty_inv : Inv p .empty where
  queue _ queued := by cases queued
  store _ _ stored := by cases stored
  tasks _ member := by cases member
  calls _ member := by cases member

theorem reachable_inv (documented : p.json.Documented) {s : State}
    (reached : Reachable (step p) .empty s) : Inv p s :=
  reached.invariant (step_inv documented) empty_inv

end DistributedSoftmax.System.ServerJobs
