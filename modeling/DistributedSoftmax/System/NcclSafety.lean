import DistributedSoftmax.System.JobEffects
import DistributedSoftmax.System.NcclRanks

/-! Jobs over the ranks, in every order of steps. As long as publish loops do not
run into each other, all ranks get the jobs in one order; what is stored under a
slice key is then the share of a rank, and what a call collects are the shares
of its own job. -/

set_option autoImplicit false

namespace DistributedSoftmax.System.NcclJobs
open Foundations.ByteString Foundations.KeyValue Foundations.Transition
open Gateway Worker
open Jobs (Fault Phase Call CallInput WorkerTask Shared Waits attempt found expire resultStr
  aggregationFailed afterWaiting waitStep readOutcome All_attempt All_expire)

variable (p : Platform)

/-- Some ranks have their slice of the call and others not. -/
def midPublish (call : Call) : Bool :=
  match call.phase with
  | .publishing k => 0 < k && k < p.worldSize
  | _ => false

/-- One publish loop at a time runs, none is given up half-way, and the values of
a request are all finite, or those of every slice are not. -/
def Orderly : Action → State → Prop
  | .submit request _, _ => Lockstep.Uniform (slicesOf p request)
  | .call c (.publish failed), s =>
      failed = false ∧ (s.calls.eraseIdx c).all (fun call => !midPublish p call) = true
  | .call c .cancel, s => (s.calls[c]?).all (fun call => !midPublish p call) = true
  | _, _ => True

instance : (action : Action) → (s : State) → Decidable (Orderly p action s)
  | .submit request _, _ => inferInstanceAs (Decidable (Lockstep.Uniform (slicesOf p request)))
  | .call c (.publish failed), s => inferInstanceAs (Decidable (failed = false ∧
      (s.calls.eraseIdx c).all (fun call => !midPublish p call) = true))
  | .call c .cancel, s =>
      inferInstanceAs (Decidable ((s.calls[c]?).all (fun call => !midPublish p call) = true))
  | .call _ (.store _), _ | .call _ .register, _ | .call _ (.readSlice _), _ | .call _ .skip, _
  | .call _ (.endPass _), _ | .call _ .wake, _ | .call _ (.storeResult _), _
  | .call _ (.storeProgress _ _), _ | .receive _, _ | .reduced _, _ | .write _ _, _ | .exit _, _
  | .notify _ _, _ | .miss _, _ | .elapse _, _ => isTrue trivial

/-- What one step of a call does, case by case. -/
inductive CallEffect (call : Call) (shared : Shared) (channels : List (List (Json Double))) :
    CallInput → Phase → Shared → List (List (Json Double)) → Prop where
  | publishFailed {sliceId : Nat} {failed : Bool} {message : String} :
      call.phase = .publishing sliceId → sliceId < (slicesOf p call.request).length →
      failed = true ∨ channels[sliceId]? = none →
      CallEffect call shared channels (.publish failed)
        (.returned (.error (.internal message))) shared channels
  | publish {sliceId : Nat} {sent : List (Json Double)} : call.phase = .publishing sliceId →
      sliceId < (slicesOf p call.request).length → channels[sliceId]? = some sent →
      CallEffect call shared channels (.publish false) (.publishing (sliceId + 1)) shared
        (channels.set sliceId (sent ++ [messageOf p call.request sliceId]))
  | register {sliceId : Nat} : call.phase = .publishing sliceId →
      sliceId = (slicesOf p call.request).length →
      CallEffect call shared channels .register
        (.waiting (.start sliceId (shared.notifier.registerJob call.request.jobId).2))
        { shared with notifier := (shared.notifier.registerJob call.request.jobId).1 } channels
  | other {input : CallInput} {phase : Phase} {shared' : Shared} :
      (∀ failed, input ≠ .publish failed) → input ≠ .register →
      call.Effect p.gateway shared input phase shared' →
      CallEffect call shared channels input phase shared' channels

variable {p}

theorem length_slicesOf_le (request : TaskRequest) :
    (slicesOf p request).length ≤ p.worldSize := by
  unfold slicesOf
  split
  · rename_i slices admitted
    exact Nat.le_of_eq (length_cutSlices_nccl (requestSlices_eq_ok.mp admitted).2.2)
  · exact Nat.zero_le _

theorem callStep_effect {call : Call} {shared shared' : Shared}
    {channels channels' : List (List (Json Double))} {input : CallInput} {phase : Phase}
    (applied : callStep p call shared channels input = some (phase, shared', channels')) :
    CallEffect p call shared channels input phase shared' channels' := by
  unfold callStep at applied
  split at applied
  · rename_i failed
    split at applied
    · rename_i sliceId stands
      split at applied
      · rename_i data at_slice
        have inside : sliceId < (slicesOf p call.request).length :=
          (List.getElem?_eq_some_iff.mp at_slice).1
        have bound : sliceId < 2 ^ 64 :=
          Nat.lt_of_lt_of_le inside ((length_slicesOf_le _).trans p.usize.le)
        have message : taskMessage call.request sliceId data = messageOf p call.request sliceId := by
          rw [messageOf, at_slice, Option.getD_some]
        split at applied
        · rename_i fails
          cases applied
          exact .publishFailed stands inside (.inl fails)
        · rename_i works
          obtain rfl := Bool.eq_false_of_not_eq_true works
          have subject : publishSubject (dispatch p) sliceId = toString sliceId := rfl
          rw [subject, message] at applied
          cases open_ : channels[sliceId]? with
          | none =>
            split at applied
            · rename_i after published
              obtain ⟨sent, at_slice', -⟩ := publish_toString published
              cases open_.symm.trans at_slice'
            · cases applied
              exact .publishFailed stands inside (.inr open_)
          | some sent =>
            rw [publish_of_getElem? bound open_] at applied
            cases applied
            exact .publish stands inside open_
      · cases applied
    · cases applied
  · split at applied
    · rename_i sliceId stands
      obtain ⟨all, applied⟩ := Option.ite_none_right_eq_some.mp applied
      cases applied
      have effect : CallEffect p call shared channels .register _ _ _ := .register stands all
      rwa [all] at effect
    · cases applied
  · rename_i notPublish notRegister
    obtain ⟨⟨phase', shared''⟩, stepped, same⟩ := Option.map_eq_some_iff.mp applied
    cases same
    exact .other notPublish notRegister (Call.step_effect stepped)

/-- The jobs in the order in which they are published: all ranks have their
messages, or of the last one only the ranks below the counter of its loop. -/
inductive Sent (p : Platform) (jobs : List TaskRequest) (s : State) : Prop where
  | whole : (∀ call ∈ s.calls, midPublish p call = false) →
      (∀ (r : Nat) sent, s.channels[r]? = some sent → sent = jobs.map (messageOf p · r)) →
      Sent p jobs s
  | opened {c : Nat} {call : Call} {k : Nat} {before : List TaskRequest} :
      s.calls[c]? = some call → call.phase = .publishing k → 0 < k → k < p.worldSize →
      (∀ (c' : Nat) other, s.calls[c']? = some other → midPublish p other = true → c' = c) →
      jobs = before ++ [call.request] →
      (∀ (r : Nat) sent, s.channels[r]? = some sent →
        sent = (if r < k then jobs else before).map (messageOf p · r)) → Sent p jobs s

/-- A rank sees the jobs in their order. -/
theorem Sent.ordered {jobs : List TaskRequest} {s : State} (sent : Sent p jobs s) {r : Nat}
    {channel : List (Json Double)} (at_r : s.channels[r]? = some channel) {n : Nat}
    {message : Json Double} (at_n : channel[n]? = some message) :
    ∃ request, jobs[n]? = some request ∧ message = messageOf p request r := by
  have initialPart : ∃ more, jobs.map (messageOf p · r) = channel ++ more := by
    cases sent with
    | whole _ channels => exact ⟨[], by rw [channels r channel at_r, List.append_nil]⟩
    | @opened c call k before _ _ _ _ _ last channels =>
      rw [channels r channel at_r]
      split
      · exact ⟨[], (List.append_nil _).symm⟩
      · exact ⟨[messageOf p call.request r], by rw [last, List.map_append]; rfl⟩
  obtain ⟨more, split⟩ := initialPart
  have inside := (List.getElem?_eq_some_iff.mp at_n).1
  have found : (jobs.map (messageOf p · r))[n]? = some message := by
    rw [split, List.getElem?_append_left inside]
    exact at_n
  rw [List.getElem?_map] at found
  obtain ⟨request, at_job, same⟩ := Option.map_eq_some_iff.mp found
  exact ⟨request, at_job, same.symm⟩

theorem getElem?_set_cases {α : Type} {xs : List α} {i j : Nat} {x y : α}
    (at_j : (xs.set i x)[j]? = some y) : j = i ∧ y = x ∨ j ≠ i ∧ xs[j]? = some y := by
  by_cases same : j = i
  · subst same
    rw [List.getElem?_set_self'] at at_j
    obtain ⟨_, -, rfl⟩ := Option.map_eq_some_iff.mp at_j
    exact .inl ⟨rfl, rfl⟩
  · rw [List.getElem?_set_ne (Ne.symm same)] at at_j
    exact .inr ⟨same, at_j⟩

theorem midPublish_eq_true {call : Call} :
    midPublish p call = true ↔ ∃ k, call.phase = .publishing k ∧ 0 < k ∧ k < p.worldSize := by
  unfold midPublish
  split
  · rename_i k stands
    simp [stands]
  · rename_i other
    simp only [Bool.false_eq_true, false_iff]
    rintro ⟨k, stands, -⟩
    exact other k stands

section publishing
variable {jobs : List TaskRequest} {s : State} (sent : Sent p jobs s)
include sent

/-- Steps of other calls and of everything else leave the loops as they are. -/
theorem Sent.other {next : State} (channels : next.channels = s.channels)
    (before : ∀ (c : Nat) call, s.calls[c]? = some call → midPublish p call = true →
      next.calls[c]? = some call)
    (after : ∀ (c : Nat) call, next.calls[c]? = some call → midPublish p call = true →
      s.calls[c]? = some call) : Sent p jobs next := by
  cases sent with
  | whole none_open sent =>
    refine .whole (fun call member => ?_) (channels ▸ sent)
    by_contra opened
    obtain ⟨c, at_c⟩ := List.mem_iff_getElem?.mp member
    have mid := Bool.eq_true_of_not_eq_false opened
    rw [none_open call (List.mem_of_getElem? (after c call at_c mid))] at mid
    cases mid
  | @opened c call k jobsBefore at_c stands positive below only last sent =>
    have mid : midPublish p call = true := midPublish_eq_true.mpr ⟨k, stands, positive, below⟩
    exact .opened (before c call at_c mid) stands positive below
      (fun c' other at_c' open_ => only c' other (after c' other at_c' open_) open_) last
      (channels ▸ sent)

/-- One send of a loop, while no other loop is half-way: it starts the next job
or goes on with the last one. -/
theorem Sent.publish {c : Nat} {call : Call} {k : Nat} {channel : List (Json Double)}
    (size : s.channels.length = p.worldSize) (at_c : s.calls[c]? = some call) (stands : call.phase = .publishing k)
    (inside : k < (slicesOf p call.request).length) (at_k : s.channels[k]? = some channel)
    (alone : ∀ (c' : Nat) other, c' ≠ c → s.calls[c']? = some other → midPublish p other = false)
    {next : State}
    (channels : next.channels = s.channels.set k (channel ++ [messageOf p call.request k]))
    (calls : next.calls = s.calls.set c { call with phase := .publishing (k + 1) }) :
    Sent p (if k = 0 then jobs ++ [call.request] else jobs) next := by
  have below : k < p.worldSize := Nat.lt_of_lt_of_le inside (length_slicesOf_le _)
  have at_next : next.calls[c]? = some { call with phase := .publishing (k + 1) } := by
    rw [calls, List.getElem?_set_self (List.getElem?_eq_some_iff.mp at_c).1]
  have others : ∀ (c' : Nat) other, next.calls[c']? = some other → midPublish p other = true →
      c' = c := by
    intro c' other at_c' opened
    by_contra apart
    rw [calls, List.getElem?_set_ne (Ne.symm apart)] at at_c'
    rw [alone c' other apart at_c'] at opened
    cases opened
  -- What the channels hold, by the jobs before the one of this call.
  have holds : ∃ before, (if k = 0 then jobs ++ [call.request] else jobs) = before ++ [call.request] ∧
      ∀ (r : Nat) sent, next.channels[r]? = some sent →
        sent = (if r < k + 1 then before ++ [call.request] else before).map (messageOf p · r) := by
    cases sent with
    | whole none_open sent =>
      have fresh : k = 0 := by
        by_contra positive
        have mid : midPublish p call = true :=
          midPublish_eq_true.mpr ⟨k, stands, Nat.pos_of_ne_zero positive, below⟩
        rw [none_open call (List.mem_of_getElem? at_c)] at mid
        cases mid
      subst fresh
      refine ⟨jobs, if_pos rfl, fun r other at_r => ?_⟩
      rw [channels] at at_r
      rcases getElem?_set_cases at_r with ⟨rfl, rfl⟩ | ⟨apart, at_r⟩
      · rw [sent _ channel at_k, if_pos (by omega), List.map_append]
        rfl
      · rw [sent r other at_r, if_neg (by omega)]
    | @opened c' other k' before at_c' stands' positive below' only last sent =>
      have same : c' = c := by
        by_contra apart
        have mid : midPublish p other = true :=
          midPublish_eq_true.mpr ⟨k', stands', positive, below'⟩
        rw [alone c' other apart at_c'] at mid
        cases mid
      subst same
      cases at_c'.symm.trans at_c
      cases stands'.symm.trans stands
      refine ⟨before, by rw [if_neg (by omega), last], fun r other at_r => ?_⟩
      rw [channels] at at_r
      rcases getElem?_set_cases at_r with ⟨rfl, rfl⟩ | ⟨apart, at_r⟩
      · rw [sent _ channel at_k, if_neg (by omega), if_pos (by omega), List.map_append]
        rfl
      · rw [sent r other at_r, last]
        by_cases earlier : r < k
        · rw [if_pos earlier, if_pos (by omega)]
        · rw [if_neg earlier, if_neg (by omega)]
  obtain ⟨before, last, holds⟩ := holds
  by_cases more : k + 1 < p.worldSize
  · exact .opened at_next rfl (Nat.succ_pos k) more others last (last ▸ holds)
  · refine .whole (fun other member => ?_) fun r channel at_r => ?_
    · by_contra opened
      obtain ⟨c', at_c'⟩ := List.mem_iff_getElem?.mp member
      have mid := Bool.eq_true_of_not_eq_false opened
      obtain rfl := others c' other at_c' mid
      cases at_c'.symm.trans at_next
      obtain ⟨j, stands', -, below'⟩ := midPublish_eq_true.mp mid
      cases stands'
      exact more below'
    · have within := (List.getElem?_eq_some_iff.mp at_r).1
      rw [channels, List.length_set, size] at within
      rw [holds r channel at_r, if_pos (by omega), last]

end publishing

section requests
variable (p) (requests : List TaskRequest)

/-- The share of rank `i` of some request with the job identifier. -/
def SliceFor (jobId : String) (i : Nat) (probs : List Single) : Prop :=
  ∃ request ∈ requests, request.jobId = jobId ∧ Admitted p request ∧
    probsOf p request i = some probs

/-- What a gateway may hold as slice `i` of the job. -/
def GoodSlice (jobId : String) (i : Nat) (s : SliceStats Double) : Prop :=
  ∃ probs, SliceFor p requests jobId i probs ∧ s = ofNormalized .zero .one p.gateway.widen probs

/-- The aggregate of shares that were computed for the job identifier, one for each rank. -/
def FinalFor (request : TaskRequest) (values : List Double) : Prop :=
  Admitted p request ∧ ∃ stats : List (SliceStats Double), stats.length = p.worldSize ∧
    (∀ i s, stats[i]? = some s → GoodSlice p requests request.jobId i s) ∧
    aggregateStats p.gateway.aggregateSoftmax stats = .ok values

def ResultFor (request : TaskRequest) (result : List Single) : Prop :=
  ∃ values, FinalFor p requests request values ∧
    resultFloats p.gateway.serde p.gateway.narrow (resultStr p.gateway values) = some result

/-- What can be stored under a key. -/
inductive Written : String → Bytes → Prop where
  | slice {jobId : String} {i : Nat} {probs : List Single} : SliceFor p requests jobId i probs →
      Written (RedisConfig.sliceKey jobId i) (encodeNormalized probs)
  | result (jobId : String) (values : List Double) :
      Written (RedisConfig.resultKey jobId) (utf8 (resultStr p.gateway values))
  | metadata (jobId : String) (value : Bytes) : Written (RedisConfig.metadataKey jobId) value
  | progress (jobId : String) (value : Bytes) : Written (RedisConfig.progressKey jobId) value

def PhaseOk (request : TaskRequest) : Phase → Prop
  | .storing _ | .publishing _ => Admitted p request ∧ Lockstep.Uniform (slicesOf p request)
  | .waiting waiting => Admitted p request ∧ waiting.totalSlices = p.worldSize ∧
      waiting.Sound (GoodSlice p requests request.jobId)
  | .storingResult values | .storingProgress values => FinalFor p requests request values
  | .returned (.ok result) => ResultFor p requests request result
  | .returned (.error _) | .dropped => True

end requests

/-- The ranks get the jobs in one order, and all that is stored, and all that
calls hold, are the shares of the ranks. -/
structure Inv (p : Platform) (s : State) (jobs : List TaskRequest) : Prop where
  size : s.channels.length = p.worldSize ∧ s.ranks.length = p.worldSize
  made : ∀ request ∈ jobs, request ∈ s.requests ∧ Admitted p request ∧
    Lockstep.Uniform (slicesOf p request)
  sent : Sent p jobs s
  ranks : ∀ (r : Nat) rank, s.ranks[r]? = some rank → RankOk p jobs r rank
  store : s.shared.store.All (Written p s.requests)
  calls : ∀ call ∈ s.calls, PhaseOk p s.requests call.request call.phase

section mono
variable {requests later : List TaskRequest} (grows : ∀ r ∈ requests, r ∈ later)
include grows

theorem GoodSlice.mono {jobId : String} {i : Nat} {s : SliceStats Double}
    (good : GoodSlice p requests jobId i s) : GoodSlice p later jobId i s := by
  obtain ⟨probs, ⟨request, member, own⟩, same⟩ := good
  exact ⟨probs, ⟨request, grows request member, own⟩, same⟩

theorem FinalFor.mono {request : TaskRequest} {values : List Double}
    (final : FinalFor p requests request values) : FinalFor p later request values := by
  obtain ⟨admitted, stats, lengths, good, aggregated⟩ := final
  exact ⟨admitted, stats, lengths, fun i s at_i => (good i s at_i).mono grows, aggregated⟩

theorem Written.mono {key : String} {value : Bytes} (written : Written p requests key value) :
    Written p later key value := by
  cases written with
  | slice slice =>
    obtain ⟨request, member, own⟩ := slice
    exact .slice ⟨request, grows request member, own⟩
  | result jobId values => exact .result jobId values
  | metadata jobId => exact .metadata jobId value
  | progress jobId => exact .progress jobId value

theorem PhaseOk.mono {request : TaskRequest} {phase : Phase}
    (ok : PhaseOk p requests request phase) : PhaseOk p later request phase := by
  cases phase with
  | storing | publishing => exact ok
  | waiting waiting => exact ⟨ok.1, ok.2.1, ok.2.2.mono fun i s good => good.mono grows⟩
  | storingResult values => exact FinalFor.mono grows ok
  | storingProgress values => exact FinalFor.mono grows ok
  | returned outcome =>
    cases outcome with
    | ok result =>
      obtain ⟨values, final, read⟩ := ok
      exact ⟨values, final.mono grows, read⟩
    | error status => trivial
  | dropped => trivial

end mono

section calls
variable {requests : List TaskRequest}

/-- What the decoder accepts under a slice key is the share of that rank. -/
theorem Written.goodSlice (documented : p.gateway.serde.Documented) {jobId : String} {i : Nat}
    {value : Bytes} (written : Written p requests (RedisConfig.sliceKey jobId i) value)
    {s : SliceStats Double}
    (read : readSlice p.gateway.serde p.gateway.widen (some value) = .ok (some s)) :
    GoodSlice p requests jobId i s := by
  generalize key_eq : RedisConfig.sliceKey jobId i = key at written
  cases written with
  | slice slice =>
    obtain ⟨rfl, rfl⟩ := RedisConfig.sliceKey_inj key_eq
    exact ⟨_, slice,
      readSlice_encodeNormalized_eq_some p.gateway.serde p.gateway.widen read⟩
  | result other values =>
    rw [Jobs.readSlice_resultStr documented] at read
    cases read
  | metadata other => exact absurd key_eq (RedisConfig.sliceKey_ne_metadataKey _ _ _)
  | progress other => exact absurd key_eq (RedisConfig.sliceKey_ne_progressKey _ _ _)

/-- What the loop reads is good for the index it reads. -/
theorem Waits.good (documented : p.gateway.serde.Documented) {jobId : String} {waiting : Waiting}
    {shared : Shared} {input : CallInput} {event : WaitEvent}
    (event_of : Waits p.gateway jobId waiting shared input event)
    (all : shared.store.All (Written p requests)) :
    ∀ i held, waiting.wants = some i → event = .read (.ok (some held)) →
      GoodSlice p requests jobId i held := by
  intro i held wanted same
  cases event_of with
  | readSlice failed =>
    have read := WaitEvent.read.inj same
    unfold readOutcome at read
    split at read
    · cases read
    rw [wanted, Option.getD_some, found] at read
    cases stored : shared.store (RedisConfig.sliceKey jobId i) with
    | none =>
      rw [stored] at read
      cases read
    | some entry =>
      rw [stored] at read
      exact (all _ entry stored).goodSlice documented read
  | skip | endPass | wake => cases same

theorem waitStep_ok {request : TaskRequest} {waiting : Waiting} {event : WaitEvent}
    {shared shared' : Shared} {phase : Phase}
    (applied : waitStep p.gateway request.jobId waiting event shared = some (phase, shared'))
    (ok : PhaseOk p requests request (.waiting waiting))
    (fine : ∀ i s, waiting.wants = some i → event = .read (.ok (some s)) →
      GoodSlice p requests request.jobId i s) :
    PhaseOk p requests request phase ∧ shared'.store = shared.store := by
  obtain ⟨next, stepped, ⟨outcome, left, rfl, rfl⟩ | ⟨stays, rfl, rfl⟩⟩ :=
    Jobs.waitStep_cases applied
  · have total : next.totalSlices = p.worldSize := (Waiting.step_totalSlices stepped).trans ok.2.1
    have sound := Waiting.step_sound stepped ok.2.2 fine
    refine ⟨?_, rfl⟩
    cases outcome with
    | error message => trivial
    | ok stats =>
      obtain ⟨rfl, none_left⟩ := sound.leftComplete stats left
      simp only [afterWaiting]
      split
      · trivial
      · rename_i values aggregated
        exact ⟨ok.1, next.collector.stats, sound.collected.lengthStats.trans total,
          fun i s at_i => sound.collected.complete none_left at_i, aggregated⟩
  · exact ⟨⟨ok.1, (Waiting.step_totalSlices stepped).trans ok.2.1,
      Waiting.step_sound stepped ok.2.2 fine⟩, rfl⟩

theorem callStep_ok (documented : p.gateway.serde.Documented) {call : Call}
    {shared shared' : Shared} {channels channels' : List (List (Json Double))} {input : CallInput}
    {phase : Phase}
    (effect : CallEffect p call shared channels input phase shared' channels')
    (all : shared.store.All (Written p requests))
    (ok : PhaseOk p requests call.request call.phase) :
    PhaseOk p requests call.request phase ∧ shared'.store.All (Written p requests) := by
  -- Whatever becomes of a write, the store is good if the value written is.
  have after : ∀ {fault : Fault} {command : Command} {store : Store} {reply : Option Reply},
      attempt fault command shared.store = (store, reply) →
      (∀ value, command.written = some value → Written p requests command.key value) →
      store.All (Written p requests) := by
    intro fault command store reply attempted fine
    have changed := All_attempt all fault fine
    rwa [attempted] at changed
  cases effect with
  | publishFailed => exact ⟨trivial, all⟩
  | publish stands =>
    rw [stands] at ok
    exact ⟨ok, all⟩
  | register stands published =>
    rw [stands] at ok
    exact ⟨⟨ok.1, published.trans ok.1.length, Waiting.start_sound _ _ _⟩, all⟩
  | other notPublish notRegister effect =>
    cases effect with
    | store stands attempted =>
      rw [stands] at ok
      refine ⟨?_, after attempted fun value _ => .metadata call.request.jobId value⟩
      split
      · exact ok
      · trivial
    | publishFailed | publish => exact absurd rfl (notPublish _)
    | register => exact absurd rfl notRegister
    | wait stands event_of stepped =>
      rw [stands] at ok
      obtain ⟨phaseOk, store⟩ := waitStep_ok stepped ok (Waits.good documented event_of all)
      rw [store]
      exact ⟨phaseOk, all⟩
    | storeResult stands attempted =>
      rw [stands] at ok
      refine ⟨?_, after attempted ?_⟩
      · split
        · exact ok
        · trivial
      · intro value written
        cases written
        exact .result _ _
    | @storeProgress values _ _ _ _ stands attempted =>
      rw [stands] at ok
      refine ⟨?_, after attempted fun value _ => .progress call.request.jobId value⟩
      split
      · split
        · rename_i result read
          exact ⟨values, ok, read⟩
        · trivial
      · trivial
    | cancel => exact ⟨trivial, all⟩

end calls

/-- A step that sends nothing neither starts a loop nor leaves one half-way. -/
theorem not_midPublish {requests : List TaskRequest} {call : Call} {shared shared' : Shared}
    {channels channels' : List (List (Json Double))} {input : CallInput} {phase : Phase}
    (effect : CallEffect p call shared channels input phase shared' channels')
    (sends : ∀ failed, input ≠ .publish failed)
    (kept : input = .cancel → midPublish p call = false)
    (ok : PhaseOk p requests call.request call.phase) :
    channels' = channels ∧ midPublish p call = false ∧
      midPublish p { call with phase } = false := by
  have elsewhere : ∀ {call : Call}, (∀ k, call.phase ≠ .publishing k) → midPublish p call = false := by
    intro call apart
    by_contra opened
    obtain ⟨k, stands, -⟩ := midPublish_eq_true.mp (Bool.eq_true_of_not_eq_false opened)
    exact apart k stands
  cases effect with
  | publishFailed | publish => exact absurd rfl (sends _)
  | @register sliceId stands published =>
    rw [stands] at ok
    refine ⟨rfl, ?_, elsewhere fun k same => by cases same⟩
    unfold midPublish
    rw [stands, published, ok.1.length]
    simp
  | other notPublish notRegister effect =>
    cases effect with
    | store stands =>
      refine ⟨rfl, elsewhere fun k same => ?_, ?_⟩
      · cases stands.symm.trans same
      · unfold midPublish
        simp only
        split
        · rename_i k same
          split at same
          · cases same
            rfl
          · cases same
        · rfl
    | publishFailed | publish => exact absurd rfl (notPublish _)
    | register => exact absurd rfl notRegister
    | wait stands _ stepped =>
      refine ⟨rfl, elsewhere fun k same => ?_, elsewhere fun k same => ?_⟩
      · cases stands.symm.trans same
      · obtain ⟨next, -, ⟨outcome, -, rfl, -⟩ | ⟨-, rfl, -⟩⟩ := Jobs.waitStep_cases stepped
        · rcases Jobs.afterWaiting_cases (p := p.gateway) outcome with ⟨message, left⟩ | ⟨values, left⟩
          · cases left.symm.trans same
          · cases left.symm.trans same
        · cases same
    | storeResult stands =>
      refine ⟨rfl, elsewhere fun k same => ?_, elsewhere fun k same => ?_⟩
      · cases stands.symm.trans same
      · simp only at same
        split at same <;> cases same
    | storeProgress stands =>
      refine ⟨rfl, elsewhere fun k same => ?_, elsewhere fun k same => ?_⟩
      · cases stands.symm.trans same
      · simp only at same
        split at same
        · split at same <;> cases same
        · cases same
    | cancel => exact ⟨rfl, kept rfl, elsewhere fun k same => by cases same⟩

variable {s : State} {jobs : List TaskRequest}

theorem requests_set {c : Nat} {call : Call} (at_c : s.calls[c]? = some call) (phase : Phase) :
    (s.calls.set c { call with phase }).map Call.request = s.requests :=
  Jobs.requests_set (s := ⟨s.shared, s.calls, [], []⟩) at_c phase

theorem start_ok (requests : List TaskRequest) (request : TaskRequest) (now : Nat)
    (uniform : Lockstep.Uniform (slicesOf p request)) :
    PhaseOk p requests (start p request now).request (start p request now).phase ∧
      midPublish p (start p request now) = false ∧ (start p request now).request = request := by
  unfold start
  split
  · exact ⟨trivial, rfl, rfl⟩
  · rename_i slices admitted
    refine ⟨⟨?_, uniform⟩, rfl, rfl⟩
    simp only [Admitted, slicesOf, admitted]

section actions
variable (inv : Inv p s jobs)
include inv

theorem submit_inv (request : TaskRequest) (now : Nat)
    (uniform : Lockstep.Uniform (slicesOf p request)) :
    Inv p { s with calls := s.calls ++ [start p request now] } jobs := by
  have grows : ∀ r ∈ s.requests, r ∈ (s.calls ++ [start p request now]).map Call.request := by
    intro r member
    rw [List.map_append]
    exact List.mem_append_left _ member
  refine ⟨inv.size, ?_, ?_, inv.ranks, ?_, ?_⟩
  · intro job member
    obtain ⟨made, rest⟩ := inv.made job member
    exact ⟨grows job made, rest⟩
  · refine inv.sent.other rfl (fun c call at_c _ => ?_) fun c call at_c opened => ?_
    · exact (List.getElem?_append_left (List.getElem?_eq_some_iff.mp at_c).1).trans at_c
    · rcases Nat.lt_or_ge c s.calls.length with before | behind
      · rwa [List.getElem?_append_left before] at at_c
      · rw [List.getElem?_append_right behind] at at_c
        cases List.mem_singleton.mp (List.mem_of_getElem? at_c)
        rw [(start_ok s.requests request now uniform).2.1] at opened
        cases opened
  · intro key entry stored
    exact (inv.store key entry stored).mono grows
  · intro call member
    rcases List.mem_append.mp member with before | new
    · exact (inv.calls call before).mono grows
    · cases List.mem_singleton.mp new
      exact (start_ok _ request now uniform).1

theorem call_inv (documented : p.gateway.serde.Documented) {c : Nat} {call : Call}
    (at_c : s.calls[c]? = some call) {input : CallInput} {phase : Phase} {shared : Shared}
    {channels : List (List (Json Double))} (orderly : Orderly p (.call c input) s)
    (stepped : callStep p call s.shared s.channels input = some (phase, shared, channels)) :
    ∃ later, Inv p { s with shared, channels, calls := s.calls.set c { call with phase } } later := by
  have effect := callStep_effect stepped
  have member : call ∈ s.calls := List.mem_of_getElem? at_c
  have ok := inv.calls call member
  obtain ⟨phaseOk, store⟩ := callStep_ok documented effect inv.store ok
  have same := requests_set at_c phase
  have calls : ∀ other ∈ s.calls.set c { call with phase },
      PhaseOk p s.requests other.request other.phase := by
    intro other later
    rcases List.mem_or_eq_of_mem_set later with before | rfl
    · exact inv.calls other before
    · exact phaseOk
  by_cases sends : ∃ failed, input = .publish failed
  · obtain ⟨failed, rfl⟩ := sends
    obtain ⟨works, alone⟩ := orderly
    cases effect with
    | @publishFailed sliceId _ _ stands inside closed =>
      have within : sliceId < s.channels.length :=
        inv.size.1.symm ▸ Nat.lt_of_lt_of_le inside (length_slicesOf_le _)
      rw [works, List.getElem?_eq_getElem within] at closed
      rcases closed with fails | missing
      · cases fails
      · cases missing
    | @publish sliceId sent stands inside at_slice =>
      rw [stands] at ok
      have others : ∀ (c' : Nat) other, c' ≠ c → s.calls[c']? = some other →
          midPublish p other = false := by
        intro c' other apart at_c'
        have remaining := List.mem_eraseIdx_iff_getElem?.mpr ⟨c', apart, at_c'⟩
        simpa using List.all_eq_true.mp alone other remaining
      refine ⟨_, ⟨by rw [List.length_set]; exact inv.size.1, inv.size.2⟩, ?_,
        inv.sent.publish inv.size.1 at_c stands inside at_slice others rfl rfl, ?_, ?_, ?_⟩
      · rw [State.requests, same]
        intro job made
        split at made
        · rcases List.mem_append.mp made with before | new
          · exact inv.made job before
          · cases List.mem_singleton.mp new
            exact ⟨List.mem_map.mpr ⟨call, member, rfl⟩, ok⟩
        · exact inv.made job made
      · intro r rank at_r
        split
        · exact (inv.ranks r rank at_r).later call.request
        · exact inv.ranks r rank at_r
      · rw [State.requests, same]
        exact store
      · rw [State.requests, same]
        exact calls
    | other notPublish => exact absurd rfl (notPublish _)
  · have silent : ∀ failed, input ≠ .publish failed := fun failed is => sends ⟨failed, is⟩
    have kept : input = .cancel → midPublish p call = false := by
      rintro rfl
      have whole : (s.calls[c]?).all (fun call => !midPublish p call) = true := orderly
      rw [at_c] at whole
      simpa using whole
    obtain ⟨rfl, idle, after⟩ := not_midPublish effect silent kept ok
    refine ⟨jobs, inv.size, ?_, ?_, inv.ranks, ?_, ?_⟩
    · rw [State.requests, same]
      exact inv.made
    · refine inv.sent.other rfl (fun c' other at_c' opened => ?_) fun c' other at_c' opened => ?_
      · have apart : c ≠ c' := by
          rintro rfl
          cases at_c.symm.trans at_c'
          rw [idle] at opened
          cases opened
        exact (List.getElem?_set_ne apart).trans at_c'
      · rcases getElem?_set_cases at_c' with ⟨rfl, rfl⟩ | ⟨-, before⟩
        · rw [after] at opened
          cases opened
        · exact before
    · rw [State.requests, same]
      exact store
    · rw [State.requests, same]
      exact calls

/-- A step of one rank, which leaves calls and channels alone. -/
theorem rank_inv {r : Nat} {rank after : Rank} (at_r : s.ranks[r]? = some rank)
    (ok : RankOk p jobs r after) {shared : Shared}
    (store : shared.store.All (Written p s.requests)) :
    Inv p { s with shared, ranks := s.ranks.set r after } jobs := by
  refine ⟨⟨inv.size.1, by rw [List.length_set]; exact inv.size.2⟩, inv.made,
    inv.sent.other rfl (fun _ _ at_c _ => at_c) fun _ _ at_c _ => at_c, ?_, store, inv.calls⟩
  intro r' other at_r'
  rcases getElem?_set_cases at_r' with ⟨rfl, rfl⟩ | ⟨-, before⟩
  · exact ok
  · exact inv.ranks r' other before

theorem receive_inv {r : Nat} {rank : Rank} (at_r : s.ranks[r]? = some rank)
    (waits : rank.phase = .receiving) {message : Json Double}
    (next : (s.channels[r]?.getD [])[rank.received]? = some message) :
    Inv p { s with ranks := s.ranks.set r (rank.receive p r message) } jobs := by
  have inside : r < p.worldSize := inv.size.2 ▸ (List.getElem?_eq_some_iff.mp at_r).1
  have within : r < s.channels.length := inv.size.1.symm ▸ inside
  have open_ : s.channels[r]? = some s.channels[r] := List.getElem?_eq_getElem within
  rw [open_, Option.getD_some] at next
  obtain ⟨request, at_job, rfl⟩ := inv.sent.ordered open_ next
  obtain ⟨-, admitted, uniform⟩ := inv.made request (List.mem_of_getElem? at_job)
  exact rank_inv inv at_r ((inv.ranks r rank at_r).receive waits at_job inside admitted uniform)
    inv.store

/-- What a rank writes is its share of a job. -/
theorem write_ok {r : Nat} {rank : Rank} (at_r : s.ranks[r]? = some rank) {task : WorkerTask}
    (writes : rank.phase = .writing task) (fault : Fault) {left : Option WorkerTask} {store : Store}
    {channel : List Notification}
    (worked : task.step fault s.shared.store s.shared.channel = (left, store, channel)) :
    RankOk p jobs r { rank with phase := afterWrite task left } ∧
      store.All (Written p s.requests) := by
  have ok := inv.ranks r rank at_r
  have stands := ok.stands
  rw [Stands, writes] at stands
  obtain ⟨length, request, made, probs, computed, jobId, sliceId, payload⟩ := stands
  have slice : SliceFor p s.requests task.jobId task.sliceId probs := by
    obtain ⟨known, admitted, -⟩ := inv.made request made
    exact ⟨request, known, jobId.symm, admitted, sliceId ▸ computed⟩
  unfold WorkerTask.step at worked
  split at worked
  · rename_i written
    cases worked
    refine ⟨⟨ok.bound, ok.contributed, ?_⟩, inv.store⟩
    rw [afterWrite, if_pos written]
    exact length
  · rename_i unwritten
    simp only [Prod.mk.injEq] at worked
    obtain ⟨outcome, rfl, rfl⟩ := worked
    refine ⟨⟨ok.bound, ok.contributed, ?_⟩, ?_⟩
    · cases left with
      | none =>
        rw [afterWrite, if_neg unwritten]
        trivial
      | some next =>
        cases (Option.ite_none_right_eq_some.mp outcome).2
        exact ⟨length, request, made, probs, computed, jobId, sliceId, payload⟩
    · refine All_attempt inv.store fault fun value put => ?_
      cases put
      rw [payload]
      exact .slice slice

end actions

theorem step_inv (documented : p.gateway.serde.Documented) (action : Action) (s next : State)
    (inv : ∃ jobs, Inv p s jobs) (orderly : Orderly p action s)
    (applied : step p action s = some next) : ∃ jobs, Inv p next jobs := by
  obtain ⟨jobs, inv⟩ := inv
  cases action with
  | submit request now =>
    cases applied
    exact ⟨jobs, submit_inv inv request now orderly⟩
  | call c input =>
    simp only [step] at applied
    split at applied
    · rename_i call at_c
      split at applied
      · rename_i phase shared channels stepped
        cases applied
        exact call_inv inv documented at_c orderly stepped
      · cases applied
    · cases applied
  | receive r =>
    simp only [step] at applied
    split at applied
    · rename_i rank at_r
      split at applied
      · rename_i message waits at_next
        cases applied
        exact ⟨jobs, receive_inv inv at_r waits at_next⟩
      · cases applied
    · cases applied
  | reduced r =>
    simp only [step] at applied
    split at applied
    · rename_i rank at_r
      split at applied
      · rename_i after stepped
        cases applied
        have ok := (inv.ranks r rank at_r).reduced inv.size.2 inv.ranks stepped
        exact ⟨jobs, rank_inv inv at_r ok inv.store⟩
      · cases applied
    · cases applied
  | write r fault =>
    simp only [step] at applied
    split at applied
    · rename_i rank at_r
      split at applied
      · rename_i task writes
        cases applied
        obtain ⟨ok, store⟩ := write_ok inv at_r writes fault rfl
        exact ⟨jobs, rank_inv inv at_r ok store⟩
      · cases applied
    · cases applied
  | exit r =>
    simp only [step] at applied
    split at applied
    · rename_i rank at_r
      cases applied
      have ok := inv.ranks r rank at_r
      have left : RankOk p jobs r { rank with phase := .exited } :=
        ⟨ok.bound, ok.contributed, trivial⟩
      exact ⟨jobs, rank_inv inv at_r left inv.store⟩
    · cases applied
  | notify n again =>
    simp only [step] at applied
    split at applied
    · cases applied
      exact ⟨jobs, inv.size, inv.made,
        inv.sent.other rfl (fun _ _ at_c _ => at_c) fun _ _ at_c _ => at_c, inv.ranks, inv.store,
        inv.calls⟩
    · cases applied
  | miss n =>
    cases applied
    exact ⟨jobs, inv.size, inv.made,
      inv.sent.other rfl (fun _ _ at_c _ => at_c) fun _ _ at_c _ => at_c, inv.ranks, inv.store,
      inv.calls⟩
  | elapse seconds =>
    cases applied
    exact ⟨jobs, inv.size, inv.made,
      inv.sent.other rfl (fun _ _ at_c _ => at_c) fun _ _ at_c _ => at_c, inv.ranks,
      All_expire inv.store seconds, inv.calls⟩

theorem initial_inv : Inv p (.initial p) [] where
  size := ⟨List.length_replicate, List.length_replicate⟩
  made _ member := by cases member
  sent := .whole (fun _ member => by cases member) fun r sent at_r =>
    List.eq_of_mem_replicate (List.mem_of_getElem? at_r)
  ranks r rank at_r := by
    cases List.eq_of_mem_replicate (List.mem_of_getElem? at_r)
    exact initial_rankOk
  store _ _ stored := by cases stored
  calls _ member := by cases member

theorem orderly_inv (documented : p.gateway.serde.Documented) {actions : List Action} {s : State}
    (orderly : Foundations.Transition.Admitted (step p) (Orderly p) actions (.initial p))
    (ran : run (step p) actions (.initial p) = some s) : ∃ jobs, Inv p s jobs :=
  run_invariant_of_admitted (step_inv documented) ⟨[], initial_inv⟩ orderly ran

end DistributedSoftmax.System.NcclJobs
