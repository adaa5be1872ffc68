import Mathlib.Data.List.Perm.Subperm
import DistributedSoftmax.System.ServerCounting

/-! When a call on the C++ gateway goes on too early. As long as no slice of the
job counts twice, its counter reaches the number of slices only when all of them
are stored; no slice is lost after that. -/

set_option autoImplicit false

namespace DistributedSoftmax.System.ServerJobs
open Foundations.ByteString Foundations.KeyValue Foundations.Transition
open Gateway Worker
open Jobs (WorkerTask sliceDone Framed)

variable {p : Platform} {jobId : String}

/-- How far a call of the job can be, by what is stored and what was counted. -/
def CallOk (total : Nat) (repeated : Bool) (kept : Nat → Prop) : Phase → Prop
  | .preReading i _ => i < total
  | .counting i _ => i < total ∧ kept i
  | .leaving true _ => repeated = false → ∀ i < total, kept i
  | .rereading i _ => i < total ∧ (repeated = false → ∀ k < total, kept k)
  | _ => True

/-- What the counter of a job says about the slices that are stored. -/
structure CountInv (p : Platform) (request : TaskRequest) (s : Counted) : Prop where
  lasting : Lasting s.state.shared.store request.jobId
  tasks : ∀ task ∈ s.state.tasks, task.jobId = request.jobId → task.written = true →
    Kept s.state.shared.store request.jobId task.sliceId
  channel : ∀ notification ∈ s.state.shared.channel, ∃ jobId i, notification = sliceDone jobId i ∧
    (jobId = request.jobId → i < totalOf p request ∧ Kept s.state.shared.store request.jobId i)
  seen : ∀ sliceId ∈ (s.tally request.jobId).seen, ∃ i < totalOf p request,
    sliceId = toString i ∧ Kept s.state.shared.store request.jobId i
  received : ∀ counter, s.state.shared.notifier.jobs request.jobId = some counter →
    counter.received = (s.tally request.jobId).seen.length
  distinct : (s.tally request.jobId).repeated = false → (s.tally request.jobId).seen.Nodup
  calls : ∀ call ∈ s.state.calls, call.request.jobId = request.jobId →
    CallOk (totalOf p request) (s.tally request.jobId).repeated
      (Kept s.state.shared.store request.jobId) call.phase

section counting
variable {request : TaskRequest}

theorem CallOk.mono {total : Nat} {repeated repeated' : Bool} {kept kept' : Nat → Prop} {phase : Phase}
    (ok : CallOk total repeated kept phase) (sticks : repeated' = false → repeated = false)
    (grows : ∀ i, kept i → kept' i) : CallOk total repeated' kept' phase := by
  unfold CallOk at ok ⊢
  split
  · exact ok
  · exact ⟨ok.1, grows _ ok.2⟩
  · exact fun fresh i inside => grows i (ok (sticks fresh) i inside)
  · exact ⟨ok.1, fun fresh i inside => grows i (ok.2 (sticks fresh) i inside)⟩
  · trivial

theorem callOk_preReadFrom (total i : Nat) (repeated : Bool) (kept : Nat → Prop)
    (stats : List (SliceStats Double)) : CallOk total repeated kept (preReadFrom total i stats) := by
  unfold preReadFrom
  split
  · assumption
  · trivial

theorem callOk_rereadFrom {total : Nat} {repeated : Bool} {kept : Nat → Prop}
    (all : repeated = false → ∀ i < total, kept i) (i : Nat) (stats : List (SliceStats Double)) :
    CallOk total repeated kept (rereadFrom p total i stats) := by
  unfold rereadFrom
  split
  · rename_i inside
    exact ⟨inside, all⟩
  · trivial

theorem lt_totalOf (framed : Framed request) {i : Nat} {data : List Double}
    (at_i : (slicesOf p request)[i]? = some data) : i < totalOf p request := by
  cases counts : countsOf p request with
  | none =>
    rw [slicesOf, counts] at at_i
    cases at_i
  | some sizes =>
    obtain ⟨sliceSize, totalSlices⟩ := sizes
    rw [(slicesOf_eq framed counts).2]
    exact (List.getElem?_eq_some_iff.mp at_i).1

/-- A read that succeeds finds the slice. -/
theorem kept_of_readAt {i : Nat} {stats : List (SliceStats Double)} {failed : Bool} {store : Store}
    {held : SliceStats Double} (read : readAt p request i stats failed store = (true, held)) :
    Kept store request.jobId i := by
  unfold readAt at read
  cases present : store (RedisConfig.sliceKey request.jobId i) with
  | none =>
    have nothing : (if failed then none else
        Jobs.found store (RedisConfig.sliceKey request.jobId i)) = none := by
      rw [Jobs.found, present]
      exact ite_self _
    rw [nothing] at read
    cases read
  | some entry => rw [Kept, present, Option.isSome_some]

section invariant
variable {s next : Counted} (count : CountInv p request s)
include count

/-- As many slices as the job has, none of them twice: these are all its slices. -/
theorem CountInv.all_kept (fresh : (s.tally request.jobId).repeated = false)
    (satisfied : s.state.shared.notifier.satisfied request.jobId (totalOf p request) = true) :
    ∀ i < totalOf p request, Kept s.state.shared.store request.jobId i := by
  intro i inside
  have within : (s.tally request.jobId).seen ⊆ (List.range (totalOf p request)).map toString := by
    intro sliceId member
    obtain ⟨k, below, rfl, -⟩ := count.seen sliceId member
    exact List.mem_map_of_mem (List.mem_range.mpr below)
  have enough : totalOf p request ≤ (s.tally request.jobId).seen.length := by
    unfold Server.SliceNotifier.satisfied at satisfied
    split at satisfied
    · rename_i counter registered
      rw [← count.received counter registered]
      exact of_decide_eq_true satisfied
    · cases satisfied
  have every : ((s.tally request.jobId).seen).Perm ((List.range (totalOf p request)).map toString) :=
    (List.subperm_of_subset (count.distinct fresh) within).perm_of_length_le (by simpa using enough)
  obtain ⟨k, -, same, kept⟩ := count.seen (toString i)
    (every.mem_iff.mpr (List.mem_map_of_mem (List.mem_range.mpr inside)))
  rwa [Foundations.Decimal.toString_injective same]

theorem CountInv.call_step {call : Call} {input : CallInput} {phase : Phase} {shared : Shared}
    (stepped : call.step p s.state.shared input = some (phase, shared))
    (member : call ∈ s.state.calls) (own : call.request.jobId = request.jobId)
    (vector : call.request.vector = request.vector) :
    CallOk (totalOf p request) (s.tally request.jobId).repeated
      (Kept s.state.shared.store request.jobId) phase := by
  have ok := count.calls call member own
  have total : totalOf p call.request = totalOf p request := by
    simp only [totalOf, countsOf, vector]
  cases Call.step_effect stepped with
  | store | publish | expire | storeResult => trivial
  | register =>
    rw [total]
    exact callOk_preReadFrom _ _ _ _ _
  | @preRead i stats failed read held stands answered =>
    rw [stands] at ok
    cases read with
    | true => exact ⟨ok, own ▸ kept_of_readAt answered⟩
    | false =>
      rw [total]
      exact callOk_preReadFrom _ _ _ _ _
  | @reread i stats failed read held stands empty answered =>
    rw [stands] at ok
    cases read with
    | true =>
      rw [total]
      exact callOk_rereadFrom ok.2 _ _
    | false => trivial
  | count =>
    rw [total]
    exact callOk_preReadFrom _ _ _ _ _
  | wake stands satisfied =>
    rw [total, own] at satisfied
    exact fun fresh => count.all_kept fresh satisfied
  | @unregister waited stats stands =>
    rw [stands] at ok
    cases waited with
    | true =>
      rw [total]
      exact callOk_rereadFrom ok _ _
    | false => trivial
  | skip stands =>
    rw [stands] at ok
    rw [total]
    exact callOk_rereadFrom ok.2 _ _
  | storeProgress =>
    split <;> trivial

end invariant

section steps
variable {s next : Counted} {action : Action}

theorem Told.sticks (told : Told jobId s next) (fresh : (next.tally jobId).repeated = false) :
    (s.tally jobId).repeated = false := by
  cases told with
  | same _ tally | gone _ tally | fresh _ tally =>
    rw [tally] at fresh
    exact fresh
  | counted _ _ tally =>
    rw [tally] at fresh
    exact (Bool.or_eq_false_iff.mp fresh).1

/-- What counts is a slice of the job that is stored. -/
theorem CountInv.counted_kept (count : CountInv p request s) {sliceId : String}
    (source : (∃ notification ∈ s.state.shared.channel, notification.payload = sliceId ∧
        stripPrefix? "slice_done:" notification.channelName = some request.jobId) ∨
      (∃ call ∈ s.state.calls, call.request.jobId = request.jobId ∧
        ∃ i stats, call.phase = .counting i stats ∧ sliceId = toString i)) :
    ∃ i < totalOf p request, sliceId = toString i ∧
      Kept s.state.shared.store request.jobId i := by
  rcases source with ⟨notification, member, payload, job⟩ | ⟨call, member, own, i, stats, stands, same⟩
  · obtain ⟨jobId, i, rfl, fine⟩ := count.channel notification member
    have sender : stripPrefix? "slice_done:" (pubChannel jobId) = some jobId :=
      stripPrefix?_append "slice_done:" jobId
    obtain rfl := Option.some.inj (sender.symm.trans job)
    obtain ⟨inside, kept⟩ := fine rfl
    exact ⟨i, inside, payload.symm, kept⟩
  · have ok := count.calls call member own
    rw [stands] at ok
    exact ⟨i, ok.1, same, ok.2⟩

theorem CountInv.step (count : CountInv p request s) (framed : Framed request)
    (inv : Inv p s.state) (taken : Counted.step p action s = some next)
    (undisturbed : Undisturbed request s.state.requests) : CountInv p request next := by
  have told : Told request.jobId s next := step_told taken
  have applied : ServerJobs.step p action s.state = some next.state := by
    obtain ⟨state, applied, rfl⟩ := Option.map_eq_some_iff.mp taken
    exact applied
  have grows := step_grows applied undisturbed count.lasting
  refine ⟨grows.lasting count.lasting, ?_, ?_, ?_, ?_, ?_, ?_⟩
  · intro task member own written
    rcases step_written applied member written with before | kept
    · exact grows.kept (count.tasks task before own written)
    · rwa [own] at kept
  · intro notification member
    rcases step_channel applied member with before | ⟨task, working, written, same⟩
    · obtain ⟨jobId, i, same, fine⟩ := count.channel notification before
      refine ⟨jobId, i, same, fun own => ?_⟩
      obtain ⟨inside, kept⟩ := fine own
      subst own
      exact ⟨inside, grows.kept kept⟩
    · refine ⟨task.jobId, task.sliceId, same, fun own => ?_⟩
      obtain ⟨stats, ⟨other, made, jobId, data, at_i, -⟩, -⟩ := inv.tasks task working
      have slices : slicesOf p other = slicesOf p request := by
        simp only [slicesOf, countsOf, undisturbed.only other made (jobId.trans own)]
      exact ⟨lt_totalOf framed (slices ▸ at_i), grows.kept (count.tasks task working own written)⟩
  · have later : ∀ sliceId ∈ (s.tally request.jobId).seen, ∃ i < totalOf p request,
        sliceId = toString i ∧ Kept next.state.shared.store request.jobId i := by
      intro sliceId member
      obtain ⟨i, inside, same, kept⟩ := count.seen sliceId member
      exact ⟨i, inside, same, grows.kept kept⟩
    intro sliceId member
    cases told with
    | same _ tally | gone _ tally =>
      rw [tally] at member
      exact later sliceId member
    | fresh _ tally =>
      rw [tally] at member
      cases member
    | counted _ _ tally source =>
      rw [tally] at member
      rcases List.mem_cons.mp member with rfl | before
      · obtain ⟨i, inside, same, kept⟩ := count.counted_kept source
        exact ⟨i, inside, same, grows.kept kept⟩
      · exact later sliceId before
  · intro counter registered
    cases told with
    | same jobs tally =>
      rw [tally]
      exact count.received counter (jobs.symm.trans registered)
    | gone jobs tally => cases jobs.symm.trans registered
    | fresh jobs tally =>
      cases jobs.symm.trans registered
      rw [tally]
      rfl
    | counted before jobs tally source =>
      cases jobs.symm.trans registered
      rw [tally, count.received _ before]
      rfl
  · intro fresh
    have distinct := count.distinct (told.sticks fresh)
    cases told with
    | same _ tally | gone _ tally => rwa [tally]
    | fresh _ tally =>
      rw [tally]
      exact List.nodup_nil
    | counted _ _ tally source =>
      rw [tally] at fresh ⊢
      have unseen := (Bool.or_eq_false_iff.mp fresh).2
      refine List.nodup_cons.mpr ⟨fun member => ?_, distinct⟩
      rw [List.contains_iff_mem.mpr member] at unseen
      cases unseen
  · intro call member own
    have onwards : ∀ {phase : Phase}, CallOk (totalOf p request) (s.tally request.jobId).repeated
        (Kept s.state.shared.store request.jobId) phase →
        CallOk (totalOf p request) (next.tally request.jobId).repeated
          (Kept next.state.shared.store request.jobId) phase :=
      fun ok => ok.mono told.sticks fun _ kept => grows.kept kept
    rcases step_mem_calls applied member with before | (ended | ⟨status, refused⟩ | ⟨now, started⟩) |
      ⟨old, known, same, input, shared, stepped⟩
    · exact onwards (count.calls call before own)
    · rw [ended]
      trivial
    · rw [refused]
      trivial
    · rw [started]
      trivial
    · rw [same] at own
      have made : old.request ∈ s.state.requests := List.mem_map.mpr ⟨old, known, rfl⟩
      exact onwards (count.call_step stepped known own (undisturbed.only _ made own))

theorem CountInv.empty : CountInv p request .empty where
  lasting _ _ stored := by cases stored
  tasks _ member := by cases member
  channel _ member := by cases member
  seen _ member := by cases member
  received _ registered := by cases registered
  distinct _ := List.nodup_nil
  calls _ member := by cases member

theorem Counted.reachable_inv (documented : p.json.Documented) (framed : Framed request)
    (reached : Reachable (Counted.step p) .empty s) :
    Inv p s.state ∧ (Undisturbed request s.state.requests → CountInv p request s) := by
  have preserved : ∀ action (s next : Counted),
      (Inv p s.state ∧ (Undisturbed request s.state.requests → CountInv p request s)) →
      Counted.step p action s = some next →
      Inv p next.state ∧ (Undisturbed request next.state.requests → CountInv p request next) := by
    rintro action s next ⟨inv, count⟩ taken
    obtain ⟨state, applied, rfl⟩ := Option.map_eq_some_iff.mp taken
    refine ⟨step_inv documented action _ _ inv applied, fun undisturbed => ?_⟩
    have before := undisturbed.of_step applied
    exact (count before).step framed inv taken before
  exact reached.invariant preserved ⟨empty_inv, fun _ => .empty⟩

end steps

/-- Only because a slice counted twice can a call find a slice missing when it
reads again after its wait: nothing but its counter tells it that all are there. -/
theorem missing_slice_counted_twice (documented : p.json.Documented) {s : Counted}
    (reached : Reachable (Counted.step p) .empty s) {call : Call} (member : call ∈ s.state.calls)
    (framed : Framed call.request) (undisturbed : Undisturbed call.request s.state.requests)
    {i : Nat} {stats : List (SliceStats Double)} (stands : call.phase = .rereading i stats)
    (missing : s.state.shared.store (RedisConfig.sliceKey call.request.jobId i) = none) :
    (s.tally call.request.jobId).repeated = true := by
  have count := (Counted.reachable_inv documented framed reached).2 undisturbed
  have ok := count.calls call member rfl
  rw [stands] at ok
  by_contra once
  have kept := ok.2 (Bool.not_eq_true _ ▸ once) i ok.1
  rw [Kept, missing] at kept
  cases kept

/-- Slice 0 of two is written and read beforehand; its notification counts
again, and the call goes on although slice 1 was never computed. -/
def earlyRun : List Action :=
  [.submit ⟨"j", "softmax", Jobs.zeros 2⟩ 0, .call 0 (.store .none), .call 0 (.publish false),
    .call 0 (.publish false), .receive 0 false, .work 0 .none, .call 0 .register,
    .call 0 (.read false), .call 0 .count, .call 0 (.read false), .work 0 .none, .notify 0 false,
    .call 0 .wake, .call 0 .unregister, .call 0 .skip]

/-- The calls and the tally of a job after a run, and whether a slice of it is stored. -/
def talliesAfter (p : Platform) (actions : List Action) (jobId : String) (i : Nat) :
    Option (List Call × Tally × Bool) :=
  (run (Counted.step p) actions .empty).map fun s => (s.state.calls, s.tally jobId,
    (s.state.shared.store (RedisConfig.sliceKey jobId i)).isSome)

/-- What slice 0 of two zeros is, and the place of slice 1. -/
def earlyStats : List (SliceStats Double) :=
  [⟨[Double.one], Double.zero, Double.one, false⟩, .default]

theorem talliesAfter_earlyRun : talliesAfter smallServer earlyRun "j" 1 = some
    ([⟨⟨"j", "softmax", Jobs.zeros 2⟩, .rereading 1 earlyStats⟩], ⟨["0", "0"], true⟩, false) := by
  decide +kernel

theorem missing_slice_counted_twice_early :
    (talliesAfter smallServer earlyRun "j" 1).map (fun after => after.2.1.repeated) = some true := by
  obtain ⟨s, ran, same⟩ := Option.map_eq_some_iff.mp talliesAfter_earlyRun
  simp only [Prod.mk.injEq] at same
  obtain ⟨calls, -, stored⟩ := same
  have requests : s.state.requests = [⟨"j", "softmax", Jobs.zeros 2⟩] := by
    rw [State.requests, calls]
    rfl
  have undisturbed : Undisturbed ⟨"j", "softmax", Jobs.zeros 2⟩ s.state.requests := by
    rw [requests]
    refine ⟨?_, ?_⟩
    · intro other made _
      rw [List.mem_singleton.mp made]
    · intro other made
      rw [List.mem_singleton.mp made]
      exact Jobs.not_nested_self "j"
  have made : ⟨⟨"j", "softmax", Jobs.zeros 2⟩, .rereading 1 earlyStats⟩ ∈ s.state.calls := by
    rw [calls]
    exact List.mem_singleton_self _
  have framed : Framed ⟨"j", "softmax", Jobs.zeros 2⟩ := by
    simp [Framed, Jobs.zeros]
  have missing : s.state.shared.store (RedisConfig.sliceKey "j" 1) = none :=
    Option.not_isSome_iff_eq_none.mp (Bool.not_eq_true _ ▸ stored)
  have repeated := missing_slice_counted_twice (p := smallServer) JsonText.serde_documented
    ⟨earlyRun, ran⟩ made framed undisturbed rfl missing
  rw [talliesAfter, ran]
  exact congrArg some repeated

/-- The job fails, though nothing in the run did. -/
example : callsAfter smallServer (earlyRun ++ [.call 0 (.read false)]) = some
    [⟨⟨"j", "softmax", Jobs.zeros 2⟩, .returned (failed "j")⟩] := by
  decide +kernel

end counting

end DistributedSoftmax.System.ServerJobs
