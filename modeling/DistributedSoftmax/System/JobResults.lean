import Mathlib.Data.List.Nodup
import DistributedSoftmax.Gateway.Slicing
import DistributedSoftmax.JsonText
import DistributedSoftmax.System.JobSafety

/-! The results of jobs. As long as nobody submits another vector under the
same job identifier, a job returns what it returns when it is alone. -/

set_option autoImplicit false

namespace DistributedSoftmax.System.Jobs
open Foundations.Transition
open Gateway Worker

variable {p : Platform} {requests : List TaskRequest}

/-- Requests with one vector have the same slices, if both have any. -/
theorem slicesOf_eq {request other : TaskRequest} (same : other.vector = request.vector)
    (some_slice : slicesOf p request ≠ []) (other_slice : slicesOf p other ≠ []) :
    slicesOf p other = slicesOf p request := by
  have softmax : ∀ r : TaskRequest, slicesOf p r ≠ [] → r.task = "softmax" := by
    intro r nonempty
    by_contra task
    apply nonempty
    simp only [slicesOf, requestSlices, ne_eq, task, not_false_eq_true, if_true]
    rfl
  simp only [slicesOf, requestSlices, same, softmax request some_slice, softmax other other_slice]

/-- Lists that agree entry by entry with a partial map and a function after it. -/
theorem mapM_of_getElem? {α β γ : Type} {f : α → Option β} {g : β → γ} {xs : List α} {ys : List γ}
    (lengths : ys.length = xs.length)
    (each : ∀ (i : Nat) y, ys[i]? = some y → ∃ x b, xs[i]? = some x ∧ f x = some b ∧ y = g b) :
    ∃ bs, xs.mapM f = some bs ∧ ys = bs.map g := by
  induction xs generalizing ys with
  | nil => exact ⟨[], rfl, List.eq_nil_of_length_eq_zero lengths⟩
  | cons x rest ih =>
    cases ys with
    | nil => cases lengths
    | cons y ys =>
      obtain ⟨x', b, head, image, rfl⟩ := each 0 y rfl
      cases head
      obtain ⟨bs, mapped, rfl⟩ := ih (Nat.succ.inj lengths) fun i z at_i => each (i + 1) z at_i
      refine ⟨b :: bs, ?_, rfl⟩
      rw [List.mapM_cons, image, mapped]
      rfl

/-- The slice of every request with the job identifier is the slice of this one. -/
theorem GoodSlice.own {request : TaskRequest} {i : Nat} {s : SliceStats Double}
    (good : GoodSlice p requests request.jobId i s)
    (only : ∀ other ∈ requests, other.jobId = request.jobId → other.vector = request.vector)
    (inside : i < (slicesOf p request).length) :
    ∃ data stats, (slicesOf p request)[i]? = some data ∧ workerStats p data = some stats ∧
      s = ofPartial p.widen stats := by
  obtain ⟨stats, ⟨other, member, jobId, data, at_i, computed⟩, same⟩ := good
  have other_slice : slicesOf p other ≠ [] := by
    intro empty
    rw [empty] at at_i
    cases at_i
  rw [slicesOf_eq (only other member jobId) (List.ne_nil_of_length_pos (by omega)) other_slice] at at_i
  exact ⟨data, stats, at_i, computed, same⟩

theorem ResultFor.expected {request : TaskRequest} {result : List Single}
    (returned : ResultFor p requests request result)
    (only : ∀ other ∈ requests, other.jobId = request.jobId → other.vector = request.vector) :
    expected p request = some result := by
  obtain ⟨values, ⟨-, admitted, stats, lengths, good, aggregated⟩, read⟩ := returned
  have each : ∀ (i : Nat) s, stats[i]? = some s → ∃ data partialStats,
      (slicesOf p request)[i]? = some data ∧ workerStats p data = some partialStats ∧
        s = ofPartial p.widen partialStats := by
    intro i s at_i
    have inside : i < (slicesOf p request).length :=
      lengths ▸ (List.getElem?_eq_some_iff.mp at_i).1
    exact (good i s at_i).own only inside
  obtain ⟨partials, computed, rfl⟩ := mapM_of_getElem? lengths each
  unfold Jobs.expected
  rw [admitted]
  simp only [Except.toOption, Option.bind_eq_bind, Option.bind_some, computed, aggregated]
  exact read

/-- Without another vector under its job identifier, a call returns what the job
returns when it is alone. -/
theorem returned_expected (documented : p.serde.Documented) {s : State}
    (reached : Reachable (step p) .empty s) {call : Call} (member : call ∈ s.calls)
    {result : List Single} (returned : call.phase = .returned (.ok result))
    (only : ∀ other ∈ s.calls, other.request.jobId = call.request.jobId →
      other.request.vector = call.request.vector) :
    expected p call.request = some result := by
  have ok := (reachable_inv documented reached).calls call member
  rw [returned] at ok
  refine ResultFor.expected ok ?_
  intro other made jobId
  obtain ⟨otherCall, submitted, rfl⟩ := List.mem_map.mp made
  exact only otherCall submitted jobId

/-- The numeric functions return one value for each value of their input. -/
structure Platform.KeepsLength (p : Platform) : Prop where
  computePartial : ∀ data stats, p.computePartial data = .ok stats →
    stats.expValues.length = data.length
  aggregateSoftmax : ∀ stats values, p.aggregateSoftmax stats = .ok values →
    values.length = (stats.map fun s => s.expValues.length).sum

theorem cpu_keepsLength (env : Env) (serde : SerdeJson) (fl : Floats Double Single)
    (redisError publishError : String) :
    (Platform.cpu env serde fl redisError publishError).KeepsLength where
  computePartial data stats computed := by
    cases computed
    exact length_softmaxPartial fl data
  aggregateSoftmax stats values aggregated := by
    cases aggregated
    exact length_aggregateSoftmaxCpu fl.f64 stats

theorem workerStats_length (keeps : p.KeepsLength) {data : List Double}
    {stats : PartialStats Double Single} (computed : workerStats p data = some stats) :
    stats.expValues.length = data.length := by
  unfold workerStats at computed
  rw [Option.bind_eq_bind, Option.bind_eq_some_iff] at computed
  obtain ⟨values, read, computed⟩ := computed
  obtain ⟨-, rfl⟩ := SerdeJson.toDoubles?_wire read
  split at computed
  · cases computed
  · cases result : p.computePartial (data.map p.serde.reread) with
    | error message =>
      rw [result] at computed
      cases computed
    | ok other =>
      rw [result] at computed
      cases computed
      rw [keeps.computePartial _ _ result, List.length_map]

theorem mapM_workerStats_length (keeps : p.KeepsLength) {slices : List (List Double)}
    {partials : List (PartialStats Double Single)}
    (computed : slices.mapM (workerStats p) = some partials) :
    (partials.map fun stats => stats.expValues.length).sum = slices.flatten.length := by
  induction slices generalizing partials with
  | nil =>
    cases computed
    rfl
  | cons data rest ih =>
    simp only [List.mapM_cons, Option.bind_eq_bind, Option.bind_eq_some_iff, Option.pure_def,
      Option.some.injEq] at computed
    obtain ⟨stats, head, tail, mapped, rfl⟩ := computed
    rw [List.map_cons, List.sum_cons, ih mapped, workerStats_length keeps head, List.flatten_cons,
      List.length_append]

theorem aggregateStats_length (keeps : p.KeepsLength) {stats : List (SliceStats Double)}
    {values : List Double} (aggregated : aggregateStats p.aggregateSoftmax stats = .ok values) :
    values.length = (stats.map fun s => s.expValues.length).sum := by
  unfold aggregateStats at aggregated
  split at aggregated
  · cases aggregated
    exact List.length_flatMap
  · exact keeps.aggregateSoftmax stats values aggregated

/-- A job returns one value for each value of its vector. -/
theorem expected_length (documented : p.serde.Documented) (keeps : p.KeepsLength)
    {request : TaskRequest} {result : List Single} (same : expected p request = some result) :
    result.length = request.vector.length := by
  unfold expected at same
  cases admitted : requestSlices .zmq p.env p.widen request with
  | error status =>
    rw [admitted] at same
    cases same
  | ok slices =>
    rw [admitted] at same
    simp only [Except.toOption, Option.bind_eq_bind, Option.bind_some, Option.bind_eq_some_iff] at same
    obtain ⟨partials, computed, values, aggregated, read⟩ := same
    have whole := cutSlices_flatten (requestSlices_eq_ok.mp admitted).2.2
    have count : values.length = slices.flatten.length := by
      cases final : aggregateStats p.aggregateSoftmax (partials.map (ofPartial p.widen)) with
      | error message =>
        rw [final] at aggregated
        cases aggregated
      | ok other =>
        rw [final] at aggregated
        cases aggregated
        rw [aggregateStats_length keeps final, ← mapM_workerStats_length keeps computed]
        simp only [List.map_map, Function.comp_def, ofPartial, List.length_map]
    rw [resultFloats, resultStr, documented.array_parse, Option.bind_some,
      Option.map_eq_some_iff] at read
    obtain ⟨doubles, reread, rfl⟩ := read
    obtain ⟨-, rfl⟩ := SerdeJson.toDoubles?_wire reread
    rw [List.length_map, List.length_map, count, whole, List.length_map]

/-- Distinct job identifiers: nobody else submits under the identifier of a call. -/
theorem only_of_nodup {calls : List Call}
    (distinct : (calls.map fun call => call.request.jobId).Nodup) {call : Call}
    (member : call ∈ calls) : ∀ other ∈ calls, other.request.jobId = call.request.jobId →
      other = call :=
  fun _ made jobId => List.inj_on_of_nodup_map distinct made member jobId

/-- Safety of concurrent jobs. In every reachable state with pairwise distinct
job identifiers a call that returned OK, and a query that reported a result,
have the vector computed from the job's own slices in their order; and what a
waiting call holds are its own slices at their indices. -/
theorem concurrent_jobs_safe (documented : p.serde.Documented) {s : State}
    (reached : Reachable (step p) .empty s)
    (distinct : (s.calls.map fun call => call.request.jobId).Nodup) :
    (∀ call ∈ s.calls, ∀ result, call.phase = .returned (.ok result) →
      expected p call.request = some result) ∧
    (∀ query ∈ s.queries, ∀ response, query.phase = .answered (.ok response) →
      response.status = "ready" → ∃ call ∈ s.calls, call.request.jobId = query.jobId ∧
        expected p call.request = some response.result) ∧
    (∀ call ∈ s.calls, ∀ waiting, call.phase = .waiting waiting →
      ∀ (i : Nat) held, waiting.collector.held[i]? = some true → waiting.collector.stats[i]? = some held →
        ∃ data stats, (slicesOf p call.request)[i]? = some data ∧
          workerStats p data = some stats ∧ held = ofPartial p.widen stats) := by
  have inv := reachable_inv documented reached
  -- With distinct identifiers the requests for a job are those of its call.
  have onlyRequests : ∀ call ∈ s.calls, ∀ other ∈ s.requests,
      other.jobId = call.request.jobId → other.vector = call.request.vector := by
    intro call member other made jobId
    obtain ⟨otherCall, submitted, rfl⟩ := List.mem_map.mp made
    rw [only_of_nodup distinct member otherCall submitted jobId]
  refine ⟨?_, ?_, ?_⟩
  · intro call member result returned
    refine returned_expected documented reached member returned ?_
    intro other made jobId
    rw [only_of_nodup distinct member other made jobId]
  · intro query member response answered ready
    have ok := inv.queries query member
    rw [answered] at ok
    obtain ⟨request, jobId, result⟩ := ok ready
    obtain ⟨call, made, rfl⟩ : ∃ call ∈ s.calls, call.request = request := by
      obtain ⟨values, ⟨made, -⟩, -⟩ := result
      exact List.mem_map.mp made
    exact ⟨call, made, jobId, result.expected (onlyRequests call made)⟩
  · intro call member waiting waits i held flag at_i
    have ok := inv.calls call member
    rw [waits] at ok
    have inside : i < (slicesOf p call.request).length := by
      rw [← ok.2.1, ← ok.2.2.collected.lengthStats]
      exact (List.getElem?_eq_some_iff.mp at_i).1
    exact (ok.2.2.collected.goodHeld i held flag at_i).own (onlyRequests call member) inside

def zeros (n : Nat) : List Single := List.replicate n Single.zero

/-- Jobs `a` and `a:0`, one value each. The result of `a:0` is stored under the
key of slice 0 of `a` and read there before the slice is written. -/
def nestedRun : List Action :=
  [.submit ⟨"a", "softmax", zeros 1⟩ 0, .submit ⟨"a:0", "softmax", zeros 1⟩ 0,
    .call 0 (.store .none), .call 1 (.store .none),
    .call 0 (.publish false), .call 1 (.publish false),
    .receive 1 false, .work 0 .none, .call 1 .register, .call 1 (.readSlice false),
    .call 1 (.endPass false), .call 1 (.storeResult .none), .call 1 (.storeProgress .none 0),
    .call 0 .register, .call 0 (.readSlice false), .call 0 (.endPass false),
    .receive 0 false, .work 1 .none, .call 0 .wake, .call 0 (.readSlice false),
    .call 0 (.endPass false), .call 0 (.storeResult .none), .call 0 (.storeProgress .none 0)]

/-- The calls a run ends with. -/
def callsAfter (p : Platform) (actions : List Action) : Option (List Call) :=
  (run (step p) actions .empty).map State.calls

theorem reachable_of_callsAfter {actions : List Action} {calls : List Call}
    (ran : callsAfter p actions = some calls) :
    ∃ s, Reachable (step p) .empty s ∧ s.calls = calls := by
  obtain ⟨s, final, same⟩ := Option.map_eq_some_iff.mp ran
  exact ⟨s, ⟨actions, final⟩, same⟩

theorem callsAfter_nestedRun : callsAfter smallPlatform nestedRun = some
    [⟨⟨"a", "softmax", zeros 1⟩, .returned (.ok [Single.one])⟩,
      ⟨⟨"a:0", "softmax", zeros 1⟩, .returned (.ok [Single.one])⟩] := by
  decide +kernel

theorem concurrent_jobs_safe_nested :
    expected smallPlatform ⟨"a", "softmax", zeros 1⟩ = some [Single.one] ∧
      expected smallPlatform ⟨"a:0", "softmax", zeros 1⟩ = some [Single.one] := by
  obtain ⟨s, reached, calls⟩ := reachable_of_callsAfter callsAfter_nestedRun
  have distinct : (s.calls.map fun call => call.request.jobId).Nodup := by
    rw [calls]
    decide
  have safe := (concurrent_jobs_safe (p := smallPlatform) JsonText.serde_documented reached distinct).1
  rw [calls] at safe
  exact ⟨safe ⟨⟨"a", "softmax", zeros 1⟩, .returned (.ok [Single.one])⟩ (by simp) _ rfl,
    safe ⟨⟨"a:0", "softmax", zeros 1⟩, .returned (.ok [Single.one])⟩ (by simp) _ rfl⟩

/-- Five values under one identifier, given up after the first slice was written,
then a single value under the same identifier: its call reads the old slice. -/
def leftoverRun : List Action :=
  [.submit ⟨"j", "softmax", zeros 5⟩ 0, .call 0 (.store .none), .call 0 (.publish false),
    .call 0 (.publish false), .call 0 (.publish false), .receive 0 false, .work 0 .none,
    .call 0 .register, .call 0 (.readSlice false), .call 0 (.readSlice false),
    .call 0 (.readSlice false), .call 0 (.endPass true),
    .submit ⟨"j", "softmax", zeros 1⟩ 0, .call 1 (.store .none), .call 1 (.publish false),
    .call 1 .register, .call 1 (.readSlice false), .call 1 (.endPass false),
    .call 1 (.storeResult .none), .call 1 (.storeProgress .none 0)]

def aloneRun : List Action :=
  [.submit ⟨"j", "softmax", zeros 1⟩ 0, .call 0 (.store .none), .call 0 (.publish false),
    .receive 0 false, .work 0 .none, .call 0 .register, .call 0 (.readSlice false),
    .call 0 (.endPass false), .call 0 (.storeResult .none), .call 0 (.storeProgress .none 0)]

theorem callsAfter_leftoverRun : callsAfter smallPlatform leftoverRun = some
    [⟨⟨"j", "softmax", zeros 5⟩, .returned (aggregationFailed (waitTimeout "j"))⟩,
      ⟨⟨"j", "softmax", zeros 1⟩, .returned (.ok [Single.half, Single.half])⟩] := by
  decide +kernel

theorem callsAfter_aloneRun : callsAfter smallPlatform aloneRun = some
    [⟨⟨"j", "softmax", zeros 1⟩, .returned (.ok [Single.one])⟩] := by
  decide +kernel

end DistributedSoftmax.System.Jobs
