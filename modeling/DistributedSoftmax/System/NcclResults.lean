import DistributedSoftmax.System.NcclPath
import DistributedSoftmax.System.NcclSafety

/-! The results of jobs over the ranks: what a call returns is the reduction of
its own slices over all ranks, put together in their order. -/

set_option autoImplicit false

namespace DistributedSoftmax.System.NcclJobs
open Foundations.Folds Foundations.Transition
open Gateway Worker
open Jobs (Call resultStr)

variable (p : Platform)

/-- The values that a rank reads of a slice. -/
def readBy (slice : List Double) : Option (List Single) :=
  (received p.gateway.serde slice).map (List.map p.gateway.narrow)

/-- What a job returns when nothing else interferes: all ranks reduce its slices
together, and the gateway puts their probabilities together. -/
def expected (request : TaskRequest) : Option (List Single) := do
  let slices ← (requestSlices (dispatch p) p.gateway.env p.gateway.widen request).toOption
  let inputs ← slices.mapM (readBy p)
  let probs ← ranksSoftmax p.f32 p.launches inputs
  let values ← (aggregateStats p.gateway.aggregateSoftmax
    (probs.map (ofNormalized .zero .one p.gateway.widen))).toOption
  resultFloats p.gateway.serde p.gateway.narrow (resultStr p.gateway values)

variable {p} {request : TaskRequest}

theorem inputOf_eq (r : Nat) : inputOf p request r = ((slicesOf p request)[r]?).bind (readBy p) := by
  rw [inputOf]
  cases (slicesOf p request)[r]? with
  | none => rfl
  | some slice =>
    simp only [Option.bind_eq_bind, Option.bind_some, readBy, Option.map_eq_bind]
    rfl

/-- What the ranks have one by one is what they have together. -/
theorem ranksSoftmax_of_probsOf (admitted : Admitted p request) (some_rank : 0 < p.worldSize)
    {probs : List (List Single)}
    (computed : (List.range p.worldSize).mapM (probsOf p request) = some probs) :
    ∃ inputs, (slicesOf p request).mapM (readBy p) = some inputs ∧
      ranksSoftmax p.f32 p.launches inputs = some probs := by
  -- A rank that has its probabilities has passed both collectives.
  obtain ⟨lengths, each⟩ := getElem?_of_mapM computed
  rw [List.length_range] at lengths
  obtain ⟨_, zero, own⟩ := each 0 probs[0] (List.getElem?_eq_getElem (by omega))
  rw [List.getElem?_range some_rank] at zero
  obtain rfl := Option.some.inj zero
  simp only [probsOf, Option.bind_eq_bind, Option.bind_eq_some_iff] at own
  obtain ⟨_, ownSum, second, together, -⟩ := own
  simp only [atSum, Option.bind_eq_bind, Option.bind_eq_some_iff] at ownSum
  obtain ⟨_, -, first, started, -⟩ := ownSum
  -- All ranks were at the first one, so they have read their slices.
  obtain ⟨count, begun⟩ := getElem?_of_mapM started
  rw [List.length_range] at count
  have begins : ∀ (r : Nat) c, first[r]? = some c → atMax p request r = some c := by
    intro r c at_r
    obtain ⟨i, same, computed⟩ := begun r c at_r
    have inside := (List.getElem?_eq_some_iff.mp at_r).1
    rw [List.getElem?_range (by omega)] at same
    rwa [← Option.some.inj same] at computed
  have reads : ∀ slice ∈ slicesOf p request, ∃ input, readBy p slice = some input := by
    intro slice member
    obtain ⟨r, at_r⟩ := List.mem_iff_getElem?.mp member
    have inside := (List.getElem?_eq_some_iff.mp at_r).1
    rw [admitted.length] at inside
    have begin_ := begins r first[r] (List.getElem?_eq_getElem (by omega))
    rw [atMax, inputOf_eq, at_r, Option.bind_some, Option.bind_eq_some_iff] at begin_
    obtain ⟨input, read, -⟩ := begin_
    exact ⟨input, read⟩
  obtain ⟨inputs, read⟩ := exists_mapM reads
  obtain ⟨sizes, found⟩ := getElem?_of_mapM read
  refine ⟨inputs, read, ?_⟩
  have starts : (inputs.zipIdx.mapM fun x => allReduceSoftmax p.f32 (p.launches x.2) x.1) =
      some first := by
    have same : first.length = inputs.zipIdx.length := by
      rw [List.length_zipIdx, sizes, admitted.length, count]
    obtain ⟨all, mapped, rfl⟩ := Jobs.mapM_of_getElem? (g := id)
        (f := fun x => allReduceSoftmax p.f32 (p.launches x.2) x.1) same <| by
      intro r c at_r
      have inside := (List.getElem?_eq_some_iff.mp at_r).1
      have within : r < inputs.length := by
        rw [List.length_zipIdx] at same
        omega
      obtain ⟨slice, at_slice, input⟩ := found r inputs[r] (List.getElem?_eq_getElem within)
      have began := begins r c at_r
      rw [atMax, inputOf_eq, at_slice, Option.bind_some, input, Option.bind_some] at began
      refine ⟨(inputs[r], r), c, ?_, began, rfl⟩
      rw [List.getElem?_zipIdx, List.getElem?_eq_getElem within, Option.map_some, Nat.zero_add]
    rw [List.map_id]
    exact mapped
  have sums : allReduce p.f32.foldMax first = some second := by
    rw [allReduce, mapM_of_mapM started, ← together, allAtSum]
    congr 1
    funext r
    rw [atSum, started]
    rfl
  have shares : allReduce p.f32.sum second = some probs := by
    rw [allReduce, mapM_of_mapM together, ← computed]
    congr 1
    funext r
    rw [probsOf, together]
    rfl
  change ((inputs.zipIdx.mapM fun x => allReduceSoftmax p.f32 (p.launches x.2) x.1).bind
    fun atMax => (allReduce p.f32.foldMax atMax).bind (allReduce p.f32.sum)) = some probs
  rw [starts, Option.bind_some, sums, Option.bind_some]
  exact shares

/-- What the ranks compute depends on the slices only. -/
theorem probsOf_congr {other : TaskRequest} (same : slicesOf p other = slicesOf p request) :
    probsOf p other = probsOf p request := by
  have inputs : inputOf p other = inputOf p request := by
    funext r
    rw [inputOf, inputOf, same]
  have maxima : atMax p other = atMax p request := by
    funext r
    rw [atMax, atMax, inputs]
  have sums : atSum p other = atSum p request := by
    funext r
    rw [atSum, atSum, allAtMax, allAtMax, maxima]
  funext r
  rw [probsOf, probsOf, allAtSum, allAtSum, sums]

theorem Admitted.positive (admitted : Admitted p request) : 0 < p.worldSize := by
  rcases cutSlices_cases (requestSlices_eq_ok.mp admitted).2.2 with ⟨-, positive, -⟩ | ⟨zmq, -⟩
  · exact positive
  · cases zmq

theorem Admitted.slices_eq {other : TaskRequest} (admitted : Admitted p request)
    (otherAdmitted : Admitted p other) (same : other.vector = request.vector) :
    slicesOf p other = slicesOf p request := by
  have cut := (requestSlices_eq_ok.mp admitted).2.2
  have otherCut := (requestSlices_eq_ok.mp otherAdmitted).2.2
  rw [same, cut] at otherCut
  exact (Except.ok.inj otherCut).symm

/-- With one vector under the job identifier, the shares that were put together
are those of one reduction. -/
theorem ResultFor.expected {requests : List TaskRequest} {result : List Single}
    (returned : ResultFor p requests request result)
    (only : ∀ other ∈ requests, other.jobId = request.jobId → other.vector = request.vector) :
    expected p request = some result := by
  obtain ⟨values, ⟨admitted, stats, lengths, good, aggregated⟩, read⟩ := returned
  have each : ∀ (r : Nat) s, stats[r]? = some s → ∃ x probs,
      (List.range p.worldSize)[r]? = some x ∧ probsOf p request x = some probs ∧
        s = ofNormalized .zero .one p.gateway.widen probs := by
    intro r s at_r
    obtain ⟨probs, ⟨other, made, jobId, otherAdmitted, computed⟩, same⟩ := good r s at_r
    have inside : r < p.worldSize := lengths ▸ (List.getElem?_eq_some_iff.mp at_r).1
    rw [probsOf_congr (admitted.slices_eq otherAdmitted (only other made jobId))] at computed
    exact ⟨r, probs, List.getElem?_range inside, computed, same⟩
  obtain ⟨probs, computed, rfl⟩ :=
    Jobs.mapM_of_getElem? (lengths.trans List.length_range.symm) each
  obtain ⟨inputs, inputsRead, reduced⟩ := ranksSoftmax_of_probsOf admitted admitted.positive computed
  have cut : requestSlices (dispatch p) p.gateway.env p.gateway.widen request =
      .ok (slicesOf p request) := admitted
  simp only [NcclJobs.expected, cut, Except.toOption, Option.bind_eq_bind, Option.bind_some,
    inputsRead, reduced, aggregated]
  exact read

/-- Safety of concurrent jobs over the ranks. As long as publish loops do not
overlap or stop half-way, and no request has values that only some ranks can
read, a call that returns OK returns what all ranks together compute for its own
slices, in their order, whatever else fails or is in progress. -/
theorem nccl_jobs_safe (documented : p.gateway.serde.Documented) {actions : List Action} {s : State}
    (orderly : Foundations.Transition.Admitted (step p) (Orderly p) actions (.initial p))
    (ran : run (step p) actions (.initial p) = some s) {call : Call} (member : call ∈ s.calls)
    {result : List Single} (returned : call.phase = .returned (.ok result))
    (only : ∀ other ∈ s.calls, other.request.jobId = call.request.jobId →
      other.request.vector = call.request.vector) :
    expected p call.request = some result := by
  obtain ⟨jobs, inv⟩ := orderly_inv documented orderly ran
  have ok := inv.calls call member
  rw [returned] at ok
  refine ResultFor.expected ok ?_
  intro other made jobId
  obtain ⟨otherCall, submitted, rfl⟩ := List.mem_map.mp made
  exact only otherCall submitted jobId

/-- Two ranks that pad their blocks with −∞, the least value of the arithmetic. -/
def twoRanks : Platform where
  gateway := Jobs.smallPlatform
  worldSize := 2
  usize := by decide
  f32 := { SmallFloats.floats.f32 with
    ofInt := fun n => if n = 0 then Single.zero else 0xFF800000#32 }
  launches := fun _ => .inOrder Single.zero

/-- Rank 0 writes between the two lookups of the first pass, and the call wakes
up for a second one. -/
def wokenRun : List Action :=
  [.submit ⟨"a", "softmax", Jobs.zeros 2⟩ 0, .call 0 (.store .none), .call 0 (.publish false),
    .receive 0, .call 0 (.publish false), .receive 1, .reduced 0, .reduced 1, .reduced 0,
    .reduced 1, .write 1 .none, .call 0 .register, .call 0 (.readSlice false), .write 0 .none,
    .call 0 (.readSlice false), .call 0 (.endPass false), .write 0 .none, .write 1 .none,
    .notify 0 false, .call 0 .wake, .call 0 (.readSlice false), .call 0 .skip,
    .call 0 (.endPass false), .call 0 (.storeResult .none), .call 0 (.storeProgress .none 0)]

theorem callsAfter_wokenRun : (run (step twoRanks) wokenRun (.initial twoRanks)).map State.calls =
    some [⟨⟨"a", "softmax", Jobs.zeros 2⟩, .returned (.ok [Single.half, Single.half])⟩] := by
  decide +kernel

theorem orderly_wokenRun :
    Foundations.Transition.Admitted (step twoRanks) (Orderly twoRanks) wokenRun
      (.initial twoRanks) := by
  decide +kernel

theorem nccl_jobs_safe_woken :
    expected twoRanks ⟨"a", "softmax", Jobs.zeros 2⟩ = some [Single.half, Single.half] := by
  obtain ⟨s, ran, calls⟩ := Option.map_eq_some_iff.mp callsAfter_wokenRun
  have made : ⟨⟨"a", "softmax", Jobs.zeros 2⟩, .returned (.ok [Single.half, Single.half])⟩ ∈
      s.calls := by
    rw [calls]
    exact List.mem_singleton_self _
  refine nccl_jobs_safe (p := twoRanks) JsonText.serde_documented orderly_wokenRun ran made rfl ?_
  intro other member _
  rw [calls] at member
  rw [List.mem_singleton.mp member]

end DistributedSoftmax.System.NcclJobs
