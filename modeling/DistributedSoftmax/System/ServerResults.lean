import DistributedSoftmax.System.ServerSafety
import DistributedSoftmax.System.Validation

/-! The gateway in Rust is a port of the one in C++. Where both have the same
settings and read numbers alike, a vector has one result, whichever of the two
returns it and whatever happened on the way. -/

set_option autoImplicit false

namespace DistributedSoftmax.System.ServerJobs
open Foundations.Transition
open Gateway Worker
open Jobs (workerStats Framed)

variable (p : Platform)

/-- The gateway in Rust before the same workers. -/
def Platform.port : Jobs.Platform :=
  { p.workers with aggregateSoftmax := fun stats => .ok (aggregateSoftmaxCpu p.fl stats) }

/-- NUM_SLICES means the same to both, and so do the numbers of a JSON text. -/
structure Platform.SameSettings : Prop where
  json : p.workers.serde = p.json
  numSlices : Server.getNumSlices p.env = numSlices p.workers.env

variable {p} {requests : List TaskRequest} {request : TaskRequest}

theorem sliceCounts_eq_some {vectorSize numSlices sliceSize totalSlices : Nat}
    (counts : Server.sliceCounts vectorSize numSlices = some (sliceSize, totalSlices)) :
    sliceSize ≠ 0 ∧ sliceSize = (vectorSize + numSlices - 1) % 2 ^ 64 / numSlices ∧
      totalSlices = (vectorSize + sliceSize - 1) % 2 ^ 64 / sliceSize := by
  simp only [Server.sliceCounts] at counts
  split at counts
  · cases counts
  · rename_i positive
    cases counts
    exact ⟨positive, rfl, rfl⟩

/-- A slice has no more values than the vector. -/
theorem sliceSize_le {vectorSize numSlices : Nat}
    (positive : (vectorSize + numSlices - 1) % 2 ^ 64 / numSlices ≠ 0) :
    0 < vectorSize ∧ (vectorSize + numSlices - 1) % 2 ^ 64 / numSlices ≤ vectorSize := by
  have whole : (vectorSize + numSlices - 1) % 2 ^ 64 ≤ vectorSize + numSlices - 1 := Nat.mod_le _ _
  have some_slices : 0 < numSlices := by
    by_contra none
    rw [Nat.le_zero.mp (Nat.le_of_not_lt none), Nat.div_zero] at positive
    exact positive rfl
  have some_values : 0 < vectorSize := by
    by_contra none
    exact positive (Nat.div_eq_of_lt (by omega))
  refine ⟨some_values, Nat.le_of_lt_succ ((Nat.div_lt_iff_lt_mul some_slices).mpr ?_)⟩
  have product : vectorSize + numSlices ≤ vectorSize * numSlices + numSlices :=
    Nat.add_le_add_right (Nat.le_mul_of_pos_right vectorSize some_slices) _
  rw [Nat.succ_mul]
  omega

/-- The loop cuts as many slices as were counted before it. -/
theorem slicesOf_eq (framed : Framed request) {sliceSize totalSlices : Nat}
    (counts : countsOf p request = some (sliceSize, totalSlices)) :
    slicesOf p request = chunks sliceSize (request.vector.map p.workers.widen) ∧
      totalOf p request = (slicesOf p request).length := by
  obtain ⟨positive, size, total⟩ := sliceCounts_eq_some counts
  obtain ⟨-, size_le⟩ := sliceSize_le (size ▸ positive)
  rw [← size] at size_le
  have lengths : (request.vector.map p.workers.widen).length = request.vector.length :=
    List.length_map _
  have slices : slicesOf p request = chunks sliceSize (request.vector.map p.workers.widen) := by
    rw [slicesOf, counts]
    simp only
    rw [← lengths, Server.sliceLoop_eq_chunks]
  have short : request.vector.length < 2 ^ 30 := by
    unfold Framed at framed
    omega
  refine ⟨slices, ?_⟩
  rw [slices, length_chunks (Nat.pos_of_ne_zero positive), lengths, totalOf, counts]
  simp only
  rw [total, Nat.mod_eq_of_lt (by omega)]

/-- Both gateways cut the vector into the same slices, as many as this one counts. -/
theorem Admitted.slices (admitted : Admitted p request) (framed : Framed request)
    (settings : p.SameSettings) :
    requestSlices .zmq p.port.env p.port.widen request = .ok (slicesOf p request) ∧
      totalOf p request = (slicesOf p request).length := by
  obtain ⟨softmax, cut⟩ := admitted
  obtain ⟨⟨sliceSize, totalSlices⟩, counts⟩ := Option.isSome_iff_exists.mp cut
  obtain ⟨positive, size, -⟩ := sliceCounts_eq_some counts
  obtain ⟨some_values, -⟩ := sliceSize_le (size ▸ positive)
  obtain ⟨slices, total⟩ := slicesOf_eq framed counts
  have lengths : (request.vector.map p.workers.widen).length = request.vector.length :=
    List.length_map _
  rw [settings.numSlices] at size
  have cuts : ¬ ((request.vector.map p.workers.widen).length + numSlices p.workers.env - 1) %
      2 ^ 64 / numSlices p.workers.env = 0 := by rwa [lengths, ← size]
  have cutAlike : cutSlices .zmq p.workers.env (request.vector.map p.workers.widen) =
      .ok (slicesOf p request) := by
    rw [slices, cutSlices, if_neg (by decide)]
    simp only
    rw [if_neg cuts, lengths, ← size]
  exact ⟨requestSlices_eq_ok.mpr ⟨softmax, List.ne_nil_of_length_pos some_values, cutAlike⟩, total⟩

/-- The slice of every request with the job identifier is the slice of this one. -/
theorem GoodSlice.own {i : Nat} {s : SliceStats Double}
    (good : GoodSlice p requests request.jobId i s)
    (only : ∀ other ∈ requests, other.jobId = request.jobId → other.vector = request.vector) :
    ∃ data stats, (slicesOf p request)[i]? = some data ∧ workerStats p.workers data = some stats ∧
      s = ofPartial p.workers.widen stats := by
  obtain ⟨stats, ⟨other, member, jobId, data, at_i, computed⟩, same⟩ := good
  have slices : slicesOf p other = slicesOf p request := by
    simp only [slicesOf, countsOf, only other member jobId]
  exact ⟨data, stats, slices ▸ at_i, computed, same⟩

/-- What this gateway returns is what the job returns on the other one. -/
theorem ResultFor.expected {result : List Single} (returned : ResultFor p requests request result)
    (only : ∀ other ∈ requests, other.jobId = request.jobId → other.vector = request.vector)
    (framed : Framed request) (settings : p.SameSettings) :
    Jobs.expected p.port request = some result := by
  obtain ⟨values, ⟨admitted, stats, lengths, good, rfl⟩, read⟩ := returned
  obtain ⟨slices, total⟩ := admitted.slices framed settings
  obtain ⟨partials, computed, rfl⟩ := Jobs.mapM_of_getElem? (lengths.trans total)
    fun i s at_i => (good i s at_i).own only
  have workers : (slicesOf p request).mapM (workerStats p.port) = some partials := computed
  have aggregated := Server.aggregateStats_eq p.fl (partials.map (ofPartial p.workers.widen))
  unfold Jobs.expected
  rw [slices]
  simp only [Except.toOption, Option.bind_eq_bind, Option.bind_some, workers]
  simp only [Platform.port, aggregated, Option.bind_some, Jobs.resultStr]
  rw [resultText] at read
  rw [settings.json]
  exact read

theorem expected_congr {p : Jobs.Platform} {other : TaskRequest} (task : other.task = request.task)
    (vector : other.vector = request.vector) : Jobs.expected p other = Jobs.expected p request := by
  simp only [Jobs.expected, requestSlices, task, vector]

theorem expected_softmax {p : Jobs.Platform} {result : List Single}
    (same : Jobs.expected p request = some result) : request.task = "softmax" := by
  unfold Jobs.expected at same
  rw [Option.bind_eq_bind, Option.bind_eq_some_iff] at same
  obtain ⟨slices, admitted, -⟩ := same
  cases cut : requestSlices .zmq p.env p.widen request with
  | error status =>
    rw [cut] at admitted
    cases admitted
  | ok slices => exact (requestSlices_eq_ok.mp cut).1

/-- The gateway with default settings before the workers of the small platform. -/
def smallServer : Platform where
  workers := Jobs.smallPlatform
  env := fun _ => none
  json := JsonText.serde
  fl := SmallFloats.floats.f64
  metadataTtl := 86400
  resultTtl := 3600
  progressTtl := 3600

/-- The calls a run ends with. -/
def callsAfter (p : Platform) (actions : List Action) : Option (List Call) :=
  (run (step p) actions .empty).map State.calls

theorem reachable_of_callsAfter {actions : List Action} {calls : List Call}
    (ran : callsAfter p actions = some calls) :
    ∃ s, Reachable (step p) .empty s ∧ s.calls = calls := by
  obtain ⟨s, final, same⟩ := Option.map_eq_some_iff.mp ran
  exact ⟨s, ⟨actions, final⟩, same⟩

/-- One value, whose slice is read beforehand; the metadata is lost on the way. -/
def oneValueRun : List Action :=
  [.submit ⟨"i", "softmax", Jobs.zeros 1⟩ 0, .call 0 (.store .lost), .call 0 (.publish false),
    .receive 0 false, .work 0 .none, .call 0 .register, .call 0 (.read false), .call 0 .count,
    .call 0 .wake, .call 0 .unregister, .call 0 .skip, .call 0 (.storeResult .none),
    .call 0 (.storeProgress .none 0)]

theorem callsAfter_oneValueRun : callsAfter smallServer oneValueRun = some
    [⟨⟨"i", "softmax", Jobs.zeros 1⟩, .returned (.ok [Single.one])⟩] := by
  decide +kernel

end DistributedSoftmax.System.ServerJobs
