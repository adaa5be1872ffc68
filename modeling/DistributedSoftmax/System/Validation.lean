import DistributedSoftmax.RoundedSoftmax
import DistributedSoftmax.System.Completion

/-! What the checks of `submit_task` are worth: a request with finite values is
served to the end; a NaN or an infinity passes the checks as well, is written
as null, and no worker takes the message. -/

set_option autoImplicit false

namespace DistributedSoftmax.System.Jobs
open Foundations.KeyValue Foundations.Rounding
open Gateway Worker

/-- Every message that is published for the request is accepted by a worker. -/
def MessagesAccepted (p : Platform) (request : TaskRequest) : Prop :=
  ∀ (i : Nat) data, (slicesOf p request)[i]? = some data →
    ∃ accepted, handleTask p.serde p.computePartial
      (some (p.serde.wire (taskMessage request i data))) = .ok accepted

/-- Nothing in the pipeline rejects the request: its messages are accepted, and
in a run without faults its call returns OK, with one value for each of its values. -/
def ValidationComplete (p : Platform) (request : TaskRequest) : Prop :=
  MessagesAccepted p request ∧
    ∀ trace c, FaultFreeRun p trace → Served p request c trace →
      ∃ t call result, (trace t).calls[c]? = some call ∧ call.request = request ∧
        call.phase = .returned (.ok result) ∧ result.length = request.vector.length

/-- A request that gRPC can carry: the length of a message has 32 bits. -/
def Framed (request : TaskRequest) : Prop := 4 * request.vector.length < 2 ^ 32

/-- The sum with NUM_SLICES in the slice size does not overflow. -/
def SizeFits (env : Env) (request : TaskRequest) : Prop :=
  request.vector.length + numSlices env ≤ 2 ^ 64

section admission
variable {p : Platform} {request : TaskRequest}

theorem admitted_of_ok {slices : List (List Double)}
    (ok : requestSlices .zmq p.env p.widen request = .ok slices) : Admitted p request := by
  rw [Admitted, slicesOf, ok]

/-- A request that passes the checks is cut into slices, unless the sum in the
slice size overflows. -/
theorem admitted_iff (softmax : request.task = "softmax") (nonempty : request.vector ≠ [])
    (framed : Framed request) : Admitted p request ↔ SizeFits p.env request := by
  have values : request.vector.map p.widen ≠ [] := fun empty => nonempty (List.map_eq_nil_iff.mp empty)
  have short : (request.vector.map p.widen).length < 2 ^ 63 := by
    rw [List.length_map]
    unfold Framed at framed
    omega
  have cut := cutSlices_zmq_eq_ok p.env values short
  rw [List.length_map] at cut
  rw [SizeFits, ← cut]
  constructor
  · exact fun admitted => ⟨_, (requestSlices_eq_ok.mp admitted).2.2⟩
  · rintro ⟨slices, ok⟩
    exact admitted_of_ok (requestSlices_eq_ok.mpr ⟨softmax, nonempty, ok⟩)

/-- The run that makes one call and rests. -/
def onlySubmit (p : Platform) (request : TaskRequest) : Nat → State
  | 0 => .empty
  | _ + 1 => { State.empty with calls := [Call.start p request 0] }

theorem onlySubmit_faultFree (p : Platform) (request : TaskRequest) :
    FaultFreeRun p (onlySubmit p request) where
  init := rfl
  next t := by
    cases t with
    | zero => exact .inr ⟨.submit request 0, trivial, rfl⟩
    | succ t => exact .inl rfl

/-- A call that is answered at once is served by the run in which it is alone. -/
theorem onlySubmit_served {outcome : Except Status (List Single)}
    (answered : (Call.start p request 0).phase = .returned outcome) :
    Served p request 0 (onlySubmit p request) where
  submitted := ⟨1, Call.start p request 0, rfl, start_request request 0⟩
  fresh t c other at_c apart := by
    cases t with
    | zero => cases at_c
    | succ t =>
      cases c with
      | zero => exact absurd rfl apart
      | succ c => cases at_c
  handled := by
    refine ⟨0, fun t _ => ⟨fun i data _ queued => ?_, fun task working => ?_⟩⟩
    · cases t <;> cases queued
    · cases t <;> cases working
  scheduled t := ⟨t + 1, Nat.le_succ t, .inr ⟨_, outcome, rfl, answered⟩⟩

/-- A request that passes the checks and is not cut fails at once. -/
theorem not_complete_of_not_admitted (refused : ¬ Admitted p request) :
    ¬ ValidationComplete p request := by
  rintro ⟨-, complete⟩
  cases outcome : requestSlices .zmq p.env p.widen request with
  | ok slices => exact refused (admitted_of_ok outcome)
  | error status =>
    have answered : (Call.start p request 0).phase = .returned (.error status) := by
      rw [Call.start, outcome]
    obtain ⟨t, call, result, at_c, -, returned, -⟩ :=
      complete _ 0 (onlySubmit_faultFree p request) (onlySubmit_served answered)
    cases t with
    | zero => cases at_c
    | succ t =>
      cases at_c
      rw [answered] at returned
      cases returned

/-- The messages of an admitted request are accepted only when all of its values
are finite. -/
theorem finite_of_accepted (admitted : Admitted p request)
    (messages : MessagesAccepted p request) : ∀ x ∈ request.vector, (p.widen x).isFinite = true := by
  intro x member
  have inSlices : p.widen x ∈ (slicesOf p request).flatten := by
    rw [admitted.flatten_slicesOf]
    exact List.mem_map_of_mem member
  obtain ⟨data, inside, inData⟩ := List.mem_flatten.mp inSlices
  obtain ⟨i, at_i⟩ := List.mem_iff_getElem?.mp inside
  obtain ⟨⟨msg, payload⟩, accepted⟩ := messages i data at_i
  have parsed := (handleTask_eq_ok.mp accepted).1
  rw [Option.bind_some, ofJson_taskMessage] at parsed
  split at parsed
  · obtain ⟨values, read, -⟩ := Option.map_eq_some_iff.mp parsed
    exact (SerdeJson.toDoubles?_wire read).1 _ inData
  · cases parsed

theorem Servable.messagesAccepted (servable : Servable p request) : MessagesAccepted p request := by
  intro i data at_i
  obtain ⟨stats, computed⟩ := servable.accepted data (List.mem_of_getElem? at_i)
  have index : i < 2 ^ 64 := by
    have inside := (List.getElem?_eq_some_iff.mp at_i).1
    have count := servable.admitted.length_slicesOf_le
    have short := servable.short
    omega
  obtain ⟨values, accepted⟩ :=
    handleTask_taskMessage (requestSlices_eq_ok.mp servable.admitted).1 index computed
  exact ⟨_, accepted⟩

end admission

section cpu
variable {env : Env} {serde : SerdeJson} {fl : Floats Double Single} {redisError publishError : String}
  {request : TaskRequest}

theorem bounded_ofPartial (ieee : Ieee754 fl) {data : List Double} (nonempty : data ≠ [])
    (finite : ∀ x ∈ data, x.isFinite = true) (short : data.length < 2 ^ 52) :
    (ofPartial fl.widen (softmaxPartial fl data)).Bounded := by
  obtain ⟨localMax, expValues, partialSum⟩ := ieee.softmaxPartial_within nonempty finite short
  refine ⟨localMax, partialSum, fun ev member => ?_⟩
  obtain ⟨e, inside, rfl⟩ := List.mem_map.mp member
  exact ieee.widen_within (expValues e inside)

theorem finite_slices (ieee : Ieee754 fl)
    (admitted : Admitted (.cpu env serde fl redisError publishError) request)
    (finite : ∀ x ∈ request.vector, x.isFinite = true) {data : List Double}
    (member : data ∈ slicesOf (.cpu env serde fl redisError publishError) request) :
    ∀ x ∈ data, x.isFinite = true := by
  intro x inData
  have inVector := List.mem_flatten_of_mem member inData
  rw [admitted.flatten_slicesOf] at inVector
  obtain ⟨y, among, rfl⟩ := List.mem_map.mp inVector
  exact (ieee.isFinite_widen y).trans (finite y among)

theorem workerStats_cpu {data : List Double} (nonempty : data ≠ [])
    (finite : ∀ x ∈ data, x.isFinite = true) :
    workerStats (.cpu env serde fl redisError publishError) data =
      some (softmaxPartial fl (data.map serde.reread)) := by
  have values : (data.map serde.reread).isEmpty = false := by
    rw [List.isEmpty_eq_false_iff]
    exact fun empty => nonempty (List.map_eq_nil_iff.mp empty)
  rw [workerStats, Option.bind_eq_bind, Option.bind_eq_some_iff]
  exact ⟨_, received_of_finite serde finite, by rw [values]; rfl⟩

/-- The build without GPU serves every admitted request with finite values. -/
theorem servable_cpu (documented : serde.Documented) (ieee : Ieee754 fl)
    (admitted : Admitted (.cpu env serde fl redisError publishError) request)
    (framed : Framed request) (finite : ∀ x ∈ request.vector, x.isFinite = true) :
    Servable (.cpu env serde fl redisError publishError) request := by
  have short : request.vector.length < 2 ^ 30 := by
    unfold Framed at framed
    omega
  have computed : ∀ data ∈ slicesOf (.cpu env serde fl redisError publishError) request,
      workerStats (.cpu env serde fl redisError publishError) data =
        some (softmaxPartial fl (data.map serde.reread)) := fun data member =>
    workerStats_cpu (admitted.slicesOf_nonempty data member) (finite_slices ieee admitted finite member)
  refine ⟨admitted, by omega, fun data member => ⟨_, computed data member⟩, ?_⟩
  intro partials same
  rw [Foundations.Folds.mapM_eq_pure computed] at same
  cases same
  refine ⟨_, rfl, fun v member => ?_⟩
  have bounded : ∀ stats ∈ ((slicesOf (.cpu env serde fl redisError publishError) request).map
      fun data => softmaxPartial fl (data.map serde.reread)).map (ofPartial fl.widen),
        stats.Bounded := by
    intro stats member
    obtain ⟨_, inside, rfl⟩ := List.mem_map.mp member
    obtain ⟨data, among, rfl⟩ := List.mem_map.mp inside
    refine bounded_ofPartial ieee ?_ ?_ ?_
    · exact fun empty => admitted.slicesOf_nonempty data among (List.map_eq_nil_iff.mp empty)
    · intro x inData
      obtain ⟨y, inSlice, rfl⟩ := List.mem_map.mp inData
      exact documented.reread_finite y (finite_slices ieee admitted finite among y inSlice)
    · rw [List.length_map]
      have le := admitted.length_le_of_mem among
      omega
  have count := admitted.length_slicesOf_le
  obtain ⟨a, stands, -⟩ := ieee.f64.aggregateSoftmaxCpu_within bounded
    (by rw [List.length_map, List.length_map]; omega) v member
  exact (Double.isFinite_iff v).mpr ⟨a, stands⟩

end cpu

/-- A single NaN, its slice handled by a worker before the deadline. -/
def nanRun : List Action :=
  [.submit ⟨"j", "softmax", [Single.nan]⟩ 0, .call 0 (.store .none), .call 0 (.publish false),
    .receive 0 false, .call 0 .register, .call 0 (.readSlice false), .call 0 (.endPass true)]

end DistributedSoftmax.System.Jobs
