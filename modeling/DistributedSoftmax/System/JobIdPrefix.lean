import DistributedSoftmax.JsonText
import DistributedSoftmax.Gateway.Slicing
import DistributedSoftmax.System.Messages
import DistributedSoftmax.Worker.NcclLoop

/-! The gateway admits any job identifier; the workers log its first eight bytes.
Which identifiers a worker survives, with info-level logging enabled. -/

set_option autoImplicit false

namespace DistributedSoftmax.System
open Foundations.ByteString
open Gateway Worker

/-- The message for a slice of the job, as a worker receives it. -/
def IsMessage (serde : SerdeJson) (request : TaskRequest) (slices : List (List Double))
    (raw : Option (Json Double)) : Prop :=
  ∃ i data, slices[i]? = some data ∧ raw = some (serde.wire (taskMessage request i data))

/-- `handle_task` does not panic on the messages of the job, whatever the
computation and Redis do. -/
def TaskSurvives (serde : SerdeJson) (request : TaskRequest) (slices : List (List Double)) : Prop :=
  ∀ raw, IsMessage serde request slices raw → ∀ computePartial writeResult,
    runTask true serde computePartial writeResult raw ≠ .panicked

/-- Nor does the loop of a rank that receives the messages of the job, whatever
the collective and Redis do. -/
def LoopSurvives (serde : SerdeJson) (narrow : Double → Single) (request : TaskRequest)
    (slices : List (List Double)) : Prop :=
  ∀ rounds, (∀ round ∈ rounds, ∀ raw, round.received = .ok raw →
      IsMessage serde request slices raw) →
    runNccl true serde narrow rounds ≠ some .panicked

/-- No slice of the job is one that a worker can read. -/
def Unreadable (slices : List (List Double)) : Prop :=
  ∀ slice ∈ slices, ∃ x ∈ slice, x.isFinite = false

section
variable {serde : SerdeJson} {request : TaskRequest} {slices : List (List Double)}

/-- What a worker reads of a message of the job carries its identifier, and all
values of its slice are finite. -/
theorem IsMessage.read {raw : Option (Json Double)} {msg : TaskMessage}
    (message : IsMessage serde request slices raw)
    (parsed : raw.bind (TaskMessage.ofJson serde) = some msg) :
    msg.jobId = request.jobId ∧ ∃ slice ∈ slices, ∀ x ∈ slice, x.isFinite = true := by
  obtain ⟨i, data, at_i, rfl⟩ := message
  rw [Option.bind_some, ofJson_taskMessage] at parsed
  split at parsed
  · obtain ⟨values, read, rfl⟩ := Option.map_eq_some_iff.mp parsed
    exact ⟨rfl, data, List.mem_of_getElem? at_i, (SerdeJson.toDoubles?_wire read).1⟩
  · cases parsed

theorem Unreadable.not_read (unreadable : Unreadable slices) {raw : Option (Json Double)}
    {msg : TaskMessage} (message : IsMessage serde request slices raw) :
    raw.bind (TaskMessage.ofJson serde) ≠ some msg := by
  intro parsed
  obtain ⟨-, slice, member, finite⟩ := message.read parsed
  obtain ⟨x, inside, infinite⟩ := unreadable slice member
  rw [finite x inside] at infinite
  cases infinite

theorem runTask_panicked {infoEnabled : Bool}
    {computePartial : List Double → Except String (PartialStats Double Single)}
    {writeResult : WriteResult} {raw : Option (Json Double)}
    (panics : runTask infoEnabled serde computePartial writeResult raw = .panicked) :
    ∃ msg, raw.bind (TaskMessage.ofJson serde) = some msg ∧ logPanics infoEnabled msg.jobId = true := by
  unfold runTask at panics
  split at panics
  · cases panics
  · rename_i msg payload handled
    refine ⟨msg, (handleTask_eq_ok.mp handled).1, ?_⟩
    split at panics
    · cases panics
    · split at panics
      · assumption
      · cases panics

/-- The message for a slice of finite values, as a worker reads it. -/
theorem parsed_of_finite {i : Nat} {data : List Double} (bound : i < 2 ^ 64)
    (finite : ∀ x ∈ data, x.isFinite = true) :
    (some (serde.wire (taskMessage request i data))).bind (TaskMessage.ofJson serde) =
      some ⟨request.jobId, i, request.task, data.map serde.reread⟩ := by
  rw [Option.bind_some, ofJson_taskMessage, if_pos bound, received_of_finite serde finite]
  rfl

section misfit
variable (softmax : request.task = "softmax") (misfit : ¬ PrefixFits request.jobId)
  {i : Nat} {data : List Double} (at_i : slices[i]? = some data) (bound : i < 2 ^ 64)
  (finite : ∀ x ∈ data, x.isFinite = true)
include softmax misfit at_i bound finite

/-- After a slice of finite values `handle_task` panics, when the prefix does not fit. -/
theorem not_taskSurvives (nonempty : data ≠ []) : ¬ TaskSurvives serde request slices := by
  intro survives
  have values : data.map serde.reread ≠ [] := fun empty => nonempty (List.map_eq_nil_iff.mp empty)
  let stats : PartialStats Double Single := ⟨.zero, .zero, []⟩
  have handled : handleTask serde (fun _ => .ok stats)
      (some (serde.wire (taskMessage request i data))) =
        .ok (⟨request.jobId, i, request.task, data.map serde.reread⟩, encodePartial stats) :=
    handleTask_eq_ok.mpr ⟨parsed_of_finite bound finite, softmax, values, stats, rfl, rfl⟩
  apply survives _ ⟨i, data, at_i, rfl⟩ (fun _ => .ok stats) fun _ _ _ => .ok ()
  simp only [runTask, handled, logPanics_iff.mpr misfit, if_true]

/-- After the same slice the loop of a rank panics. -/
theorem not_loopSurvives (narrow : Double → Single) : ¬ LoopSurvives serde narrow request slices := by
  intro survives
  let round : Round := ⟨.ok (some (serde.wire (taskMessage request i data))), fun _ => .ok [],
    fun _ _ _ => .ok ()⟩
  have ran : round.run true serde narrow = some .panicked := by
    simp only [round, Round.run, parsed_of_finite bound finite, softmax, ne_eq, not_true_eq_false,
      if_false, logPanics_iff.mpr misfit, if_true]
  apply survives [round]
  · intro other member raw received
    rw [List.mem_singleton.mp member] at received
    cases received
    exact ⟨i, data, at_i, rfl⟩
  · rw [runNccl, ran]

end misfit

/-- What can be read of the job has a prefix that fits. -/
theorem fits_of_message (fits : PrefixFits request.jobId ∨ Unreadable slices)
    {raw : Option (Json Double)} {msg : TaskMessage} (message : IsMessage serde request slices raw)
    (parsed : raw.bind (TaskMessage.ofJson serde) = some msg) : PrefixFits msg.jobId := by
  rcases fits with fits | unreadable
  · exact (message.read parsed).1.symm ▸ fits
  · exact absurd parsed (unreadable.not_read message)

theorem not_unreadable (readable : ¬ Unreadable slices) :
    ∃ slice ∈ slices, ∀ x ∈ slice, x.isFinite = true := by
  by_contra none
  apply readable
  intro slice member
  by_contra finite
  refine none ⟨slice, member, fun x inside => ?_⟩
  by_contra infinite
  exact finite ⟨x, inside, Bool.eq_false_iff.mpr infinite⟩

end

/-- Both workers survive a job exactly when the first eight bytes of its
identifier are whole characters, unless they can read none of its messages. In
every run of the loop whose messages have such identifiers it is left because of
ZMQ, the collective or Redis only. -/
theorem job_id_prefix_iff (serde : SerdeJson) (narrow : Double → Single) {dispatch : Dispatch}
    {env : Env} {widen : Single → Double} {request : TaskRequest} {slices : List (List Double)}
    (admitted : requestSlices dispatch env widen request = .ok slices)
    (usize : request.vector.length < 2 ^ 64) :
    (TaskSurvives serde request slices ↔ PrefixFits request.jobId ∨ Unreadable slices) ∧
    (LoopSurvives serde narrow request slices ↔ PrefixFits request.jobId ∨ Unreadable slices) ∧
    ∀ rounds, (∀ round ∈ rounds, ∀ raw msg, round.received = .ok raw →
        raw.bind (TaskMessage.ofJson serde) = some msg → PrefixFits msg.jobId) →
      runNccl true serde narrow rounds ≠ some .panicked := by
  obtain ⟨softmax, -, cut⟩ := requestSlices_eq_ok.mp admitted
  have misfits : ¬ (PrefixFits request.jobId ∨ Unreadable slices) →
      ¬ TaskSurvives serde request slices ∧ ¬ LoopSurvives serde narrow request slices := by
    intro neither
    obtain ⟨misfit, readable⟩ := not_or.mp neither
    obtain ⟨data, member, finite⟩ := not_unreadable readable
    obtain ⟨i, index, same⟩ := List.getElem_of_mem member
    have at_i : slices[i]? = some data := by rw [List.getElem?_eq_getElem index, same]
    have count := length_le_flatten (cutSlices_nonempty cut)
    rw [cutSlices_flatten cut, List.length_map] at count
    have bound : i < 2 ^ 64 := by omega
    exact ⟨not_taskSurvives softmax misfit at_i bound finite (cutSlices_nonempty cut data member),
      not_loopSurvives softmax misfit at_i bound finite narrow⟩
  refine ⟨⟨fun survives => ?_, fun fits => ?_⟩, ⟨fun survives => ?_, fun fits => ?_⟩,
    fun _ fits => runNccl_ne_panicked fits⟩
  · by_contra neither
    exact (misfits neither).1 survives
  · intro raw message computePartial writeResult panics
    obtain ⟨msg, parsed, log⟩ := runTask_panicked panics
    exact logPanics_iff.mp log (fits_of_message fits message parsed)
  · by_contra neither
    exact (misfits neither).2 survives
  · intro rounds messages
    exact runNccl_ne_panicked fun round member raw msg received parsed =>
      fits_of_message fits (messages round member raw received) parsed

/-- Seven characters of one byte, then one of two. -/
def accented : TaskRequest := ⟨"jobnameé", "softmax", [.zero]⟩

theorem accented_admitted :
    requestSlices .zmq (fun _ => none) SmallFloats.widen accented = .ok [[Double.zero]] := by
  rfl

theorem job_id_prefix_accented :
    (TaskSurvives JsonText.serde accented [[Double.zero]] ↔
      PrefixFits accented.jobId ∨ Unreadable [[Double.zero]]) ∧
    (LoopSurvives JsonText.serde SmallFloats.narrow accented [[Double.zero]] ↔
      PrefixFits accented.jobId ∨ Unreadable [[Double.zero]]) ∧
    ∀ rounds, (∀ round ∈ rounds, ∀ raw msg, round.received = .ok raw →
        raw.bind (TaskMessage.ofJson JsonText.serde) = some msg → PrefixFits msg.jobId) →
      runNccl true JsonText.serde SmallFloats.narrow rounds ≠ some .panicked :=
  job_id_prefix_iff JsonText.serde SmallFloats.narrow accented_admitted (by decide)

/-- The gateway admits the request, and both workers panic on its message. -/
theorem accented_panics :
    requestSlices .zmq (fun _ => none) SmallFloats.widen accented = .ok [[Double.zero]] ∧
    ¬ TaskSurvives JsonText.serde accented [[Double.zero]] ∧
    ¬ LoopSurvives JsonText.serde SmallFloats.narrow accented [[Double.zero]] := by
  have misfit : ¬ PrefixFits accented.jobId := by
    rw [← logPanics_iff]
    decide
  have finite : ∀ x ∈ [Double.zero], x.isFinite = true := by
    intro x member
    rw [List.mem_singleton.mp member]
    decide
  have bound : 0 < 2 ^ 64 := by decide
  exact ⟨accented_admitted, not_taskSurvives rfl misfit rfl bound finite (List.cons_ne_nil _ _),
    not_loopSurvives rfl misfit rfl bound finite SmallFloats.narrow⟩

end DistributedSoftmax.System
