import DistributedSoftmax.Gateway.Service
import DistributedSoftmax.Worker.Handler

/-! Task messages between the two programs: what a worker reads where the
gateway wrote a slice. A value that is not finite is written as null, and the
worker rejects the message. -/

set_option autoImplicit false

namespace DistributedSoftmax.System
open Gateway Worker

/-- The doubles a worker gets where doubles were sent. -/
def received (serde : SerdeJson) (data : List Double) : Option (List Double) :=
  serde.toDoubles? (serde.wire (Json.ofDoubles data))

theorem received_of_finite (serde : SerdeJson) {data : List Double}
    (finite : ∀ x ∈ data, x.isFinite = true) : received serde data = some (data.map serde.reread) :=
  SerdeJson.toDoubles?_wire_of_finite finite

theorem received_eq_none (serde : SerdeJson) {data : List Double} {x : Double} (member : x ∈ data)
    (infinite : x.isFinite = false) : received serde data = none := by
  cases read : received serde data with
  | none => rfl
  | some values =>
    have finite := (SerdeJson.toDoubles?_wire read).1 x member
    rw [infinite] at finite
    cases finite

/-- The message the worker makes of the gateway's JSON. -/
theorem ofJson_taskMessage (serde : SerdeJson) (request : TaskRequest) (sliceId : Nat)
    (data : List Double) :
    TaskMessage.ofJson serde (serde.wire (taskMessage request sliceId data)) =
      if sliceId < 2 ^ 64 then
        (received serde data).map fun values => ⟨request.jobId, sliceId, request.task, values⟩
      else none := by
  have fields : serde.wire (taskMessage request sliceId data) =
      .object [("data", serde.wire (Json.ofDoubles data)), ("job_id", .string request.jobId),
        ("slice_id", .int sliceId), ("task", .string request.task)] := by
    simp only [taskMessage, SerdeJson.wire, SerdeJson.wireFields]
  simp only [TaskMessage.ofJson, fields, Json.required, List.find?, String.reduceBEq,
    Option.map_some, Option.bind_eq_bind, Option.bind_some, Json.toString?,
    Json.toUnsigned?_natCast, received]
  by_cases bound : sliceId < 2 ^ 64
  · rw [if_pos bound, if_pos bound, Option.bind_some, Option.map_eq_bind]
    rfl
  · rw [if_neg bound, if_neg bound, Option.bind_none]

end DistributedSoftmax.System
