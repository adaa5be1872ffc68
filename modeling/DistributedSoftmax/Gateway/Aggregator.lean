import DistributedSoftmax.Gateway.RedisManager
import DistributedSoftmax.Gateway.SoftmaxCpu
import DistributedSoftmax.Gateway.SliceNotifier

/-! gateway-rs/src/aggregator.rs: reading one slice, collecting all slices of a
job, and the choice of the aggregation. -/

set_option autoImplicit false

namespace DistributedSoftmax.Gateway
open Foundations.ByteString

/-- The ways in which reading a slice fails. Slicing the raw bytes out of
bounds would be a panic; it is kept apart so that its absence can be stated. -/
inductive ReadError where
  | redis
  | utf8
  | json
  | missingExpValues
  | outOfBounds
  deriving DecidableEq, Repr

/-- `raw[start..stop]`. -/
def bytesAt (raw : Bytes) (start stop : Nat) : Except ReadError Bytes :=
  match range? raw start stop with
  | some word => .ok word
  | none => .error .outOfBounds

/-- `f64::from_ne_bytes` on a little-endian machine. -/
def f64At (raw : Bytes) (off : Nat) : Except ReadError Double :=
  (bytesAt raw off (off + 8)).map fun word => BitVec.ofNat 64 (leValue word)

/-- `f32::from_ne_bytes` on a little-endian machine. -/
def f32At (raw : Bytes) (off : Nat) : Except ReadError Single :=
  (bytesAt raw off (off + 4)).map fun word => BitVec.ofNat 32 (leValue word)

/-- `u32::from_ne_bytes` on a little-endian machine. -/
def u32At (raw : Bytes) (off : Nat) : Except ReadError Nat :=
  (bytesAt raw off (off + 4)).map leValue

/-- The loop over the `n` values behind the header. -/
def f32ValuesAt (widen : Single → Double) (raw : Bytes) (hdr n : Nat) :
    Except ReadError (List Double) :=
  (List.range n).mapM fun i => (f32At raw (hdr + i * 4)).map widen

def partialHeader : Nat := 1 + 8 + 8 + 4
def normalizedHeader : Nat := 1 + 4

def readPartial (widen : Single → Double) (raw : Bytes) :
    Except ReadError (Option (SliceStats Double)) := do
  if raw.length < partialHeader then return none
  let localMax ← f64At raw 1
  let partialSum ← f64At raw 9
  let n ← u32At raw 17
  if raw.length ≠ partialHeader + n * 4 then return none
  let expValues ← f32ValuesAt widen raw partialHeader n
  return some ⟨expValues, localMax, partialSum, false⟩

def readNormalized (widen : Single → Double) (raw : Bytes) :
    Except ReadError (Option (SliceStats Double)) := do
  if raw.length < normalizedHeader then return none
  let n ← u32At raw 1
  if raw.length ≠ normalizedHeader + n * 4 then return none
  let expValues ← f32ValuesAt widen raw normalizedHeader n
  return some ⟨expValues, .zero, .one, true⟩

/-- The fallback for legacy workers: fields by name, with defaults; values that
are no numbers are filtered out. -/
def readJson (serde : SerdeJson) (raw : Bytes) :
    Except ReadError (Option (SliceStats Double)) := do
  let some s := fromUtf8? raw | throw .utf8
  let some j := serde.parse s | throw .json
  let localMax := ((j.field "local_max").asF64 serde.ofInt).getD .zero
  let partialSum := ((j.field "partial_sum").asF64 serde.ofInt).getD .one
  let some values := (j.field "exp_values").asArray | throw .missingExpValues
  let expValues := values.filterMap (Json.asF64 serde.ofInt)
  return some ⟨expValues, localMax, partialSum, false⟩

/-- `read_slice` on the bytes that were found under the slice key. -/
def readSlice (serde : SerdeJson) (widen : Single → Double) (found : Option Bytes) :
    Except ReadError (Option (SliceStats Double)) :=
  match found with
  | none => .ok none
  | some [] => .ok none
  | some (magic :: rest) =>
      if magic = 0x01 then readPartial widen (magic :: rest)
      else if magic = 0x02 then readNormalized widen (magic :: rest)
      else readJson serde (magic :: rest)

/-- The slices held so far, in `wait_for_all_slices`. -/
structure Collector where
  stats : List (SliceStats Double)
  held : List Bool
  remaining : Nat
  deriving DecidableEq, Repr

namespace Collector

def init (totalSlices : Nat) : Collector :=
  ⟨List.replicate totalSlices .default, List.replicate totalSlices false, totalSlices⟩

/-- The outcome of reading slice `i`. -/
def read (collector : Collector) (i : Nat)
    (outcome : Except ReadError (Option (SliceStats Double))) : Collector :=
  match outcome with
  | .ok (some s) =>
      ⟨collector.stats.set i s, collector.held.set i true, collector.remaining - 1⟩
  | _ => collector

end Collector

/-- Where `wait_for_all_slices` stands: before slice `i` of a pass, in the timed
wait between two passes, or out of the loop. -/
inductive WaitPoint where
  | passing (i : Nat)
  | parked
  | left (outcome : Except String (List (SliceStats Double)))
  deriving DecidableEq, Repr

/-- The local state of `wait_for_all_slices`. -/
structure Waiting where
  totalSlices : Nat
  collector : Collector
  receiver : Receiver
  point : WaitPoint
  deriving DecidableEq, Repr

def waitTimeout (jobId : String) : String := "Timeout waiting for slices for job " ++ jobId

namespace Waiting

def start (totalSlices : Nat) (receiver : Receiver) : Waiting :=
  ⟨totalSlices, .init totalSlices, receiver, .passing 0⟩

/-- The slice that the pass reads next; a slice that is held is not read. -/
def wants (waiting : Waiting) : Option Nat :=
  match waiting.point with
  | .passing i =>
      if i < waiting.totalSlices ∧ waiting.collector.held[i]? = some false then some i else none
  | _ => none

end Waiting

/-- What drives the loop: the outcome of a read, the step over a slice that is
held, the end of a pass with or without the deadline having passed, and the end
of the timed wait. -/
inductive WaitEvent where
  | read (outcome : Except ReadError (Option (SliceStats Double)))
  | skip
  | endPass (expired : Bool)
  | wake (notifier : SliceNotifier)

def Waiting.step (jobId : String) (waiting : Waiting) : WaitEvent → Option Waiting
  | .read outcome => match waiting.wants with
      | some i => some { waiting with
          collector := waiting.collector.read i outcome
          point := .passing (i + 1) }
      | none => none
  | .skip => match waiting.point with
      | .passing i =>
          if i < waiting.totalSlices ∧ waiting.collector.held[i]? = some true then
            some { waiting with point := .passing (i + 1) }
          else none
      | _ => none
  | .endPass expired => match waiting.point with
      | .passing i =>
          if i < waiting.totalSlices then none
          else if waiting.collector.remaining = 0 then
            some { waiting with point := .left (.ok waiting.collector.stats) }
          else if expired then some { waiting with point := .left (.error (waitTimeout jobId)) }
          else some { waiting with point := .parked }
      | _ => none
  | .wake notifier => match waiting.point with
      | .parked => some { waiting with
          receiver := waiting.receiver.changed notifier
          point := .passing 0 }
      | _ => none

/-- The aggregation step of `aggregate`: slices that are normalized already are
concatenated, others go to the softmax aggregation. The first slice decides. -/
def aggregateStats {D : Type} (aggregateSoftmax : List (SliceStats D) → Except String (List D))
    (stats : List (SliceStats D)) : Except String (List D) :=
  if (stats.head?.map SliceStats.isNormalized).getD false then
    .ok (stats.flatMap SliceStats.expValues)
  else aggregateSoftmax stats

end DistributedSoftmax.Gateway
