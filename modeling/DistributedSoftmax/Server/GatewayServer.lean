import DistributedSoftmax.Gateway.Service
import DistributedSoftmax.Server.SliceNotifier

/-! server/gateway_server.cc: the C++ gateway, of which the gateway in Rust is a
port. How it cuts a vector, reads a slice and aggregates. -/

set_option autoImplicit false

namespace DistributedSoftmax.Server
open Foundations.ByteString
open Gateway

/-- `std::isspace` of the C locale. -/
def isSpace (c : Char) : Bool := c = ' ' || (9 ≤ c.toNat && c.toNat ≤ 13)

/-- `std::atoi`: white space, a sign, and digits up to the first other character.
An overflow is undefined there. -/
def atoi (text : String) : Int :=
  match text.toList.dropWhile isSpace with
  | '-' :: rest => -(digits rest : Int)
  | '+' :: rest => digits rest
  | rest => digits rest
where
  digits (chars : List Char) : Nat :=
    (chars.takeWhile Char.isDigit).foldl (fun n c => 10 * n + (c.toNat - '0'.toNat)) 0

def getNumSlices (env : Env) : Nat :=
  match env "NUM_SLICES" with
  | some e => if 0 < atoi e then (atoi e).toNat else 4
  | none => 4

section slicing
variable {α : Type}

/-- The loop over the offsets of the slices. -/
def sliceLoop (vector : List α) (sliceSize : Nat) : (fuel offset : Nat) → List (List α)
  | 0, _ => []
  | fuel + 1, offset =>
      if offset < vector.length then
        (vector.drop offset).take (min (offset + sliceSize) vector.length - offset) ::
          sliceLoop vector sliceSize fuel (offset + sliceSize)
      else []

/-- `slice_size` and `total_slices` of `SubmitTask` in `size_t`; a division by
zero ends the process. -/
def sliceCounts (vectorSize numSlices : Nat) : Option (Nat × Nat) :=
  let sliceSize := (vectorSize + numSlices - 1) % 2 ^ 64 / numSlices
  if sliceSize = 0 then none
  else some (sliceSize, (vectorSize + sliceSize - 1) % 2 ^ 64 / sliceSize)

/-- The loop cuts as `chunks` does. -/
theorem sliceLoop_eq (vector : List α) (sliceSize fuel offset : Nat) :
    sliceLoop vector sliceSize fuel offset = chunks.go sliceSize fuel (vector.drop offset) := by
  induction fuel generalizing offset with
  | zero => rfl
  | succ fuel ih =>
    rw [sliceLoop, chunks.go]
    by_cases inside : offset < vector.length
    · have some_left : (vector.drop offset).isEmpty = false := by
        rw [List.isEmpty_eq_false_iff, ne_eq, List.drop_eq_nil_iff]
        omega
      have last : (vector.drop offset).take (min (offset + sliceSize) vector.length - offset) =
          (vector.drop offset).take sliceSize := by
        rw [← Nat.sub_min_sub_right, Nat.add_sub_cancel_left, ← List.length_drop, List.take_eq_take_iff]
        omega
      rw [if_pos inside, some_left, if_neg Bool.false_ne_true, last, ih, List.drop_drop]
    · have none_left : vector.drop offset = [] := List.drop_eq_nil_iff.mpr (by omega)
      rw [if_neg inside, none_left]
      rfl

theorem sliceLoop_eq_chunks (vector : List α) (sliceSize : Nat) :
    sliceLoop vector sliceSize vector.length 0 = chunks sliceSize vector :=
  sliceLoop_eq vector sliceSize vector.length 0

end slicing

section aggregation
variable {D : Type} (fl : FloatOps D)

/-- The loop of `aggregateSoftmax` that fills `adjust` and adds up `global_sum`. -/
def adjustLoop (globalMax : D) (stats : List (SliceStats D)) : List D × D :=
  stats.foldl (fun sums s =>
    let a := fl.exp (fl.sub s.localMax globalMax)
    (sums.1 ++ [a], fl.add sums.2 (fl.mul s.partialSum a))) ([], fl.ofInt 0)

def aggregateSoftmax (stats : List (SliceStats D)) : List D :=
  match stats with
  | [] => []
  | first :: _ =>
      if first.isNormalized then stats.flatMap SliceStats.expValues
      else
        let globalMax := stats.foldl (fun m s => fl.max m s.localMax) fl.negInf
        let sums := adjustLoop fl globalMax stats
        (stats.zip sums.1).flatMap fun (s, a) =>
          s.expValues.map fun ev => fl.div (fl.mul ev a) sums.2

/-- One loop for both does what two passes do. -/
theorem adjustLoop_eq (globalMax : D) (stats : List (SliceStats D)) :
    adjustLoop fl globalMax stats =
      (stats.map fun s => fl.exp (fl.sub s.localMax globalMax),
        fl.sum (stats.map fun s => fl.mul s.partialSum (fl.exp (fl.sub s.localMax globalMax)))) := by
  have general : ∀ (adjust : List D) (sum : D), stats.foldl (fun sums s =>
      (sums.1 ++ [fl.exp (fl.sub s.localMax globalMax)],
        fl.add sums.2 (fl.mul s.partialSum (fl.exp (fl.sub s.localMax globalMax))))) (adjust, sum) =
      (adjust ++ stats.map fun s => fl.exp (fl.sub s.localMax globalMax),
        (stats.map fun s => fl.mul s.partialSum (fl.exp (fl.sub s.localMax globalMax))).foldl
          fl.add sum) := by
    induction stats with
    | nil =>
      intro adjust sum
      rw [List.map_nil, List.append_nil]
      rfl
    | cons s rest ih =>
      intro adjust sum
      rw [List.foldl_cons, ih, List.map_cons, List.append_assoc]
      rfl
  exact general [] (fl.ofInt 0)

/-- The port aggregates as the original does. -/
theorem aggregateStats_eq (stats : List (SliceStats D)) :
    aggregateStats (fun stats => .ok (aggregateSoftmaxCpu fl stats)) stats =
      .ok (aggregateSoftmax fl stats) := by
  cases stats with
  | nil => rfl
  | cons first rest =>
    rw [aggregateStats, aggregateSoftmax, List.head?_cons, Option.map_some, Option.getD_some]
    split
    · rfl
    · have globalMax : (first :: rest).foldl (fun m s => fl.max m s.localMax) fl.negInf =
          fl.foldMax ((first :: rest).map SliceStats.localMax) :=
        List.foldl_map.symm
      simp only [globalMax, adjustLoop_eq, zip_map_self, List.flatMap_map, aggregateSoftmaxCpu_eq]
      rfl

end aggregation

/-- The elements that a range-based `for` over a JSON value visits. -/
def items : Json Double → List (Json Double)
  | .null => []
  | .array items => items
  | .object fields => fields.map Prod.snd
  | other => [other]

/-- The values up to the first that is no number, and whether that is all. -/
def numbers (json : SerdeJson) : List (Json Double) → List Double × Bool
  | [] => ([], true)
  | item :: rest => match json.toDouble? item with
      | some x => (x :: (numbers json rest).1, (numbers json rest).2)
      | none => ([], false)

/-- The fallback of `readSlice`. An exception leaves what was assigned so far. -/
def readJson (json : SerdeJson) (raw : Bytes) (out : SliceStats Double) : Bool × SliceStats Double :=
  match (fromUtf8? raw).bind json.parse with
  | none => (false, out)
  | some j =>
      match j.required "exp_values", j.required "local_max", j.required "partial_sum" with
      | some expValues, some localMax, some partialSum =>
          match json.toDouble? localMax with
          | none => (false, out)
          | some localMax => match json.toDouble? partialSum with
            | none => (false, { out with localMax })
            | some partialSum =>
                let (values, whole) := numbers json (items expValues)
                (whole, ⟨values, localMax, partialSum, false⟩)
      | _, _, _ => (false, out)

/-- `readSlice`: whether a slice was read, and what is in `out` then. A word that
memcpy would take from beyond the bytes is kept apart as a failure. -/
def readSlice (json : SerdeJson) (widen : Single → Double) (found : Option Bytes)
    (out : SliceStats Double) : Bool × SliceStats Double :=
  match found with
  | none | some [] => (false, out)
  | some (magic :: rest) =>
      if magic = 0x01 then
        match readPartial widen (magic :: rest) with
        | .ok (some s) => (true, s)
        | _ => (false, out)
      else if magic = 0x02 then
        match readNormalized widen (magic :: rest) with
        | .ok (some s) => (true, s)
        | _ => (false, out)
      else readJson json (magic :: rest) out

end DistributedSoftmax.Server
