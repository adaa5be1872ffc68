import Mathlib.Algebra.BigOperators.Group.List.Basic
import Mathlib.Algebra.Ring.Nat
import DistributedSoftmax.Numbers

/-! gateway-rs/src/aggregator.rs: the slice statistics and the aggregation on
the CPU. -/

set_option autoImplicit false

namespace DistributedSoftmax.Gateway

structure SliceStats (D : Type) where
  expValues : List D
  localMax : D
  partialSum : D
  /-- The values are final probabilities already. -/
  isNormalized : Bool
  deriving DecidableEq, Repr

variable {D : Type}

/-- `SliceStats::default`. -/
def SliceStats.default : SliceStats Double := ⟨[], .zero, .one, false⟩

def aggregateSoftmaxCpu (fl : FloatOps D) (stats : List (SliceStats D)) : List D :=
  if stats.isEmpty then []
  else
    let globalMax := fl.foldMax (stats.map SliceStats.localMax)
    let adjust := stats.map fun s => fl.exp (fl.sub s.localMax globalMax)
    let globalSum := fl.sum ((stats.zip adjust).map fun (s, a) => fl.mul s.partialSum a)
    (stats.zip adjust).flatMap fun (s, a) =>
      s.expValues.map fun ev => fl.div (fl.mul ev a) globalSum

theorem zip_map_self {α β : Type} (f : α → β) (xs : List α) :
    xs.zip (xs.map f) = xs.map fun x => (x, f x) := by
  induction xs with
  | nil => rfl
  | cons x rest ih => simp only [List.map_cons, List.zip_cons_cons, ih]

/-- The factor that brings a slice to the global maximum. -/
def adjustOf (fl : FloatOps D) (stats : List (SliceStats D)) (s : SliceStats D) : D :=
  fl.exp (fl.sub s.localMax (fl.foldMax (stats.map SliceStats.localMax)))

def globalSumOf (fl : FloatOps D) (stats : List (SliceStats D)) : D :=
  fl.sum (stats.map fun s => fl.mul s.partialSum (adjustOf fl stats s))

/-- The two zips with the adjust factors, written slice by slice. -/
theorem aggregateSoftmaxCpu_eq (fl : FloatOps D) (stats : List (SliceStats D)) :
    aggregateSoftmaxCpu fl stats = stats.flatMap fun s => s.expValues.map fun ev =>
      fl.div (fl.mul ev (adjustOf fl stats s)) (globalSumOf fl stats) := by
  unfold aggregateSoftmaxCpu
  split
  · rename_i empty
    simp [List.isEmpty_iff.mp empty]
  · simp only [zip_map_self, List.map_map, List.flatMap_map]
    rfl

theorem length_aggregateSoftmaxCpu (fl : FloatOps D) (stats : List (SliceStats D)) :
    (aggregateSoftmaxCpu fl stats).length = (stats.map fun s => s.expValues.length).sum := by
  rw [aggregateSoftmaxCpu_eq, List.length_flatMap]
  simp only [List.length_map]

end DistributedSoftmax.Gateway
