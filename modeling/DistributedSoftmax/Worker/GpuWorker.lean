import DistributedSoftmax.Foundations.Barrier
import DistributedSoftmax.Worker.Softmax

/-! worker-rs/src/gpu_worker.rs with kernels/partial_softmax.cu: the kernels, the
passes that launch them, and the softmax of one rank between two collectives. -/

set_option autoImplicit false

namespace DistributedSoftmax.Worker
open Foundations.Folds Foundations.Barrier

def blockSize : Nat := 256

/-- `((n as u32) + BLOCK_SIZE - 1) / BLOCK_SIZE`, with the wrapping `u32`
arithmetic of a release build. -/
def numBlocks (n : Nat) : Nat :=
  ((BitVec.ofNat 32 n + BitVec.ofNat 32 blockSize - 1#32) / BitVec.ofNat 32 blockSize).toNat

/-- `blockIdx.x * BLOCK_SIZE + threadIdx.x`, an unsigned number kept in an `int`. -/
def globalIndex (b tid : Nat) : Int := toI32 (b * blockSize + tid)

variable {F : Type}

/-- `data[i]` in a kernel. -/
def readAt (data : List F) (i : Int) : Option F := if 0 ≤ i then data[i.toNat]? else none

/-- What a launch leaves open: the order of the blocks, the order of the threads
of each block in each phase, and what shared memory held before. -/
structure Launch (F : Type) where
  blocks : Schedule
  threads : Nat → Nat → Schedule
  shared : Nat → Nat → F

def Launch.inOrder (garbage : F) : Launch F :=
  ⟨.inOrder, fun _ _ => .inOrder, fun _ _ => garbage⟩

/-- The literal `-1e38f`. -/
def paddingValue : Int := -100000000000000000000000000000000000000

section kernels
variable (fl : FloatOps F) (data : List F) (n : Int)

/-- `block_max_f32` before its first barrier. -/
def blockMaxLane (b tid : Nat) : Option (F × List (Int × F)) :=
  let i := globalIndex b tid
  if i < n then do return (← readAt data i, [])
  else some (fl.ofInt paddingValue, [])

/-- The writes to `block_maxes`. -/
def blockMaxF32 (launch : Launch F) (nb : Nat) : Option (List (Int × F)) := do
  let (blockMaxes, _) ← runGrid (launch.blocks.order nb) fun b =>
    runBlock fl.max (blockMaxLane fl data n b) (launch.threads b) blockSize (launch.shared b)
  return blockMaxes

/-- `exp_and_block_sum_f32` before its first barrier. -/
def expLane (globalMax : F) (b tid : Nat) : Option (F × List (Int × F)) :=
  let i := globalIndex b tid
  if i < n then do
    let val := fl.exp (fl.sub (← readAt data i) globalMax)
    return (val, [(i, val)])
  else some (fl.ofInt 0, [])

/-- The writes to `block_sums` and to `exp_out`. -/
def expAndBlockSumF32 (launch : Launch F) (nb : Nat) (globalMax : F) :
    Option (List (Int × F) × List (Int × F)) :=
  runGrid (launch.blocks.order nb) fun b =>
    runBlock fl.add (expLane fl data n globalMax b) (launch.threads b) blockSize (launch.shared b)

/-- The writes of one thread of `normalize_f32`. -/
def normalizeLane (globalSum : F) (b tid : Nat) : Option (List (Int × F)) :=
  let i := globalIndex b tid
  if i < n then do return [(i, fl.div (← readAt data i) globalSum)] else some []

def normalizeF32 (launch : Launch F) (nb : Nat) (globalSum : F) : Option (List (Int × F)) :=
  runThreads (launch.blocks.order nb) (fun b => (launch.threads b 0).order blockSize)
    (normalizeLane fl data n globalSum)

end kernels

section passes
variable (fl : FloatOps F) (launch : Launch F) (data : List F)

/-- `alloc_zeros`. -/
def zeros (fl : FloatOps F) (n : Nat) : List F := List.replicate n (fl.ofInt 0)

/-- Block maxima on the device and their maximum on the host. A launch with an
empty grid is an error. -/
def maxPass : Option F := do
  let nb := numBlocks data.length
  if nb = 0 then none
  let blockMaxes ← store (zeros fl nb) (← blockMaxF32 fl data (toI32 data.length) launch nb)
  return fl.foldMax blockMaxes

/-- Exponentials and block sums on the device and the sum on the host. -/
def expPass (globalMax : F) : Option (List F × F) := do
  let nb := numBlocks data.length
  if nb = 0 then none
  let (sumLog, expLog) ← expAndBlockSumF32 fl data (toI32 data.length) launch nb globalMax
  let expValues ← store (zeros fl data.length) expLog
  let blockSums ← store (zeros fl nb) sumLog
  return (expValues, fl.sum blockSums)

/-- `GpuWorker::partial_softmax`: the two passes of one slice. -/
def GpuWorker.partialSoftmax {D S : Type} (fl : Floats D S) (maxLaunch expLaunch : Launch S)
    (data : List S) : Option (PartialStats D S) := do
  let globalMax ← maxPass fl.f32 maxLaunch data
  let (expValues, partialSum) ← expPass fl.f32 expLaunch data globalMax
  return ⟨fl.widen globalMax, fl.widen partialSum, expValues⟩

def normalizePass (globalSum : F) : Option (List F) := do
  let nb := numBlocks data.length
  if nb = 0 then none
  store (zeros fl data.length) (← normalizeF32 fl data (toI32 data.length) launch nb globalSum)

end passes

/-- A rank at a collective: what it contributes, and how it goes on with the
value that all ranks receive. -/
structure Contribution (F R : Type) where
  value : F
  resume : F → Option R

/-- `comm.all_reduce` on all ranks. -/
def allReduce {R : Type} (combine : List F → F) (ranks : List (Contribution F R)) :
    Option (List R) :=
  ranks.mapM fun rank => rank.resume (combine (ranks.map Contribution.value))

/-- The three launches of one rank. -/
structure Launches (F : Type) where
  max : Launch F
  exp : Launch F
  norm : Launch F

def Launches.inOrder (garbage : F) : Launches F :=
  ⟨.inOrder garbage, .inOrder garbage, .inOrder garbage⟩

/-- `all_reduce_softmax` of one rank: it stops at the maximum, then at the sum. -/
def allReduceSoftmax (fl : FloatOps F) (launches : Launches F) (data : List F) :
    Option (Contribution F (Contribution F (List F))) := do
  let localMax ← maxPass fl launches.max data
  return ⟨localMax, fun globalMax => do
    let (expValues, localSum) ← expPass fl launches.exp data globalMax
    return ⟨localSum, fun globalSum => normalizePass fl launches.norm expValues globalSum⟩⟩

/-! The index arithmetic of the kernels. -/

theorem toI32_of_lt {n : Nat} (short : n < 2 ^ 31) : toI32 n = n := by
  rw [toI32, BitVec.toInt_eq_toNat_cond, BitVec.toNat_ofNat]
  omega

theorem numBlocks_of_lt {n : Nat} (short : n < 2 ^ 31) : numBlocks n = (n + 255) / 256 := by
  simp only [numBlocks, blockSize, BitVec.toNat_udiv, BitVec.toNat_sub, BitVec.toNat_add,
    BitVec.toNat_ofNat, Nat.reducePow, Nat.reduceMod]
  omega

theorem numBlocks_pos {n : Nat} (short : n < 2 ^ 31) (positive : 0 < n) : numBlocks n ≠ 0 := by
  rw [numBlocks_of_lt short]
  omega

theorem le_grid {n : Nat} (short : n < 2 ^ 31) : n ≤ numBlocks n * blockSize := by
  rw [numBlocks_of_lt short, blockSize]
  omega

theorem globalIndex_eq {n b tid : Nat} (short : n < 2 ^ 31) (block : b < numBlocks n)
    (thread : tid < blockSize) : globalIndex b tid = ((b * blockSize + tid : Nat) : Int) := by
  rw [numBlocks_of_lt short] at block
  rw [globalIndex]
  apply toI32_of_lt
  rw [blockSize] at *
  omega

theorem readAt_natCast (data : List F) (i : Nat) : readAt data (i : Int) = data[i]? := by
  simp [readAt]

end DistributedSoftmax.Worker
