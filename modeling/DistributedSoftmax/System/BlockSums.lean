import DistributedSoftmax.System.NcclPath

/-! The pass for the exponentials in exact arithmetic: each exponential is
written once, and the block sums add up to the sum of what was written, for every
length and in whatever order the blocks and threads run. -/

set_option autoImplicit false

namespace DistributedSoftmax.System
open Foundations.Folds Foundations.Barrier
open Worker

/-- The writes of `exp_and_block_sum_f32`: the exponentials in their places, one
sum for each block, and the same total in both. -/
def BlockSumsExact (launch : Launch EReal) (data : List ℝ) (m : ℝ) : Prop :=
  ∃ sumLog expLog, expAndBlockSumF32 (exactOps Real.exp) (reals data) (toI32 data.length) launch
      (numBlocks data.length) (m : EReal) = some (sumLog, expLog) ∧
    expLog.Perm (data.zipIdx.map fun (x, i) => ((i : Int), (Real.exp (x - m) : EReal))) ∧
    (sumLog.map Prod.fst).Perm ((List.range ((data.length + 255) / 256)).map fun b : Nat => (b : Int)) ∧
    (sumLog.map Prod.snd).sum = (expLog.map Prod.snd).sum

/-- The sum that `partial_softmax` reports is the sum of the values it reports. -/
def PartialSumExact (maxLaunch expLaunch : Launch EReal) (data : List ℝ) : Prop :=
  ∃ stats, GpuWorker.partialSoftmax (exactFloats Real.exp id) maxLaunch expLaunch (reals data) =
    some stats ∧ stats.partialSum = stats.expValues.sum

/-- Folding the exact addition is summing. -/
theorem fold_add_eq_sum (exp : ℝ → ℝ) (xs : List EReal) :
    fold (exactOps exp).add ((exactOps exp).ofInt 0) xs = xs.sum := by
  have zero : (exactOps exp).ofInt 0 = (0 : EReal) := by simp [exactOps]
  rw [zero, List.sum_eq_foldl]
  rfl

section
variable {data : List ℝ} (m : ℝ)

theorem expValue_reals (i : Nat) (index : i < data.length) :
    expValue (exactOps Real.exp) (reals data) m i = (Real.exp (data[i] - m) : EReal) := by
  simp only [expValue, reals, List.getElem?_map, List.getElem?_eq_getElem index, Option.map_some,
    Option.getD_some, exactOps, ← EReal.coe_sub, extend_coe]

theorem expLog_eq : ((List.range data.length).map fun i : Nat =>
    ((i : Int), expValue (exactOps Real.exp) (reals data) m i)) =
      data.zipIdx.map fun (x, i) => ((i : Int), (Real.exp (x - m) : EReal)) := by
  apply List.ext_getElem
  · simp
  · intro i left right
    have index : i < data.length := by simpa using left
    simp only [List.getElem_map, List.getElem_range, List.getElem_zipIdx, Nat.zero_add,
      expValue_reals m i index]

theorem blockSumsExact (short : data.length < 2 ^ 31) (launch : Launch EReal) :
    BlockSumsExact launch data m := by
  have length : (reals data).length = data.length := length_reals data
  obtain ⟨blockSum, sumLog, expLog, ran, places, writes, total⟩ := expAndBlockSumF32_related
    (exactOps Real.exp) launch (respects_eq _) rfl (m : EReal) (fun _ _ => rfl) (length ▸ short)
  have written : (List.range (reals data).length).map (expValue (exactOps Real.exp) (reals data) m) = _ :=
    map_range_getD _ _ (reals data)
  have sums : (sumLog.map Prod.snd).sum = (expLog.map Prod.snd).sum := by
    rw [(places.map Prod.snd).sum_eq, (writes.map Prod.snd).sum_eq, List.map_map, List.map_map,
      ← fold_add_eq_sum Real.exp, ← fold_add_eq_sum Real.exp]
    exact total.trans (congrArg _ written.symm)
  rw [length] at ran places writes
  refine ⟨sumLog, expLog, ran, ?_, ?_, sums⟩
  · rwa [expLog_eq] at writes
  · have blocks := places.map Prod.fst
    rwa [List.map_map, numBlocks_of_lt short] at blocks

/-- The sums agree whatever maximum the first pass found. -/
theorem partialSumExact (nonempty : data ≠ []) (short : data.length < 2 ^ 31)
    (maxLaunch expLaunch : Launch EReal) : PartialSumExact maxLaunch expLaunch data := by
  have some_values : reals data ≠ [] := fun empty => nonempty (reals_eq_nil.mp empty)
  rw [← length_reals data] at short
  rw [PartialSumExact, GpuWorker.partialSoftmax,
    show (exactFloats Real.exp id).f32 = exactOps Real.exp from rfl,
    maxPass_eq (exactOps Real.exp) maxLaunch some_values short]
  simp only [Option.bind_eq_bind, Option.bind_some, expPass_eq (exactOps Real.exp) expLaunch
    some_values short, pure, Option.some.injEq, exists_eq_left']
  exact fold_add_eq_sum Real.exp _

end

/-- The block sums are exact for every length and every shift, and so is the
partial sum of a slice. -/
theorem block_sums_exact {data : List ℝ} (nonempty : 1 ≤ data.length)
    (short : data.length < 2 ^ 31 - 256) (m : ℝ) (maxLaunch expLaunch : Launch EReal) :
    BlockSumsExact expLaunch data m ∧ PartialSumExact maxLaunch expLaunch data :=
  ⟨blockSumsExact m (by omega) expLaunch,
    partialSumExact (List.ne_nil_of_length_pos nonempty) (by omega) maxLaunch expLaunch⟩

theorem block_sums_exact_two_blocks :
    BlockSumsExact (.inOrder 7) (List.replicate 257 2) 1 ∧
      PartialSumExact (.inOrder 7) (.inOrder 7) (List.replicate 257 2) :=
  block_sums_exact (by rw [List.length_replicate]; decide) (by rw [List.length_replicate]; decide) 1
    (.inOrder 7) (.inOrder 7)

end DistributedSoftmax.System
