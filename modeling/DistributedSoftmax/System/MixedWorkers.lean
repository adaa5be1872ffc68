import DistributedSoftmax.System.GpuAggregation
import DistributedSoftmax.System.NcclPath

/-! Workers and gateways of both builds in one deployment: each slice may be
computed on a CPU or on a GPU, and the gateway may aggregate on either. In exact
arithmetic the result is softmax of the whole vector all the same. -/

set_option autoImplicit false

namespace DistributedSoftmax.System
open Foundations.Folds Foundations.Softmax
open Worker Gateway

/-- The build of the worker that takes a slice; on a GPU, how its launches run. -/
inductive WorkerBuild (S : Type) where
  | cpu
  | gpu (maxLaunch expLaunch : Launch S)

/-- The gateway with or without a CUDA device. -/
inductive GatewayBuild where
  | cpu
  | gpu (grid : Grid)

variable {D S : Type}

/-- `compute_partial` of either build. -/
def computePartial (fl : Floats D S) (data : List D) : WorkerBuild S → Option (PartialStats D S)
  | .cpu => some (softmaxPartial fl data)
  | .gpu maxLaunch expLaunch =>
      GpuWorker.partialSoftmax fl maxLaunch expLaunch (data.map fl.narrow)

/-- `aggregate` on slices that are not normalized. -/
def aggregatePartials (fl : Floats D S) (stats : List (SliceStats D)) : GatewayBuild → Option (List D)
  | .cpu => some (aggregateSoftmaxCpu fl.f64 stats)
  | .gpu grid => (GpuAggregator.aggregate fl grid stats).map (List.map fl.widen)

/-- One job: slice `i` is computed by a worker of build `workers i`. -/
def mixedTwoPass (fl : Floats D S) (workers : Nat → WorkerBuild S) (gateway : GatewayBuild)
    (slices : List (List D)) : Option (List D) := do
  let partials ← slices.zipIdx.mapM fun (slice, i) => computePartial fl slice (workers i)
  aggregatePartials fl (partials.map (ofPartial fl.widen)) gateway

/-- The values can be numbered by the threads of the gateway's launch. -/
def GatewayBuild.Fits (values : Nat) : GatewayBuild → Prop
  | .cpu => True
  | .gpu grid => 1 ≤ values ∧ values < 2 ^ 31 ∧ values ≤ grid.size ∧ grid.size ≤ 2 ^ 31

/-- The shift of a slice: the GPU takes the padding into the maximum. -/
noncomputable def shiftOf (slice : List ℝ) : WorkerBuild EReal → ℝ
  | .cpu => listMax slice
  | .gpu _ _ => paddedMax slice

/-- The statistics of a slice for a shift, over the reals. -/
noncomputable def shiftedStats (part : ℝ × List ℝ) : SliceStats ℝ :=
  ⟨shifted part.1 part.2, part.1, (shifted part.1 part.2).sum, false⟩

theorem computePartial_reals {slice : List ℝ} (nonempty : slice ≠ []) (short : slice.length < 2 ^ 31)
    (worker : WorkerBuild EReal) :
    ∃ stats, computePartial (exactFloats Real.exp id) (reals slice) worker = some stats ∧
      ofPartial (exactFloats Real.exp id).widen stats = embed (shiftedStats (shiftOf slice worker, slice)) := by
  cases worker with
  | cpu => exact ⟨_, rfl, ofPartial_softmaxPartial nonempty⟩
  | gpu maxLaunch expLaunch =>
    have some_values : reals slice ≠ [] := fun empty => nonempty (reals_eq_nil.mp empty)
    have fits : (reals slice).length < 2 ^ 31 := by rwa [length_reals]
    have largest : maxPass (exactOps Real.exp) maxLaunch (reals slice) = some (paddedMax slice : EReal) :=
      (maxPass_eq (exactOps Real.exp) maxLaunch some_values fits).trans
        (congrArg some (rankMax_reals Real.exp nonempty))
    have exponentials : expPass (exactOps Real.exp) expLaunch (reals slice) (paddedMax slice : EReal) =
        some (reals (shifted (paddedMax slice) slice),
          (((shifted (paddedMax slice) slice).sum : ℝ) : EReal)) := by
      rw [expPass_eq (exactOps Real.exp) expLaunch some_values fits, ← sum_reals Real.exp]
      have values := rankExps_reals (paddedMax slice) slice
      rw [rankExps] at values
      rw [values]
    refine ⟨⟨(paddedMax slice : EReal), ((shifted (paddedMax slice) slice).sum : ℝ),
      reals (shifted (paddedMax slice) slice)⟩, ?_, ?_⟩
    · rw [computePartial, map_narrow_reals, GpuWorker.partialSoftmax,
        show (exactFloats Real.exp id).f32 = exactOps Real.exp from rfl, largest]
      simp only [Option.bind_eq_bind, Option.bind_some, exponentials]
      rfl
    · simp only [ofPartial, exactFloats, embed, shiftedStats, shiftOf, List.map_id]

section slices
variable {slices : List (List ℝ)} (workers : Nat → WorkerBuild EReal)

/-- The slices with their shifts. -/
noncomputable def parts (workers : Nat → WorkerBuild EReal) (slices : List (List ℝ)) :
    List (ℝ × List ℝ) :=
  slices.zipIdx.map fun (slice, i) => (shiftOf slice (workers i), slice)

theorem parts_flatMap : (parts workers slices).flatMap Prod.snd = slices.flatten := by
  rw [parts, List.flatMap_map, ← List.flatMap_id]
  conv => rhs; rw [← List.zipIdx_map_fst 0 slices, List.flatMap_map]
  rfl

theorem computed_reals (slicesNonempty : ∀ slice ∈ slices, slice ≠ [])
    (short : ∀ slice ∈ slices, slice.length < 2 ^ 31) :
    ∃ partials, (slices.map reals).zipIdx.mapM (fun (slice, i) =>
        computePartial (exactFloats Real.exp id) slice (workers i)) = some partials ∧
      partials.map (ofPartial (exactFloats Real.exp id).widen) =
        ((parts workers slices).map shiftedStats).map embed := by
  have each : ∀ entry ∈ slices.zipIdx, ∃ stats,
      computePartial (exactFloats Real.exp id) (reals entry.1) (workers entry.2) = some stats ∧
        ofPartial (exactFloats Real.exp id).widen stats =
          embed (shiftedStats (shiftOf entry.1 (workers entry.2), entry.1)) := by
    intro entry member
    have inside := List.fst_mem_of_mem_zipIdx member
    exact computePartial_reals (slicesNonempty _ inside) (short _ inside) _
  rw [List.zipIdx_map, List.mapM_map, parts, List.map_map, List.map_map]
  generalize slices.zipIdx = entries at each
  induction entries with
  | nil => exact ⟨[], rfl, rfl⟩
  | cons entry rest ih =>
    obtain ⟨stats, computed, same⟩ := each entry List.mem_cons_self
    obtain ⟨partials, ran, all⟩ := ih fun other member => each other (List.mem_cons_of_mem _ member)
    refine ⟨stats :: partials, ?_, ?_⟩
    · rw [List.mapM_cons]
      simp only [Function.comp_def, Prod.map, id] at ran ⊢
      simp only [computed, ran, Option.bind_eq_bind, Option.bind_some, Option.pure_def]
    · rw [List.map_cons, List.map_cons, same, all]
      rfl

theorem totalValues_parts :
    totalValues ((parts workers slices).map shiftedStats) = slices.flatten.length := by
  rw [← parts_flatMap workers, List.length_flatMap, totalValues, List.map_map]
  simp only [Function.comp_def, shiftedStats, shifted, List.length_map]

theorem aggregated_softmax (nonempty : slices ≠ []) :
    aggregateSoftmaxCpu (exactOps Real.exp) (((parts workers slices).map shiftedStats).map embed) =
      reals (softmax slices.flatten) := by
  have some_parts : (parts workers slices).map shiftedStats ≠ [] := by
    simpa only [parts, ne_eq, List.map_eq_nil_iff, List.zipIdx_eq_nil_iff] using nonempty
  rw [aggregateSoftmaxCpu_embed Real.exp some_parts]
  congr 1
  rw [← parts_flatMap workers, ← softmax_of_parts
    (listMax (((parts workers slices).map shiftedStats).map SliceStats.localMax)), List.flatMap_map]
  simp only [realGlobalSum, realAdjust, List.map_map, Function.comp_def, shiftedStats]

end slices

/-- Which slices are computed on a GPU, in whatever order its threads run, and
where they are aggregated, makes no difference: the result is softmax. -/
theorem mixed_softmax {slices : List (List ℝ)} (nonempty : slices ≠ [])
    (slicesNonempty : ∀ slice ∈ slices, slice ≠ [])
    (short : ∀ slice ∈ slices, slice.length < 2 ^ 31) (workers : Nat → WorkerBuild EReal)
    {gateway : GatewayBuild} (fits : gateway.Fits slices.flatten.length) :
    mixedTwoPass (exactFloats Real.exp id) workers gateway (slices.map reals) =
      some (reals (softmax slices.flatten)) := by
  obtain ⟨partials, computed, received⟩ := computed_reals workers slicesNonempty short
  rw [mixedTwoPass, computed, Option.bind_eq_bind, Option.bind_some, received]
  cases gateway with
  | cpu => exact congrArg some (aggregated_softmax workers nonempty)
  | gpu grid =>
    obtain ⟨some_values, few, covers, small⟩ := fits
    let stats := (parts workers slices).map shiftedStats
    have total : totalValues (stats.map embed) = slices.flatten.length :=
      (totalValues_embed stats).trans (totalValues_parts workers)
    -- Every slice has a value, so there are not more slices than values.
    have positions : GpuAggregator.SliceIdsFit (stats.map embed) := by
      intro i s at_i _
      have index := (List.getElem?_eq_some_iff.mp at_i).1
      have slicesFew : slices.length ≤ slices.flatten.length := by
        rw [List.length_flatten]
        have each : ∀ n ∈ slices.map List.length, 1 ≤ n := by
          intro n member
          obtain ⟨slice, inside, rfl⟩ := List.mem_map.mp member
          exact List.length_pos_of_ne_nil (slicesNonempty slice inside)
        simpa only [List.length_map, smul_eq_mul, mul_one] using List.card_nsmul_le_sum _ 1 each
      simp only [stats, parts, List.length_map, List.length_zipIdx] at index
      omega
    rw [aggregatePartials, aggregate_exact _ (total ▸ some_values) (total ▸ few) positions
      (total ▸ covers) small, aggregated_softmax workers nonempty, Option.map_some]
    exact congrArg some (List.map_id _)

/-- A slice below the padding, on a GPU, and one on a CPU. -/
theorem mixed_softmax_two_slices :
    mixedTwoPass (exactFloats Real.exp id)
        (fun i => if i = 0 then .gpu (.inOrder 7) (.inOrder 7) else .cpu) (.gpu (.inOrder 1 1024))
        ([[2 * (paddingValue : ℝ)], [0, 1]].map reals) =
      some (reals (softmax [2 * (paddingValue : ℝ), 0, 1])) := by
  have slicesNonempty : ∀ slice ∈ [[2 * (paddingValue : ℝ)], [0, 1]], slice ≠ [] := by simp
  have short : ∀ slice ∈ [[2 * (paddingValue : ℝ)], [0, 1]], slice.length < 2 ^ 31 := by simp
  have fits : (GatewayBuild.gpu (.inOrder 1 1024)).Fits
      [[2 * (paddingValue : ℝ)], [0, 1]].flatten.length :=
    ⟨by decide, by decide, by decide, by decide⟩
  exact mixed_softmax (List.cons_ne_nil _ _) slicesNonempty short _ fits

end DistributedSoftmax.System
