import DistributedSoftmax.ExactReals
import DistributedSoftmax.Gateway.GpuAggregator

/-! The aggregation on the GPU against the aggregation on the CPU, in exact
arithmetic. They agree as long as the threads and the slices can be numbered by
an `int`. -/

set_option autoImplicit false

namespace DistributedSoftmax.System
open Gateway

/-- The number of values of all slices. -/
def totalValues {D : Type} (stats : List (SliceStats D)) : Nat :=
  (stats.map fun s => s.expValues.length).sum

/-- The launch reads nothing out of range, writes every output once, and the
result is that of the CPU. -/
def RefinesCpu (grid : Grid) (stats : List (SliceStats ℝ)) : Prop :=
  (∃ log, GpuAggregator.launch (exactOps Real.exp) grid
      (GpuAggregator.prepare (exactFloats Real.exp id) (stats.map embed)) = some log ∧
    (log.map Prod.fst).Perm ((List.range (totalValues stats)).map fun k : Nat => (k : Int))) ∧
  GpuAggregator.aggregate (exactFloats Real.exp id) grid (stats.map embed) =
    some (aggregateSoftmaxCpu (exactOps Real.exp) (stats.map embed))

section exact
variable (stats : List (SliceStats EReal))

theorem narrow_exact (x : EReal) : (exactFloats Real.exp id).narrow x = x := by
  induction x <;> rfl

/-- One over the sum, times the product, is the quotient. -/
theorem normalized_exact (entry : EReal × SliceStats EReal × Nat) :
    GpuAggregator.normalized (exactFloats Real.exp id) stats entry =
      entry.1 * adjustOf (exactOps Real.exp) stats entry.2.1 / globalSumOf (exactOps Real.exp) stats := by
  have inverse : (GpuAggregator.prepare (exactFloats Real.exp id) stats).invGlobalSum =
      (globalSumOf (exactOps Real.exp) stats)⁻¹ := by
    simp only [GpuAggregator.prepare, zip_map_self, List.map_map, Function.comp_def, narrow_exact]
    change (((1 : ℤ) : ℝ) : EReal) / globalSumOf (exactOps Real.exp) stats = _
    rw [Int.cast_one, EReal.coe_one, one_div]
  rw [GpuAggregator.normalized, inverse, narrow_exact, narrow_exact]
  exact (div_eq_mul_inv _ _).symm

theorem aggregate_exact {grid : Grid} (some_values : 0 < totalValues stats)
    (short : totalValues stats < 2 ^ 31) (few : GpuAggregator.SliceIdsFit stats)
    (covers : totalValues stats ≤ grid.size) (fits : grid.size ≤ 2 ^ 31) :
    GpuAggregator.aggregate (exactFloats Real.exp id) grid stats =
      some (aggregateSoftmaxCpu (exactOps Real.exp) stats) := by
  have length : (GpuAggregator.entries stats).length = totalValues stats :=
    GpuAggregator.length_entries stats
  rw [← length] at some_values short covers
  rw [GpuAggregator.aggregate_eq _ some_values short few covers fits, aggregateSoftmaxCpu_eq,
    ← GpuAggregator.map_entries]
  congr 1
  apply List.map_congr_left
  intro entry _
  exact normalized_exact stats entry

end exact

theorem totalValues_embed (stats : List (SliceStats ℝ)) :
    totalValues (stats.map embed) = totalValues stats := by
  simp only [totalValues, List.map_map, Function.comp_def, embed, length_reals]

/-- In whatever order the threads run, the aggregation on the GPU gives the list
that the aggregation on the CPU gives, on a grid that has a thread for every
value and no thread whose number is too large, when the positions of the slices
that have values fit the index array. -/
theorem gpu_refines_cpu {grid : Grid} {stats : List (SliceStats ℝ)}
    (some_values : 1 ≤ totalValues stats) (short : totalValues stats < 2 ^ 31)
    (few : GpuAggregator.SliceIdsFit stats) (covers : totalValues stats ≤ grid.size)
    (fits : grid.size ≤ 2 ^ 31) : RefinesCpu grid stats := by
  have positions : GpuAggregator.SliceIdsFit (stats.map embed) := by
    intro i s at_i values
    rw [List.getElem?_map] at at_i
    obtain ⟨real, at_real, rfl⟩ := Option.map_eq_some_iff.mp at_i
    exact few i real at_real fun empty => values (reals_eq_nil.mpr empty)
  rw [← totalValues_embed] at some_values short covers
  have length := GpuAggregator.length_entries (stats.map embed)
  obtain ⟨log, launched, writes⟩ := GpuAggregator.launch_eq (exactFloats Real.exp id)
    (length ▸ some_values) (length ▸ short) positions (length ▸ covers) fits
  refine ⟨⟨log, launched, ?_⟩, aggregate_exact _ some_values short positions covers fits⟩
  have places := writes.map Prod.fst
  rw [length, List.map_map] at places
  rw [← totalValues_embed]
  exact places

/-- Three slices, one of them without values, on more threads than values. -/
def threeSlices : List (SliceStats ℝ) :=
  [⟨[1], 0, 1, false⟩, ⟨[], 0, 0, false⟩, ⟨[1, 0], 1, 1, false⟩]

theorem gpu_refines_cpu_three_slices : RefinesCpu (.inOrder 2 2) threeSlices := by
  apply gpu_refines_cpu
  · decide
  · decide
  · intro i s at_i _
    have index : i < 3 := (List.getElem?_eq_some_iff.mp at_i).1
    omega
  · decide
  · decide

/-- One slice with one value. -/
def oneSlice : SliceStats ℝ := ⟨[1], 0, 1, false⟩

def emptySlice : SliceStats ℝ := ⟨[], 0, 0, false⟩

theorem not_refines_of_fault {grid : Grid} {stats : List (SliceStats ℝ)}
    (faults : GpuAggregator.launch (exactOps Real.exp) grid
      (GpuAggregator.prepare (exactFloats Real.exp id) (stats.map embed)) = none) :
    ¬ RefinesCpu grid stats := by
  rintro ⟨⟨log, launched, -⟩, -⟩
  cases faults.symm.trans launched

/-- Block 2^21 of 1024 threads starts with a thread whose number is negative as an `int`. -/
theorem oneSlice_faults : GpuAggregator.launch (exactOps Real.exp) (.inOrder (2 ^ 21 + 1) 1024)
    (GpuAggregator.prepare (exactFloats Real.exp id) ([oneSlice].map embed)) = none := by
  have member : (2 ^ 21, 0) ∈ (Grid.inOrder (2 ^ 21 + 1) 1024).order :=
    Grid.mem_order.mpr ⟨by decide, by decide⟩
  exact GpuAggregator.launch_faults_of_wrapped (exactFloats Real.exp id) member (by decide)
    (by decide)

theorem entries_behind_empty (n : Nat) :
    GpuAggregator.entries ((List.replicate n emptySlice ++ [oneSlice]).map embed) =
      [(((1 : ℝ) : EReal), embed oneSlice, n)] := by
  have nothing : (((List.replicate n emptySlice).map embed).zipIdx.flatMap fun entry =>
      entry.1.expValues.map fun v => (v, entry.1, entry.2)) = [] := by
    rw [List.flatMap_eq_nil_iff]
    rintro ⟨s, i⟩ member
    have inside := List.fst_mem_of_mem_zipIdx member
    rw [List.map_replicate] at inside
    rw [List.eq_of_mem_replicate inside]
    rfl
  rw [GpuAggregator.entries, List.map_append, List.zipIdx_append, List.flatMap_append]
  refine (congrArg (· ++ _) nothing).trans ?_
  rw [List.length_map, List.length_replicate, Nat.zero_add]
  rfl

theorem late_slice_faults : GpuAggregator.launch (exactOps Real.exp) (.inOrder 1 1)
    (GpuAggregator.prepare (exactFloats Real.exp id)
      ((List.replicate (2 ^ 31) emptySlice ++ [oneSlice]).map embed)) = none := by
  have entries := entries_behind_empty (2 ^ 31)
  have member : (0, 0) ∈ (Grid.inOrder 1 1).order := Grid.mem_order.mpr ⟨by decide, by decide⟩
  have first : (Grid.inOrder 1 1).index (0, 0) = ((0 : Nat) : Int) := by decide
  have value : (GpuAggregator.entries
      ((List.replicate (2 ^ 31) emptySlice ++ [oneSlice]).map embed))[0]? =
        some (((1 : ℝ) : EReal), embed oneSlice, 2 ^ 31) := by
    rw [entries]
    rfl
  have wraps : toI32 (2 ^ 31) < 0 := by decide
  have short : (GpuAggregator.entries
      ((List.replicate (2 ^ 31) emptySlice ++ [oneSlice]).map embed)).length < 2 ^ 31 := by
    rw [entries]
    exact Nat.one_lt_two_pow (by decide)
  exact GpuAggregator.launch_faults_of_position (exactFloats Real.exp id) member first value wraps short

theorem totalValues_behind_empty (n : Nat) :
    totalValues (List.replicate n emptySlice ++ [oneSlice]) = 1 := by
  simp [totalValues, emptySlice, oneSlice]

/-- On a grid with more threads than there are numbers a thread reads in front of
the values; behind as many slices without values the index of a slice is negative. -/
theorem numbers_wrap_around :
    (¬ ∀ (grid : Grid) (stats : List (SliceStats ℝ)), stats ≠ [] → 1 ≤ totalValues stats →
      totalValues stats < 2 ^ 31 → GpuAggregator.SliceIdsFit stats →
        totalValues stats ≤ grid.size → RefinesCpu grid stats) ∧
    ¬ ∀ (grid : Grid) (stats : List (SliceStats ℝ)), stats ≠ [] → 1 ≤ totalValues stats →
      totalValues stats < 2 ^ 31 → totalValues stats ≤ grid.size → grid.size ≤ 2 ^ 31 →
        RefinesCpu grid stats := by
  constructor
  · intro claimed
    have single : GpuAggregator.SliceIdsFit [oneSlice] := by
      intro i s at_i _
      have index : i < 1 := (List.getElem?_eq_some_iff.mp at_i).1
      omega
    refine not_refines_of_fault oneSlice_faults (claimed _ _ ?_ ?_ ?_ single ?_)
    · exact List.cons_ne_nil _ _
    · decide
    · decide
    · decide
  · intro claimed
    have total := totalValues_behind_empty (2 ^ 31)
    refine not_refines_of_fault late_slice_faults (claimed _ _ ?_ ?_ ?_ ?_ ?_)
    · exact List.append_ne_nil_of_right_ne_nil _ (List.cons_ne_nil _ _)
    · rw [total]
    · rw [total]
      decide
    · rw [total]
      decide
    · decide

end DistributedSoftmax.System
