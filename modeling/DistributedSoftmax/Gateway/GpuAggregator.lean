import DistributedSoftmax.Gateway.SoftmaxCpu
import DistributedSoftmax.Worker.GpuPasses

/-! gateway-rs/src/gpu_aggregator.rs with kernels/aggregate_softmax.cu: the host
flattens the slices, and the kernel finds the slice of a value through an index
array. -/

set_option autoImplicit false

namespace DistributedSoftmax.Gateway
open Foundations.Barrier Foundations.Folds
open Worker (readAt zeros readAt_natCast toI32_of_lt store_elements map_range_getD)

/-- The arguments of `aggregate_normalize`. -/
structure NormalizeArgs (S : Type) where
  expVals : List S
  adjusts : List S
  sliceIds : List Int
  invGlobalSum : S
  n : Int

/-- A launch: its dimensions, and all of its threads in the order in which they run. -/
structure Grid where
  gridDim : Nat
  blockDim : Nat
  order : List (Nat × Nat)
  complete : order.Perm ((List.range gridDim).flatMap fun b => (List.range blockDim).map fun tid => (b, tid))

namespace Grid

/-- The number of threads. -/
def size (grid : Grid) : Nat := grid.gridDim * grid.blockDim

/-- `blockIdx.x * blockDim.x + threadIdx.x`, an unsigned number kept in an `int`. -/
def index (grid : Grid) (thread : Nat × Nat) : Int := toI32 (thread.1 * grid.blockDim + thread.2)

def inOrder (gridDim blockDim : Nat) : Grid := ⟨gridDim, blockDim, _, .refl _⟩

variable {grid : Grid} {thread : Nat × Nat}

theorem mem_order : thread ∈ grid.order ↔ thread.1 < grid.gridDim ∧ thread.2 < grid.blockDim := by
  rw [grid.complete.mem_iff]
  simp [List.mem_flatMap, Prod.ext_iff]

/-- Up to `i32::MAX` no index wraps around. -/
theorem index_eq (fits : grid.size ≤ 2 ^ 31) (member : thread ∈ grid.order) :
    grid.index thread = ((thread.1 * grid.blockDim + thread.2 : Nat) : Int) := by
  obtain ⟨block, inside⟩ := mem_order.mp member
  apply toI32_of_lt
  calc thread.1 * grid.blockDim + thread.2
      < thread.1 * grid.blockDim + grid.blockDim := Nat.add_lt_add_left inside _
    _ = (thread.1 + 1) * grid.blockDim := (Nat.succ_mul _ _).symm
    _ ≤ grid.size := Nat.mul_le_mul_right _ block
    _ ≤ 2 ^ 31 := fits

/-- The threads have the numbers below the size of the grid, each one once. -/
theorem numbers (grid : Grid) :
    (grid.order.map fun thread => thread.1 * grid.blockDim + thread.2).Perm (List.range grid.size) := by
  have product := grid.complete.map fun thread => thread.1 * grid.blockDim + thread.2
  simp only [List.map_flatMap, List.map_map, Function.comp_def, range_blocks] at product
  exact product

end Grid

namespace GpuAggregator
variable {D S : Type}

/-- The host part of `aggregate`. -/
def prepare (fl : Floats D S) (stats : List (SliceStats D)) : NormalizeArgs S :=
  let globalMax := fl.f64.foldMax (stats.map SliceStats.localMax)
  let adjusts := stats.map fun s => fl.narrow (fl.f64.exp (fl.f64.sub s.localMax globalMax))
  let globalSum := fl.f32.sum ((stats.zip adjusts).map fun (s, a) =>
    fl.f32.mul (fl.narrow s.partialSum) a)
  let total := (stats.map fun s => s.expValues.length).sum
  { expVals := stats.zipIdx.flatMap fun (s, _) => s.expValues.map fl.narrow
    adjusts := adjusts
    sliceIds := stats.zipIdx.flatMap fun (s, i) => s.expValues.map fun _ => toI32 i
    invGlobalSum := fl.f32.div (fl.f32.ofInt 1) globalSum
    n := toI32 total }

/-- One thread of the kernel: its writes, or a fault. -/
def aggregateNormalize (fl : FloatOps S) (args : NormalizeArgs S) (k : Int) :
    Option (List (Int × S)) :=
  if k < args.n then do
    let expVal ← readAt args.expVals k
    let adjust ← readAt args.adjusts (← readAt args.sliceIds k)
    return [(k, fl.mul (fl.mul expVal adjust) args.invGlobalSum)]
  else some []

/-- The writes of a launch. A launch with an empty grid is an error. -/
def launch (fl : FloatOps S) (grid : Grid) (args : NormalizeArgs S) : Option (List (Int × S)) :=
  if grid.size = 0 then none
  else runEach grid.order fun thread => aggregateNormalize fl args (grid.index thread)

def aggregate (fl : Floats D S) (grid : Grid) (stats : List (SliceStats D)) : Option (List S) :=
  if stats.isEmpty then some []
  else do
    let total := (stats.map fun s => s.expValues.length).sum
    store (zeros fl.f32 total) (← launch fl.f32 grid (prepare fl stats))

/-- All values with their slice and its index, in the order of the host loop. -/
def entries (stats : List (SliceStats D)) : List (D × SliceStats D × Nat) :=
  stats.zipIdx.flatMap fun (s, i) => s.expValues.map fun v => (v, s, i)

theorem mem_entries {stats : List (SliceStats D)} {v : D} {s : SliceStats D} {i : Nat}
    (member : (v, s, i) ∈ entries stats) : stats[i]? = some s ∧ v ∈ s.expValues := by
  obtain ⟨⟨s', i'⟩, indexed, inner⟩ := List.mem_flatMap.mp member
  obtain ⟨v', value, same⟩ := List.mem_map.mp inner
  cases same
  exact ⟨List.mem_zipIdx_iff_getElem?.mp indexed, value⟩

/-- The positions of the slices that have values fit an `i32`. -/
def SliceIdsFit (stats : List (SliceStats D)) : Prop :=
  ∀ i s, stats[i]? = some s → s.expValues ≠ [] → i < 2 ^ 31

theorem length_entries (stats : List (SliceStats D)) :
    (entries stats).length = (stats.map fun s => s.expValues.length).sum := by
  rw [entries, List.length_flatMap]
  conv => rhs; rw [← List.zipIdx_map_fst 0 stats, List.map_map]
  simp only [List.length_map, Function.comp_def]

/-- What is computed value by value, without the index. -/
theorem map_entries {α : Type} (f : D → SliceStats D → α) (stats : List (SliceStats D)) :
    (entries stats).map (fun entry => f entry.1 entry.2.1) =
      stats.flatMap fun s => s.expValues.map fun v => f v s := by
  conv => rhs; rw [← List.zipIdx_map_fst 0 stats, List.flatMap_map]
  simp only [entries, List.map_flatMap, List.map_map, Function.comp_def]

section launch
variable (fl : Floats D S) (stats : List (SliceStats D))

theorem expVals_eq :
    (prepare fl stats).expVals = (entries stats).map fun entry => fl.narrow entry.1 := by
  simp only [prepare, entries, List.map_flatMap, List.map_map, Function.comp_def]

theorem sliceIds_eq :
    (prepare fl stats).sliceIds = (entries stats).map fun entry => toI32 entry.2.2 := by
  simp only [prepare, entries, List.map_flatMap, List.map_map, Function.comp_def]

theorem adjusts_eq : (prepare fl stats).adjusts =
    stats.map fun s => fl.narrow (adjustOf fl.f64 stats s) := rfl

/-- The output that belongs to an entry. -/
def normalized (entry : D × SliceStats D × Nat) : S :=
  fl.f32.mul (fl.f32.mul (fl.narrow entry.1) (fl.narrow (adjustOf fl.f64 stats entry.2.1)))
    (prepare fl stats).invGlobalSum

/-- Output `k`, and zero behind the outputs. -/
def output (k : Nat) : S :=
  ((entries stats)[k]?.map (normalized fl stats)).getD (fl.f32.ofInt 0)

variable {stats}

theorem n_eq (short : (entries stats).length < 2 ^ 31) :
    (prepare fl stats).n = ((entries stats).length : Int) := by
  rw [length_entries] at short ⊢
  exact toI32_of_lt short

/-- A thread in range finds its value, the slice of the value and the factor of the slice. -/
theorem aggregateNormalize_eq (short : (entries stats).length < 2 ^ 31)
    (few : SliceIdsFit stats) (k : Nat) :
    aggregateNormalize fl.f32 (prepare fl stats) k =
      some (if k < (entries stats).length then [((k : Int), output fl stats k)] else []) := by
  rw [aggregateNormalize, n_eq fl short]
  by_cases inside : k < (entries stats).length
  · obtain ⟨⟨v, s, i⟩, at_k⟩ : ∃ entry, (entries stats)[k]? = some entry :=
      ⟨_, List.getElem?_eq_getElem inside⟩
    obtain ⟨at_i, value⟩ := mem_entries (List.mem_of_getElem? at_k)
    have index : toI32 i = (i : Int) :=
      toI32_of_lt (few i s at_i (List.ne_nil_of_mem value))
    have adjust : (prepare fl stats).adjusts[i]? = some (fl.narrow (adjustOf fl.f64 stats s)) := by
      rw [adjusts_eq, List.getElem?_map, at_i]
      rfl
    simp only [Nat.cast_lt, inside, if_true, expVals_eq, sliceIds_eq, readAt_natCast,
      List.getElem?_map, at_k, Option.map_some, Option.bind_eq_bind, Option.bind_some, index,
      adjust, output, Option.getD_some, normalized, pure]
  · simp only [Nat.cast_lt, inside, if_false]

/-- Every output is written once, whatever the order of the threads. -/
theorem launch_eq {grid : Grid} (some_values : 0 < (entries stats).length)
    (short : (entries stats).length < 2 ^ 31) (few : SliceIdsFit stats)
    (covers : (entries stats).length ≤ grid.size) (fits : grid.size ≤ 2 ^ 31) :
    ∃ log, launch fl.f32 grid (prepare fl stats) = some log ∧
      log.Perm ((List.range (entries stats).length).map fun k : Nat => ((k : Int), output fl stats k)) := by
  have each : ∀ thread ∈ grid.order, aggregateNormalize fl.f32 (prepare fl stats) (grid.index thread) =
      some (if thread.1 * grid.blockDim + thread.2 < (entries stats).length then
        [(((thread.1 * grid.blockDim + thread.2 : Nat) : Int),
          output fl stats (thread.1 * grid.blockDim + thread.2))] else []) := by
    intro thread member
    rw [Grid.index_eq fits member]
    exact aggregateNormalize_eq fl short few _
  have started : grid.size ≠ 0 := by omega
  refine ⟨_, (if_neg started).trans (runEach_eq each), ?_⟩
  have log := grid.numbers.flatMap_right fun k =>
    if k < (entries stats).length then [((k : Int), output fl stats k)] else []
  rw [List.flatMap_map, flatMap_below _ covers] at log
  exact log

theorem aggregate_eq {grid : Grid} (some_values : 0 < (entries stats).length)
    (short : (entries stats).length < 2 ^ 31) (few : SliceIdsFit stats)
    (covers : (entries stats).length ≤ grid.size) (fits : grid.size ≤ 2 ^ 31) :
    aggregate fl grid stats = some ((entries stats).map (normalized fl stats)) := by
  obtain ⟨log, launched, writes⟩ := launch_eq fl some_values short few covers fits
  have nonempty : stats ≠ [] := by
    rintro rfl
    exact absurd some_values (Nat.lt_irrefl 0)
  have length : (zeros fl.f32 (entries stats).length).length = (entries stats).length :=
    List.length_replicate
  have stored : store (zeros fl.f32 (entries stats).length) log =
      some ((List.range (entries stats).length).map (output fl stats)) := by
    rw [store_of_perm (output fl stats), length]
    rwa [length]
  rw [aggregate, if_neg (by simpa using nonempty), launched, ← length_entries]
  simp only [Option.bind_eq_bind, Option.bind_some, stored]
  exact congrArg some (map_range_getD _ _ _)

/-- A thread whose number does not fit an `int` reads in front of the values. -/
theorem launch_faults_of_wrapped {grid : Grid} {thread : Nat × Nat} (member : thread ∈ grid.order)
    (wraps : grid.index thread < 0) (short : (entries stats).length < 2 ^ 31) :
    launch fl.f32 grid (prepare fl stats) = none := by
  rw [launch]
  split
  · rfl
  · apply runEach_eq_none member
    rw [aggregateNormalize, n_eq fl short, if_pos (by omega), readAt, if_neg (by omega)]
    rfl

/-- A value whose slice has a position that does not fit an `i32` has no factor. -/
theorem launch_faults_of_position {grid : Grid} {thread : Nat × Nat} (member : thread ∈ grid.order)
    {k i : Nat} (number : grid.index thread = k) {v : D} {s : SliceStats D}
    (entry : (entries stats)[k]? = some (v, s, i)) (wraps : toI32 i < 0)
    (short : (entries stats).length < 2 ^ 31) : launch fl.f32 grid (prepare fl stats) = none := by
  have inside : k < (entries stats).length := (List.getElem?_eq_some_iff.mp entry).1
  have nothing : readAt (prepare fl stats).adjusts (toI32 i) = none := if_neg (by omega)
  rw [launch]
  split
  · rfl
  · apply runEach_eq_none member
    simp only [aggregateNormalize, number, n_eq fl short, Nat.cast_lt, inside, if_true, expVals_eq,
      sliceIds_eq, readAt_natCast, List.getElem?_map, entry, Option.map_some, Option.bind_eq_bind,
      Option.bind_some, nothing, Option.bind_none]

end launch

end GpuAggregator
end DistributedSoftmax.Gateway
