import Mathlib.Data.List.Perm.Basic
import Mathlib.Logic.Function.Basic
import Mathlib.Tactic.Ring
import DistributedSoftmax.Foundations.Folds

/-! Blocks of threads that share memory and meet at barriers. Between two
barriers the threads run in any order; the tree reduction of a block then has
one result. Writes to global memory are kept as a log, in the order in which
they were made. -/

set_option autoImplicit false

namespace Foundations.Barrier
open Foundations.Folds

/-- For every number of threads or blocks, an order in which they run. -/
structure Schedule where
  order : Nat → List Nat
  complete : ∀ n, (order n).Perm (List.range n)

def Schedule.inOrder : Schedule := ⟨List.range, fun _ => .refl _⟩

theorem Schedule.mem_order (schedule : Schedule) {n i : Nat} : i ∈ schedule.order n ↔ i < n :=
  (schedule.complete n).mem_iff.trans List.mem_range

theorem Schedule.nodup_order (schedule : Schedule) (n : Nat) : (schedule.order n).Nodup :=
  (schedule.complete n).nodup_iff.mpr List.nodup_range

/-- `for (int s = start; s > 0; s >>= 1)`. -/
def halvings (s : Nat) : List Nat :=
  if 0 < s then s :: halvings (s / 2) else []
termination_by s

theorem halvings_zero : halvings 0 = [] := by
  rw [halvings, if_neg (Nat.lt_irrefl 0)]

theorem halvings_pos {s : Nat} (positive : 0 < s) : halvings s = s :: halvings (s / 2) := by
  rw [halvings, if_pos positive]

section
variable {F W : Type}

/-- A thread writes its own cell; `lane` gives its value and its writes to
global memory, or a fault. -/
def loadThread (lane : Nat → Option (F × List W)) (state : (Nat → F) × List W) (tid : Nat) :
    Option ((Nat → F) × List W) := do
  let (value, writes) ← lane tid
  return (Function.update state.1 tid value, state.2 ++ writes)

def loadPhase (lane : Nat → Option (F × List W)) (order : List Nat) (cells : Nat → F) :
    Option ((Nat → F) × List W) :=
  order.foldlM (loadThread lane) (cells, [])

/-- One thread between two barriers of the reduction. -/
def reduceThread (op : F → F → F) (s : Nat) (cells : Nat → F) (tid : Nat) : Nat → F :=
  if tid < s then Function.update cells tid (op (cells tid) (cells (tid + s))) else cells

def reducePhase (op : F → F → F) (s : Nat) (order : List Nat) (cells : Nat → F) : Nat → F :=
  order.foldl (reduceThread op s) cells

/-- The halving steps; the step with stride `s` runs in the order of phase `s`. -/
def treeReduce (op : F → F → F) (phases : Nat → Schedule) (threads : Nat) (strides : List Nat)
    (cells : Nat → F) : Nat → F :=
  strides.foldl (fun cells s => reducePhase op s ((phases s).order threads) cells) cells

/-- One block: load, reduce, and hand over cell 0. -/
def runBlock (op : F → F → F) (lane : Nat → Option (F × List W)) (phases : Nat → Schedule)
    (threads : Nat) (cells : Nat → F) : Option (F × List W) := do
  let (cells, log) ← loadPhase lane ((phases 0).order threads) cells
  return (treeReduce op phases threads (halvings (threads / 2)) cells 0, log)

theorem loadPhase_eq {lane : Nat → Option (F × List W)} {value : Nat → F} {writes : Nat → List W}
    {order : List Nat} (each : ∀ tid ∈ order, lane tid = some (value tid, writes tid))
    (cells : Nat → F) :
    loadPhase lane order cells =
      some (fun c => if c ∈ order then value c else cells c, order.flatMap writes) := by
  have general : ∀ (log : List W), order.foldlM (loadThread lane) (cells, log) =
      some (fun c => if c ∈ order then value c else cells c, log ++ order.flatMap writes) := by
    induction order generalizing cells with
    | nil =>
      intro log
      simp
    | cons tid rest ih =>
      intro log
      have first : loadThread lane (cells, log) tid =
          some (Function.update cells tid (value tid), log ++ writes tid) := by
        rw [loadThread, each tid List.mem_cons_self]
        rfl
      have later := ih (fun t member => each t (List.mem_cons_of_mem _ member))
        (Function.update cells tid (value tid)) (log ++ writes tid)
      rw [List.foldlM_cons, first, Option.bind_eq_bind, Option.bind_some, later,
        List.flatMap_cons, List.append_assoc]
      congr 2
      funext c
      by_cases same : c = tid
      · subst same
        simp
      · simp [same]
  exact general []

/-- The threads of one step neither read nor write what another one writes. -/
theorem reducePhase_apply (op : F → F → F) (s : Nat) {order : List Nat} (distinct : order.Nodup)
    (cells : Nat → F) (c : Nat) :
    reducePhase op s order cells c =
      if c ∈ order ∧ c < s then op (cells c) (cells (c + s)) else cells c := by
  induction order generalizing cells with
  | nil => simp [reducePhase]
  | cons tid rest ih =>
    rw [List.nodup_cons] at distinct
    rw [reducePhase, List.foldl_cons, ← reducePhase, ih distinct.2, reduceThread]
    by_cases active : tid < s
    · rw [if_pos active]
      by_cases same : c = tid
      · subst same
        simp [active, distinct.1]
      · have apart : ∀ d, c + s = d → s ≤ d := fun d sum => by omega
        by_cases reads : c + s = tid
        · exact absurd active (Nat.not_lt.mpr (apart tid reads))
        · simp [Function.update_of_ne reads, same]
    · rw [if_neg active]
      by_cases same : c = tid
      · subst same
        simp [active]
      · simp [same]

section related
variable {G : Type} {op : F → F → F} {op' : G → G → G} {related : F → G → Prop}
  (respects : ∀ x y a b, related x a → related y b → related (op x y) (op' a b))
  (e : G) [Std.Commutative op'] [Std.Associative op'] [Std.LawfulIdentity op' e]
include respects

/-- The tree reduction over a power of two leaves in cell 0 what stands for the
fold of all cells, whatever the operation does beyond what it stands for. -/
theorem treeReduce_related (phases : Nat → Schedule) {threads k : Nat} (inside : 2 ^ k ≤ threads)
    {cells : Nat → F} {value : Nat → G} (each : ∀ c < 2 ^ k, related (cells c) (value c)) :
    related (treeReduce op phases threads (halvings (2 ^ k / 2)) cells 0)
      (fold op' e ((List.range (2 ^ k)).map value)) := by
  induction k generalizing cells value with
  | zero =>
    rw [Nat.pow_zero, show 1 / 2 = 0 from rfl, halvings_zero]
    exact (fold_singleton op' e (value 0)).symm ▸ each 0 (Nat.two_pow_pos 0)
  | succ k ih =>
    have positive : 0 < 2 ^ k := Nat.two_pow_pos k
    have half : 2 ^ (k + 1) / 2 = 2 ^ k := by rw [Nat.pow_succ]; omega
    have double : 2 ^ (k + 1) = 2 ^ k + 2 ^ k := by rw [Nat.pow_succ]; omega
    rw [half, halvings_pos positive, treeReduce, List.foldl_cons, ← treeReduce, double,
      ← fold_halves]
    apply ih (by omega)
    intro c index
    rw [reducePhase_apply op _ ((phases _).nodup_order threads), if_pos]
    · exact respects _ _ _ _ (each c (by omega)) (each (c + 2 ^ k) (by omega))
    · exact ⟨(phases _).mem_order.mpr (by omega), index⟩

/-- A block hands over what stands for the fold of all lanes, whatever its shared
memory held and in whatever order its threads ran. -/
theorem runBlock_related {lane : Nat → Option (F × List W)} {loaded : Nat → F} {value : Nat → G}
    {writes : Nat → List W} {threads k : Nat} (size : threads = 2 ^ k)
    (each : ∀ tid < threads, lane tid = some (loaded tid, writes tid))
    (stands : ∀ tid < threads, related (loaded tid) (value tid))
    (phases : Nat → Schedule) (cells : Nat → F) :
    ∃ result, runBlock op lane phases threads cells =
        some (result, ((phases 0).order threads).flatMap writes) ∧
      related result (fold op' e ((List.range threads).map value)) := by
  have start := loadPhase_eq (fun tid member => each tid ((phases 0).mem_order.mp member)) cells
  refine ⟨_, by rw [runBlock, start]; rfl, ?_⟩
  subst size
  apply treeReduce_related respects e phases (Nat.le_refl (2 ^ k))
  intro c index
  rw [if_pos ((phases 0).mem_order.mpr index)]
  exact stands c index

end related

/-- A grid of blocks: the value each block hands over, under the block's index,
and all writes of the blocks. -/
def runGrid (order : List Nat) (block : Nat → Option (F × List W)) :
    Option (List (Int × F) × List W) := do
  let results ← order.mapM fun b => (block b).map fun result => (b, result)
  return (results.map fun (b, value, _) => ((b : Int), value),
    results.flatMap fun (_, _, log) => log)

theorem runGrid_eq {block : Nat → Option (F × List W)} {value : Nat → F} {log : Nat → List W}
    {order : List Nat} (each : ∀ b ∈ order, block b = some (value b, log b)) :
    runGrid order block = some (order.map fun b : Nat => ((b : Int), value b), order.flatMap log) := by
  have results : order.mapM (fun b => (block b).map fun result => (b, result)) =
      some (order.map fun b => (b, value b, log b)) :=
    mapM_eq_pure fun b member => by rw [each b member]; rfl
  rw [runGrid, results, Option.bind_eq_bind, Option.bind_some]
  simp only [List.map_map, List.flatMap_map]
  rfl

/-- Every thread of a grid without shared memory, with its writes. -/
def runThreads (blocks : List Nat) (threads : Nat → List Nat)
    (writes : Nat → Nat → Option (List W)) : Option (List W) := do
  let logs ← blocks.mapM fun b => do
    let log ← (threads b).mapM (writes b)
    return log.flatten
  return logs.flatten

theorem runThreads_eq {writes : Nat → Nat → Option (List W)} {log : Nat → Nat → List W}
    {blocks : List Nat} {threads : Nat → List Nat}
    (each : ∀ b ∈ blocks, ∀ tid ∈ threads b, writes b tid = some (log b tid)) :
    runThreads blocks threads writes =
      some (blocks.flatMap fun b => (threads b).flatMap (log b)) := by
  have block : ∀ b ∈ blocks, (do
      let log ← (threads b).mapM (writes b)
      return log.flatten) = some ((threads b).flatMap (log b)) := by
    intro b member
    rw [show (threads b).mapM (writes b) = some ((threads b).map (log b)) from
      mapM_eq_pure (each b member)]
    rfl
  rw [runThreads, show blocks.mapM _ = some (blocks.map fun b => (threads b).flatMap (log b)) from
    mapM_eq_pure block]
  rfl

/-- Threads without shared memory, one after the other, with their writes. -/
def runEach {T : Type} (order : List T) (writes : T → Option (List W)) : Option (List W) := do
  let logs ← order.mapM writes
  return logs.flatten

theorem runEach_eq {T : Type} {order : List T} {writes : T → Option (List W)} {log : T → List W}
    (each : ∀ thread ∈ order, writes thread = some (log thread)) :
    runEach order writes = some (order.flatMap log) := by
  rw [runEach, show order.mapM writes = some (order.map log) from mapM_eq_pure each]
  rfl

/-- One thread that faults is enough. -/
theorem runEach_eq_none {T : Type} {order : List T} {writes : T → Option (List W)} {thread : T}
    (member : thread ∈ order) (faults : writes thread = none) : runEach order writes = none := by
  have stops : order.mapM writes = none := by
    induction order with
    | nil => cases member
    | cons first rest ih =>
      rw [List.mapM_cons]
      rcases List.mem_cons.mp member with rfl | later
      · rw [faults]
        rfl
      · cases writes first with
        | none => rfl
        | some log =>
          rw [Option.bind_eq_bind, Option.bind_some, ih later]
          rfl
  rw [runEach, stops]
  rfl

end

section
variable {F : Type}

/-- A write to a buffer of global memory; outside the buffer it faults. -/
def storeOne (buffer : List F) (write : Int × F) : Option (List F) :=
  if 0 ≤ write.1 ∧ write.1.toNat < buffer.length then some (buffer.set write.1.toNat write.2)
  else none

def store (buffer : List F) (log : List (Int × F)) : Option (List F) := log.foldlM storeOne buffer

theorem store_nil (buffer : List F) : store buffer [] = some buffer := rfl

/-- Writes that agree on their values: what was written is there, the rest is unchanged. -/
theorem store_consistent (value : Nat → F) (log : List (Int × F)) (buffer : List F)
    (agree : ∀ w ∈ log, ∃ i : Nat, i < buffer.length ∧ w = ((i : Int), value i)) :
    ∃ final, store buffer log = some final ∧ final.length = buffer.length ∧
      ∀ i < buffer.length, final[i]? =
        if (i : Int) ∈ log.map Prod.fst then some (value i) else buffer[i]? := by
  induction log generalizing buffer with
  | nil => exact ⟨buffer, rfl, rfl, fun i _ => by simp⟩
  | cons w rest ih =>
    obtain ⟨j, inside, rfl⟩ := agree w List.mem_cons_self
    obtain ⟨final, stored, length, content⟩ := ih (buffer.set j (value j)) fun v member => by
      rw [List.length_set]
      exact agree v (List.mem_cons_of_mem _ member)
    rw [List.length_set] at length content
    refine ⟨final, ?_, length, ?_⟩
    · have first : storeOne buffer ((j : Int), value j) = some (buffer.set j (value j)) := by
        simp only [storeOne, Int.natCast_nonneg, Int.toNat_natCast, inside, and_self, if_true]
      rw [store, List.foldlM_cons, first]
      exact stored
    · intro i index
      rw [content i index]
      by_cases later : (i : Int) ∈ rest.map Prod.fst
      · simp [later]
      · by_cases same : i = j
        · subst same
          simp [later, inside]
        · have other : ¬ (i : Int) = (j : Int) := fun equal => same (Int.ofNat.inj equal)
          simp [later, other, List.getElem?_set_ne (Ne.symm same)]

/-- A log with one write to each place of the buffer. -/
theorem store_of_perm (value : Nat → F) {log : List (Int × F)} {buffer : List F}
    (complete : log.Perm ((List.range buffer.length).map fun i : Nat => ((i : Int), value i))) :
    store buffer log = some ((List.range buffer.length).map value) := by
  obtain ⟨final, stored, length, content⟩ := store_consistent value log buffer (by
    intro w member
    obtain ⟨i, index, rfl⟩ := List.mem_map.mp (complete.mem_iff.mp member)
    exact ⟨i, List.mem_range.mp index, rfl⟩)
  rw [stored]
  congr 1
  apply List.ext_getElem? fun i => ?_
  rcases Nat.lt_or_ge i buffer.length with index | outside
  · have written : (i : Int) ∈ log.map Prod.fst := by
      refine List.mem_map.mpr ⟨((i : Int), value i), complete.mem_iff.mpr ?_, rfl⟩
      exact List.mem_map.mpr ⟨i, List.mem_range.mpr index, rfl⟩
    rw [content i index, if_pos written]
    simp [index]
  · rw [List.getElem?_eq_none (by omega), List.getElem?_eq_none (by simpa using outside)]

end
end Foundations.Barrier
