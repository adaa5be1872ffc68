import DistributedSoftmax.Worker.GpuWorker

/-! What the launches of a rank compute, in every order of blocks and threads:
the folds over the padded data, and one write to each place of the outputs. -/

set_option autoImplicit false

namespace DistributedSoftmax.Worker
open Foundations.Folds Foundations.Barrier

variable {F : Type}

/-- One write to each place below `n`. -/
theorem store_zeros {value : Nat → F} {log : List (Int × F)} {n : Nat} (fl : FloatOps F)
    (writes : log.Perm ((List.range n).map fun i : Nat => ((i : Int), value i))) :
    store (zeros fl n) log = some ((List.range n).map value) := by
  have length : (zeros fl n).length = n := List.length_replicate
  rw [store_of_perm value, length]
  rwa [length]

/-- Exactly one write to each place below `n`. -/
theorem store_elements {value : Nat → F} {log : List (Int × F)} {n total : Nat}
    (fl : FloatOps F) (inside : n ≤ total)
    (writes : log.Perm ((List.range total).flatMap fun i =>
      if i < n then [((i : Int), value i)] else [])) :
    store (zeros fl n) log = some ((List.range n).map value) := by
  rw [flatMap_below _ inside] at writes
  exact store_zeros fl writes

section grid

theorem fold_blocks {G : Type} (op : G → G → G) (e : G) [Std.Associative op] [Std.LawfulIdentity op e]
    (value : Nat → G) (nb size : Nat) :
    fold op e ((List.range nb).map fun b =>
      fold op e ((List.range size).map fun tid => value (b * size + tid))) =
      fold op e ((List.range (nb * size)).map value) := by
  rw [fold_flatMap, ← range_blocks, List.map_flatMap]
  simp only [List.map_map, Function.comp_def]

section related
variable {G : Type} {op : F → F → F} {op' : G → G → G} {related : F → G → Prop}
  (respects : ∀ x y a b, related x a → related y b → related (op x y) (op' a b))
include respects

theorem foldl_related {start : F} {e : G} (starts : related start e) {n : Nat} {result : Nat → F}
    {value : Nat → G} (each : ∀ i < n, related (result i) (value i)) :
    related (((List.range n).map result).foldl op start)
      (fold op' e ((List.range n).map value)) := by
  refine List.rel_foldl (fun x a left y b right => respects x y a b left right) starts ?_
  rw [List.forall₂_map_left_iff, List.forall₂_map_right_iff, List.forall₂_same]
  exact fun i member => each i (List.mem_range.mp member)

variable (e : G) [Std.Commutative op'] [Std.Associative op'] [Std.LawfulIdentity op' e]

/-- A launch whose thread `tid` of block `b` loads `loaded i` and writes
`writes i`, for `i = b * blockSize + tid`: each block hands over what stands for
the fold of its lanes. -/
theorem reduceGrid_related {loaded : Nat → F} {value : Nat → G} (writes : Nat → List (Int × F))
    {lane : Nat → Nat → Option (F × List (Int × F))} {nb : Nat} (each : ∀ b < nb, ∀ tid < blockSize,
      lane b tid = some (loaded (b * blockSize + tid), writes (b * blockSize + tid)))
    (stands : ∀ i, related (loaded i) (value i)) (launch : Launch F) :
    ∃ (result : Nat → F) (blockLog log : List (Int × F)), runGrid (launch.blocks.order nb) (fun b =>
        runBlock op (lane b) (launch.threads b) blockSize (launch.shared b)) = some (blockLog, log) ∧
      blockLog.Perm ((List.range nb).map fun b : Nat => ((b : Int), result b)) ∧
      (∀ b < nb, related (result b)
        (fold op' e ((List.range blockSize).map fun tid => value (b * blockSize + tid)))) ∧
      log.Perm ((List.range (nb * blockSize)).flatMap writes) := by
  have block : ∀ b < nb, ∃ result,
      runBlock op (lane b) (launch.threads b) blockSize (launch.shared b) =
        some (result,
          ((launch.threads b 0).order blockSize).flatMap fun tid => writes (b * blockSize + tid)) ∧
      related result
        (fold op' e ((List.range blockSize).map fun tid => value (b * blockSize + tid))) :=
    fun b inside => runBlock_related respects e (show blockSize = 2 ^ 8 from rfl) (each b inside)
      (fun _ _ => stands _) (launch.threads b) (launch.shared b)
  have : Nonempty F := ⟨loaded 0⟩
  choose! result ran standsFor using block
  refine ⟨result, _, _, runGrid_eq fun b member => ran b (launch.blocks.mem_order.mp member),
    (launch.blocks.complete nb).map _, standsFor, ?_⟩
  rw [← flatMap_blocks]
  exact (launch.blocks.complete nb).flatMap fun b _ =>
    ((launch.threads b 0).complete blockSize).flatMap_right _

end related

theorem respects_eq (op : F → F → F) (x y a b : F) (left : x = a) (right : y = b) :
    op x y = op a b := by
  rw [left, right]

theorem reduceGrid_eq (op : F → F → F) (e : F) [Std.Associative op] [Std.LawfulIdentity op e]
    [Std.Commutative op] (value : Nat → F) (writes : Nat → List (Int × F))
    {lane : Nat → Nat → Option (F × List (Int × F))} {nb : Nat} (each : ∀ b < nb, ∀ tid < blockSize,
      lane b tid = some (value (b * blockSize + tid), writes (b * blockSize + tid)))
    (launch : Launch F) (fl : FloatOps F) :
    ∃ blockLog log, runGrid (launch.blocks.order nb) (fun b =>
        runBlock op (lane b) (launch.threads b) blockSize (launch.shared b)) = some (blockLog, log) ∧
      store (zeros fl nb) blockLog = some ((List.range nb).map fun b =>
        fold op e ((List.range blockSize).map fun tid => value (b * blockSize + tid))) ∧
      log.Perm ((List.range (nb * blockSize)).flatMap writes) := by
  obtain ⟨result, blockLog, log, ran, places, values, logged⟩ :=
    reduceGrid_related (respects_eq op) e writes each (fun _ => rfl) launch
  refine ⟨blockLog, log, ran, ?_, logged⟩
  rw [store_zeros fl places]
  congr 1
  apply List.map_congr_left
  intro b member
  exact values b (List.mem_range.mp member)

end grid

theorem map_range_getD {α β : Type} (f : α → β) (pad : β) (xs : List α) :
    (List.range xs.length).map (fun i => (xs[i]?.map f).getD pad) = xs.map f := by
  rw [range_padded f pad xs (Nat.le_refl _)]
  simp

section passes
variable (fl : FloatOps F) (launch : Launch F) {data : List F}

theorem blockMaxLane_eq (short : data.length < 2 ^ 31) {b tid : Nat}
    (block : b < numBlocks data.length) (thread : tid < blockSize) :
    blockMaxLane fl data (toI32 data.length) b tid =
      some ((data[b * blockSize + tid]?.map id).getD (fl.ofInt paddingValue), []) := by
  rw [blockMaxLane, globalIndex_eq short block thread, toI32_of_lt short, readAt_natCast]
  generalize b * blockSize + tid = i
  by_cases active : i < data.length
  · simp [active]
  · simp [active]

/-- The exponential of entry `i`, and zero behind the data. -/
def expValue (fl : FloatOps F) (data : List F) (globalMax : F) (i : Nat) : F :=
  (data[i]?.map fun x => fl.exp (fl.sub x globalMax)).getD (fl.ofInt 0)

theorem expLane_eq (short : data.length < 2 ^ 31) (globalMax : F) {b tid : Nat}
    (block : b < numBlocks data.length) (thread : tid < blockSize) :
    expLane fl data (toI32 data.length) globalMax b tid =
      some (expValue fl data globalMax (b * blockSize + tid),
        if b * blockSize + tid < data.length then [(((b * blockSize + tid : Nat) : Int),
          expValue fl data globalMax (b * blockSize + tid))] else []) := by
  rw [expLane, globalIndex_eq short block thread, toI32_of_lt short, readAt_natCast]
  generalize b * blockSize + tid = i
  by_cases active : i < data.length
  · simp [active, expValue]
  · simp [active, expValue]

section related
variable {G : Type} {op' : G → G → G} {e : G} {related : F → G → Prop} {value : F → G}
  [Std.Commutative op'] [Std.Associative op'] [Std.LawfulIdentity op' e]

theorem entry_related {pad : F} {pad' : G} (padding : related pad pad') {f : F → F}
    (stands : ∀ x ∈ data, related (f x) (value x)) (i : Nat) :
    related ((data[i]?.map f).getD pad) ((data[i]?.map value).getD pad') := by
  cases entry : data[i]? with
  | none => exact padding
  | some x => exact stands x (List.mem_of_getElem? entry)

/-- The maximum of the data and, when the last block is not full, the padding,
in an order that `max` stands for. -/
theorem maxPass_related
    (respects : ∀ x y a b, related x a → related y b → related (fl.max x y) (op' a b))
    (starts : related fl.negInf e) {pad : G} (padding : related (fl.ofInt paddingValue) pad)
    (stands : ∀ x ∈ data, related x (value x)) (nonempty : data ≠ []) (short : data.length < 2 ^ 31) :
    ∃ globalMax, maxPass fl launch data = some globalMax ∧ related globalMax (fold op' e
      (data.map value ++ List.replicate (numBlocks data.length * blockSize - data.length) pad)) := by
  have positive := numBlocks_pos short (List.length_pos_of_ne_nil nonempty)
  obtain ⟨result, blockLog, log, ran, places, values, -⟩ := reduceGrid_related respects e
    (fun _ => []) (fun b block tid thread => blockMaxLane_eq fl short block thread)
    (entry_related padding stands) launch
  refine ⟨fl.foldMax ((List.range (numBlocks data.length)).map result), ?_, ?_⟩
  · rw [maxPass, if_neg positive, blockMaxF32, ran]
    simp only [Option.bind_eq_bind, Option.bind_some, pure, store_zeros fl places]
  · rw [← range_padded value pad data (le_grid short), ← fold_blocks]
    exact foldl_related respects starts values

end related

/-- The maximum of the data and, when the last block is not full, the padding. -/
theorem maxPass_eq [Std.Commutative fl.max] [Std.Associative fl.max]
    [Std.LawfulIdentity fl.max fl.negInf] (nonempty : data ≠ []) (short : data.length < 2 ^ 31) :
    maxPass fl launch data = some (fl.foldMax (data ++
      List.replicate (numBlocks data.length * blockSize - data.length) (fl.ofInt paddingValue))) := by
  obtain ⟨globalMax, ran, rfl⟩ := maxPass_related fl launch (respects_eq fl.max) rfl rfl
    (fun x _ => Eq.refl (id x)) nonempty short
  rw [ran, List.map_id]
  rfl

section related
variable {G : Type} {op' : G → G → G} {e : G} {related : F → G → Prop} {value : F → G}
  [Std.Commutative op'] [Std.Associative op'] [Std.LawfulIdentity op' e]
  (respects : ∀ x y a b, related x a → related y b → related (fl.add x y) (op' a b))
  (zero : related (fl.ofInt 0) e) (globalMax : F)
  (stands : ∀ x ∈ data, related (fl.exp (fl.sub x globalMax)) (value x))
include respects zero stands

/-- The exponentials of the data, each one written once, and one sum for each
block: idle threads contribute zero. -/
theorem expAndBlockSumF32_related (short : data.length < 2 ^ 31) :
    ∃ (blockSum : Nat → F) (sumLog expLog : List (Int × F)),
      expAndBlockSumF32 fl data (toI32 data.length) launch (numBlocks data.length) globalMax =
        some (sumLog, expLog) ∧
      sumLog.Perm ((List.range (numBlocks data.length)).map fun b : Nat => ((b : Int), blockSum b)) ∧
      expLog.Perm ((List.range data.length).map fun i : Nat =>
        ((i : Int), expValue fl data globalMax i)) ∧
      related (fl.sum ((List.range (numBlocks data.length)).map blockSum))
        (fold op' e (data.map value)) := by
  obtain ⟨blockSum, sumLog, expLog, ran, places, values, writes⟩ := reduceGrid_related respects e
    (fun i => if i < data.length then [((i : Int), expValue fl data globalMax i)] else [])
    (fun b block tid thread => expLane_eq fl short globalMax block thread)
    (entry_related zero stands) launch
  rw [flatMap_below _ (le_grid short)] at writes
  refine ⟨blockSum, sumLog, expLog, ran, places, writes, ?_⟩
  have padded := range_padded value e data (le_grid short)
  have total := foldl_related respects zero values
  rwa [fold_blocks op' e (fun i => (data[i]?.map value).getD e), padded, fold_append, fold_replicate,
    identity_right op' e] at total

theorem expPass_related (nonempty : data ≠ []) (short : data.length < 2 ^ 31) :
    ∃ partialSum, expPass fl launch data globalMax =
        some (data.map fun x => fl.exp (fl.sub x globalMax), partialSum) ∧
      related partialSum (fold op' e (data.map value)) := by
  obtain ⟨blockSum, sumLog, expLog, ran, places, writes, total⟩ :=
    expAndBlockSumF32_related fl launch respects zero globalMax stands short
  refine ⟨fl.sum ((List.range (numBlocks data.length)).map blockSum), ?_, total⟩
  rw [expPass, if_neg (numBlocks_pos short (List.length_pos_of_ne_nil nonempty)), ran]
  simp only [Option.bind_eq_bind, Option.bind_some, pure, store_zeros fl writes,
    store_zeros fl places,
    show (List.range data.length).map (expValue fl data globalMax) = _ from map_range_getD _ _ data]

end related

/-- The values of the pass, without assumptions on the sum. -/
theorem expPass_values (nonempty : data ≠ []) (short : data.length < 2 ^ 31) (globalMax : F) :
    ∃ partialSum, expPass fl launch data globalMax =
      some (data.map fun x => fl.exp (fl.sub x globalMax), partialSum) := by
  let nothing : Unit → Unit → Unit := fun _ _ => ()
  have : Std.Commutative nothing := ⟨fun _ _ => rfl⟩
  have : Std.Associative nothing := ⟨fun _ _ _ => rfl⟩
  have : Std.LawfulIdentity nothing () := { left_id := fun _ => rfl, right_id := fun _ => rfl }
  have respects : ∀ (x y : F) (a b : Unit), True → True → True := fun _ _ _ _ _ _ => trivial
  have ran := @expPass_related F fl launch data Unit nothing () (fun _ _ => True) (fun _ => ())
    _ _ _ respects trivial globalMax (fun _ _ => trivial) nonempty short
  obtain ⟨partialSum, values, -⟩ := ran
  exact ⟨partialSum, values⟩

/-- The exponentials of the data and their sum: idle threads contribute zero. -/
theorem expPass_eq [Std.Commutative fl.add] [Std.Associative fl.add]
    [Std.LawfulIdentity fl.add (fl.ofInt 0)] (nonempty : data ≠ []) (short : data.length < 2 ^ 31)
    (globalMax : F) :
    expPass fl launch data globalMax =
      some (data.map fun x => fl.exp (fl.sub x globalMax),
        fl.sum (data.map fun x => fl.exp (fl.sub x globalMax))) := by
  obtain ⟨partialSum, ran, rfl⟩ := expPass_related fl launch (respects_eq fl.add) rfl globalMax
    (fun _ _ => rfl) nonempty short
  exact ran

/-- The quotient of entry `i`, and zero behind the data. -/
def quotient (fl : FloatOps F) (data : List F) (globalSum : F) (i : Nat) : F :=
  (data[i]?.map fun x => fl.div x globalSum).getD (fl.ofInt 0)

theorem normalizeLane_eq (short : data.length < 2 ^ 31) (globalSum : F) {b tid : Nat}
    (block : b < numBlocks data.length) (thread : tid < blockSize) :
    normalizeLane fl data (toI32 data.length) globalSum b tid =
      some (if b * blockSize + tid < data.length then [(((b * blockSize + tid : Nat) : Int),
        quotient fl data globalSum (b * blockSize + tid))] else []) := by
  rw [normalizeLane, globalIndex_eq short block thread, toI32_of_lt short, readAt_natCast]
  generalize b * blockSize + tid = i
  by_cases active : i < data.length
  · simp [active, quotient]
  · simp [active]

theorem normalizePass_eq (nonempty : data ≠ []) (short : data.length < 2 ^ 31) (globalSum : F) :
    normalizePass fl launch data globalSum = some (data.map fun x => fl.div x globalSum) := by
  have positive := numBlocks_pos short (List.length_pos_of_ne_nil nonempty)
  have ran := runThreads_eq (fun b block tid thread => normalizeLane_eq fl short globalSum
    ((launch.blocks.mem_order (n := numBlocks data.length)).mp block)
    ((launch.threads b 0).mem_order.mp thread))
  have writes := (launch.blocks.complete (numBlocks data.length)).flatMap fun b _ =>
    ((launch.threads b 0).complete blockSize).flatMap_right fun tid =>
      if b * blockSize + tid < data.length then [(((b * blockSize + tid : Nat) : Int),
        quotient fl data globalSum (b * blockSize + tid))] else []
  rw [flatMap_blocks fun i =>
    if i < data.length then [((i : Int), quotient fl data globalSum i)] else []] at writes
  rw [normalizePass, if_neg positive, normalizeF32, ran]
  simp only [Option.bind_eq_bind, Option.bind_some]
  rw [store_elements fl (le_grid short) writes]
  exact congrArg some (map_range_getD _ _ _)

/-! When the length does not fit an `int`, it can happen that no thread is in
range; every output then keeps its zeros. -/
section idle
variable (idle : ∀ b tid, ¬ globalIndex b tid < toI32 data.length)
variable (blocks : numBlocks data.length ≠ 0)
include idle blocks

theorem maxPass_idle [Std.Commutative fl.max] [Std.Associative fl.max]
    [Std.LawfulIdentity fl.max fl.negInf] : ∃ localMax, maxPass fl launch data = some localMax := by
  have lanes : ∀ b < numBlocks data.length, ∀ tid < blockSize,
      blockMaxLane fl data (toI32 data.length) b tid = some (fl.ofInt paddingValue, []) :=
    fun b _ tid _ => if_neg (idle b tid)
  obtain ⟨blockLog, log, ran, stored, -⟩ := reduceGrid_eq fl.max fl.negInf
    (fun _ => fl.ofInt paddingValue) (fun _ => []) lanes launch fl
  rw [maxPass, if_neg blocks, blockMaxF32, ran]
  simp only [Option.bind_eq_bind, Option.bind_some, pure, stored, Option.some.injEq, exists_eq']

theorem expPass_idle [Std.Commutative fl.add] [Std.Associative fl.add]
    [Std.LawfulIdentity fl.add (fl.ofInt 0)] (globalMax : F) :
    ∃ localSum, expPass fl launch data globalMax = some (zeros fl data.length, localSum) := by
  have lanes : ∀ b < numBlocks data.length, ∀ tid < blockSize,
      expLane fl data (toI32 data.length) globalMax b tid = some (fl.ofInt 0, []) :=
    fun b _ tid _ => if_neg (idle b tid)
  obtain ⟨sumLog, expLog, ran, stored, writes⟩ := reduceGrid_eq fl.add (fl.ofInt 0)
    (fun _ => fl.ofInt 0) (fun _ => []) lanes launch fl
  rw [flatMap_nothing] at writes
  obtain rfl := writes.eq_nil
  rw [expPass, if_neg blocks, expAndBlockSumF32, ran]
  simp only [Option.bind_eq_bind, Option.bind_some, pure, stored, store_nil, Option.some.injEq,
    Prod.mk.injEq, true_and, exists_eq']

theorem normalizePass_idle (globalSum : F) :
    normalizePass fl launch data globalSum = some (zeros fl data.length) := by
  have ran : normalizeF32 fl data (toI32 data.length) launch (numBlocks data.length) globalSum =
      some ((launch.blocks.order (numBlocks data.length)).flatMap fun b =>
        ((launch.threads b 0).order blockSize).flatMap fun _ => []) :=
    runThreads_eq fun b _ tid _ => if_neg (idle b tid)
  rw [normalizePass, if_neg blocks, ran]
  simp only [flatMap_nothing, Option.bind_eq_bind, Option.bind_some, store_nil]

end idle

end passes
end DistributedSoftmax.Worker
