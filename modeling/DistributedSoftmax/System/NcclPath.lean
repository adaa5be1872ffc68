import DistributedSoftmax.Worker.GpuPasses
import DistributedSoftmax.Gateway.Slicing
import DistributedSoftmax.System.TwoPass

/-! The softmax of the ranks: each rank normalizes its own slice after two
collectives, and the gateway concatenates. In exact arithmetic this is softmax
of the whole vector as well, although the shift that the ranks use is the
padding value when that exceeds the vector. -/

set_option autoImplicit false

namespace DistributedSoftmax.System
open Foundations.Folds Foundations.Barrier Foundations.Softmax
open Worker Gateway

/-- `all_reduce_softmax` on all ranks, for one job. -/
def ranksSoftmax {F : Type} (fl : FloatOps F) (launches : Nat → Launches F) (slices : List (List F)) :
    Option (List (List F)) := do
  let atMax ← slices.zipIdx.mapM fun (slice, rank) => allReduceSoftmax fl (launches rank) slice
  let atSum ← allReduce fl.foldMax atMax
  allReduce fl.sum atSum

/-- One job over the ranks: the gateway cuts the vector, every rank computes its
slice in single precision, and the gateway aggregates what it reads back. -/
def ncclPath {D S : Type} (fl : Floats D S) (launches : Nat → Launches S) (worldSize : Nat)
    (vector : List D) : Option (List D) := do
  let slices ← evenChunks vector worldSize
  let probs ← ranksSoftmax fl.f32 launches (slices.map fun slice => slice.map fl.narrow)
  (aggregateStats (fun stats => .ok (aggregateSoftmaxCpu fl.f64 stats))
    (probs.map (ofNormalized (fl.f64.ofInt 0) (fl.f64.ofInt 1) fl.widen))).toOption

section ranks
variable {F : Type}

theorem allReduce_eq {X R : Type} (combine : List F → F) (value : X → F) (result : F → X → R)
    (xs : List X) :
    allReduce combine (xs.map fun x => ⟨value x, fun total => some (result total x)⟩) =
      some (xs.map (result (combine (xs.map value)))) := by
  rw [allReduce, List.mapM_map, List.map_map]
  exact mapM_eq_pure fun x _ => rfl

variable (fl : FloatOps F)
variable [Std.Commutative fl.max] [Std.Associative fl.max] [Std.LawfulIdentity fl.max fl.negInf]
variable [Std.Commutative fl.add] [Std.Associative fl.add] [Std.LawfulIdentity fl.add (fl.ofInt 0)]

/-- The maximum a rank contributes. -/
def rankMax (slice : List F) : F :=
  fl.foldMax (slice ++ List.replicate (numBlocks slice.length * blockSize - slice.length)
    (fl.ofInt paddingValue))

/-- The exponentials of a rank, for the shift all ranks agree on. -/
def rankExps (shift : F) (slice : List F) : List F := slice.map fun x => fl.exp (fl.sub x shift)

/-- A rank between the collectives, without its launches. -/
def rankRun (slice : List F) : Contribution F (Contribution F (List F)) :=
  ⟨rankMax fl slice, fun shift => some ⟨fl.sum (rankExps fl shift slice), fun total =>
    some ((rankExps fl shift slice).map fun x => fl.div x total)⟩⟩

/-- In whatever order its launches run, a rank contributes the same values. -/
theorem allReduceSoftmax_eq (launches : Launches F) {slice : List F} (nonempty : slice ≠ [])
    (short : slice.length < 2 ^ 31) :
    allReduceSoftmax fl launches slice = some (rankRun fl slice) := by
  rw [allReduceSoftmax, maxPass_eq fl launches.max nonempty short]
  simp only [Option.bind_eq_bind, Option.bind_some, pure]
  congr 2
  funext shift
  rw [expPass_eq fl launches.exp nonempty short]
  simp only [Option.bind_some]
  congr 2
  funext total
  exact normalizePass_eq fl launches.norm (by simpa using nonempty) (by simpa using short) total

/-- The ranks' results, by the shift and the sum they agree on. -/
theorem ranksSoftmax_eq (launches : Nat → Launches F) {slices : List (List F)}
    (slicesNonempty : ∀ slice ∈ slices, slice ≠ [])
    (short : ∀ slice ∈ slices, slice.length < 2 ^ 31) :
    let shift := fl.foldMax (slices.map (rankMax fl))
    let total := fl.sum (slices.map fun slice => fl.sum (rankExps fl shift slice))
    ranksSoftmax fl launches slices = some (slices.map fun slice =>
      (rankExps fl shift slice).map fun x => fl.div x total) := by
  intro shift total
  have started : slices.zipIdx.mapM (fun (slice, rank) => allReduceSoftmax fl (launches rank) slice) =
      some (slices.zipIdx.map fun p => rankRun fl p.1) := by
    refine mapM_eq_pure fun p member => ?_
    have inside : p.1 ∈ slices := List.fst_mem_of_mem_zipIdx member
    exact allReduceSoftmax_eq fl (launches p.2) (slicesNonempty _ inside) (short _ inside)
  have forget : slices.zipIdx.map (fun p => rankRun fl p.1) = slices.map (rankRun fl) := by
    conv => rhs; rw [← List.zipIdx_map_fst 0 slices, List.map_map]
    rfl
  rw [ranksSoftmax, started, forget, funext fun slice => rankRun.eq_def fl slice]
  simp only [Option.bind_eq_bind, Option.bind_some, allReduce_eq]
  rfl

end ranks

/-- The gateway takes normalized slices as they are. -/
theorem aggregateStats_ofNormalized {D S : Type}
    (aggregateSoftmax : List (SliceStats D) → Except String (List D)) (zero one : D) (widen : S → D)
    {probs : List (List S)} (nonempty : probs ≠ []) :
    aggregateStats aggregateSoftmax (probs.map (ofNormalized zero one widen)) =
      .ok (probs.flatten.map widen) := by
  obtain ⟨first, rest, rfl⟩ := List.exists_cons_of_ne_nil nonempty
  have normalized : ((((first :: rest).map (ofNormalized zero one widen)).head?).map
      SliceStats.isNormalized).getD false = true := rfl
  rw [aggregateStats, if_pos normalized, List.flatMap_map, List.map_flatten, List.flatMap_def]
  rfl

section exact
variable (exp : ℝ → ℝ)

instance : Std.Commutative (exactOps exp).max := ⟨max_comm⟩
instance : Std.Associative (exactOps exp).max := ⟨max_assoc⟩
instance : Std.LawfulIdentity (exactOps exp).max (exactOps exp).negInf where
  left_id := max_bot_left
  right_id := max_bot_right

instance : Std.Commutative (exactOps exp).add := ⟨add_comm⟩
instance : Std.Associative (exactOps exp).add := ⟨add_assoc⟩
instance : Std.LawfulIdentity (exactOps exp).add ((exactOps exp).ofInt 0) where
  left_id x := by simp [exactOps]
  right_id x := by simp [exactOps]

/-- The maximum that a rank contributes, over the reals: padded lanes count. -/
noncomputable def paddedMax (slice : List ℝ) : ℝ :=
  listMax (slice ++ List.replicate (numBlocks slice.length * blockSize - slice.length)
    (paddingValue : ℝ))

theorem rankMax_reals {slice : List ℝ} (nonempty : slice ≠ []) :
    rankMax (exactOps exp) (reals slice) = (paddedMax slice : EReal) := by
  have padding : List.replicate (numBlocks slice.length * blockSize - slice.length)
      ((exactOps exp).ofInt paddingValue) = reals (List.replicate
        (numBlocks slice.length * blockSize - slice.length) (paddingValue : ℝ)) := by
    rw [reals, List.map_replicate]
    rfl
  rw [rankMax, length_reals, padding, ← reals_append, foldMax_reals exp (by simp [nonempty]),
    paddedMax]

end exact

theorem rankExps_reals (shift : ℝ) (slice : List ℝ) :
    rankExps (exactOps Real.exp) (shift : EReal) (reals slice) = reals (shifted shift slice) := by
  simp only [rankExps, reals, shifted, List.map_map]
  apply List.map_congr_left
  intro x _
  simp only [Function.comp, exactOps, ← EReal.coe_sub, extend_coe]

/-- The ranks' softmax is softmax, whatever shift comes out of the padded maximum. -/
theorem ranksSoftmax_reals (launches : Nat → Launches EReal) {slices : List (List ℝ)}
    (nonempty : slices ≠ []) (slicesNonempty : ∀ slice ∈ slices, slice ≠ [])
    (short : ∀ slice ∈ slices, slice.length < 2 ^ 31) :
    ∃ probs, ranksSoftmax (exactOps Real.exp) launches (slices.map reals) = some probs ∧
      probs ≠ [] ∧ probs.flatten = reals (softmax slices.flatten) := by
  let shift : ℝ := listMax (slices.map paddedMax)
  let total : ℝ := (slices.map fun slice => (shifted shift slice).sum).sum
  have maxima : (exactOps Real.exp).foldMax ((slices.map reals).map (rankMax (exactOps Real.exp))) =
      (shift : EReal) := by
    rw [← foldMax_reals Real.exp (by simpa using nonempty), reals, List.map_map, List.map_map]
    congr 1
    exact List.map_congr_left fun slice member => rankMax_reals Real.exp (slicesNonempty slice member)
  have sums : (exactOps Real.exp).sum ((slices.map reals).map fun slice =>
      (exactOps Real.exp).sum (rankExps (exactOps Real.exp) (shift : EReal) slice)) =
      (total : EReal) := by
    rw [← sum_reals Real.exp, reals, List.map_map, List.map_map]
    congr 1
    apply List.map_congr_left
    intro slice _
    simp only [Function.comp, rankExps_reals, sum_reals]
  refine ⟨_, ranksSoftmax_eq (exactOps Real.exp) launches ?_ ?_, by simpa using nonempty, ?_⟩
  · intro slice member
    obtain ⟨real, inside, rfl⟩ := List.mem_map.mp member
    exact fun empty => slicesNonempty real inside (reals_eq_nil.mp empty)
  · intro slice member
    obtain ⟨real, inside, rfl⟩ := List.mem_map.mp member
    rw [length_reals]
    exact short real inside
  · have whole : total = (shifted shift slices.flatten).sum := by
      simp only [total, shifted, List.map_flatten, List.sum_flatten, List.map_map, Function.comp_def]
    rw [maxima, sums, ← softmax_shift shift, ← whole]
    simp only [rankExps_reals, List.map_map, Function.comp_def]
    simp only [reals, shifted, List.map_map, List.map_flatten, Function.comp_def]
    congr 1

theorem map_narrow_reals (slice : List ℝ) :
    (reals slice).map (exactFloats Real.exp id).narrow = reals slice := by
  simp only [reals, List.map_map]
  apply List.map_congr_left
  intro x _
  rfl

theorem evenChunk_reals (xs : List ℝ) (worldSize i : Nat) :
    evenChunk (reals xs) worldSize i = reals (evenChunk xs worldSize i) := by
  simp only [evenChunk, reals, List.length_map, List.map_take, List.map_drop]

theorem evenTake_le {length worldSize bound : Nat}
    (bounded : length ≤ worldSize * bound) (i : Nat) : evenTake length worldSize i ≤ bound := by
  have whole := Nat.div_add_mod length worldSize
  have quotient : length / worldSize ≤ bound := Nat.div_le_of_le_mul bounded
  rw [evenTake]
  split
  · rename_i longer
    -- A full quotient leaves no remainder.
    rcases Nat.lt_or_eq_of_le quotient with below | full
    · omega
    · rw [full] at whole
      omega
  · omega

theorem ncclPath_reals (launches : Nat → Launches EReal) {xs : List ℝ} {worldSize : Nat}
    (positive : 0 < worldSize) (long : worldSize ≤ xs.length)
    (bounded : xs.length ≤ worldSize * (2 ^ 31 - 1)) :
    ncclPath (exactFloats Real.exp id) launches worldSize (reals xs) =
      some (reals (softmax xs)) := by
  let slices := (List.range worldSize).map (evenChunk xs worldSize)
  have cut : evenChunks (reals xs) worldSize = some (slices.map reals) := by
    rw [evenChunks_eq _ positive, List.map_map]
    exact congrArg some (List.map_congr_left fun i _ => evenChunk_reals xs worldSize i)
  have slicesNonempty : ∀ slice ∈ slices, slice ≠ [] := by
    intro slice member
    obtain ⟨i, index, rfl⟩ := List.mem_map.mp member
    exact evenChunk_nonempty (List.mem_range.mp index) long
  have short : ∀ slice ∈ slices, slice.length < 2 ^ 31 := by
    intro slice member
    obtain ⟨i, index, rfl⟩ := List.mem_map.mp member
    rw [length_evenChunk xs (List.mem_range.mp index)]
    exact Nat.lt_of_le_of_lt (evenTake_le bounded i) (by decide)
  have nonempty : slices ≠ [] := by simp [slices, Nat.ne_of_gt positive]
  have narrowed : (slices.map reals).map (fun slice => slice.map (exactFloats Real.exp id).narrow) =
      slices.map reals := by
    rw [List.map_map]
    exact List.map_congr_left fun slice _ => map_narrow_reals slice
  obtain ⟨probs, computed, some, whole⟩ := ranksSoftmax_reals launches nonempty slicesNonempty short
  rw [evenChunks_flatten xs positive] at whole
  rw [ncclPath, cut, Option.bind_eq_bind, Option.bind_some, narrowed,
    show (exactFloats Real.exp id).f32 = exactOps Real.exp from rfl, computed, Option.bind_some,
    aggregateStats_ofNormalized _ _ _ _ some, whole]
  exact congrArg Option.some (List.map_id _)

/-- The NCCL path computes softmax as the two-pass path does: in whatever order
the blocks and threads of the ranks run, concatenating the slices that the ranks
normalized gives the normalized exponentials of the vector, and so does the
two-pass path under any slicing. Each rank gets fewer than `2 ^ 31` entries. -/
theorem ncclPath_softmax (launches : Nat → Launches EReal) {xs : List ℝ} {worldSize : Nat}
    (positive : 0 < worldSize) (long : worldSize ≤ xs.length)
    (bounded : xs.length ≤ worldSize * (2 ^ 31 - 1)) :
    ∃ result : List ℝ,
      ncclPath (exactFloats Real.exp id) launches worldSize (reals xs) = some (reals result) ∧
      result.length = xs.length ∧
      (∀ k (index : k < xs.length),
        result[k]? = some (Real.exp xs[k] / (xs.map Real.exp).sum)) ∧
      ∀ slices : List (List ℝ), slices.flatten = xs → (∀ s ∈ slices, s ≠ []) →
        twoPass slices = reals result := by
  refine ⟨softmax xs, ncclPath_reals launches positive long bounded, length_softmax xs, ?_, ?_⟩
  · intro k index
    have inside : k < (softmax xs).length := by simpa using index
    rw [List.getElem?_eq_getElem inside, getElem_softmax inside index, expSum]
  · intro slices cut slicesNonempty
    rw [twoPass_eq_softmax slicesNonempty, cut]

theorem ncclPath_softmax_two_ranks :
    ∃ result : List ℝ,
      ncclPath (exactFloats Real.exp id) (fun _ => .inOrder 7) 2 (reals [0, 1, -2]) =
        some (reals result) ∧
      result.length = 3 ∧
      (∀ k (index : k < [(0 : ℝ), 1, -2].length),
        result[k]? = some (Real.exp [(0 : ℝ), 1, -2][k] / ([(0 : ℝ), 1, -2].map Real.exp).sum)) ∧
      ∀ slices : List (List ℝ), slices.flatten = [0, 1, -2] → (∀ s ∈ slices, s ≠ []) →
        twoPass slices = reals result :=
  ncclPath_softmax (fun _ => .inOrder 7) (by decide) (by decide) (by decide)

/-- A single rank whose length wraps to the smallest `int` computes zeros. -/
theorem ncclPath_wraps (launches : Nat → Launches EReal) {xs : List ℝ}
    (wraps : toI32 xs.length = -2147483648) (blocks : numBlocks xs.length ≠ 0) :
    ncclPath (exactFloats Real.exp id) launches 1 (reals xs) =
      some (reals (List.replicate xs.length 0)) := by
  have cut : evenChunks (reals xs) 1 = some [reals xs] := by
    rw [evenChunks_eq _ Nat.one_pos]
    simp [evenChunk, evenStart, evenTake, Nat.mod_one]
  have idle : ∀ b tid, ¬ globalIndex b tid < toI32 (reals xs).length := by
    intro b tid
    rw [length_reals, wraps, globalIndex, toI32, BitVec.toInt_eq_toNat_cond]
    have bound := (BitVec.ofNat 32 (b * blockSize + tid)).isLt
    omega
  rw [← length_reals] at blocks
  let fl := exactOps Real.exp
  obtain ⟨localMax, maximum⟩ := maxPass_idle fl (launches 0).max idle blocks
  obtain ⟨localSum, exponentials⟩ := expPass_idle fl (launches 0).exp idle blocks (fl.foldMax [localMax])
  have length : (zeros fl (reals xs).length).length = (reals xs).length := List.length_replicate
  have normalized : normalizePass fl (launches 0).norm (zeros fl (reals xs).length)
      (fl.sum [localSum]) = some (zeros fl (zeros fl (reals xs).length).length) :=
    normalizePass_idle fl (launches 0).norm (by rwa [length]) (by rwa [length]) _
  rw [length] at normalized
  have ranks : ranksSoftmax fl launches [reals xs] = some [zeros fl (reals xs).length] := by
    simp only [ranksSoftmax, allReduceSoftmax, allReduce, List.zipIdx_singleton, List.mapM_cons,
      List.mapM_nil, List.map_cons, List.map_nil, maximum, exponentials, normalized,
      Option.bind_eq_bind, Option.bind_some, pure]
  have zero : zeros fl (reals xs).length = reals (List.replicate xs.length 0) := by
    rw [zeros, length_reals, reals, List.map_replicate]
    congr 1
    simp [fl, exactOps]
  have whole : [zeros fl (reals xs).length].flatten.map (exactFloats Real.exp id).widen =
      reals (List.replicate xs.length 0) := by
    rw [zero, List.flatten_singleton]
    exact List.map_id _
  rw [ncclPath, cut, Option.bind_eq_bind, Option.bind_some, List.map_singleton, map_narrow_reals,
    show (exactFloats Real.exp id).f32 = fl from rfl, ranks, Option.bind_some,
    aggregateStats_ofNormalized _ _ _ _ (List.cons_ne_nil _ _), whole]
  rfl

/-- With one rank and `2 ^ 31` entries the length does not fit the `int` that
the kernels take: no thread is in range, and the result is zero everywhere. -/
theorem ncclPath_length_overflow :
    ¬ ∃ result : List ℝ,
      ncclPath (exactFloats Real.exp id) (fun _ => .inOrder 0) 1
        (reals (List.replicate (2 ^ 31) 0)) = some (reals result) ∧
      ∀ k (index : k < (List.replicate (2 ^ 31) (0 : ℝ)).length), result[k]? =
        some (Real.exp (List.replicate (2 ^ 31) (0 : ℝ))[k] /
          ((List.replicate (2 ^ 31) (0 : ℝ)).map Real.exp).sum) := by
  have zeroes : ∀ xs : List ℝ, xs.length = 2 ^ 31 → ¬ ∃ result : List ℝ,
      ncclPath (exactFloats Real.exp id) (fun _ => .inOrder 0) 1 (reals xs) = some (reals result) ∧
      ∀ k (index : k < xs.length),
        result[k]? = some (Real.exp xs[k] / (xs.map Real.exp).sum) := by
    rintro xs length ⟨result, computed, values⟩
    rw [ncclPath_wraps _ (by rw [length]; decide) (by rw [length]; decide)] at computed
    have same := reals_injective (Option.some.inj computed)
    have inside : 0 < xs.length := by omega
    have first := values 0 inside
    rw [← same, List.getElem?_replicate, if_pos inside] at first
    have total : 0 < (xs.map Real.exp).sum := by
      refine List.sum_pos _ ?_ ?_
      · intro e member
        obtain ⟨x, -, rfl⟩ := List.mem_map.mp member
        exact Real.exp_pos x
      · exact List.ne_nil_of_length_pos (by rwa [List.length_map])
    exact (div_pos (Real.exp_pos _) total).ne (Option.some.inj first)
  exact zeroes _ List.length_replicate

end DistributedSoftmax.System
