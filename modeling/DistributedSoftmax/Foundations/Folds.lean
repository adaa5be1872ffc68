import Mathlib.Algebra.Ring.Nat
import Mathlib.Data.List.Basic

/-! Folds of a commutative and associative operation with an identity, and lists
of numbers that are cut into blocks. -/

set_option autoImplicit false

namespace Foundations.Folds

theorem mapM_eq_pure {m : Type → Type} [Monad m] [LawfulMonad m] {α β : Type} {f : α → m β}
    {g : α → β} {xs : List α} (each : ∀ x ∈ xs, f x = pure (g x)) :
    xs.mapM f = pure (xs.map g) := by
  induction xs with
  | nil => rfl
  | cons x rest ih =>
    rw [List.mapM_cons, each x List.mem_cons_self,
      ih fun y member => each y (List.mem_cons_of_mem _ member)]
    simp only [pure_bind, List.map_cons]

/-- What a traversal that succeeds found at each place. -/
theorem getElem?_of_mapM {α β : Type} {f : α → Option β} {xs : List α} {ys : List β}
    (mapped : xs.mapM f = some ys) :
    ys.length = xs.length ∧ ∀ (i : Nat) y, ys[i]? = some y → ∃ x, xs[i]? = some x ∧ f x = some y := by
  induction xs generalizing ys with
  | nil =>
    cases mapped
    exact ⟨rfl, fun i y at_i => by cases at_i⟩
  | cons x rest ih =>
    simp only [List.mapM_cons, Option.bind_eq_bind, Option.bind_eq_some_iff, Option.pure_def,
      Option.some.injEq] at mapped
    obtain ⟨y, head, tail, later, rfl⟩ := mapped
    obtain ⟨lengths, each⟩ := ih later
    refine ⟨by rw [List.length_cons, List.length_cons, lengths], fun i z at_i => ?_⟩
    cases i with
    | zero =>
      cases at_i
      exact ⟨x, rfl, head⟩
    | succ i => exact each i z at_i

theorem exists_mapM {α β : Type} {f : α → Option β} {xs : List α}
    (each : ∀ x ∈ xs, ∃ y, f x = some y) : ∃ ys, xs.mapM f = some ys := by
  induction xs with
  | nil => exact ⟨[], rfl⟩
  | cons x rest ih =>
    obtain ⟨y, head⟩ := each x List.mem_cons_self
    obtain ⟨ys, tail⟩ := ih fun z member => each z (List.mem_cons_of_mem _ member)
    refine ⟨y :: ys, ?_⟩
    rw [List.mapM_cons, head, tail]
    rfl

/-- Two traversals in a row are one. -/
theorem mapM_of_mapM {α β γ : Type} {f : α → Option β} {g : β → Option γ} {xs : List α} {ys : List β}
    (mapped : xs.mapM f = some ys) : ys.mapM g = xs.mapM fun x => (f x).bind g := by
  induction xs generalizing ys with
  | nil =>
    cases mapped
    rfl
  | cons x rest ih =>
    simp only [List.mapM_cons, Option.bind_eq_bind, Option.bind_eq_some_iff, Option.pure_def,
      Option.some.injEq] at mapped
    obtain ⟨y, head, tail, later, rfl⟩ := mapped
    rw [List.mapM_cons, List.mapM_cons, ih later, head]
    rfl

/-- The numbers below `blocks * size`, block by block. -/
theorem range_blocks (blocks size : Nat) :
    (List.range blocks).flatMap (fun b => (List.range size).map fun i => b * size + i) =
      List.range (blocks * size) := by
  induction blocks with
  | zero => simp
  | succ blocks ih =>
    rw [List.range_succ, List.flatMap_append, ih, Nat.succ_mul, List.range_add]
    simp only [List.flatMap_cons, List.flatMap_nil, List.append_nil]

theorem flatMap_blocks {α : Type} (f : Nat → List α) (blocks size : Nat) :
    (List.range blocks).flatMap (fun b => (List.range size).flatMap fun i => f (b * size + i)) =
      (List.range (blocks * size)).flatMap f := by
  rw [← range_blocks, List.flatMap_assoc]
  simp only [List.flatMap_map]

/-- What the numbers below `n` contribute, when larger ones contribute nothing. -/
theorem flatMap_below {α : Type} (g : Nat → α) {n total : Nat} (inside : n ≤ total) :
    (List.range total).flatMap (fun i => if i < n then [g i] else []) = (List.range n).map g := by
  obtain ⟨extra, rfl⟩ := Nat.exists_eq_add_of_le inside
  rw [List.range_add, List.flatMap_append]
  have front : (List.range n).flatMap (fun i => if i < n then [g i] else []) =
      (List.range n).flatMap fun i => [g i] :=
    List.flatMap_congr fun i member => if_pos (List.mem_range.mp member)
  have back : ((List.range extra).map (n + ·)).flatMap (fun i => if i < n then [g i] else []) = [] := by
    rw [List.flatMap_eq_nil_iff]
    intro i member
    obtain ⟨j, -, rfl⟩ := List.mem_map.mp member
    exact if_neg (by omega)
  rw [front, back, List.append_nil, List.map_eq_flatMap]

theorem flatMap_nothing {α β : Type} (xs : List α) : (xs.flatMap fun _ => ([] : List β)) = [] :=
  List.flatMap_eq_nil_iff.mpr fun _ _ => rfl

/-- A sum changes by as much as the one element that changes. -/
theorem sum_map_set {α : Type} {f : α → Nat} {xs : List α} {i : Nat} {x y : α}
    (at_i : xs[i]? = some x) : ((xs.set i y).map f).sum + f x = (xs.map f).sum + f y := by
  induction xs generalizing i with
  | nil => cases at_i
  | cons z rest ih =>
    cases i with
    | zero =>
      cases at_i
      rw [List.set_cons_zero, List.map_cons, List.map_cons, List.sum_cons, List.sum_cons]
      omega
    | succ i =>
      have later := ih at_i
      rw [List.set_cons_succ, List.map_cons, List.map_cons, List.sum_cons, List.sum_cons]
      omega

theorem sum_map_set_lt {α : Type} {f : α → Nat} {xs : List α} {i : Nat} {x y : α}
    (at_i : xs[i]? = some x) (smaller : f y < f x) : ((xs.set i y).map f).sum < (xs.map f).sum := by
  have change := sum_map_set (f := f) (y := y) at_i
  omega

/-- The entries of a list, followed by a filler up to a given number. -/
theorem range_padded {α β : Type} (f : α → β) (pad : β) (xs : List α) {total : Nat}
    (inside : xs.length ≤ total) :
    (List.range total).map (fun i => (xs[i]?.map f).getD pad) =
      xs.map f ++ List.replicate (total - xs.length) pad := by
  apply List.ext_getElem?
  intro i
  rcases Nat.lt_or_ge i xs.length with index | outside
  · have below : i < total := by omega
    rw [List.getElem?_append_left (by simpa using index)]
    simp [index, below]
  · rw [List.getElem?_append_right (by simpa using outside)]
    rcases Nat.lt_or_ge i total with below | above
    · simp [outside, below, List.getElem?_replicate]
    · simp [above, List.getElem?_replicate]
      omega

section
variable {α β : Type} (op : α → α → α) (e : α)

def fold (xs : List α) : α := xs.foldl op e

variable [Std.LawfulIdentity op e]

theorem identity_left (x : α) : op e x = x := Std.LawfulLeftIdentity.left_id x

theorem identity_right (x : α) : op x e = x := Std.LawfulRightIdentity.right_id x

theorem fold_singleton (x : α) : fold op e [x] = x := identity_left op e x

variable [Std.Associative op]

theorem fold_append (xs ys : List α) : fold op e (xs ++ ys) = op (fold op e xs) (fold op e ys) := by
  have shift : ys.foldl op (op (fold op e xs) e) = op (fold op e xs) (ys.foldl op e) :=
    List.foldl_assoc
  rw [identity_right op e] at shift
  rw [fold, List.foldl_append]
  exact shift

theorem fold_cons (x : α) (xs : List α) : fold op e (x :: xs) = op x (fold op e xs) := by
  rw [← List.singleton_append, fold_append, fold_singleton]

/-- Folding blocks one by one and then their results is folding everything. -/
theorem fold_flatMap (f : β → List α) (xs : List β) :
    fold op e (xs.map fun x => fold op e (f x)) = fold op e (xs.flatMap f) := by
  induction xs with
  | nil => rfl
  | cons x rest ih => rw [List.map_cons, fold_cons, ih, List.flatMap_cons, fold_append]

theorem fold_replicate (n : Nat) : fold op e (List.replicate n e) = e := by
  induction n with
  | zero => rfl
  | succ n ih => rw [List.replicate_succ, fold_cons, ih, identity_left op e]

variable [Std.Commutative op]

theorem fold_map_op (g h : β → α) (xs : List β) :
    fold op e (xs.map fun x => op (g x) (h x)) =
      op (fold op e (xs.map g)) (fold op e (xs.map h)) := by
  induction xs with
  | nil => exact (identity_left op e e).symm
  | cons x rest ih =>
    simp only [List.map_cons, fold_cons, ih]
    ac_rfl

/-- One halving of a reduction: cell `c` takes in cell `c + s`. -/
theorem fold_halves (f : Nat → α) (s : Nat) :
    fold op e ((List.range s).map fun c => op (f c) (f (c + s))) =
      fold op e ((List.range (s + s)).map f) := by
  rw [fold_map_op, List.range_add, List.map_append, fold_append, List.map_map]
  simp only [Function.comp_def, Nat.add_comm s]

end
end Foundations.Folds
