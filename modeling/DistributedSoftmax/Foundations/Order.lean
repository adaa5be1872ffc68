import Mathlib.Data.List.Basic

/-! Lists that agree on the order of what they contain, as first-in first-out
queues that are filled from one source do. -/

set_option autoImplicit false

namespace Foundations.Order

variable {α : Type}

/-- One of the lists is a prefix of the other. -/
def Comparable (xs ys : List α) : Prop := xs <+: ys ∨ ys <+: xs

theorem comparable_of_prefix {xs ys whole : List α} (left : xs <+: whole) (right : ys <+: whole) :
    Comparable xs ys :=
  List.prefix_or_prefix_of_prefix left right

/-- Such lists agree wherever both have an item. -/
theorem Comparable.getElem?_eq {xs ys : List α} (comparable : Comparable xs ys) {i : Nat}
    (left : i < xs.length) (right : i < ys.length) : xs[i]? = ys[i]? := by
  rcases comparable with ⟨rest, rfl⟩ | ⟨rest, rfl⟩
  · exact (List.getElem?_append_left left).symm
  · exact List.getElem?_append_left right

/-- A prefix that has everything in front of an item, but not the item, goes on with it. -/
theorem prefix_append_singleton {before after given : List α} {x : α}
    (distinct : (before ++ x :: after).Nodup) (starts : given <+: before ++ x :: after)
    (missing : x ∉ given) (complete : ∀ y ∈ before, y ∈ given) :
    given ++ [x] <+: before ++ x :: after := by
  have same : given = before := by
    rcases List.prefix_or_prefix_of_prefix starts (List.prefix_append before (x :: after)) with
      shorter | longer
    · -- What the prefix lacks of `before` would be in it as well.
      obtain ⟨rest, rfl⟩ := shorter
      cases rest with
      | nil => exact (List.append_nil given).symm
      | cons y rest =>
        have twice : y ∈ given := complete y (List.mem_append_right _ List.mem_cons_self)
        have apart := (List.nodup_append.mp (List.nodup_append.mp distinct).1).2.2
        exact absurd rfl (apart y twice y List.mem_cons_self)
    · -- What the prefix has beyond `before` would start with the item.
      obtain ⟨rest, rfl⟩ := longer
      cases rest with
      | nil => exact List.append_nil before
      | cons y rest =>
        have next := (List.prefix_append_right_inj before).mp starts
        obtain ⟨rfl, -⟩ := List.cons_prefix_cons.mp next
        exact absurd (List.mem_append_right _ List.mem_cons_self) missing
  subst same
  exact ⟨after, by rw [List.append_assoc, List.singleton_append]⟩

/-- Filtering by a stronger condition keeps prefixes under a weaker one. -/
theorem filter_prefix_of_imp {strong weak : α → Bool} {xs ys : List α}
    (implies : ∀ x, strong x = true → weak x = true) (starts : xs.filter weak <+: ys.filter weak) :
    xs.filter strong <+: ys.filter strong := by
  have absorbed : ∀ zs : List α, (zs.filter weak).filter strong = zs.filter strong := by
    intro zs
    rw [List.filter_filter]
    apply List.filter_congr
    intro z _
    cases held : strong z with
    | false => rfl
    | true => rw [implies z held]; rfl
  rw [← absorbed xs, ← absorbed ys]
  exact starts.filter strong

end Foundations.Order
