import Mathlib.Logic.Relation
import Mathlib.Data.List.Chain

/-!
# Ancestors

A forest given by its edges: `child a b` says that `b` is a child of `a`, and no node has two parents.
An **ancestor** of a node is the node itself or one from which children lead to it. With a rank that
grows by one along each edge, two ancestors of one node are on one line, and **an ancestor is known by
its rank**.

A **hop** goes from a node to one that keeps all of its ancestors but the last few, and is at most one
rank higher; after a number of hops the ancestors that are deep enough are still the same.
-/

namespace Ancestry

open List Relation

variable {α : Type*} {child : α → α → Prop} {rank : α → ℕ} {a b c : α}

/-- `a` is `b` or one of its ancestors. -/
abbrev Ancestor (child : α → α → Prop) : α → α → Prop := Relation.ReflTransGen child

/-- Two ancestors of one node are on one line. -/
theorem ancestor_total (hunique : Relator.LeftUnique child) (ha : Ancestor child a c)
    (hb : Ancestor child b c) : Ancestor child a b ∨ Ancestor child b a := by
  have hflip : Relator.RightUnique (Function.swap child) := fun _ _ _ h h' ↦ hunique h h'
  rcases Relation.ReflTransGen.total_of_right_unique hflip (reflTransGen_swap.2 ha)
    (reflTransGen_swap.2 hb) with h | h
  · exact .inr (reflTransGen_swap.1 h)
  · exact .inl (reflTransGen_swap.1 h)

/-- The ancestors of a child are itself and those of its parent. -/
theorem eq_or_ancestor_of_child (hunique : Relator.LeftUnique child) (hchild : child b c)
    (h : Ancestor child a c) : a = c ∨ Ancestor child a b := by
  rcases h.cases_tail with rfl | ⟨b', h, hchild'⟩
  · exact .inl rfl
  · exact .inr (hunique hchild' hchild ▸ h)

/-- A rank grows by one from a node to its children. -/
def Ranked (child : α → α → Prop) (rank : α → ℕ) : Prop :=
  ∀ ⦃a b⦄, child a b → rank b = rank a + 1

section Rank

variable (hrank : Ranked child rank)

include hrank

/-- Ancestors have lower ranks. -/
theorem rank_le (h : Ancestor child a b) : rank a ≤ rank b := by
  induction h with
  | refl => exact le_rfl
  | tail _ hchild ih => exact ih.trans (hrank hchild ▸ Nat.le_succ _)

theorem eq_of_rank_le (h : Ancestor child a b) (hle : rank b ≤ rank a) : a = b := by
  rcases h.cases_tail with rfl | ⟨b', h, hchild⟩
  · rfl
  · have := rank_le hrank h
    have := hrank hchild
    omega

/-- **An ancestor of lower rank is an ancestor of the other**. -/
theorem ancestor_of_rank_le (hunique : Relator.LeftUnique child) (ha : Ancestor child a c)
    (hb : Ancestor child b c) (hle : rank a ≤ rank b) : Ancestor child a b := by
  rcases ancestor_total hunique ha hb with h | h
  · exact h
  · rw [eq_of_rank_le hrank h hle]

end Rank

/-! ### Paths -/

variable {path : List α} {depth : ℕ}

/-- A path goes down from its first element. -/
theorem ancestor_of_isChain (hpath : List.IsChain child (a :: path)) (hb : b ∈ a :: path) :
    Ancestor child a b := by
  induction path generalizing a with
  | nil => rw [mem_singleton.1 hb]
  | cons next path ih =>
    obtain ⟨hchild, hpath⟩ := isChain_cons_cons.1 hpath
    rcases mem_cons.1 hb with rfl | hb
    · exact Relation.ReflTransGen.refl
    · exact (Relation.ReflTransGen.single hchild).trans (ih hpath hb)

/-- A path has as many edges as its ends are apart. -/
theorem rank_getLast (hrank : Ranked child rank) (hpath : List.IsChain child (a :: path))
    (hb : (a :: path).getLast? = some b) :
    rank b = rank a + path.length := by
  induction path generalizing a with
  | nil => rw [getLast?_singleton, Option.some.injEq] at hb; rw [hb]; rfl
  | cons next path ih =>
    obtain ⟨hchild, hpath⟩ := isChain_cons_cons.1 hpath
    rw [getLast?_cons_cons] at hb
    rw [ih hpath hb, hrank hchild, length_cons]
    omega

/-- A path goes down to its last element. -/
theorem ancestor_getLast_of_mem (hpath : List.IsChain child path) (hc : path.getLast? = some c)
    (hb : b ∈ path) : Ancestor child b c := by
  obtain ⟨older, newer, rfl⟩ := append_of_mem hb
  refine ancestor_of_isChain (isChain_append.1 hpath).2.1 ?_
  rw [getLast?_append_of_ne_nil _ (cons_ne_nil _ _)] at hc
  exact mem_of_getLast? hc

theorem ancestor_getLast (hpath : List.IsChain child (a :: path)) (hb : (a :: path).getLast? = some b) :
    Ancestor child a b :=
  ancestor_of_isChain hpath (mem_of_getLast? hb)

/-- A node between two ends of a line is on the path between them. -/
theorem mem_of_isChain (hrank : Ranked child rank) (hunique : Relator.LeftUnique child)
    (hpath : List.IsChain child (a :: path)) (hc : (a :: path).getLast? = some c)
    (ha : Ancestor child a b) (hb : Ancestor child b c) : b ∈ a :: path := by
  induction path generalizing a with
  | nil =>
    rw [getLast?_singleton, Option.some.injEq] at hc
    subst hc
    rw [eq_of_rank_le hrank hb (rank_le hrank ha)]
    exact mem_singleton_self _
  | cons next path ih =>
    obtain ⟨hchild, hpath⟩ := isChain_cons_cons.1 hpath
    rw [getLast?_cons_cons] at hc
    rcases Nat.lt_or_ge (rank a) (rank b) with hlt | hge
    · have hnext : Ancestor child next b := ancestor_of_rank_le hrank hunique
        (ancestor_getLast hpath hc) hb (by rw [hrank hchild]; exact hlt)
      exact mem_cons_of_mem _ (ih hpath hc hnext)
    · rw [eq_of_rank_le hrank ha hge]
      exact mem_cons_self ..

/-! ### Hops -/

/-- From `a` to `b`, ancestors are kept from some depth below `a` on, and the rank grows by at most
one. -/
structure Hop (child : α → α → Prop) (rank : α → ℕ) (depth : ℕ) (a b : α) : Prop where
  keeps : ∀ {c}, Ancestor child c b → rank c + depth ≤ rank a → Ancestor child c a
  rank_le : rank b ≤ rank a + 1

theorem Hop.of_child (hrank : Ranked child rank) (hunique : Relator.LeftUnique child) (depth : ℕ)
    (h : child a b) : Hop child rank depth a b := by
  refine ⟨fun {c} hc hdepth ↦ ?_, (hrank h).le⟩
  rcases eq_or_ancestor_of_child hunique h hc with rfl | hc
  · have := hrank h
    omega
  · exact hc

/-- A hop over a fork, at a common ancestor that is not too deep. -/
theorem Hop.of_fork (hrank : Ranked child rank) (hunique : Relator.LeftUnique child)
    (ha : Ancestor child c a) (hb : Ancestor child c b) (hdepth : rank a ≤ rank c + depth)
    (hle : rank b ≤ rank a + 1) : Hop child rank depth a b :=
  ⟨fun hd hle ↦ (ancestor_of_rank_le hrank hunique hd hb (by omega)).trans ha, hle⟩

/-- **After a number of hops** the ancestors that are deep enough are the same. -/
theorem ancestor_of_hops {hops : List α}
    (h : List.IsChain (Hop child rank depth) (a :: hops)) (hb : (a :: hops).getLast? = some b)
    (hc : Ancestor child c b) (hdepth : rank c + depth + hops.length ≤ rank b) :
    Ancestor child c a ∧ rank b ≤ rank a + hops.length := by
  induction hops generalizing a with
  | nil =>
    rw [getLast?_singleton, Option.some.injEq] at hb
    subst hb
    exact ⟨hc, le_rfl⟩
  | cons next hops ih =>
    obtain ⟨hhop, h⟩ := isChain_cons_cons.1 h
    rw [getLast?_cons_cons] at hb
    rw [length_cons] at hdepth ⊢
    obtain ⟨hnext, hle⟩ := ih h hb (by omega)
    have hrank := hhop.rank_le
    exact ⟨hhop.keeps hnext (by omega), by omega⟩

end Ancestry
