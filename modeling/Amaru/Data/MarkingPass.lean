import Mathlib.Data.Set.Basic
import Mathlib.Data.List.Induction
import Mathlib.Data.List.Nodup

/-!
# Marking descendants in one pass

Nodes have at most one parent each, and some are **seeds**. A node is *doomed* when it is a seed or
descends from one. A single pass over the nodes marks a node when it is a seed or when its parent is
already marked; the question is when this marks exactly the doomed nodes.

* `pass_sound`: whatever the order, only doomed nodes are marked.
* `pass_complete`: every doomed node is marked if each node that is not a seed is visited after its
  doomed parent.
* `notMem_pass`: a node that is not a seed and is visited before its parent is not marked.
* `Doomed.mem_of_closed`: a marking that holds the seeds and never leaves a child of a marked node
  unmarked holds every doomed node. With the previous one, the condition of `pass_complete` is also
  necessary for the marking to be closed.
-/

namespace MarkingPass

open List

variable {α : Type*} (seed : α → Prop) (parent : α → Option α)

/-- A node of `N` is doomed when it is a seed or descends from one through nodes of `N`. -/
inductive Doomed (N : Set α) : α → Prop
  | seed {a} : a ∈ N → seed a → Doomed N a
  | child {a p} : a ∈ N → parent a = some p → Doomed N p → Doomed N a

/-- Visit one node. -/
def visit (marked : Set α) (a : α) : Set α :=
  {x | x ∈ marked ∨ (x = a ∧ (seed a ∨ ∃ p, parent a = some p ∧ p ∈ marked))}

/-- Visit the nodes in order. -/
def pass (marked : Set α) (order : List α) : Set α :=
  order.foldl (visit seed parent) marked

variable {seed parent}

variable {a : α} {N : Set α}

theorem Doomed.mem (h : Doomed seed parent N a) : a ∈ N := by
  cases h with
  | seed ha _ | child ha _ _ => exact ha

/-- More nodes, more of them doomed. -/
theorem Doomed.mono {N' : Set α} (hN : N ⊆ N') (h : Doomed seed parent N a) : Doomed seed parent N' a := by
  induction h with
  | seed ha hs => exact .seed (hN ha) hs
  | child ha hp _ ih => exact .child (hN ha) hp ih

/-- A closed marking that holds the seeds holds every doomed node. -/
theorem Doomed.mem_of_closed {R : Set α} (hseed : ∀ a ∈ N, seed a → a ∈ R)
    (hclosed : ∀ a ∈ N, a ∉ R → ∀ p ∈ N, parent a = some p → p ∉ R) (h : Doomed seed parent N a) :
    a ∈ R := by
  induction h with
  | seed ha hs => exact hseed _ ha hs
  | child ha hp hdoomed ih =>
    by_contra hnot
    exact hclosed _ ha hnot _ hdoomed.mem hp ih

theorem pass_append (marked : Set α) (l m : List α) :
    pass seed parent marked (l ++ m) = pass seed parent (pass seed parent marked l) m :=
  foldl_append

theorem mem_pass_iff_of_notMem {x : α} : ∀ {order : List α} {marked : Set α}, x ∉ order →
    (x ∈ pass seed parent marked order ↔ x ∈ marked)
  | [], _, _ => Iff.rfl
  | a :: order, marked, h => by
    have ha : x ≠ a := fun h' ↦ h (h' ▸ mem_cons_self)
    have hx : x ∉ order := fun h' ↦ h (mem_cons_of_mem _ h')
    have hvisit : x ∈ visit seed parent marked a ↔ x ∈ marked := by simp [visit, ha]
    exact (mem_pass_iff_of_notMem hx).trans hvisit

variable {marked : Set α}

/-- A node is marked after what comes before it. -/
theorem mem_pass_iff {l m : List α} (hl : a ∉ l) (hm : a ∉ m) (ha : a ∉ marked) :
    a ∈ pass seed parent marked (l ++ a :: m) ↔
      seed a ∨ ∃ p, parent a = some p ∧ p ∈ pass seed parent marked l := by
  rw [pass_append]
  show a ∈ pass seed parent (visit seed parent (pass seed parent marked l) a) m ↔ _
  rw [mem_pass_iff_of_notMem hm]
  simp [visit, mem_pass_iff_of_notMem hl, ha]

variable {order : List α}

theorem exists_split (hnodup : order.Nodup) (ha : a ∈ order) :
    ∃ l m, order = l ++ a :: m ∧ a ∉ l ∧ a ∉ m := by
  obtain ⟨l, m, rfl⟩ := append_of_mem ha
  obtain ⟨-, hm, hdisj⟩ := nodup_append'.1 hnodup
  exact ⟨l, m, rfl, fun h ↦ hdisj h mem_cons_self, (nodup_cons.1 hm).1⟩

/-- **Soundness.** Only doomed nodes are marked. -/
theorem pass_sound (hnodup : order.Nodup) (hfresh : ∀ a ∈ order, a ∉ marked)
    (hparent : ∀ a ∈ order, ∀ p ∈ parent a, p ∉ marked) (ha : a ∈ order)
    (hmark : a ∈ pass seed parent marked order) :
    Doomed seed parent {x | x ∈ order} a := by
  induction order using List.reverseRecOn generalizing a with
  | nil => exact absurd ha not_mem_nil
  | append_singleton l b ih =>
    have hb : b ∉ l := by
      have := (nodup_append'.1 hnodup).2.2
      exact fun h ↦ this h mem_cons_self
    have hsub : {x | x ∈ l} ⊆ {x | x ∈ l ++ [b]} := fun x hx ↦ mem_append_left _ hx
    have ihl : ∀ {x}, x ∈ l → x ∈ pass seed parent marked l →
        Doomed seed parent {x | x ∈ l ++ [b]} x := fun hx hmem ↦
      (ih (List.Nodup.of_append_left hnodup) (fun a h ↦ hfresh a (hsub h))
        (fun a h ↦ hparent a (hsub h)) hx hmem).mono hsub
    by_cases hab : a = b
    · subst hab
      rcases (mem_pass_iff hb not_mem_nil (hfresh a ha)).1 hmark with hs | ⟨p, hp, hmem⟩
      · exact .seed ha hs
      -- a marked parent was visited: marks from before the pass are no one's parents
      have hpl : p ∈ l := by
        by_contra hpl
        exact hparent a ha p hp ((mem_pass_iff_of_notMem hpl).1 hmem)
      exact .child ha hp (ihl hpl hmem)
    · have hal : a ∈ l := by simpa [hab] using ha
      rw [pass_append] at hmark
      exact ihl hal ((mem_pass_iff_of_notMem (by simpa using hab)).1 hmark)

/-- **Completeness.** Every doomed node is marked when nodes are visited after their doomed
parents. -/
theorem pass_complete (hnodup : order.Nodup) (hfresh : ∀ a ∈ order, a ∉ marked)
    (hfirst : ∀ l c m p, order = l ++ c :: m → ¬ seed c → parent c = some p → Doomed seed parent
      {x | x ∈ order} p → p ∈ l) (h : Doomed seed parent {x | x ∈ order} a) :
    a ∈ pass seed parent marked order := by
  induction h with
  | @seed a ha hs =>
    obtain ⟨l, m, rfl, hl, hm⟩ := exists_split hnodup ha
    exact (mem_pass_iff hl hm (hfresh a ha)).2 (.inl hs)
  | @child a p ha hp hdoomed ih =>
    obtain ⟨l, m, horder, hl, hm⟩ := exists_split hnodup ha
    rw [horder, mem_pass_iff hl hm (hfresh a ha)]
    by_cases hs : seed a
    · exact .inl hs
    have hpl : p ∈ l := hfirst l a m p horder hs hp hdoomed
    have hrest : p ∉ a :: m := by
      rw [horder] at hnodup
      exact fun h ↦ (nodup_append'.1 hnodup).2.2 hpl h
    rw [horder, pass_append, mem_pass_iff_of_notMem hrest] at ih
    exact .inr ⟨p, hp, ih⟩

/-- A node that is not a seed and comes before its parent is not marked. -/
theorem notMem_pass {l m : List α} {p : α} (hnodup : (l ++ a :: m).Nodup) (hfresh : a ∉ marked)
    (hparent : p ∉ marked) (hs : ¬ seed a) (hp : parent a = some p) (hpm : p ∈ m) :
    a ∉ pass seed parent marked (l ++ a :: m) := by
  obtain ⟨-, ham, hdisj⟩ := nodup_append'.1 hnodup
  have hl : a ∉ l := fun h ↦ hdisj h mem_cons_self
  have hpl : p ∉ l := fun h ↦ hdisj h (mem_cons_of_mem _ hpm)
  rw [mem_pass_iff hl (nodup_cons.1 ham).1 hfresh]
  rintro (h | ⟨q, hq, hmem⟩)
  · exact hs h
  · obtain rfl : p = q := Option.some.inj (hp.symm.trans hq)
    exact hparent ((mem_pass_iff_of_notMem hpl).1 hmem)

end MarkingPass
