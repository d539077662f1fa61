import Amaru.Data.Ancestry
import Mathlib.Data.Finset.Card

/-!
# Searching a forest

A depth-first search with a list of nodes to visit. Some nodes are passed over, with all that is below
them. The search is given a number of steps; in a finite forest **as many steps as there are nodes are
enough** (`mem_visit`), since no node comes up twice: of the nodes to visit, none is an ancestor of
another.
-/

namespace Traversal

open List Ancestry Finset

variable {α : Type*} (children : α → List α) (skip : α → Bool)

/-- The nodes that a search visits, in order. -/
def visit : ℕ → List α → List α
  | _, [] => []
  | 0, _ :: _ => []
  | fuel + 1, a :: todo =>
    if skip a then visit fuel todo else a :: visit fuel (children a ++ todo)

/-- The search goes from a node to its children, unless it passes over the node. -/
def Step (a b : α) : Prop := skip a = false ∧ b ∈ children a

variable {children skip} {fuel : ℕ} {b : α}

/-- What is visited is below what is to do. -/
theorem exists_of_mem_visit {todo : List α} (h : b ∈ visit children skip fuel todo) :
    skip b = false ∧ ∃ a ∈ todo, Relation.ReflTransGen (Step children skip) a b := by
  induction fuel generalizing todo with
  | zero => cases todo <;> cases h
  | succ fuel ih =>
    rcases todo with - | ⟨a, todo⟩
    · cases h
    rw [visit] at h
    split_ifs at h with hskip
    · obtain ⟨hb, a', ha', hreach⟩ := ih h
      exact ⟨hb, a', mem_cons_of_mem _ ha', hreach⟩
    rw [Bool.not_eq_true] at hskip
    rcases mem_cons.1 h with rfl | h
    · exact ⟨hskip, b, mem_cons_self .., .refl⟩
    obtain ⟨hb, a', ha', hreach⟩ := ih h
    rcases mem_append.1 ha' with ha' | ha'
    · exact ⟨hb, a, mem_cons_self .., .head ⟨hskip, ha'⟩ hreach⟩
    · exact ⟨hb, a', mem_cons_of_mem _ ha', hreach⟩

/-- A finite forest, with the children of each node. -/
structure Forest (children : α → List α) (rank : α → ℕ) (nodes : Finset α) : Prop where
  mem : ∀ {a b}, a ∈ nodes → b ∈ children a → b ∈ nodes
  nodup : ∀ {a}, a ∈ nodes → (children a).Nodup
  ranked : Ancestry.Ranked (fun a b ↦ a ∈ nodes ∧ b ∈ children a) rank
  unique : Relator.LeftUnique fun a b ↦ a ∈ nodes ∧ b ∈ children a

section Complete

variable {rank : α → ℕ} {nodes : Finset α} {todo : List α} {a : α}

/-- Neither of two nodes is an ancestor of the other. -/
def Apart (children : α → List α) (nodes : Finset α) (a b : α) : Prop :=
  ¬Ancestry.Ancestor (fun a b ↦ a ∈ nodes ∧ b ∈ children a) a b ∧
    ¬Ancestry.Ancestor (fun a b ↦ a ∈ nodes ∧ b ∈ children a) b a

/-- The children of a node are apart from each other and from what the node is apart from. -/
theorem Forest.apart_children (hforest : Forest children rank nodes) (ha : a ∈ nodes)
    (h : (a :: todo).Pairwise (Apart children nodes)) :
    (children a ++ todo).Pairwise (Apart children nodes) := by
  obtain ⟨hapart, htodo⟩ := pairwise_cons.1 h
  refine pairwise_append.2 ⟨?_, htodo, fun b hb c hc ↦ ⟨fun hbc ↦ ?_, fun hcb ↦ ?_⟩⟩
  · -- siblings have one rank
    refine (hforest.nodup ha).imp_of_mem fun {b c} hb hc hne ↦ ?_
    have hrank := (hforest.ranked ⟨ha, hb⟩).trans (hforest.ranked ⟨ha, hc⟩).symm
    exact ⟨fun h ↦ hne (eq_of_rank_le hforest.ranked h hrank.ge),
      fun h ↦ hne (eq_of_rank_le hforest.ranked h hrank.le).symm⟩
  · exact (hapart c hc).1 (hbc.head ⟨ha, hb⟩)
  · rcases eq_or_ancestor_of_child hforest.unique ⟨ha, hb⟩ hcb with rfl | hca
    · exact (hapart c hc).1 (.single ⟨ha, hb⟩)
    · exact (hapart c hc).2 hca

open Classical in
/-- The nodes that are still below those to visit. -/
noncomputable def below (children : α → List α) (nodes : Finset α) (todo : List α) : Finset α :=
  nodes.filter fun b ↦ ∃ a ∈ todo, Ancestry.Ancestor (fun a b ↦ a ∈ nodes ∧ b ∈ children a) a b

theorem mem_below : b ∈ below children nodes todo ↔ b ∈ nodes ∧
    ∃ a ∈ todo, Ancestry.Ancestor (fun a b ↦ a ∈ nodes ∧ b ∈ children a) a b := by
  classical
  exact mem_filter

theorem below_subset {todo' : List α} (h : ∀ b ∈ todo', ∃ a ∈ todo,
    Ancestry.Ancestor (fun a b ↦ a ∈ nodes ∧ b ∈ children a) a b) :
    below children nodes todo' ⊆ below children nodes todo := by
  intro c hc
  obtain ⟨hc, b, hb, hbc⟩ := mem_below.1 hc
  obtain ⟨a, ha, hab⟩ := h b hb
  exact mem_below.2 ⟨hc, a, ha, hab.trans hbc⟩

/-- There is less below the children of a node. -/
theorem Forest.card_below_lt (hforest : Forest children rank nodes) (ha : a ∈ nodes)
    (h : (a :: todo).Pairwise (Apart children nodes)) :
    (below children nodes (children a ++ todo)).card < (below children nodes (a :: todo)).card := by
  refine card_lt_card ((ssubset_iff_of_subset (below_subset fun b hb ↦ ?_)).2
    ⟨a, mem_below.2 ⟨ha, a, mem_cons_self .., .refl⟩, fun hmem ↦ ?_⟩)
  · rcases mem_append.1 hb with hb | hb
    · exact ⟨a, mem_cons_self .., .single ⟨ha, hb⟩⟩
    · exact ⟨b, mem_cons_of_mem _ hb, .refl⟩
  · obtain ⟨-, b, hb, hba⟩ := mem_below.1 hmem
    rcases mem_append.1 hb with hb | hb
    · have hle := rank_le hforest.ranked hba
      have hrank := hforest.ranked ⟨ha, hb⟩
      omega
    · exact ((pairwise_cons.1 h).1 b hb).2 hba

/-- **As many steps as there are nodes are enough** to visit all that can be reached. -/
theorem Forest.mem_visit (hforest : Forest children rank nodes)
    (htodo : ∀ a ∈ todo, a ∈ nodes) (hapart : todo.Pairwise (Apart children nodes))
    (hfuel : (below children nodes todo).card ≤ fuel) (ha : a ∈ todo)
    (hreach : Relation.ReflTransGen (Step children skip) a b) (hb : skip b = false) :
    b ∈ visit children skip fuel todo := by
  induction fuel generalizing todo a with
  | zero =>
    have hempty := card_eq_zero.1 (Nat.le_zero.1 hfuel)
    have hmem : a ∈ below children nodes todo := mem_below.2 ⟨htodo a ha, a, ha, .refl⟩
    rw [hempty] at hmem
    cases hmem
  | succ fuel ih =>
    rcases todo with - | ⟨first, todo⟩
    · cases ha
    have hfirst := htodo first (mem_cons_self ..)
    have hlt := hforest.card_below_lt hfirst hapart
    have hrest : (below children nodes todo).card ≤ fuel := by
      have hsubset : below children nodes todo ⊆ below children nodes (children first ++ todo) :=
        below_subset fun b hb ↦ ⟨b, mem_append_right _ hb, .refl⟩
      have hle := card_le_card hsubset
      omega
    rw [visit]
    split_ifs with hskip
    · rcases mem_cons.1 ha with rfl | ha
      · rcases hreach.cases_head with rfl | ⟨c, hstep, -⟩
        · exact absurd (hskip.symm.trans hb) (by simp)
        · exact absurd (hskip.symm.trans hstep.1) (by simp)
      · exact ih (fun c hc ↦ htodo c (mem_cons_of_mem _ hc)) (pairwise_cons.1 hapart).2
          hrest ha hreach
    · have hmem : ∀ c ∈ children first ++ todo, c ∈ nodes := fun c hc ↦ by
        rcases mem_append.1 hc with hc | hc
        · exact hforest.mem hfirst hc
        · exact htodo c (mem_cons_of_mem _ hc)
      have hnext (c : α) (hc : c ∈ children first ++ todo)
          (hreach : Relation.ReflTransGen (Step children skip) c b) :
          b ∈ visit children skip fuel (children first ++ todo) :=
        ih hmem (hforest.apart_children hfirst hapart) (by omega) hc hreach
      rcases mem_cons.1 ha with rfl | ha
      · rcases hreach.cases_head with rfl | ⟨c, hstep, hreach⟩
        · exact mem_cons_self ..
        · exact mem_cons_of_mem _ (hnext c (mem_append_left _ hstep.2) hreach)
      · exact mem_cons_of_mem _ (hnext a (mem_append_right _ ha) hreach)

end Complete

end Traversal
