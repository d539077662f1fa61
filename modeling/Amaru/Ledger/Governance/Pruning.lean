import Amaru.Data.MarkingPass
import Amaru.Ledger.Governance.ProposalsForest
import Mathlib.Logic.Relation

/-!
# Pruning at the end of a round

What survives a round of ratification must be fit to start the next one: the parent of a surviving
proposal is the (possibly new) root of its purpose, or survives as well.

The invariant `WellFormed` says what a forest holds at any moment of a round: the trees and the
lookup table describe the same proposals, nothing pruned is still there, and every row the round
started from is either there or pruned. It holds after `drain` and is preserved by `next` and
`enact`, so it holds whenever `end` is called.

`end` is then a `MarkingPass` over what is left: the seeds are the proposals that expire now. Its
order only guarantees that a proposal comes after those of earlier epochs. So the pass is closed
under descendants, whatever the order within one epoch, exactly when no proposal that outlives this
epoch has a parent **of its own submission epoch** that expires or descends from one that does:
`ParentsVisitedFirst`.
-/

namespace Amaru

open List ProposalsTree SortedMap MarkingPass Prod ProposalsForest ProposalEnum
open Option hiding mem_map

/-- The proposal of a row. -/
def CandidateProposal.proposal (row : CandidateProposal) : ProposalEnum :=
  row.governanceAction.toProposalEnum

/-- The rows a round may start from: they are keyed by identifier, submitted at distinct places of
the chain, and the last enacted proposals are not among them. -/
structure Admissible (roots : ProposalsRoots) (rows : List (ProposalId × CandidateProposal)) : Prop where
  nodup_ids : (rows.map fst).Nodup
  nodup_pointers : (rows.map fun row ↦ row.2.proposedIn).Nodup
  root_notMem : ∀ p root, roots.rootOf p = some root → root ∉ rows.map fst

variable {done : List (ProposalId × CandidateProposal)}

theorem Admissible.of_initial {roots rows sorted} (h : Admissible roots rows) (hperm : sorted.Perm rows)
    (hinit : done <+: sorted) : Admissible roots done where
  nodup_ids := ((hperm.map _).nodup_iff.2 h.nodup_ids).sublist (hinit.sublist.map _)
  nodup_pointers := ((hperm.map _).nodup_iff.2 h.nodup_pointers).sublist (hinit.sublist.map _)
  root_notMem p root hp hin := h.root_notMem p root hp
    ((hperm.map fst).subset ((hinit.sublist.map fst).subset hin))

namespace ProposalsForest

variable {f f' g : ProposalsForest} {rows : List (ProposalId × CandidateProposal)}
  {order : List (ProposalId × WithContext ProposalEnum)} {x : ProposalId} {eraHistory : EraHistory}
  {roots : ProposalsRoots} {epoch treasury : ℕ} {c : WithContext ProposalEnum} {id : ProposalId}
  {row : CandidateProposal} {p : Purpose}

/-- What holds of a forest built from some rows, at any moment of a round. -/
structure WellFormed (rows : List (ProposalId × CandidateProposal)) (f : ProposalsForest) : Prop where
  mem_edges : ∀ {p x parent}, (x, parent) ∈ (f.tree p).edges ↔
    ∃ c, f.proposals.get? x = some c ∧ c.proposal.purpose = some p ∧ c.proposal.parent = parent
  nodup_ids : ∀ p, (f.tree p).ids.Nodup
  pruned_notMem : ∀ {x}, (f.pruned.get? x).isSome → f.proposals.get? x = none
  root_notMem : ∀ {p root}, (f.tree p).root = some root → f.proposals.get? root = none
  root_ratified : ∀ {p root}, (f.tree p).root = some root → f.pruned.get? root ≠ some .notRatified
  row_of_mem : ∀ {x c}, f.proposals.get? x = some c →
    ∃ row, (x, row) ∈ rows ∧ c.pointer = row.proposedIn ∧ c.proposal = row.proposal
  mem_of_row : ∀ {x row}, (x, row) ∈ rows → (f.proposals.get? x).isSome ∨ (f.pruned.get? x).isSome
  pointer_lt : ∀ {x c p d}, f.proposals.get? x = some c → c.proposal.parent = some p →
    f.proposals.get? p = some d → d.pointer < c.pointer

theorem WellFormed.mem_ids (h : f.WellFormed rows) :
    x ∈ (f.tree p).ids ↔ ∃ c, f.proposals.get? x = some c ∧ c.proposal.purpose = some p := by
  rw [ids, mem_map]
  constructor
  · rintro ⟨⟨x, parent⟩, hmem, rfl⟩
    obtain ⟨c, hc, hp, -⟩ := h.mem_edges.1 hmem
    exact ⟨c, hc, hp⟩
  · rintro ⟨c, hc, hp⟩
    exact ⟨(x, c.proposal.parent), h.mem_edges.2 ⟨c, hc, hp, rfl⟩, rfl⟩

/-- **The parent of a proposal** is the root of its purpose, or a proposal of the same purpose. -/
theorem WellFormed.parent (h : f.WellFormed rows)
    (hc : f.proposals.get? x = some c) (hp : c.proposal.purpose = some p) :
    c.proposal.parent = (f.tree p).root ∨
      ∃ y d, c.proposal.parent = some y ∧ f.proposals.get? y = some d ∧ d.proposal.purpose = some p := by
  rcases knows_of_mem_edges (h.mem_edges.2 ⟨c, hc, hp, rfl⟩) with hroot | ⟨y, hy, hpar⟩
  · exact .inl hroot
  · obtain ⟨d, hd, hpd⟩ := h.mem_ids.1 hy
    exact .inr ⟨y, d, hpar, hd, hpd⟩

/-! ### A round keeps the forest well formed -/

theorem WellFormed.next (h : f.WellFormed rows) (protocolParameters : ProtocolParameters) :
    (f.next protocolParameters).2.WellFormed rows := by
  rw [ProposalsForest.next]
  split_ifs
  · exact h
  · -- the table, what is pruned and the trees are the same
    exact { h with }

/-- Enacting a proposal takes its edge and those of the obsolete proposals out of the trees. -/
theorem WellFormed.enact_edges (h : f.WellFormed rows) (hc : f.proposals.get? id = some c)
    (henact : f.enact id c.proposal = .ok f') :
    ∃ obsolete : List ProposalId,
      (∀ x, f'.pruned.get? x = if x = id then some .ratified
        else if x ∈ obsolete then some .notRatified else f.pruned.get? x) ∧
      (∀ x, f'.proposals.get? x = if x = id ∨ x ∈ obsolete then none else f.proposals.get? x) ∧
      (∀ x ∈ obsolete, (f.proposals.get? x).isSome) ∧
      (∀ q x parent, (x, parent) ∈ (f'.tree q).edges ↔
        (x, parent) ∈ (f.tree q).edges ∧ ¬ (x = id ∨ x ∈ obsolete)) ∧
      (∀ q, (f'.tree q).ids.Nodup) ∧
      ∀ q root, (f'.tree q).root = some root → (f.tree q).root = some root ∨ root = id := by
  obtain ⟨g, obsolete, rfl, hg, hpr, -, -, hspec⟩ := enactSpec_of_enact henact
  have hpruned : ∀ x, (g.prune id obsolete).pruned.get? x = if x = id then some .ratified
      else if x ∈ obsolete then some .notRatified else f.pruned.get? x := fun x ↦ by
    rw [get?_pruned_prune, hpr]
  have hproposals : ∀ x, (g.prune id obsolete).proposals.get? x =
      if x = id ∨ x ∈ obsolete then none else f.proposals.get? x := fun x ↦ by
    rw [get?_proposals_prune, hpruned, hg]
    by_cases hid : x = id
    · simp [hid]
    by_cases hobs : x ∈ obsolete
    · simp [hid, hobs]
    · -- what was pruned before is not in the table either
      rcases hx : f.pruned.get? x with - | status
      · simp [hid, hobs]
      · simp [hid, hobs, h.pruned_notMem (x := x) (by simp [hx])]
  refine ⟨obsolete, hpruned, hproposals, ?_⟩
  simp only [tree_prune]
  rcases hp : c.proposal.purpose with - | p <;> simp only [hp] at hspec
  · obtain ⟨rfl, htree⟩ := hspec
    simp only [htree]
    refine ⟨by simp, fun q x parent ↦ ⟨fun hx ↦ ⟨hx, ?_⟩, And.left⟩, h.nodup_ids,
      fun q root hroot ↦ .inl hroot⟩
    -- an orphan is in no tree
    rintro (rfl | hx')
    · obtain ⟨d, hd, hq, -⟩ := h.mem_edges.1 hx
      obtain rfl : c = d := some.inj (hc.symm.trans hd)
      simp [hp] at hq
    · exact absurd hx' not_mem_nil
  · obtain ⟨t, hpart, htree⟩ := hspec
    obtain ⟨hroot, obsoleteEdges, hperm, rfl, -⟩ := enact_edges (h.nodup_ids p) hpart
    have hids : (f.tree p).ids.Perm (id :: (t.ids ++ obsoleteEdges.map fst)) := by
      simpa [ids] using hperm.map fst
    obtain ⟨hid, hnodup⟩ := nodup_cons.1 (hids.nodup_iff.1 (h.nodup_ids p))
    have hdisj := (nodup_append'.1 hnodup).2.2
    -- what leaves was in the tree of `p`, and is no longer there
    have hgone : ∀ x, x = id ∨ x ∈ obsoleteEdges.map fst → x ∈ (f.tree p).ids ∧ x ∉ t.ids := by
      rintro x (rfl | hx)
      · exact ⟨hids.mem_iff.2 mem_cons_self, fun hx ↦ hid (mem_append_left _ hx)⟩
      · exact ⟨hids.mem_iff.2 (mem_cons_of_mem _ (mem_append_right _ hx)), fun hx' ↦ hdisj hx' hx⟩
    refine ⟨fun x hx ↦ ?_, fun q x parent ↦ ?_, fun q ↦ ?_, fun q root hq ↦ ?_⟩
    · obtain ⟨d, hd, -⟩ := h.mem_ids.1 (hgone x (.inr hx)).1
      simp [hd]
    · rw [htree q]
      split_ifs with hq
      · subst hq
        rw [hperm.mem_iff, mem_cons, mem_append]
        constructor
        · intro hx
          exact ⟨.inr (.inl hx), fun hg ↦ (hgone x hg).2 (mem_map_of_mem hx)⟩
        · rintro ⟨hx | hx | hx, hnot⟩
          · exact absurd (.inl (congrArg fst hx)) hnot
          · exact hx
          · exact absurd (.inr (mem_map_of_mem hx)) hnot
      · refine ⟨fun hx ↦ ⟨hx, fun hg ↦ hq ?_⟩, And.left⟩
        -- a proposal has one purpose
        obtain ⟨d, hd, hdq, -⟩ := h.mem_edges.1 hx
        obtain ⟨d', hd', hdp⟩ := h.mem_ids.1 (hgone x hg).1
        obtain rfl : d = d' := some.inj (hd.symm.trans hd')
        exact some.inj (hdq.symm.trans hdp)
    · rw [htree q]
      split_ifs
      · exact hnodup.of_append_left
      · exact h.nodup_ids q
    · rw [htree q] at hq
      split_ifs at hq
      · exact .inr (some.inj (hq.symm.trans hroot))
      · exact .inl hq

theorem WellFormed.enact (h : f.WellFormed rows) (hc : f.proposals.get? id = some c)
    (henact : f.enact id c.proposal = .ok f') : f'.WellFormed rows := by
  obtain ⟨obsolete, hpruned, hproposals, hobs, hedges, hnodup, hroot⟩ := h.enact_edges hc henact
  -- what is still in the table was there before, and did not leave
  have hstill : ∀ {x c}, f'.proposals.get? x = some c →
      f.proposals.get? x = some c ∧ ¬ (x = id ∨ x ∈ obsolete) := by
    intro x c hx
    rw [hproposals] at hx
    split_ifs at hx with hg
    exact ⟨hx, hg⟩
  refine
    { mem_edges := fun {q x parent} ↦ ?_
      nodup_ids := hnodup
      pruned_notMem := fun {x} hx ↦ ?_
      root_notMem := fun {q root} hq ↦ ?_
      root_ratified := fun {q root} hq ↦ ?_
      row_of_mem := fun hx ↦ h.row_of_mem (hstill hx).1
      mem_of_row := fun {x row} hx ↦ ?_
      pointer_lt := fun hx hpar hy ↦ h.pointer_lt (hstill hx).1 hpar (hstill hy).1 }
  · rw [hedges, h.mem_edges, hproposals]
    split_ifs with hg <;> simp [hg]
  · rw [hproposals]
    split_ifs with hg
    · rfl
    · rw [hpruned, if_neg (fun h ↦ hg (.inl h)), if_neg (fun h ↦ hg (.inr h))] at hx
      exact h.pruned_notMem hx
  · rw [hproposals]
    split_ifs with hg
    · rfl
    · rcases hroot q root hq with hold | rfl
      · exact h.root_notMem hold
      · exact absurd (.inl rfl) hg
  · rw [hpruned]
    split_ifs with hid hob
    · simp
    · rcases hroot q root hq with hold | rfl
      · have := hobs root hob
        simp [h.root_notMem hold] at this
      · exact absurd rfl hid
    · rcases hroot q root hq with hold | rfl
      · exact h.root_ratified hold
      · exact absurd rfl hid
  · rw [hproposals, hpruned]
    by_cases hid : x = id
    · simp [hid]
    · by_cases hob : x ∈ obsolete
      · simp [hid, hob]
      · simpa [hid, hob] using h.mem_of_row hx

/-- A move of a round: consider the next proposal, or enact one. -/
inductive Move : ProposalsForest → ProposalsForest → Prop
  | next (f : ProposalsForest) (protocolParameters : ProtocolParameters) :
    Move f (f.next protocolParameters).2
  | enact {f f' : ProposalsForest} {id c} :
    f.proposals.get? id = some c → f.enact id c.proposal = .ok f' → Move f f'

/-- A round: any sequence of moves. -/
def Round : ProposalsForest → ProposalsForest → Prop := Relation.ReflTransGen Move

theorem WellFormed.round (h : f.WellFormed rows) (hround : Round f g) : g.WellFormed rows := by
  induction hround with
  | refl => exact h
  | tail _ hmove ih =>
    cases hmove with
    | next protocolParameters => exact ih.next protocolParameters
    | enact hc henact => exact ih.enact hc henact

/-! ### Building the forest -/

theorem wellFormed_new (epoch : ℕ) (roots : ProposalsRoots) (treasury : ℕ) :
    (new epoch roots treasury).WellFormed [] where
  mem_edges {p x parent} := by
    rw [tree_new]
    exact ⟨nofun, fun ⟨c, hc, _⟩ ↦ by simp [new] at hc⟩
  nodup_ids p := by
    simp [tree_new, ProposalsTree.new, ProposalsTree.ids, ProposalsTree.edges, Sibling.edgesAmong]
  pruned_notMem _ := rfl
  root_notMem _ := rfl
  root_ratified _ := by simp [new]
  row_of_mem h := by simp [new] at h
  mem_of_row h := absurd h not_mem_nil
  pointer_lt h := by simp [new] at h

theorem root_of_insert (p : Purpose)
    (h : f.insert eraHistory id row.validUntil row.proposedIn row.governanceAction = .ok f') :
    (f'.tree p).root = (f.tree p).root := by
  obtain ⟨-, -, -, htree⟩ := insert_eq_ok h
  by_cases hp : row.governanceAction.toProposalEnum.purpose = some p
  · exact (insert_edges ((htree p).1 hp)).2.1
  · rw [(htree p).2 hp]

theorem WellFormed.insert (h : f.WellFormed rows)
    (hins : f.insert eraHistory id row.validUntil row.proposedIn row.governanceAction = .ok f')
    (hid : id ∉ rows.map Prod.fst) (hroot : ∀ p, (f.tree p).root ≠ some id)
    (hlt : ∀ r ∈ rows, r.2.proposedIn < row.proposedIn) (hpruned : f.pruned.get? id = none) :
    f'.WellFormed (rows ++ [(id, row)]) := by
  obtain ⟨⟨epoch, hproposals⟩, hpr, -, htree⟩ := insert_eq_ok hins
  have hnone : f.proposals.get? id = none := by
    rw [eq_none_iff_forall_ne_some]
    intro c hc
    obtain ⟨r, hr, -⟩ := h.row_of_mem hc
    exact hid (mem_map_of_mem hr)
  have hget : ∀ x, f'.proposals.get? x = if x = id then
      some ⟨epoch, row.validUntil, row.proposedIn, row.proposal⟩ else f.proposals.get? x :=
    fun x ↦ by rw [hproposals, get?_insert]; rfl
  have hrow : row.governanceAction.toProposalEnum = row.proposal := rfl
  rw [hrow] at htree
  have hmem : ∀ p x parent, (x, parent) ∈ (f'.tree p).edges ↔
      (row.proposal.purpose = some p ∧ x = id ∧ row.proposal.parent = parent) ∨
        (x, parent) ∈ (f.tree p).edges := fun p x parent ↦ by
    by_cases hp : row.proposal.purpose = some p
    · rw [(insert_edges ((htree p).1 hp)).1.mem_iff, mem_cons, Prod.mk.injEq]
      simp [hp, eq_comm]
    · simp [(htree p).2 hp, hp]
  -- the new identifier is in no tree, and no earlier proposal names it as its parent
  have hfresh : ∀ p, id ∉ (f.tree p).ids := fun p hin ↦ by
    obtain ⟨c, hc, -⟩ := h.mem_ids.1 hin
    simp [hnone] at hc
  refine
    { mem_edges := fun {p x parent} ↦ ?_
      nodup_ids := fun p ↦ ?_
      pruned_notMem := fun {x} hx ↦ ?_
      root_notMem := fun {p root} hp ↦ ?_
      root_ratified := fun hp ↦ by rw [hpr]; exact h.root_ratified ((root_of_insert _ hins).symm.trans hp)
      row_of_mem := fun {x c} hx ↦ ?_
      mem_of_row := fun {x r} hx ↦ ?_
      pointer_lt := fun {x c y d} hx hpar hy ↦ ?_ }
  · rw [hmem, h.mem_edges, hget]
    by_cases hx : x = id
    · simp [hx, hnone]
    · simp [hx]
  · by_cases hp : row.proposal.purpose = some p
    · have hperm := ((insert_edges ((htree p).1 hp)).1.map Prod.fst)
      rw [ids, hperm.nodup_iff, map_cons, nodup_cons]
      exact ⟨hfresh p, h.nodup_ids p⟩
    · rw [(htree p).2 hp]
      exact h.nodup_ids p
  · rw [hpr] at hx
    rw [hget, if_neg (fun heq ↦ by rw [heq, hpruned] at hx; simp at hx)]
    exact h.pruned_notMem hx
  · rw [root_of_insert p hins] at hp
    rw [hget, if_neg (fun heq : root = id ↦ hroot p (heq ▸ hp))]
    exact h.root_notMem hp
  · rw [hget] at hx
    split_ifs at hx with heq
    · cases hx
      exact ⟨row, by simp [heq], rfl, rfl⟩
    · obtain ⟨r, hr, hrest⟩ := h.row_of_mem hx
      exact ⟨r, mem_append_left _ hr, hrest⟩
  · rw [hget, hpr]
    split_ifs with heq
    · exact .inl rfl
    · refine h.mem_of_row ((mem_append.1 hx).resolve_right fun hx ↦ heq ?_)
      exact congrArg Prod.fst (mem_singleton.1 hx)
  · rw [hget] at hx hy
    split_ifs at hy with heqy
    · split_ifs at hx with heqx
      · -- a tree does not know the identifier it is about to insert
        cases hx
        obtain ⟨p, hp⟩ := exists_purpose_of_parent hpar
        obtain ⟨-, -, hknows, -⟩ := insert_edges ((htree p).1 hp)
        rw [hpar, heqy] at hknows
        rcases hknows with hrt | ⟨z, hz, heq⟩
        · exact absurd hrt.symm (hroot p)
        · exact absurd (some.inj heq ▸ hz) (hfresh p)
      · subst heqy
        obtain ⟨p, hp⟩ := exists_purpose_of_parent hpar
        rcases h.parent hx hp with hrt | ⟨z, e, hz, he, -⟩
        · exact absurd (hrt.symm.trans hpar) (hroot p)
        · obtain rfl := some.inj (hz.symm.trans hpar)
          simp [hnone] at he
    · split_ifs at hx with heqx
      · cases hx
        obtain ⟨r, hr, hptr, -⟩ := h.row_of_mem hy
        rw [hptr]
        exact hlt _ hr
      · exact h.pointer_lt hx hpar hy

/-- What holds while a forest is being built: the roots are the initial ones and nothing is pruned
yet. -/
structure Building (roots : ProposalsRoots) (rows : List (ProposalId × CandidateProposal))
    (f : ProposalsForest) : Prop where
  wellFormed : f.WellFormed rows
  root : ∀ p, (f.tree p).root = roots.rootOf p
  pruned : f.pruned = ∅

theorem building_new (epoch : ℕ) (roots : ProposalsRoots) (treasury : ℕ) :
    Building roots [] (new epoch roots treasury) where
  wellFormed := wellFormed_new epoch roots treasury
  root p := by rw [tree_new]; rfl
  pruned := rfl

theorem drainOrder_perm (rows : List (ProposalId × CandidateProposal)) : (drainOrder rows).Perm rows :=
  perm_insertionSort _ _

theorem drainOrder_pairwise (rows : List (ProposalId × CandidateProposal)) :
    (drainOrder rows).Pairwise fun a b ↦ a.2.proposedIn ≤ b.2.proposedIn := by
  exact pairwise_insertionSort _ _

theorem Building.drainStep {row} (h : Building roots done f)
    (hstep : drainStep epoch eraHistory f row = .ok f') (hadm : Admissible roots (done ++ [row]))
    (hlt : ∀ r ∈ done, r.2.proposedIn < row.2.proposedIn) :
    Building roots (done ++ [row]) f' := by
  rw [ProposalsForest.drainStep] at hstep
  split_ifs at hstep
  have hid : row.1 ∉ done.map fst := by
    have := hadm.nodup_ids
    rw [map_append] at this
    exact fun hin ↦ (nodup_append'.1 this).2.2 hin (by simp)
  have hroot : ∀ p, (f.tree p).root ≠ some row.1 := fun p hp ↦
    hadm.root_notMem p row.1 (h.root p ▸ hp) (by simp)
  obtain ⟨-, hpr, -, -⟩ := insert_eq_ok hstep
  exact ⟨h.wellFormed.insert hstep hid hroot hlt (by rw [h.pruned]; rfl),
    fun p ↦ (root_of_insert p hstep).trans (h.root p), hpr.trans h.pruned⟩

/-- While `drain` runs, the forest holds exactly the rows done so far. -/
theorem building_of_foldlM (hadm : Admissible roots rows)
    (hf : Building roots [] f) (hinit : done <+: drainOrder rows)
    (h : done.foldlM (drainStep epoch eraHistory) f = .ok f') :
    Building roots done f' := by
  revert hinit
  refine Except.foldlM_invariant h (fun _ ↦ hf) fun done row g g' hg hstep hpre ↦ ?_
  have hdone : done <+: drainOrder rows := (prefix_append _ _).trans hpre
  have hadm' := hadm.of_initial (drainOrder_perm rows) hpre
  refine (hg hdone).drainStep hstep hadm' fun r hr ↦ ?_
  have hpair := (drainOrder_pairwise rows).sublist hpre.sublist
  refine lt_of_le_of_ne ((pairwise_append.1 hpair).2.2 r hr row (by simp)) fun heq ↦ ?_
  -- distinct rows have distinct pointers
  have hnodup := hadm'.nodup_pointers
  rw [map_append] at hnodup
  exact (nodup_append'.1 hnodup).2.2 (mem_map_of_mem hr) (by simp [heq])

/-- **A forest built from admissible rows is well formed.** -/
theorem wellFormed_of_drain (hadm : Admissible roots rows)
    (h : (new epoch roots treasury).drain eraHistory rows = .ok f) : f.WellFormed rows := by
  have hf := (building_of_foldlM hadm (building_new epoch roots treasury) prefix_rfl h).wellFormed
  exact
    { hf with
      row_of_mem := fun hx ↦ by
        obtain ⟨row, hrow, hrest⟩ := hf.row_of_mem hx
        exact ⟨row, (drainOrder_perm rows).mem_iff.1 hrow, hrest⟩
      mem_of_row := fun hx ↦ hf.mem_of_row ((drainOrder_perm rows).mem_iff.2 hx) }

/-- **When building a forest knows every parent.** It is enough that each parent is a root, or a
row of the same purpose submitted earlier. -/
theorem drain_ne_unknownParent (hadm : Admissible roots rows)
    (hparent : ∀ r ∈ rows, ∀ p, r.2.proposal.purpose = some p → r.2.proposal.parent = roots.rootOf p ∨
      ∃ r' ∈ rows, r'.2.proposal.purpose = some p ∧ r.2.proposal.parent = some r'.1 ∧ r'.2.proposedIn <
      r.2.proposedIn) (id : ProposalId) (parent : Option ProposalId) :
    (new epoch roots treasury).drain eraHistory rows ≠ .error (.unknownParent id parent) := by
  intro herr
  obtain ⟨done, row, rest, g, horder, hdone, herr⟩ := Except.exists_of_foldlM_eq_error herr
  have hinit : done <+: drainOrder rows := ⟨row :: rest, horder.symm⟩
  have hg := building_of_foldlM hadm (building_new epoch roots treasury) hinit hdone
  rw [drainStep] at herr
  split_ifs at herr
  · cases herr
  obtain ⟨p, hp, herr⟩ := insert_eq_unknownParent herr
  have hmem : ∀ r, r ∈ rows ↔ r ∈ done ++ row :: rest := fun r ↦ by
    rw [← horder, (drainOrder_perm rows).mem_iff]
  refine not_knows_of_insert herr ?_
  rcases hparent row ((hmem row).2 (by simp)) p hp with hroot | ⟨r', hr', hp', hpar, hlt⟩
  · exact .inl (hroot.trans (hg.root p).symm)
  -- the parent was submitted earlier, so it has been inserted already
  have hin : r' ∈ done := by
    have hpair := drainOrder_pairwise rows
    rw [horder] at hpair
    rcases mem_append.1 ((hmem r').1 hr') with hr' | hr'
    · exact hr'
    · rcases mem_cons.1 hr' with rfl | hr'
      · exact absurd hlt (lt_irrefl _)
      · have := (pairwise_cons.1 (pairwise_append.1 hpair).2.1).1 r' hr'
        exact absurd hlt (not_lt.2 this)
  have hsome : (g.proposals.get? r'.1).isSome := by
    simpa [hg.pruned] using hg.wellFormed.mem_of_row (show (r'.1, r'.2) ∈ done from hin)
  obtain ⟨c, hc⟩ := isSome_iff_exists.1 hsome
  obtain ⟨row', hrow', -, hprop⟩ := hg.wellFormed.row_of_mem hc
  have hsame : (r'.1, row') = r' := inj_on_of_nodup_map
    (hadm.of_initial (drainOrder_perm rows) hinit).nodup_ids hrow' hin rfl
  refine .inr ⟨r'.1, hg.wellFormed.mem_ids.2 ⟨c, hc, ?_⟩, hpar⟩
  rw [hprop, show row' = r'.2 from congrArg snd hsame]
  exact hp'

/-! ### The end of a round as a marking pass -/

section

variable (f : ProposalsForest)

/-- The proposal is still there and expires now. -/
def Expires (x : ProposalId) : Prop :=
  ∃ c, f.proposals.get? x = some c ∧ c.validUntil = f.currentEpoch

/-- The parent of a proposal that is still there. -/
def parentOf (x : ProposalId) : Option ProposalId :=
  (f.proposals.get? x).bind fun c ↦ c.proposal.parent

/-- The proposals that are still there. -/
def Remaining : Set ProposalId := {x | (f.proposals.get? x).isSome}

/-- A remaining proposal that expires now, or descends from one that does. -/
def Doomed : ProposalId → Prop :=
  MarkingPass.Doomed f.Expires f.parentOf f.Remaining

/-- What is pruned without having been ratified. -/
def rejected (pruned : SortedMap ProposalId RatificationStatus) : Set ProposalId :=
  {x | pruned.get? x = some .notRatified}

theorem rejected_visitOne (pruned : SortedMap ProposalId RatificationStatus) {e}
    (he : f.proposals.get? e.1 = some e.2) :
    rejected (visitOne f.currentEpoch pruned e) =
      MarkingPass.visit f.Expires f.parentOf (rejected pruned) e.1 := by
  have hexp : f.Expires e.1 ↔ e.2.validUntil = f.currentEpoch := by simp [Expires, he]
  have hpar : f.parentOf e.1 = e.2.proposal.parent := by simp [parentOf, he]
  have hmark : rejected (pruned.insert e.1 .notRatified) = {x | x ∈ rejected pruned ∨ x = e.1} := by
    ext x
    by_cases hx : x = e.1 <;> simp [rejected, get?_insert, hx]
  rw [visitOne, MarkingPass.visit, hexp, hpar]
  split_ifs with hv
  · simp [hmark, hv]
  rcases hp : e.2.proposal.parent with - | p
  · simp [hv]
  by_cases hr : pruned.get? p = some .notRatified
  · have hp' : p ∈ rejected pruned := hr
    simp [hmark, hv, hr, hp']
  · have hp' : p ∉ rejected pruned := hr
    simp [hv, hr, hp']

theorem rejected_visit (horder : f.VisitingOrder order) :
    rejected (f.visit order) = pass f.Expires f.parentOf (rejected f.pruned) (order.map fst) := by
  have hloop : ∀ (l : List (ProposalId × WithContext ProposalEnum))
      (pruned : SortedMap ProposalId RatificationStatus),
      (∀ e ∈ l, f.proposals.get? e.1 = some e.2) →
      rejected (l.foldl (visitOne f.currentEpoch) pruned) =
        pass f.Expires f.parentOf (rejected pruned) (l.map fst) := by
    intro l
    induction l with
    | nil => exact fun _ _ ↦ rfl
    | cons e l ih =>
      intro pruned hl
      rw [foldl_cons, ih _ fun e he ↦ hl e (mem_cons_of_mem _ he),
        f.rejected_visitOne pruned (hl e mem_cons_self)]
      rfl
  exact hloop order f.pruned fun e he ↦ mem_entries_iff.1 (horder.1.mem_iff.1 he)

theorem get?_visit (order : List (ProposalId × WithContext ProposalEnum))
    (x : ProposalId) : (f.visit order).get? x = f.pruned.get? x ∨
      x ∈ order.map fst ∧ (f.visit order).get? x = some .notRatified := by
  have hone : ∀ pruned e, visitOne f.currentEpoch pruned e = pruned ∨
      visitOne f.currentEpoch pruned e = pruned.insert e.1 .notRatified := by
    intro pruned e
    rw [visitOne]
    split_ifs
    · exact .inr rfl
    · rcases e.2.proposal.parent with - | p
      · exact .inl rfl
      · exact (ite_eq_or_eq _ _ _).symm
  rw [visit]
  generalize f.pruned = pruned
  induction order generalizing pruned with
  | nil => exact .inl rfl
  | cons e order ih =>
    rw [foldl_cons, map_cons, mem_cons]
    rcases ih (visitOne f.currentEpoch pruned e) with h | h
    · rcases hone pruned e with heq | heq <;> rw [h, heq]
      · exact .inl rfl
      · rw [get?_insert]
        split_ifs with hx
        · exact .inr ⟨.inl hx, rfl⟩
        · exact .inl rfl
    · exact .inr ⟨.inr h.1, h.2⟩

end

theorem VisitingOrder.mem_map (h : f.VisitingOrder order) : x ∈ order.map fst ↔ x ∈ f.Remaining := by
  rw [(h.1.map fst).mem_iff]
  exact mem_keys_iff

theorem VisitingOrder.nodup (h : f.VisitingOrder order) : (order.map fst).Nodup :=
  (h.1.map fst).nodup_iff.2 f.proposals.nodup_keys

/-- Marks from earlier in the round are on no remaining proposal, nor on the parent of one. -/
theorem WellFormed.notMem_rejected (h : f.WellFormed rows) (hx : x ∈ f.Remaining) :
    x ∉ rejected f.pruned ∧ ∀ p ∈ f.parentOf x, p ∉ rejected f.pruned := by
  have hout : ∀ {y c}, f.proposals.get? y = some c → y ∉ rejected f.pruned := by
    intro y c hy hrej
    have := h.pruned_notMem (x := y) (by rw [show f.pruned.get? y = _ from hrej]; rfl)
    rw [hy] at this
    simp at this
  obtain ⟨c, hc⟩ := isSome_iff_exists.1 hx
  refine ⟨hout hc, fun p hp ↦ ?_⟩
  have hpar : c.proposal.parent = some p := by simpa [parentOf, hc] using hp
  obtain ⟨q, hq⟩ := exists_purpose_of_parent hpar
  rcases h.parent hc hq with hroot | ⟨y, d, hy, hd, -⟩
  · exact h.root_ratified (hroot.symm.trans hpar)
  · obtain rfl := some.inj (hy.symm.trans hpar)
    exact hout hd

/-! ### Survivors -/

/-- The rows that stay in the ledger. -/
def survivors (rows : List (ProposalId × CandidateProposal))
    (pruned : SortedMap ProposalId RatificationStatus) : List (ProposalId × CandidateProposal) :=
  rows.filter fun row ↦ !pruned.contains row.1

/-- The parent of every row is the root of its purpose, or another of the rows. -/
def ClosedUnderDescendants (roots : ProposalsRoots) (rows : List (ProposalId × CandidateProposal)) : Prop :=
  ∀ r ∈ rows, ∀ p, r.2.proposal.purpose = some p →
    r.2.proposal.parent = roots.rootOf p ∨
      ∃ r' ∈ rows, r'.2.proposal.purpose = some p ∧ r.2.proposal.parent = some r'.1

/-- Rows submitted since: they have identifiers and places of their own, and parents that are valid
for the ledger, submitted before them. -/
structure ValidSubmissions (roots : ProposalsRoots)
    (kept fresh : List (ProposalId × CandidateProposal)) : Prop where
  nodup_ids : ((kept ++ fresh).map fst).Nodup
  nodup_pointers : ((kept ++ fresh).map fun row ↦ row.2.proposedIn).Nodup
  root_notMem : ∀ p root, roots.rootOf p = some root → root ∉ fresh.map fst
  parent : ∀ r ∈ fresh, ∀ p, r.2.proposal.purpose = some p →
    r.2.proposal.parent = roots.rootOf p ∨ ∃ r' ∈ kept ++ fresh, r'.2.proposal.purpose = some p ∧
      r.2.proposal.parent = some r'.1 ∧ r'.2.proposedIn < r.2.proposedIn

/-- The forest of the next epoch, built from what was kept and any valid submissions, never lacks a
parent. -/
def NextForestBuilds (eraHistory : EraHistory) (epoch : ℕ) (roots : ProposalsRoots)
    (kept : List (ProposalId × CandidateProposal)) : Prop :=
  ∀ (treasury : ℕ) (fresh rows : List (ProposalId × CandidateProposal)),
    ValidSubmissions roots kept fresh → rows.Perm (kept ++ fresh) → ∀ id parent,
      (new epoch roots treasury).drain eraHistory rows ≠ .error (.unknownParent id parent)

theorem WellFormed.mem_survivors (h : f.WellFormed rows) (hnodup : (rows.map fst).Nodup)
    (horder : f.VisitingOrder order) {r} :
    r ∈ survivors rows (f.visit order) ↔
      r ∈ rows ∧ r.1 ∉ rejected (f.visit order) ∧
        ∃ c, f.proposals.get? r.1 = some c ∧ c.proposal = r.2.proposal ∧ c.pointer = r.2.proposedIn := by
  have hcontains : (!(f.visit order).contains r.1) = true ↔ (f.visit order).get? r.1 = none := by
    simp [SortedMap.contains]
  rw [survivors, mem_filter, hcontains]
  constructor
  · rintro ⟨hr, hnone⟩
    have hrem : r.1 ∈ f.Remaining := by
      refine (h.mem_of_row (show (r.1, r.2) ∈ rows from hr)).resolve_right fun hpr ↦ ?_
      have hnot : r.1 ∉ order.map fst := fun hin ↦ by
        have := horder.mem_map.1 hin
        simp [Remaining, h.pruned_notMem hpr] at this
      rw [(f.get?_visit order r.1).resolve_right fun h ↦ hnot h.1] at hnone
      simp [hnone] at hpr
    obtain ⟨c, hc⟩ := isSome_iff_exists.1 hrem
    obtain ⟨row, hrow, hptr, hprop⟩ := h.row_of_mem hc
    have hsame : (r.1, row) = r := inj_on_of_nodup_map hnodup hrow hr rfl
    rw [show row = r.2 from congrArg snd hsame] at hptr hprop
    exact ⟨hr, by simp [rejected, hnone], c, hc, hprop, hptr⟩
  · rintro ⟨hr, hrej, c, hc, -⟩
    have hpruned : f.pruned.get? r.1 = none := by
      by_contra hne
      have := h.pruned_notMem (isSome_iff_ne_none.2 hne)
      simp [hc] at this
    refine ⟨hr, ?_⟩
    exact ((f.get?_visit order r.1).resolve_right fun h ↦ hrej h.2).trans hpruned

/-- For survivors, being closed is a statement about the marks. -/
theorem WellFormed.closed_iff (h : f.WellFormed rows) (hnodup : (rows.map fst).Nodup)
    (horder : f.VisitingOrder order) :
    ClosedUnderDescendants f.roots (survivors rows (f.visit order)) ↔
      ∀ x ∈ f.Remaining, x ∉ rejected (f.visit order) →
        ∀ p ∈ f.Remaining, f.parentOf x = some p → p ∉ rejected (f.visit order) := by
  -- the row of a remaining proposal
  have hrow : ∀ {x c}, f.proposals.get? x = some c → x ∉ rejected (f.visit order) →
      ∃ row, (x, row) ∈ survivors rows (f.visit order) ∧ c.proposal = row.proposal := by
    intro x c hc hx
    obtain ⟨row, hrow, hptr, hprop⟩ := h.row_of_mem hc
    exact ⟨row, (h.mem_survivors hnodup horder).2 ⟨hrow, hx, c, hc, hprop, hptr⟩, hprop⟩
  constructor
  · intro hclosed x hx hnot p hp hpar
    obtain ⟨c, hc⟩ := isSome_iff_exists.1 hx
    obtain ⟨d, hd⟩ := isSome_iff_exists.1 hp
    have hparent : c.proposal.parent = some p := by simpa [parentOf, hc] using hpar
    obtain ⟨q, hq⟩ := exists_purpose_of_parent hparent
    obtain ⟨row, hmem, hprop⟩ := hrow hc hnot
    rcases hclosed (x, row) hmem q (hprop ▸ hq) with hroot | ⟨r', hr', -, hr'par⟩
    · rw [← hprop, hparent, rootOf_roots] at hroot
      simp [h.root_notMem hroot.symm] at hd
    · rw [← hprop, hparent] at hr'par
      cases hr'par
      exact ((h.mem_survivors hnodup horder).1 hr').2.1
  · intro hmarks r hr p hp
    obtain ⟨-, hnot, c, hc, hprop, -⟩ := (h.mem_survivors hnodup horder).1 hr
    rw [← hprop] at hp ⊢
    rcases h.parent hc hp with hroot | ⟨y, d, hy, hd, hdp⟩
    · exact .inl (hroot.trans (f.rootOf_roots p).symm)
    · have hyrej := hmarks r.1 (by simp [Remaining, hc]) hnot y (by simp [Remaining, hd])
        (by simp [parentOf, hc, hy])
      obtain ⟨row, hmem, hrowp⟩ := hrow hd hyrej
      exact .inr ⟨(y, row), hmem, hrowp ▸ hdp, hy⟩

/-- **The condition.** A remaining proposal that does not expire now was submitted in a later epoch
than its parent, if the parent is doomed. -/
def ParentsVisitedFirst (f : ProposalsForest) : Prop :=
  ∀ x c p d, f.proposals.get? x = some c → c.validUntil ≠ f.currentEpoch →
    c.proposal.parent = some p → f.proposals.get? p = some d → f.Doomed p →
    d.proposedIn < c.proposedIn

/-- Under the condition, every visiting order is closed. -/
theorem WellFormed.closed_of_parentsVisitedFirst (h : f.WellFormed rows)
    (hnodup : (rows.map fst).Nodup) (hfirst : f.ParentsVisitedFirst)
    (horder : f.VisitingOrder order) :
    ClosedUnderDescendants f.roots (survivors rows (f.visit order)) := by
  rw [h.closed_iff hnodup horder, f.rejected_visit horder]
  have hset : {x | x ∈ order.map fst} = f.Remaining := Set.ext fun x ↦ horder.mem_map
  have hmem : ∀ x ∈ order.map fst, x ∈ f.Remaining := fun x ↦ horder.mem_map.1
  intro x hx hnot p hp hpar hmark
  -- a marked parent is doomed, hence so is `x`, which the pass must then have marked
  have hdoomed : f.Doomed p := by
    have := pass_sound horder.nodup (fun y hy ↦ (h.notMem_rejected (hmem y hy)).1)
      (fun y hy ↦ (h.notMem_rejected (hmem y hy)).2) (horder.mem_map.2 hp) hmark
    rwa [hset] at this
  refine hnot (pass_complete horder.nodup
    (fun y hy ↦ (h.notMem_rejected (hmem y hy)).1) ?_ (hset ▸ .child hx hpar hdoomed))
  intro l c m q horder' hexp hcq hq
  rw [hset] at hq
  obtain ⟨cc, hcc⟩ := isSome_iff_exists.1 (hmem c (by rw [horder']; simp))
  obtain ⟨qc, hqc⟩ := isSome_iff_exists.1 hq.mem
  have hlt : qc.proposedIn < cc.proposedIn :=
    hfirst c cc q qc hcc (fun hv ↦ hexp ⟨cc, hcc, hv⟩) (by simpa [parentOf, hcc] using hcq) hqc hq
  -- later in the order means a later epoch
  obtain ⟨ol, orest, rfl, hol, horest⟩ := map_eq_append_iff.1 horder'
  obtain ⟨e, om, rfl, rfl, hom⟩ := map_eq_cons_iff.1 horest
  have hentry : ∀ b ∈ ol ++ e :: om, f.proposals.get? b.1 = some b.2 := fun b hb ↦
    mem_entries_iff.1 (horder.1.mem_iff.1 hb)
  have he : e.2 = cc := some.inj ((hentry e (by simp)).symm.trans hcc)
  have hqin : q ∈ (ol ++ e :: om).map fst := horder.mem_map.2 hq.mem
  obtain ⟨b, hb, rfl⟩ := mem_map.1 hqin
  have hbq : b.2 = qc := some.inj ((hentry b hb).symm.trans hqc)
  have hpair := (pairwise_cons.1 (pairwise_append.1 horder.2).2.1).1
  rcases mem_append.1 hb with hb | hb
  · exact hol ▸ mem_map_of_mem hb
  rcases mem_cons.1 hb with rfl | hb
  · rw [he] at hbq
    rw [hbq] at hlt
    exact absurd hlt (lt_irrefl _)
  · have := hpair b hb
    rw [hbq, he] at this
    omega

/-- Two remaining proposals may be visited in any order that their epochs allow. -/
theorem exists_order_before (f : ProposalsForest) {p d} (hc : f.proposals.get? x = some c)
    (hd : f.proposals.get? p = some d) (hne : x ≠ p) (hle : c.proposedIn ≤ d.proposedIn) :
    ∃ order, f.VisitingOrder order ∧ ∃ l m, order.map fst = l ++ x :: m ∧ p ∈ m := by
  -- sort the entries with that of `x` put first
  have hperm : ((x, c) :: f.proposals.entries.erase (x, c)).Perm f.proposals.entries :=
    (perm_cons_erase (mem_entries_iff.2 hc)).symm
  have hmem : (p, d) ∈ f.proposals.entries.erase (x, c) :=
    (mem_erase_of_ne fun heq ↦ hne (congrArg fst heq).symm).2 (mem_entries_iff.2 hd)
  have horder := f.visitingOrder_insertionSort hperm
  refine ⟨_, horder, ?_⟩
  have hsub := pair_sublist_insertionSort
    (r := fun a b : ProposalId × WithContext ProposalEnum ↦ a.2.proposedIn ≤ b.2.proposedIn)
    (a := (x, c)) (b := (p, d)) hle
    ((singleton_sublist.2 hmem).cons_cons (x, c))
  obtain ⟨r₁, r₂, hsplit, hx, hp⟩ := cons_sublist_iff.1 (hsub.map fst)
  obtain ⟨l, t, rfl⟩ := append_of_mem hx
  exact ⟨l, t ++ r₂, by simpa using hsplit, mem_append_right _ (singleton_sublist.1 hp)⟩

/-- Closed survivors, with any valid submissions, build the next forest. -/
theorem WellFormed.nextForestBuilds (h : f.WellFormed rows) (hadm : Admissible roots rows)
    (horder : f.VisitingOrder order)
    (hclosed : ClosedUnderDescendants f.roots (survivors rows (f.visit order)))
    (eraHistory : EraHistory) (epoch : ℕ) :
    NextForestBuilds eraHistory epoch f.roots (survivors rows (f.visit order)) := by
  intro treasury fresh next hfresh hperm id parent
  set kept := survivors rows (f.visit order) with hkept
  have hmem : ∀ r, r ∈ next ↔ r ∈ kept ++ fresh := fun r ↦ hperm.mem_iff
  have hadm' : Admissible f.roots next :=
    { nodup_ids := (hperm.map _).nodup_iff.2 hfresh.nodup_ids
      nodup_pointers := (hperm.map _).nodup_iff.2 hfresh.nodup_pointers
      root_notMem := fun p root hroot hin ↦ by
        obtain ⟨r, hr, rfl⟩ := mem_map.1 hin
        rcases mem_append.1 ((hmem r).1 hr) with hr | hr
        · obtain ⟨-, -, c, hc, -⟩ := (h.mem_survivors hadm.nodup_ids horder).1 hr
          simp [h.root_notMem (f.rootOf_roots p ▸ hroot)] at hc
        · exact hfresh.root_notMem p _ hroot (mem_map_of_mem hr) }
  refine drain_ne_unknownParent hadm' (fun r hr p hp ↦ ?_) id parent
  rcases mem_append.1 ((hmem r).1 hr) with hr | hr
  · refine (hclosed r hr p hp).imp_right fun ⟨r', hr', hp', hpar⟩ ↦
      ⟨r', (hmem r').2 (mem_append_left _ hr'), hp', hpar, ?_⟩
    obtain ⟨-, -, c, hc, hprop, hptr⟩ := (h.mem_survivors hadm.nodup_ids horder).1 hr
    obtain ⟨-, -, c', hc', -, hptr'⟩ := (h.mem_survivors hadm.nodup_ids horder).1 hr'
    rw [← hptr, ← hptr']
    exact h.pointer_lt hc (hprop ▸ hpar) hc'
  · refine (hfresh.parent r hr p hp).imp_right fun ⟨r', hr', hrest⟩ ↦ ⟨r', (hmem r').2 hr', hrest⟩

/-- If every visiting order is closed, the condition holds: otherwise a proposal may be visited
before its doomed parent, and escapes. -/
theorem WellFormed.parentsVisitedFirst_of_closed (h : f.WellFormed rows) (hnodup : (rows.map fst).Nodup)
    (hclosed : ∀ order, f.VisitingOrder order → ClosedUnderDescendants f.roots
      (survivors rows (f.visit order))) :
    f.ParentsVisitedFirst := by
  intro x c p d hc hexp hpar hd hdoomed
  by_contra hle
  have hx : x ∈ f.Remaining := by simp [Remaining, hc]
  have hp : p ∈ f.Remaining := by simp [Remaining, hd]
  have hparent : f.parentOf x = some p := by simp [parentOf, hc, hpar]
  have hnotexp : ¬ f.Expires x := by simpa [Expires, hc] using hexp
  -- a closed marking holds everything doomed, so `x` is marked in every order
  have hall : ∀ order, f.VisitingOrder order → ∀ {y}, f.Doomed y → y ∈ rejected (f.visit order) := by
    intro order horder y hy
    refine MarkingPass.Doomed.mem_of_closed (fun a ha hs ↦ ?_)
      ((h.closed_iff hnodup horder).1 (hclosed order horder)) hy
    obtain ⟨l, m, hsplit, hl, hm⟩ :=
      exists_split horder.nodup (horder.mem_map.2 ha)
    rw [f.rejected_visit horder, hsplit]
    exact (mem_pass_iff hl hm (h.notMem_rejected ha).1).2 (.inl hs)
  have hne : x ≠ p := by
    rintro rfl
    exact absurd (h.pointer_lt hc hpar hc) (lt_irrefl _)
  obtain ⟨order, horder, l, m, hsplit, hpm⟩ := f.exists_order_before hc hd hne (not_lt.1 hle)
  have hnot := notMem_pass (hsplit ▸ horder.nodup) (h.notMem_rejected hx).1
    (h.notMem_rejected hp).1 hnotexp hparent hpm
  rw [← hsplit, ← f.rejected_visit horder] at hnot
  exact hnot (hall order horder (.child hx hparent hdoomed))

/-- **Pruning is closed under descendants exactly under the condition.** For every forest built
from admissible rows and taken through any round: whatever way the unstable sort of `end` orders the
proposals of one epoch, the survivors are closed and the next forest builds, if and only if no
remaining proposal that outlives this epoch has a doomed parent of its own submission epoch. -/
theorem survivors_closed_iff {f₀ : ProposalsForest} (hadm : Admissible roots rows)
    (hdrain : (new epoch roots treasury).drain eraHistory rows = .ok f₀) (hround : Round f₀ f) :
    (∀ pruned, f.Ends pruned →
        ClosedUnderDescendants f.roots (survivors rows pruned) ∧
          NextForestBuilds eraHistory (f.currentEpoch + 1) f.roots (survivors rows pruned)) ↔
      f.ParentsVisitedFirst := by
  have h : f.WellFormed rows := (wellFormed_of_drain hadm hdrain).round hround
  constructor
  · intro hall
    exact h.parentsVisitedFirst_of_closed hadm.nodup_ids fun order horder ↦
      (hall _ ⟨order, horder, rfl⟩).1
  · rintro hfirst pruned ⟨order, horder, rfl⟩
    have hclosed := h.closed_of_parentsVisitedFirst hadm.nodup_ids hfirst horder
    exact ⟨hclosed, h.nextForestBuilds hadm horder hclosed eraHistory _⟩

/-- A calendar of one era, with epochs of ten slots. -/
def tenSlotEpochs : EraHistory where
  stabilityWindow := 30
  eras := [⟨⟨0, 0, 0⟩, none, ⟨10, 1⟩⟩]

/-- A row asking for a motion of no confidence. -/
def noConfidenceRow (id slot validUntil : ℕ) (parent : Option ℕ) : ProposalId × CandidateProposal :=
  (⟨id, 0⟩, { validUntil
              proposedIn := ⟨⟨slot, 0⟩, 0⟩
              governanceAction := .noConfidence (parent.map (⟨·, 0⟩)) })

/-- A chain of three motions: the first was submitted in epoch 3 and expires in epoch 5; its child
and grandchild were submitted in epoch 4, and the grandchild has the smaller identifier. -/
def threeMotions : List (ProposalId × CandidateProposal) :=
  [noConfidenceRow 1 30 5 none, noConfidenceRow 3 40 6 (some 1), noConfidenceRow 2 41 6 (some 3)]

/-- **An orphaned grandchild.** At the end of epoch 5 the first motion expires and its child goes
with it, but the grandchild was visited before the child and stays. The next forest does not build:
the parent of the grandchild is unknown. -/
theorem orphaned_grandchild :
    ∃ f, (new 5 {} 0).drain tenSlotEpochs threeMotions = .ok f ∧ Round f f ∧ f.Ends f.end_ ∧
      survivors threeMotions f.end_ = [noConfidenceRow 2 41 6 (some 3)] ∧
      ¬ ClosedUnderDescendants f.roots (survivors threeMotions f.end_) ∧
      (new 6 f.roots 0).drain tenSlotEpochs (survivors threeMotions f.end_) =
        .error (.unknownParent ⟨2, 0⟩ (some ⟨3, 0⟩)) := by
  refine ⟨_, rfl, .refl, ends_end_ _, by decide, fun hclosed ↦ ?_, rfl⟩
  rcases hclosed (noConfidenceRow 2 41 6 (some 3)) (by decide) .constitutionalCommittee rfl with
    hroot | ⟨r', hr', -, hpar⟩
  · exact absurd hroot (by decide)
  · revert r'
    decide

/-- A motion and its child, submitted one epoch later. -/
def twoMotions : List (ProposalId × CandidateProposal) :=
  [noConfidenceRow 2 30 5 none, noConfidenceRow 1 40 6 (some 2)]

/-- With a child of a later epoch the condition holds, and nothing survives the expiry. -/
theorem survivors_closed_twoMotions :
    ∃ f, (new 5 {} 0).drain tenSlotEpochs twoMotions = .ok f ∧ survivors twoMotions f.end_ = [] ∧
      ((∀ pruned, f.Ends pruned →
          ClosedUnderDescendants f.roots (survivors twoMotions pruned) ∧
            NextForestBuilds tenSlotEpochs (f.currentEpoch + 1) f.roots
              (survivors twoMotions pruned)) ↔ f.ParentsVisitedFirst) := by
  obtain ⟨f, hf⟩ : ∃ f, (new 5 {} 0).drain tenSlotEpochs twoMotions = .ok f := ⟨_, rfl⟩
  refine ⟨f, hf, ?_, survivors_closed_iff ⟨by decide, by decide, fun p _ hp ↦ ?_⟩ hf .refl⟩
  swap
  · cases p <;> simp [ProposalsRoots.rootOf] at hp
  cases hf
  decide

end ProposalsForest

end Amaru
