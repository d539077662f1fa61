import Amaru.Consensus.AdoptChain

/-!
# The best chain

The store keeps the best chain as one point per slot, and its tip. **From a root on, the points that are
on it are the ancestors of the tip** (`Recorded`), and adopting a header above the root keeps it so: the
search for the fork point stops at the first ancestor that is on the best chain, and the root is one.
-/

namespace Amaru

open List SortedMap Ancestry HeaderTree Option AdoptChain

namespace HeaderTree

variable {tree : HeaderTree}

theorem pairwise_slots {path} (h : List.IsChain tree.Child path) :
    path.Pairwise fun p q ↦ p.slotOrDefault < q.slotOrDefault := by
  exact isChain_iff_pairwise.1 (h.imp fun _ _ hchild ↦ hchild.slot_lt)

end HeaderTree

namespace ChainStore

variable {Body : Type} {tree : HeaderTree} {store store' : ChainStore Body} {root p : Point}
  {path : List Point} {forkPoint : Point}

theorem isOnBestChain_iff (hp : tree.Has p) : store.isOnBestChain p = true ↔
    ∃ q, store.bestChain.get? p.slotOrDefault = some q ∧ q.hash = p.hash := by
  obtain ⟨header, -, rfl⟩ := hp
  exact (any_eq_true _ _).trans (exists_congr fun q ↦ and_congr Iff.rfl decide_eq_true_iff)

/-- From a root on, the points on the best chain are the ancestors of its tip. -/
structure Recorded (tree : HeaderTree) (root : Point) (store : ChainStore Body) : Prop where
  has : tree.Has store.bestChainTip
  root_ancestor : tree.Ancestor root store.bestChainTip
  isOnBestChain : ∀ {p}, tree.Ancestor root p → tree.Ancestor p store.bestChainTip →
    store.isOnBestChain p = true
  ancestor : ∀ {p}, tree.Has p → root.slotOrDefault ≤ p.slotOrDefault →
    store.isOnBestChain p = true → tree.Ancestor p store.bestChainTip

theorem Recorded.congr (h : store.Recorded tree root) (hchain : store'.bestChain = store.bestChain)
    (htip : store'.bestChainTip = store.bestChainTip) : store'.Recorded tree root := by
  have hon : store'.isOnBestChain = store.isOnBestChain := by
    funext p
    cases p with
    | origin => rfl
    | specific => rw [ChainStore.isOnBestChain, ChainStore.isOnBestChain, hchain]
  refine ⟨?_, ?_, ?_, ?_⟩ <;> rw [htip]
  · exact h.has
  · exact h.root_ancestor
  · rw [hon]
    exact h.isOnBestChain
  · rw [hon]
    exact h.ancestor

theorem Recorded.dragAnchorForward (h : store.Recorded tree root) (tip : Point) (consensusSecurityParam : ℕ) :
    (dragAnchorForward store tip consensusSecurityParam).Recorded tree root := by
  obtain ⟨anchor, hanchor⟩ :=
    exists_of_dragAnchorForward store tip consensusSecurityParam
  rw [hanchor]
  exact h.congr rfl rfl

/-- Realigning makes the tip of the ledger the root, if nothing is left of an empty best chain. -/
theorem recorded_of_realignChainStoreTo {clear} (hroot : tree.Has root)
    (hfresh : store.bestChainTip.hash = originHash →
      ∀ {slot p}, store.bestChain.get? slot = some p → p.hash = originHash)
    (h : store.realignChainStoreTo root clear = .ok store') : store'.Recorded tree root := by
  obtain ⟨validity, bestChain, rfl, hbest⟩ := exists_of_realignChainStoreTo h
  refine ⟨hroot, .refl, fun {p} hp hp' ↦ ?_, fun {p} hp hslot hon ↦ ?_⟩
  · obtain rfl : p = root :=
      eq_of_rank_le tree.ranked_child hp' (rank_le tree.ranked_child hp)
    refine (isOnBestChain_iff hroot).2 ?_
    rcases hbest with ⟨-, rfl⟩ | ⟨hany, rfl⟩
    · exact ⟨p, get?_insert_self .., rfl⟩
    · obtain ⟨q, hget, hhash⟩ := (any_eq_true _ _).1 hany
      refine ⟨q, ?_, of_decide_eq_true hhash⟩
      rw [get?_filter, hget]
      simp
  · -- what is on the best chain at such a slot is the root
    suffices p.hash = root.hash by rw [hp.eq_of_hash_eq hroot this]
    obtain ⟨q, hget, hhash⟩ := (isOnBestChain_iff hp).1 hon
    rcases hbest with ⟨horigin, rfl⟩ | ⟨hany, rfl⟩
    · rw [get?_insert] at hget
      split_ifs at hget with heq
      · rw [← hhash, some.inj hget]
      · obtain ⟨header, hheader, -⟩ := hp
        rw [← hhash, hfresh horigin hget, tree.header_origin] at hheader
        cases hheader
    · obtain ⟨q', hget', hhash'⟩ := (any_eq_true _ _).1 hany
      rw [get?_filter, filter_eq_some_iff, decide_eq_true_iff] at hget
      rw [le_antisymm hget.2 hslot, hget'] at hget
      rw [← hhash, ← some.inj hget.1]
      exact of_decide_eq_true hhash'

theorem Recorded.rollForwardChain (h : store.Recorded tree root)
    (hchild : tree.Child store.bestChainTip p) : (store.rollForwardChain p).Recorded tree root := by
  refine ⟨hchild.has_right, h.root_ancestor.tail hchild, fun {q} hq hq' ↦ ?_, fun {q} hq hslot hon ↦ ?_⟩
  · have hhas : tree.Has q := hchild.has_right.of_ancestor hq'
    rw [isOnBestChain_iff hhas]
    rcases eq_or_ancestor_of_child tree.leftUnique_child hchild hq' with rfl | hq'
    · exact ⟨_, get?_insert_self .., rfl⟩
    · obtain ⟨r, hget, hhash⟩ := (isOnBestChain_iff hhas).1 (h.isOnBestChain hq hq')
      refine ⟨r, ?_, hhash⟩
      have hlt := (slot_le_of_ancestor hq').trans_lt hchild.slot_lt
      exact (get?_insert_of_ne _ _ hlt.ne).trans hget
  · obtain ⟨r, hget, hhash⟩ := (isOnBestChain_iff hq).1 hon
    change (store.bestChain.insert _ _).get? _ = _ at hget
    rw [get?_insert] at hget
    split_ifs at hget with heq
    · rw [hq.eq_of_hash_eq hchild.has_right (hhash.symm.trans (congrArg _ (some.inj hget).symm))]
      exact .refl
    · exact (h.ancestor hq hslot ((isOnBestChain_iff hq).2 ⟨r, hget, hhash⟩)).tail hchild

section Replace

variable {bestChain : SortedMap ℕ Point}
  (hslots : (forkPoint :: path).Pairwise fun p q ↦ p.slotOrDefault < q.slotOrDefault) {slot : ℕ} {q : Point}

include hslots

theorem nodup_slots : (path.map Point.slotOrDefault).Nodup := by
  rw [nodup_iff_pairwise_ne, pairwise_map]
  exact (pairwise_cons.1 hslots).2.imp fun hlt ↦ hlt.ne

theorem get?_replaceAfter (slot : ℕ) : (replaceAfter bestChain forkPoint path).get? slot =
    (path.find? fun q ↦ decide (q.slotOrDefault = slot)).or
      ((bestChain.get? slot).filter fun _ ↦ decide (slot ≤ forkPoint.slotOrDefault)) := by
  rw [replaceAfter, ← get?_filter (fun slot _ ↦ decide (slot ≤ forkPoint.slotOrDefault))]
  simp only [insert_eq_alter]
  rw [get?_foldl_alter Point.slotOrDefault (fun q _ ↦ some q) slot path _ (nodup_slots hslots)]
  cases path.find? fun q ↦ decide (q.slotOrDefault = slot) <;> rfl

theorem get?_replaceAfter_of_le (hle : slot ≤ forkPoint.slotOrDefault) :
    (replaceAfter bestChain forkPoint path).get? slot = bestChain.get? slot := by
  have hnone : path.find? (fun q ↦ decide (q.slotOrDefault = slot)) = none := by
    rw [find?_eq_none]
    intro q hq
    have := (pairwise_cons.1 hslots).1 q hq
    simp only [decide_eq_true_iff]
    omega
  rw [get?_replaceAfter hslots, hnone, decide_eq_true hle, none_or]
  cases bestChain.get? slot <;> rfl

theorem mem_of_get?_replaceAfter (hlt : forkPoint.slotOrDefault < slot)
    (h : (replaceAfter bestChain forkPoint path).get? slot = some q) : q ∈ path := by
  rw [get?_replaceAfter hslots] at h
  rcases hfind : path.find? fun q ↦ decide (q.slotOrDefault = slot) with - | found
  · rw [hfind, decide_eq_false (Nat.not_le.2 hlt)] at h
    simp at h
  · rw [hfind] at h
    cases h
    exact mem_of_find?_eq_some hfind

theorem get?_replaceAfter_of_mem (hq : q ∈ path) :
    (replaceAfter bestChain forkPoint path).get? q.slotOrDefault = some q := by
  rw [get?_replaceAfter hslots]
  cases hfind : path.find? fun r ↦ decide (r.slotOrDefault = q.slotOrDefault) with
  | none => exact absurd (find?_eq_none.1 hfind q hq) (by simp)
  | some found =>
    have hslot : found.slotOrDefault = q.slotOrDefault := by simpa using find?_some hfind
    rw [inj_on_of_nodup_map (nodup_slots hslots) (mem_of_find?_eq_some hfind) hq hslot]
    rfl

end Replace

/-- Replacing the chain after a point of it by a path. -/
theorem Recorded.switchToFork (h : store.Recorded tree root)
    (hroot : tree.Ancestor root forkPoint) (hfork : tree.Ancestor forkPoint store.bestChainTip)
    (hpath : List.IsChain tree.Child (forkPoint :: path)) (hlast : path.getLast? = some p)
    (hswitch : store.switchToFork forkPoint path = some store') : store'.Recorded tree root := by
  rw [ChainStore.switchToFork, hlast] at hswitch
  split_ifs at hswitch
  cases hswitch
  have hslots := pairwise_slots hpath
  have hlast' : (forkPoint :: path).getLast? = some p := by rw [getLast?_cons, hlast]; rfl
  have hforkp : tree.Ancestor forkPoint p := ancestor_getLast hpath hlast'
  have hhas : tree.Has p := (h.has.of_ancestor hfork).of_descendant hforkp
  refine ⟨hhas, hroot.trans hforkp, fun {q} hq hq' ↦ ?_, fun {q} hq hslot hon ↦ ?_⟩
  · rw [isOnBestChain_iff (hhas.of_ancestor hq')]
    rcases Nat.lt_or_ge forkPoint.slotOrDefault q.slotOrDefault with hlt | hge
    · -- a point after the fork point is on the path
      have hafter := ancestor_of_slot_le hforkp hq' hlt.le
      have hmem := mem_of_isChain tree.ranked_child tree.leftUnique_child hpath hlast' hafter hq'
      rcases mem_cons.1 hmem with rfl | hmem
      · exact absurd hlt (lt_irrefl _)
      · exact ⟨q, get?_replaceAfter_of_mem hslots hmem, rfl⟩
    · have hbefore := ancestor_of_slot_le hq' hforkp hge
      obtain ⟨r, hget, hhash⟩ := (isOnBestChain_iff (hhas.of_ancestor hq')).1
        (h.isOnBestChain hq (hbefore.trans hfork))
      exact ⟨r, (get?_replaceAfter_of_le hslots hge).trans hget, hhash⟩
  · obtain ⟨r, hget, hhash⟩ := (isOnBestChain_iff hq).1 hon
    rcases Nat.lt_or_ge forkPoint.slotOrDefault q.slotOrDefault with hlt | hge
    · have hmem := mem_of_get?_replaceAfter hslots hlt hget
      have hr : tree.Ancestor r p :=
        ancestor_getLast_of_mem hpath hlast' (mem_cons_of_mem _ hmem)
      rw [hq.eq_of_hash_eq (hhas.of_ancestor hr) hhash.symm]
      exact hr
    · rw [ChainStore.bestChain, get?_replaceAfter_of_le hslots hge] at hget
      have hbest := h.ancestor hq hslot ((isOnBestChain_iff hq).2 ⟨r, hget, hhash⟩)
      exact (ancestor_of_slot_le hbest hfork hge).trans hforkp

/-- The path that a search finds goes from the fork point to the header it started from. -/
theorem Within.isChain_of_findAncestorOnBestChain (hstore : store.Within tree) {header}
    (hload : store.loadHeader header.hash = some header)
    (h : store.findAncestorOnBestChain header.hash = .found forkPoint path) :
    List.IsChain tree.Child (forkPoint :: path) ∧ store.isOnBestChain forkPoint = true ∧
      ∀ q ∈ path, store.isOnBestChain q = false := by
  obtain ⟨newer, ancestor, older, hsplit, rfl, hon, hnewer, rfl, -⟩ :=
    exists_of_collectToBestChain (exists_of_findAncestorOnBestChain hload h)
  have hchain := hstore.isChain_ancestors hload
  rw [hsplit, map_append, map_cons, append_cons] at hchain
  refine ⟨?_, hon, fun q hq ↦ ?_⟩
  · have hreverse := isChain_reverse.2 (isChain_append.1 hchain).1
    rw [reverse_append] at hreverse
    rw [append_nil]
    exact hreverse
  · rw [append_nil, mem_reverse] at hq
    obtain ⟨header, hheader, rfl⟩ := mem_map.1 hq
    exact hnewer header hheader

/-- **Adopting a header above the root** keeps the best chain recorded. -/
theorem Recorded.adoptBest {incoming currentBest} (h : store.Recorded tree root) (hstore : store.Within tree)
    (hload : store.loadHeader incoming.hash = some incoming)
    (hbest : store.loadHeader currentBest.hash = some currentBest)
    (hpoint : currentBest.point = store.bestChainTip) (hroot : tree.Ancestor root incoming.point)
    (hadopt : AdoptChain.adoptBest store incoming (some currentBest) = .ok store') :
    store'.Recorded tree root := by
  cases adoptsBest_of_adoptBest hadopt with
  | child hparent =>
    refine h.rollForwardChain ?_
    rw [← hpoint]
    exact hstore.child ⟨currentBest, hbest, rfl⟩ hload hparent
  | @fork _ forkPoint path _ _ hfind hswitch =>
    obtain ⟨hpath, hon, hoff⟩ := hstore.isChain_of_findAncestorOnBestChain hload hfind
    have hlast := getLast?_of_findAncestorOnBestChain hload hfind
    have hlast' : (forkPoint :: path).getLast? = some incoming.point := by
      rw [getLast?_cons, hlast]
      rfl
    have hforkp := ancestor_getLast hpath hlast'
    -- the search stops at the root at the latest
    have hfork : tree.Ancestor root forkPoint := by
      rcases ancestor_total tree.leftUnique_child hroot hforkp with hfork | hfork
      · exact hfork
      rcases mem_cons.1 (mem_of_isChain tree.ranked_child tree.leftUnique_child hpath
        hlast' hfork hroot) with rfl | hmem
      · exact .refl
      · exact absurd (h.isOnBestChain .refl h.root_ancestor) (by rw [hoff root hmem]; simp)
    have hhas : tree.Has forkPoint :=
      (((hstore.hasHeader hload).has hstore).of_ancestor hforkp)
    exact h.switchToFork hfork (h.ancestor hhas (slot_le_of_ancestor hfork) hon) hpath hlast hswitch

end ChainStore

end Amaru
