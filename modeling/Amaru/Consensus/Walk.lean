import Amaru.Consensus.ChainStore

/-!
# Walks in the chain store

The headers of a store are headers of a tree, and its walks follow the edges of that tree: a path
between two points is one (`isChain_of_ancestorsBetween`), the points that a search meets are ancestors
(`ancestor_of_mem_ancestors`), and **a walk does not go below the anchor when it starts above it**
(`anchor_ancestor_of_mem`).
-/

namespace Amaru

open List Option Header

namespace ChainStore

variable {Body : Type} {tree : HeaderTree} {s : ChainStore Body} {hash : ℕ} {h ancestor : Header}
  {path : List Point} {fork start : Point} {s' : ChainStore Body} {header : Header} {p : Point}

/-- The store holds headers of the tree, and bodies of their blocks. -/
structure Within (tree : HeaderTree) (s : ChainStore Body) : Prop where
  header_eq : ∀ {hash h}, s.loadHeader hash = some h → tree.header hash = some h
  exists_header : ∀ {hash block}, s.loadBlock hash = some block →
    ∃ h, s.loadHeader hash = some h ∧ block.point = h.point

/-- The header at a point is stored. -/
def HasHeader (s : ChainStore Body) (p : Point) : Prop :=
  ∃ h, s.loadHeader p.hash = some h ∧ h.point = p

section

variable (hstore : s.Within tree)
include hstore

theorem Within.hash_eq (hload : s.loadHeader hash = some h) : h.hash = hash :=
  tree.hash_eq (hstore.header_eq hload)

theorem Within.hasHeader (hload : s.loadHeader hash = some h) : s.HasHeader h.point := by
  refine ⟨h, ?_, rfl⟩
  rw [← hstore.hash_eq hload] at hload
  exact hload

theorem HasHeader.has (h : s.HasHeader p) : tree.Has p :=
  have ⟨header, hload, hpoint⟩ := h
  ⟨header, hstore.header_eq hload, hpoint⟩

theorem Within.loadHeader_origin : s.loadHeader Point.origin.hash = none := by
  rcases hload : s.loadHeader Point.origin.hash with - | header
  · rfl
  · exact absurd (tree.header_origin.symm.trans (hstore.header_eq hload)) (by simp)

theorem Within.congr (hheaders : s'.headers = s.headers)
    (hblocks : s'.blocks = s.blocks) : s'.Within tree := by
  have hload' : s'.loadHeader = s.loadHeader := by
    funext hash
    rw [loadHeader, loadHeader, hheaders]
  refine ⟨fun hload ↦ hstore.header_eq (by rwa [← hload']), fun hload ↦ ?_⟩
  rw [loadBlock, hblocks] at hload
  rw [hload']
  exact hstore.exists_header hload

end

theorem HasHeader.congr (h : s.HasHeader p)
    (hheaders : s'.headers = s.headers) : s'.HasHeader p := by
  rwa [HasHeader, loadHeader, hheaders]

/-- A store is within the tree of its headers, if it has those of its bodies. -/
theorem within_ofMap {hlinked}
    (hblocks : ∀ entry ∈ s.blocks.entries, (s.loadHeader entry.1).map point = some entry.2.point) :
    s.Within (HeaderTree.ofMap s.headers hlinked) := by
  refine ⟨id, fun hload ↦ ?_⟩
  obtain ⟨header, hheader, hpoint⟩ := map_eq_some_iff.1 (hblocks _ (SortedMap.mem_entries_iff.2 hload))
  exact ⟨header, hheader, hpoint.symm⟩

theorem Within.child (hstore : s.Within tree)
    (hp : s.HasHeader p) (hload : s.loadHeader hash = some h) (hparent : h.parent = some p.hash) :
    tree.Child p h.point := by
  obtain ⟨h', hload', rfl⟩ := hp
  obtain rfl := hstore.hash_eq hload
  exact ⟨h', h, hstore.header_eq hload', rfl, hstore.header_eq hload, rfl, hparent⟩

/-- Slots increase along each chain of stored headers. -/
def Ordered (s : ChainStore Body) : Prop :=
  ∀ ⦃hash h parent h'⦄, s.loadHeader hash = some h → h.parent = some parent →
    s.loadHeader parent = some h' → h'.slot < h.slot

theorem Within.ordered (hstore : s.Within tree) : s.Ordered := fun _ _ _ _ hload hparent hload' ↦
  (tree.linked (hstore.header_eq hload) hparent (hstore.header_eq hload')).1

/-! ### Ancestors -/

section

variable (hordered : s.Ordered) (hload : s.loadHeader hash = some h)
include hordered hload

/-- Enough steps are enough. -/
theorem Ordered.walk_eq {fuel fuel' : ℕ} (hfuel : h.slot < fuel) (hfuel' : h.slot < fuel') :
    s.walk fuel h = s.walk fuel' h := by
  induction fuel generalizing h hash fuel' with
  | zero => exact absurd hfuel (Nat.not_lt_zero _)
  | succ fuel ih =>
    rcases fuel' with - | fuel'
    · exact absurd hfuel' (Nat.not_lt_zero _)
    rw [walk, walk]
    split_ifs
    · rfl
    rcases hparent : h.parent with - | parent
    · rfl
    rcases hload' : s.loadHeader parent with - | h' <;> simp only [bind_some, hload']
    have hlt := hordered hload hparent hload'
    exact congrArg (h :: ·) (ih hload' (by omega) (by omega))

/-- The ancestors of a header are those of its parent, unless it is not after the anchor. -/
theorem Ordered.ancestors_eq_cons :
    s.ancestors h = h :: if h.slot ≤ s.anchor.slotOrDefault then []
      else match h.parent.bind s.loadHeader with
        | some parent => s.ancestors parent
        | none => [] := by
  rw [ancestors, walk]
  split_ifs
  · rfl
  rcases hparent : h.parent with - | parent
  · rfl
  rcases hload' : s.loadHeader parent with - | h' <;> simp only [bind_some, hload']
  rw [hordered.walk_eq hload' (hordered hload hparent hload') (Nat.lt_succ_self _)]
  rfl

end

section

variable (hstore : s.Within tree) (hload : s.loadHeader hash = some h)
include hstore hload

/-- What is on the way of a walk: a header, stored, and after the anchor if it has one below. -/
theorem Within.mem_ancestors (hmem : ancestor ∈ s.ancestors h) :
    ancestor = h ∨ ∃ child : Header, tree.Child ancestor.point child.point ∧
      tree.Ancestor child.point h.point ∧ s.anchor.slotOrDefault < child.slot ∧
      s.HasHeader ancestor.point := by
  induction hslot : h.slot using Nat.strong_induction_on generalizing h hash with
  | _ slot ih =>
    subst hslot
    rw [hstore.ordered.ancestors_eq_cons hload] at hmem
    rcases mem_cons.1 hmem with rfl | hmem
    · exact .inl rfl
    right
    split_ifs at hmem with hanchor
    · cases hmem
    rcases hparent : h.parent with - | parent
    · rw [hparent] at hmem; cases hmem
    rcases hload' : s.loadHeader parent with - | h'
    · simp only [hparent, bind_some, hload'] at hmem; cases hmem
    simp only [hparent, bind_some, hload'] at hmem
    obtain rfl := hstore.hash_eq hload'
    have hchild : tree.Child h'.point h.point :=
      hstore.child (hstore.hasHeader hload') hload hparent
    rcases ih h'.slot hchild.slot_lt hload' hmem rfl with rfl | ⟨child, h1, h2, h3, h4⟩
    · exact ⟨h, hchild, .refl, Nat.not_le.1 hanchor, hstore.hasHeader hload'⟩
    · exact ⟨child, h1, h2.tail hchild, h3, h4⟩

theorem Within.ancestor_of_mem (hmem : ancestor ∈ s.ancestors h) :
    tree.Ancestor ancestor.point h.point := by
  rcases hstore.mem_ancestors hload hmem with rfl | ⟨child, hchild, hancestor, -⟩
  · exact .refl
  · exact hancestor.head hchild

theorem Within.hasHeader_of_mem (hmem : ancestor ∈ s.ancestors h) : s.HasHeader ancestor.point := by
  rcases hstore.mem_ancestors hload hmem with rfl | ⟨_, -, -, -, hheader⟩
  · exact hstore.hasHeader hload
  · exact hheader

/-- **A walk that starts above the anchor does not go below it.** -/
theorem Within.anchor_ancestor_of_mem (hmem : ancestor ∈ s.ancestors h)
    (hanchor : tree.Ancestor s.anchor h.point) : tree.Ancestor s.anchor ancestor.point := by
  rcases hstore.mem_ancestors hload hmem with rfl | ⟨child, hchild, hancestor, hlt, -⟩
  · exact hanchor
  -- the child is above the anchor, so that its parent is not below
  rcases Ancestry.eq_or_ancestor_of_child tree.leftUnique_child hchild
    (HeaderTree.ancestor_of_slot_le hanchor hancestor hlt.le) with heq | h
  · rw [heq] at hlt
    exact absurd hlt (lt_irrefl _)
  · exact h

theorem Within.isChain_ancestors :
    List.IsChain (fun p q ↦ tree.Child q p) ((s.ancestors h).map point) := by
  induction hslot : h.slot using Nat.strong_induction_on generalizing h hash with
  | _ slot ih =>
    subst hslot
    rw [hstore.ordered.ancestors_eq_cons hload]
    split_ifs
    · exact .singleton _
    rcases hparent : h.parent with - | parent
    · exact .singleton _
    rcases hload' : s.loadHeader parent with - | h'
    · simp only [bind_some, hload']; exact .singleton _
    simp only [bind_some, hload']
    obtain rfl := hstore.hash_eq hload'
    have hchild := hstore.child (hstore.hasHeader hload') hload hparent
    have hrest := ih h'.slot hchild.slot_lt hload' rfl
    rw [hstore.ordered.ancestors_eq_cons hload'] at hrest ⊢
    exact .cons_cons hchild hrest

end

/-! ### Paths -/

/-- A path of stored headers: the points after one and up to a header, from parent to child. -/
inductive Path (s : ChainStore Body) (start : Point) : ℕ → List Point → Prop
  | start : Path s start start.hash []
  | child {hash parent h path} (hpath : Path s start parent path) (hload : s.loadHeader hash = some h)
    (hparent : h.parent = some parent) : Path s start hash (path ++ [h.point])

theorem exists_of_collectBetween {fuel current tips}
    (h : s.collectBetween start.slotOrDefault start.hash fuel current tips = some path) :
    ∃ older, path = older ++ tips ∧ s.Path start current older := by
  induction fuel generalizing current tips with
  | zero => cases h
  | succ fuel ih =>
    rw [collectBetween] at h
    split_ifs at h with hcurrent
    · cases h
      exact ⟨[], rfl, hcurrent ▸ .start⟩
    split at h
    · cases h
    rename_i header hload
    split_ifs at h
    split at h
    · cases h
    · rename_i parent hparent
      obtain ⟨older, rfl, hpath⟩ := ih h
      exact ⟨older ++ [header.point], by simp, hpath.child hload hparent⟩

theorem path_of_ancestorsBetween {tip : ℕ}
    (h : s.ancestorsBetween start tip = some path) : s.Path start tip path := by
  obtain ⟨older, rfl, hpath⟩ := exists_of_collectBetween h
  rwa [append_nil]

theorem Within.isChain_of_path (hstore : s.Within tree) (hstart : tree.Has start)
    (h : s.Path start hash path) :
    List.IsChain tree.Child (start :: path) ∧ (∀ p ∈ path, s.HasHeader p) ∧
      ∃ last, (start :: path).getLast? = some last ∧ last.hash = hash ∧ tree.Has last := by
  induction h with
  | start => exact ⟨.singleton _, by simp, start, rfl, rfl, hstart⟩
  | @child hash parent header path hpath hload hparent ih =>
    obtain ⟨hchain, hheaders, last, hlast, hhash, h', hheader', hpoint⟩ := ih
    obtain rfl := hstore.hash_eq hload
    refine ⟨?_, fun p hp ↦ ?_, header.point, by rw [← cons_append, getLast?_concat], rfl,
      (hstore.hasHeader hload).has hstore⟩
    · rw [← cons_append, isChain_append]
      refine ⟨hchain, .singleton _, fun last' hmem point hpoint' ↦ ?_⟩
      obtain rfl : header.point = point := by simpa using hpoint'
      cases hlast.symm.trans hmem
      exact ⟨h', header, hheader', hpoint, hstore.header_eq hload, rfl, by rw [hparent, hhash]⟩
    · rcases mem_append.1 hp with hp | hp
      · exact hheaders p hp
      · rw [mem_singleton.1 hp]
        exact hstore.hasHeader hload

/-- **The points between two are a path** from the first to the second. -/
theorem Within.isChain_of_ancestorsBetween (hstore : s.Within tree) {tip : Point}
    (hstart : tree.Has start) (htip : tree.Has tip)
    (h : s.ancestorsBetween start tip.hash = some path) :
    List.IsChain tree.Child (start :: path) ∧ (∀ p ∈ path, s.HasHeader p) ∧
      (start :: path).getLast? = some tip := by
  obtain ⟨hchain, hheaders, last, hlast, hhash, hhas⟩ :=
    hstore.isChain_of_path hstart (path_of_ancestorsBetween h)
  exact ⟨hchain, hheaders, by rw [hlast, hhas.eq_of_hash_eq htip hhash]⟩

/-! ### Common ancestors -/

theorem mem_of_commonPoint {points others point} (h : commonPoint points others = some point) :
    point ∈ points ∧ point ∈ others := by
  induction others generalizing points with
  | nil => cases h
  | cons other others ih =>
    rw [commonPoint] at h
    split at h
    · cases h
    rename_i newest older hdrop
    have hsub : ∀ p ∈ newest :: older, p ∈ points := fun p hp ↦
      (dropWhile_sublist (p := (other < ·))).subset (hdrop ▸ hp)
    split_ifs at h with heq
    · cases h
      exact ⟨hsub _ (heq ▸ mem_cons_self ..), mem_cons_self ..⟩
    · obtain ⟨hpoints, hothers⟩ := ih h
      exact ⟨hsub _ hpoints, mem_cons_of_mem _ hothers⟩

theorem exists_of_findCommonAncestor {hash' point} (h : s.findCommonAncestor hash hash' = .found point) :
    ∃ header header' ancestor ancestor' : Header, s.loadHeader hash = some header ∧
      s.loadHeader hash' = some header' ∧ ancestor ∈ s.ancestors header ∧
      ancestor.point = point ∧ ancestor' ∈ s.ancestors header' ∧ ancestor'.point = point := by
  rw [findCommonAncestor] at h
  split at h
  · cases h
  · cases h
  rename_i header header' hload hload'
  split at h <;> cases h
  rename_i hcommon
  obtain ⟨hmem, hmem'⟩ := mem_of_commonPoint hcommon
  obtain ⟨ancestor, hancestor, heq⟩ := mem_map.1 hmem
  obtain ⟨ancestor', hancestor', heq'⟩ := mem_map.1 hmem'
  exact ⟨header, header', ancestor, ancestor', hload, hload', hancestor, heq, hancestor', heq'⟩

/-! ### The best chain -/

/-- A search for the best chain stops at the first header that is on it. -/
theorem exists_of_collectToBestChain {headers forward}
    (h : s.collectToBestChain headers forward = some (fork, path)) :
    ∃ newer ancestor older, headers = newer ++ ancestor :: older ∧ ancestor.point = fork ∧
      s.isOnBestChain fork = true ∧
      (∀ header ∈ newer, s.isOnBestChain header.point = false) ∧
      path = (newer.map point).reverse ++ forward ∧ path ≠ [] := by
  induction headers generalizing forward with
  | nil => cases h
  | cons header headers ih =>
    rw [collectToBestChain] at h
    split_ifs at h with hbest hforward
    · cases h
      exact ⟨[], header, headers, rfl, rfl, hbest, by simp, rfl, hforward⟩
    obtain ⟨newer, ancestor, older, rfl, hpoint, hfound, hnewer, rfl, hne⟩ := ih h
    refine ⟨header :: newer, ancestor, older, rfl, hpoint, hfound, ?_, by simp, hne⟩
    rintro header' (_ | ⟨_, hmem⟩)
    · rwa [Bool.not_eq_true] at hbest
    · exact hnewer header' hmem

variable (hload : s.loadHeader hash = some header)
  (hfind : s.findAncestorOnBestChain hash = .found fork path)
include hload hfind

theorem exists_of_findAncestorOnBestChain :
    s.collectToBestChain (s.ancestors header) [] = some (fork, path) := by
  simp only [findAncestorOnBestChain, hload] at hfind
  split at hfind <;> cases hfind
  assumption

/-- The path from the best chain ends at the header it was searched from. -/
theorem getLast?_of_findAncestorOnBestChain : path.getLast? = some header.point := by
  obtain ⟨newer, ancestor, older, hancestors, -, -, -, rfl, hne⟩ :=
    exists_of_collectToBestChain (exists_of_findAncestorOnBestChain hload hfind)
  rcases newer with - | ⟨newest, newer⟩
  · exact absurd rfl hne
  · rw [ancestors, walk, cons_append, cons.injEq] at hancestors
    rw [hancestors.1]
    simp

end ChainStore

end Amaru
