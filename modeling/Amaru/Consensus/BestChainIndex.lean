import Amaru.Consensus.BestChain
import Amaru.Consensus.Pipeline

/-!
# The index of the best chain

The best chain is kept twice in the source: by slot in the database, and as a list in memory. **What is
kept is a path of the header tree that ends at the best tip** (`Indexed`). The stage that adopts chains
keeps it so: a roll-forward adds a child of the tip, and a switch replaces what comes after a point of
the path. The anchor is on the path, and both stores give the same answers.

Two things are needed. A switch must not leave the anchor behind: the search for the fork point goes one
header past the slot of the anchor, so a fork from just below the anchor is adopted, and the anchor is
no longer on the best chain and never moves again. And the origin must not be in the index: a node that
starts at the origin puts it there, and the successor of the origin is then the origin itself.
`index_loses_anchor_or_origin` has both; `index_is_path` is for all other runs.
-/

namespace Amaru

open List AdoptChain ChainStore Ancestry SortedMap HeaderTree Nat
open Option hiding any_eq_true map_map mem_map

/-! ### The best chain in memory -/

/-- The best chain as it is kept in memory. -/
structure InMemoryBestChain where
  chain : List Point
  bestChain : Point
deriving DecidableEq, Repr

namespace InMemoryBestChain

variable (memory : InMemoryBestChain)

def sameChainPoint (stored queried : Point) : Bool :=
  stored.hash = queried.hash ∧ stored.slotOrDefault = queried.slotOrDefault

/-- Whether a point is on the best chain. -/
def isOnBestChain : Point → Bool
  | .origin => true
  | .specific slot hash _ => memory.chain.any fun p ↦ p.slotOrDefault = slot ∧ p.hash = hash

/-- The first point after a slot. -/
def getNextBestChain (point : Point) : Option Point :=
  memory.chain.find? fun p ↦ match point with
    | .origin => true
    | .specific slot _ _ => slot < p.slotOrDefault

/-- The point of the best chain after this one. -/
def nextBestChain (headers : SortedMap ℕ Header) (point : Point) : Option Point := do
  let next ← memory.getNextBestChain point
  match point with
  | .origin => some next
  | .specific _ hash _ => if (headers.get? next.hash).bind Header.parent = some hash then some next else none

/-- Add a point to the best chain. -/
def rollForwardChain (point : Point) : InMemoryBestChain := ⟨memory.chain ++ [point], point⟩

/-- Replace the best chain after the last such point of it. -/
def switchToFork (forkPoint : Point) (forwardPoints : List Point) : Option InMemoryBestChain :=
  match memory.chain.reverse.dropWhile fun p ↦ !sameChainPoint p forkPoint with
  | [] => none
  | last :: older => some ⟨(last :: older).reverse ++ forwardPoints, forwardPoints.getLast?.getD forkPoint⟩

end InMemoryBestChain

/-! ### What is written -/

/-- A change of the best chain. -/
inductive BestChainWrite
  | rollForwardChain (point : Point)
  | switchToFork (forkPoint : Point) (forwardPoints : List Point)
deriving DecidableEq, Repr

def InMemoryBestChain.write (memory : InMemoryBestChain) : BestChainWrite → Option InMemoryBestChain
  | .rollForwardChain point => some (memory.rollForwardChain point)
  | .switchToFork forkPoint forwardPoints => memory.switchToFork forkPoint forwardPoints

/-- What is kept after a change, if there is one. -/
def InMemoryBestChain.afterWrite (memory : InMemoryBestChain) :
    Option BestChainWrite → Option InMemoryBestChain
  | none => some memory
  | some change => memory.write change

section Writes

variable {Body : Type} {tree : HeaderTree} {s s' : ChainStore Body} {p q : Point}
  {path : List Point} {memory : Option InMemoryBestChain} {st : AdoptChain} {forward : List Point}
  {forkPoint : Point} {header : Header}

def ChainStore.write (s : ChainStore Body) : BestChainWrite → Option (ChainStore Body)
  | .rollForwardChain point => some (s.rollForwardChain point)
  | .switchToFork forkPoint forwardPoints => s.switchToFork forkPoint forwardPoints

/-- What adopting a header writes. -/
def AdoptChain.adoptWrite (s : ChainStore Body) (incoming : Header) :
    Option Header → Option BestChainWrite
  | none => some (.rollForwardChain incoming.point)
  | some currentBest =>
    if incoming.parent = some currentBest.hash then some (.rollForwardChain incoming.point)
    else match s.findAncestorOnBestChain incoming.hash with
      | .found forkPoint forwardPoints => some (.switchToFork forkPoint forwardPoints)
      | .startHeaderNotFound | .notFound => none

theorem AdoptChain.exists_write_of_adoptBest {incoming currentBest}
    (h : adoptBest s incoming currentBest = .ok s') :
    ∃ change, adoptWrite s incoming currentBest = some change ∧ s.write change = some s' := by
  cases adoptsBest_of_adoptBest h with
  | first => exact ⟨_, rfl, rfl⟩
  | child hparent => exact ⟨_, if_pos hparent, rfl⟩
  | fork hparent hfind hswitch => exact ⟨.switchToFork .., by rw [adoptWrite, if_neg hparent, hfind], hswitch⟩

/-- What a message makes the stage write, if anything. -/
def AdoptChain.messageWrite (s : ChainStore Body) (st : AdoptChain) (msg : AdoptChainMsg) :
    Option BestChainWrite :=
  if msg.tip.blockHeight < st.currentBestTip.blockHeight then none
  else match s.loadHeader msg.tip.hash, st.loadCurrentBest s with
    | some incoming, .ok currentBest =>
      if cmpTip (some incoming) currentBest = .gt then adoptWrite s incoming currentBest else none
    | _, _ => none

/-- What start-up writes. -/
def startWrite (s : ChainStore Body) (tip : Point) : BestChainWrite :=
  if s.bestChainTip.hash = originHash then .rollForwardChain tip else .switchToFork tip []

/-! ### Paths -/

/-- The index holds a path of the tree that ends at the best tip. -/
structure Indexed (tree : HeaderTree) (s : ChainStore Body) (path : List Point) : Prop where
  within : s.Within tree
  entries_eq : s.bestChain.entries = path.map fun p ↦ (p.slotOrDefault, p)
  isChain : List.IsChain tree.Child path
  stored : ∀ p ∈ path, s.HasHeader p
  tip_eq : s.bestChainTip = path.getLast?.getD .origin
  anchor : s.anchor = .origin ∨ s.anchor ∈ path

theorem ChainStore.Within.hasHeader_of_findAncestorOnBestChain (hstore : s.Within tree)
    (hload : s.loadHeader header.hash = some header)
    (h : s.findAncestorOnBestChain header.hash = .found forkPoint forward) :
    s.HasHeader forkPoint ∧ ∀ p ∈ forward, s.HasHeader p := by
  obtain ⟨newer, ancestor, older, hsplit, rfl, -, -, rfl, -⟩ :=
    exists_of_collectToBestChain (exists_of_findAncestorOnBestChain hload h)
  refine ⟨hstore.hasHeader_of_mem hload (hsplit ▸ by simp), fun p hp ↦ ?_⟩
  rw [append_nil, mem_reverse] at hp
  obtain ⟨header, hheader, rfl⟩ := mem_map.1 hp
  exact hstore.hasHeader_of_mem hload (hsplit ▸ mem_append_left _ hheader)

namespace Indexed

variable {currentBest : Option Header} {incoming : Header}

section

variable (h : Indexed tree s path)
include h

theorem values_eq : s.bestChain.values = path := by
  rw [values, h.entries_eq, map_map]
  exact map_id _

theorem pairwise : path.Pairwise fun p q ↦ p.slotOrDefault < q.slotOrDefault :=
  pairwise_slots h.isChain

theorem has (hp : p ∈ path) : tree.Has p := (h.stored p hp).has h.within

theorem get?_eq_some_iff {slot : ℕ} :
    s.bestChain.get? slot = some p ↔ p ∈ path ∧ p.slotOrDefault = slot := by
  rw [← mem_entries_iff, h.entries_eq, mem_map]
  constructor
  · rintro ⟨q, hq, heq⟩
    cases heq
    exact ⟨hq, rfl⟩
  · rintro ⟨hp, rfl⟩
    exact ⟨p, hp, rfl⟩

/-- **The points on the best chain are those of the path.** -/
theorem isOnBestChain_iff (hp : tree.Has p) : s.isOnBestChain p = true ↔ p ∈ path := by
  rw [ChainStore.isOnBestChain_iff hp]
  constructor
  · rintro ⟨q, hget, hhash⟩
    obtain ⟨hq, -⟩ := h.get?_eq_some_iff.1 hget
    exact (h.has hq).eq_of_hash_eq hp hhash ▸ hq
  · intro hmem
    exact ⟨p, h.get?_eq_some_iff.2 ⟨hmem, rfl⟩, rfl⟩

theorem getLast?_eq (hne : path ≠ []) : path.getLast? = some s.bestChainTip := by
  rw [h.tip_eq, getLast?_eq_some_getLast hne]
  rfl

theorem ancestor_tip (hp : p ∈ path) : tree.Ancestor p s.bestChainTip :=
  ancestor_getLast_of_mem h.isChain (h.getLast?_eq (ne_nil_of_mem hp)) hp

/-- The origin is not in the index. -/
theorem eq_nil_iff : path = [] ↔ s.bestChainTip.hash = originHash := by
  constructor
  · rintro rfl
    rw [h.tip_eq]
    rfl
  · intro horigin
    by_contra hne
    obtain ⟨header, hheader, -⟩ := h.has (mem_of_getLast? (h.getLast?_eq hne))
    rw [horigin, tree.header_origin] at hheader
    cases hheader

theorem eq_of_child {q' : Point} (hq : q ∈ path) (hq' : q' ∈ path) (hchild : tree.Child p q)
    (hchild' : tree.Child p q') : q = q' := by
  have hrank := tree.ranked_child hchild
  have hrank' := tree.ranked_child hchild'
  exact eq_of_rank_le tree.ranked_child (ancestor_of_rank_le tree.ranked_child
    tree.leftUnique_child (h.ancestor_tip hq) (h.ancestor_tip hq') (by omega)) (by omega)

theorem child_of_parent (hp : tree.Has p)
    (hload : s.loadHeader header.hash = some header) (hparent : header.parent.getD originHash = p.hash) :
    tree.Child p header.point := by
  obtain ⟨header', hheader', hpoint⟩ := hp
  refine ⟨header', header, hheader', hpoint, h.within.header_eq hload, rfl, ?_⟩
  rcases hsome : header.parent with - | parent <;> rw [hsome] at hparent
  · rw [← hparent] at hheader'
    exact absurd (tree.header_origin.symm.trans hheader') nofun
  · exact congrArg some hparent

/-- **The successor of a point is its child on the path.** -/
theorem nextBestChain_eq_some_iff (hp : tree.Has p) :
    s.nextBestChain p = some q ↔ q ∈ path ∧ tree.Child p q := by
  have hfound : ∀ {q}, s.nextBestChain p = some q → q ∈ path ∧ tree.Child p q := by
    intro q hnext
    obtain ⟨header, -, rfl⟩ := id hp
    obtain ⟨child, hchild, hsome⟩ := exists_of_findSome?_eq_some hnext
    obtain ⟨⟨hash, header'⟩, hentry, rfl⟩ := mem_map.1 hchild
    obtain ⟨hentry, hparent⟩ := mem_filter.1 hentry
    have hload : s.loadHeader hash = some header' := mem_entries_iff.1 hentry
    rw [hload] at hsome
    dsimp only at hsome
    split_ifs at hsome with hon
    cases hsome
    have hself : s.loadHeader header'.hash = some header' := by rw [h.within.hash_eq hload, hload]
    exact ⟨(h.isOnBestChain_iff ((h.within.hasHeader hload).has h.within)).1 hon,
      h.child_of_parent hp hself (of_decide_eq_true hparent)⟩
  refine ⟨hfound, fun ⟨hq, hchild⟩ ↦ ?_⟩
  obtain ⟨q', hq'⟩ : ∃ q', s.nextBestChain p = some q' := by
    obtain ⟨header, header', hheader, rfl, hheader', rfl, hparent⟩ := id hchild
    obtain ⟨stored, hload, -⟩ := h.stored _ hq
    obtain rfl : stored = header' := some.inj ((h.within.header_eq hload).symm.trans hheader')
    refine isSome_iff_exists.1 (findSome?_isSome_iff.2 ⟨stored.hash, ?_, ?_⟩)
    · refine mem_map.2 ⟨(stored.hash, stored), mem_filter.2 ⟨mem_entries_iff.2 hload, ?_⟩, rfl⟩
      exact decide_eq_true (by rw [hparent]; rfl)
    · have hload' : s.loadHeader stored.hash = some stored := hload
      simp only [hload', (h.isOnBestChain_iff (h.has hq)).2 hq, if_true, isSome_some]
  obtain ⟨hmem, hchild'⟩ := hfound hq'
  rw [hq', h.eq_of_child hq hmem hchild hchild']

theorem nextBestChain_origin : s.nextBestChain .origin = path.head? := by
  rw [nextBestChain, h.values_eq]

theorem nextBestChain_eq_getElem? {i : ℕ} (hp : path[i]? = some p) : s.nextBestChain p =
    path[i + 1]? := by
  have hmem := mem_of_getElem? hp
  refine Option.ext fun q ↦ (h.nextBestChain_eq_some_iff (h.has hmem)).trans ?_
  obtain ⟨hlt, rfl⟩ := List.getElem?_eq_some_iff.1 hp
  constructor
  · rintro ⟨hq, hchild⟩
    obtain ⟨j, hj, rfl⟩ := getElem_of_mem hq
    have hij : i < j := by
      by_contra hle
      rcases (not_lt.1 hle).lt_or_eq with hji | rfl
      · exact absurd hchild.slot_lt (not_lt.2 (pairwise_iff_getElem.1 h.pairwise j i hj hlt hji).le)
      · exact absurd hchild.slot_lt (lt_irrefl _)
    have hnext : i + 1 < path.length := by omega
    have hchild' := isChain_iff_getElem.1 h.isChain i hnext
    rw [getElem?_eq_getElem hnext, h.eq_of_child (getElem_mem hnext) (getElem_mem hj) hchild' hchild]
  · intro hq
    obtain ⟨hnext, rfl⟩ := List.getElem?_eq_some_iff.1 hq
    exact ⟨getElem_mem hnext, isChain_iff_getElem.1 h.isChain i hnext⟩

end

/-! ### In memory -/

theorem memory_isOnBestChain (h : Indexed tree s path) (tip p : Point) :
    (InMemoryBestChain.mk path tip).isOnBestChain p = s.isOnBestChain p := by
  cases p with
  | origin => rfl
  | specific slot hash height =>
    rw [InMemoryBestChain.isOnBestChain, isOnBestChain, Bool.eq_iff_iff, any_eq_true, Option.any_eq_true]
    constructor
    · rintro ⟨p, hp, hsame⟩
      obtain ⟨hslot, hhash⟩ := of_decide_eq_true hsame
      exact ⟨p, h.get?_eq_some_iff.2 ⟨hp, hslot⟩, decide_eq_true hhash⟩
    · rintro ⟨p, hget, hhash⟩
      obtain ⟨hp, hslot⟩ := h.get?_eq_some_iff.1 hget
      exact ⟨p, hp, decide_eq_true ⟨hslot, of_decide_eq_true hhash⟩⟩

/-- **The successor in memory is the child on the path.** -/
theorem memory_nextBestChain_eq_some_iff (h : Indexed tree s path) (tip : Point) (hp : tree.Has p) :
    (InMemoryBestChain.mk path tip).nextBestChain s.headers p = some q ↔ q ∈ path ∧ tree.Child p q := by
  obtain ⟨header, hheader, rfl⟩ := id hp
  constructor
  · intro hnext
    obtain ⟨next, hfind, hnext⟩ := bind_eq_some_iff.1 hnext
    have hmem := mem_of_find?_eq_some hfind
    dsimp only [Header.point] at hnext
    split_ifs at hnext with hparent
    cases hnext
    obtain ⟨header', hload, rfl⟩ := h.stored _ hmem
    refine ⟨hmem, h.child_of_parent hp hload ?_⟩
    change (s.loadHeader header'.hash).bind Header.parent = _ at hparent
    have hload' : s.loadHeader header'.hash = some header' := hload
    rw [hload', bind_some] at hparent
    rw [hparent]
    rfl
  · rintro ⟨hq, hchild⟩
    obtain ⟨next, hfind⟩ : ∃ next, (InMemoryBestChain.mk path tip).getNextBestChain header.point =
      some next :=
      isSome_iff_exists.1 (find?_isSome.2 ⟨q, hq, decide_eq_true hchild.slot_lt⟩)
    obtain ⟨hafter, older, newer, hsplit, hbefore⟩ := find?_eq_some_iff_append.1 hfind
    have hsplit' : path = older ++ next :: newer := hsplit
    -- nothing of the path is between a point and its child
    obtain rfl : next = q := by
      have hle : next.slotOrDefault ≤ q.slotOrDefault := by
        have hq' := hq
        rw [hsplit', mem_append, mem_cons] at hq'
        rcases hq' with hq' | rfl | hq'
        · have hnot := Bool.not_eq_true' _ ▸ hbefore q hq'
          exact absurd hchild.slot_lt (of_decide_eq_false hnot)
        · exact le_rfl
        · have hpairwise := h.pairwise
          rw [hsplit', pairwise_append] at hpairwise
          exact ((pairwise_cons.1 hpairwise.2.1).1 q hq').le
      have hmem : next ∈ path := hsplit' ▸ mem_append_right _ mem_cons_self
      rcases eq_or_ancestor_of_child tree.leftUnique_child hchild
        (ancestor_of_slot_le (h.ancestor_tip hmem) (h.ancestor_tip hq) hle) with heq | hancestor
      · exact heq
      · exact absurd (of_decide_eq_true hafter) (not_lt.2 (slot_le_of_ancestor hancestor))
    obtain ⟨header', hload, rfl⟩ := h.stored _ hq
    obtain ⟨_, _, -, -, hheader', -, hparent⟩ := hchild
    cases hheader'.symm.trans (h.within.header_eq hload)
    rw [InMemoryBestChain.nextBestChain, hfind]
    have hload' : s.headers.get? header'.point.hash = some header' := hload
    change (if (s.headers.get? header'.point.hash).bind Header.parent = _ then _ else _) = _
    rw [hload', bind_some]
    exact if_pos hparent

/-- **Both stores give the same answers.** -/
theorem memory_nextBestChain (h : Indexed tree s path) (tip : Point) (hp : p = .origin ∨ tree.Has p) :
    (InMemoryBestChain.mk path tip).nextBestChain s.headers p = s.nextBestChain p := by
  rcases hp with rfl | hp
  · rw [h.nextBestChain_origin]
    cases path <;> rfl
  · exact Option.ext fun q ↦
      (h.memory_nextBestChain_eq_some_iff tip hp).trans (h.nextBestChain_eq_some_iff hp).symm

/-! ### What keeps the path -/

theorem congr (h : Indexed tree s path) (hheaders : s'.headers = s.headers)
    (hblocks : s'.blocks = s.blocks) (hchain : s'.bestChain = s.bestChain)
    (htip : s'.bestChainTip = s.bestChainTip)
      (hanchor : s'.anchor = .origin ∨ s'.anchor ∈ path) :
    Indexed tree s' path where
  within := h.within.congr hheaders hblocks
  entries_eq := hchain ▸ h.entries_eq
  isChain := h.isChain
  stored := fun p hp ↦ (h.stored p hp).congr hheaders
  tip_eq := htip ▸ h.tip_eq
  anchor := hanchor

/-- **A roll-forward** adds a point at the end of the path. -/
theorem rollForwardChain (h : Indexed tree s path) (hq : s.HasHeader q)
    (hparent : path = [] ∨ tree.Child s.bestChainTip q) :
    Indexed tree (s.rollForwardChain q) (path ++ [q]) where
  within := h.within.congr rfl rfl
  entries_eq := by
    rw [map_append, ← h.entries_eq]
    refine insertEntry_of_lt q fun e he ↦ ?_
    rw [h.entries_eq] at he
    obtain ⟨p, hp, rfl⟩ := mem_map.1 he
    have hchild := hparent.resolve_left (ne_nil_of_mem hp)
    exact (slot_le_of_ancestor (h.ancestor_tip hp)).trans_lt hchild.slot_lt
  isChain := by
    refine isChain_append.2 ⟨h.isChain, isChain_singleton _, fun p hp p' hp' ↦ ?_⟩
    obtain rfl : q = p' := by simpa using hp'
    have hne : path ≠ [] := by
      rintro rfl
      cases hp
    obtain rfl : s.bestChainTip = p := some.inj ((h.getLast?_eq hne).symm.trans hp)
    exact hparent.resolve_left hne
  stored := fun p hp ↦ by
    rcases mem_append.1 hp with hp | hp
    · exact (h.stored p hp).congr rfl
    · rw [mem_singleton.1 hp]
      exact hq.congr rfl
  tip_eq := by rw [getLast?_concat]; rfl
  anchor := h.anchor.imp_right (mem_append_left _)

section Switch

variable {older newer : List Point}

section

variable (h : Indexed tree s (older ++ forkPoint :: newer))
include h

theorem entries_replaceAfter (hforward : List.IsChain tree.Child (older ++ forkPoint :: forward)) :
    (replaceAfter s.bestChain forkPoint forward).entries =
      (older ++ forkPoint :: forward).map fun p ↦ (p.slotOrDefault, p) := by
  have hkept : (s.bestChain.filter fun slot _ ↦ decide (slot ≤ forkPoint.slotOrDefault)).entries =
      (older ++ [forkPoint]).map fun p ↦ (p.slotOrDefault, p) := by
    have hslots := h.pairwise
    rw [append_cons, pairwise_append] at hslots
    rw [entries_filter, h.entries_eq, append_cons, map_append, filter_append,
      filter_eq_self.2, filter_eq_nil_iff.2, append_nil]
    · intro e he
      obtain ⟨p, hp, rfl⟩ := mem_map.1 he
      have := hslots.2.2 forkPoint (by simp) p hp
      simpa using this
    · intro e he
      obtain ⟨p, hp, rfl⟩ := mem_map.1 he
      rcases mem_append.1 hp with hp | hp
      · exact decide_eq_true ((pairwise_append.1 hslots.1).2.2 p hp forkPoint (by simp)).le
      · rw [mem_singleton.1 hp]
        exact decide_eq_true le_rfl
  have hslots := pairwise_slots hforward
  rw [append_cons] at hslots
  rw [replaceAfter, append_cons, map_append, ← hkept]
  refine entries_foldl_insert _ _ _ _ ?_
  have hkeys : (older ++ [forkPoint] ++ forward).map Point.slotOrDefault = _ := map_append
  rw [hkept, map_map]
  exact hkeys ▸ pairwise_map.2 hslots

/-- **A switch** keeps the path up to the fork point. -/
theorem switchToFork (hforward : List.IsChain tree.Child (forkPoint :: forward))
    (hstored : ∀ p ∈ forward, s.HasHeader p)
    (hanchor : s.anchor = .origin ∨ s.anchor ∈ older ++ [forkPoint])
    (hswitch : s.switchToFork forkPoint forward = some s') :
    Indexed tree s' (older ++ forkPoint :: forward) := by
  rw [ChainStore.switchToFork] at hswitch
  split_ifs at hswitch
  cases hswitch
  have hchain : List.IsChain tree.Child (older ++ forkPoint :: forward) := by
    obtain ⟨holder, -, hlink⟩ := isChain_append.1 h.isChain
    exact isChain_append.2 ⟨holder, hforward, hlink⟩
  refine ⟨h.within.congr rfl rfl, h.entries_replaceAfter hchain, hchain, fun p hp ↦ ?_, ?_,
    hanchor.imp_right ?_⟩
  · rw [append_cons, mem_append] at hp
    rcases hp with hp | hp
    · refine (h.stored p ?_).congr rfl
      rw [append_cons]
      exact mem_append_left _ hp
    · exact (hstored p hp).congr rfl
  · rw [getLast?_append_of_ne_nil _ (cons_ne_nil _ _), getLast?_cons, getD_some]
  · intro hmem
    rw [append_cons]
    exact mem_append_left _ hmem

theorem memory_switchToFork (tip : Point) :
    (InMemoryBestChain.mk (older ++ forkPoint :: newer) tip).switchToFork forkPoint forward =
      some ⟨older ++ forkPoint :: forward, forward.getLast?.getD forkPoint⟩ := by
  have hdrop : (older ++ forkPoint :: newer).reverse.dropWhile
      (fun p ↦ !InMemoryBestChain.sameChainPoint p forkPoint) = forkPoint :: older.reverse := by
    rw [reverse_append, reverse_cons, append_assoc, dropWhile_append_of_pos]
    · have hself : (!InMemoryBestChain.sameChainPoint forkPoint forkPoint) = false := by
        simp [InMemoryBestChain.sameChainPoint]
      exact dropWhile_cons_of_neg (Bool.eq_false_iff.1 hself)
    · intro p hp
      have hslots := (pairwise_append.1 h.pairwise).2.1
      have hlt := (pairwise_cons.1 hslots).1 p (mem_reverse.1 hp)
      rw [Bool.not_eq_true', InMemoryBestChain.sameChainPoint, decide_eq_false_iff_not]
      exact fun hsame ↦ hlt.ne' hsame.2
  rw [InMemoryBestChain.switchToFork]
  rw [hdrop]
  simp

end

end Switch

section

variable (h : Indexed tree s path)
include h

theorem mem_of_climbBestChain {target fuel : ℕ} (hp : p = .origin ∨ p ∈ path)
    (hclimb : s.climbBestChain target fuel p = some q) : q ∈ path ∧ target ≤ q.blockHeight := by
  induction fuel generalizing p with
  | zero => cases hclimb
  | succ fuel ih =>
    rw [climbBestChain] at hclimb
    split at hclimb
    · cases hclimb
    rename_i next hnext
    have hmem : next ∈ path := by
      rcases hp with rfl | hp
      · exact mem_of_head? (h.nextBestChain_origin.symm.trans hnext)
      · exact ((h.nextBestChain_eq_some_iff (h.has hp)).1 hnext).1
    split_ifs at hclimb with hheight
    · cases hclimb
      exact ⟨hmem, hheight⟩
    · exact ih (.inr hmem) hclimb

/-- **The anchor moves up the path.** -/
theorem dragAnchorForward (tip : Point) (k : ℕ) :
    Indexed tree (dragAnchorForward s tip k) path ∧
      s.anchor.blockHeight ≤ (dragAnchorForward s tip k).anchor.blockHeight := by
  rw [AdoptChain.dragAnchorForward]
  rcases hfind : s.findAnchorAtHeight (tip.blockHeight - k) with - | anchor
  · exact ⟨h, le_rfl⟩
  · rw [findAnchorAtHeight] at hfind
    split_ifs at hfind with hheight
    obtain ⟨hmem, hle⟩ := h.mem_of_climbBestChain h.anchor hfind
    exact ⟨h.congr rfl rfl rfl rfl (.inr hmem), (not_le.1 hheight).le.trans hle⟩

/-- **Start-up** cuts the path at the tip of the ledger, or begins with it. -/
theorem realignChainStoreTo {tip clear} (htip : s.HasHeader tip)
    (hrealign : s.realignChainStoreTo tip clear = .ok s') :
    ∃ path', Indexed tree s' path' ∧ s'.bestChainTip = tip ∧
      (InMemoryBestChain.mk path s.bestChainTip).write (startWrite s tip) = some ⟨path', tip⟩ := by
  obtain ⟨validity, bestChain, rfl, hbest⟩ := exists_of_realignChainStoreTo hrealign
  rcases hbest with ⟨horigin, rfl⟩ | ⟨hany, rfl⟩
  · have hroll := h.rollForwardChain htip (.inl (h.eq_nil_iff.2 horigin))
    refine ⟨path ++ [tip], hroll.congr rfl rfl rfl rfl (.inr (by simp)), rfl, ?_⟩
    rw [startWrite, if_pos horigin]
    rfl
  · have hmem : tip ∈ path := by
      rw [← h.isOnBestChain_iff (htip.has h.within), ChainStore.isOnBestChain_iff (htip.has h.within)]
      obtain ⟨q, hget, hhash⟩ := (Option.any_eq_true _ _).1 hany
      exact ⟨q, hget, of_decide_eq_true hhash⟩
    obtain ⟨older, newer, rfl⟩ := append_of_mem hmem
    have hanchored : Indexed tree (s.setAnchorPoint tip) (older ++ tip :: newer) :=
      h.congr rfl rfl rfl rfl (.inr hmem)
    have hswitch := hanchored.switchToFork (isChain_singleton tip) nofun
      (.inr (mem_append_right _ (mem_singleton.2 rfl))) (if_pos hany)
    refine ⟨older ++ [tip], hswitch.congr rfl rfl rfl rfl (.inr (by simp)), rfl, ?_⟩
    have hne : s.bestChainTip.hash ≠ originHash := fun horigin ↦
      ne_nil_of_mem hmem (h.eq_nil_iff.2 horigin)
    rw [startWrite, if_neg hne]
    exact h.memory_switchToFork _

section

variable (hload : s.loadHeader incoming.hash = some incoming)
  (hanchor : s.anchor = .origin ∨ tree.Ancestor s.anchor incoming.point)
include hload hanchor

theorem anchor_of_findAncestorOnBestChain
    (hfind : s.findAncestorOnBestChain incoming.hash = .found forkPoint forward) :
    s.anchor = .origin ∨ s.anchor ∈ path ∧ tree.Ancestor s.anchor forkPoint := by
  rcases h.anchor with horigin | hmem
  · exact .inl horigin
  rcases hanchor with horigin | hanchor
  · exact .inl horigin
  obtain ⟨hpath, hon, hoff⟩ := h.within.isChain_of_findAncestorOnBestChain hload hfind
  have hlast : (forkPoint :: forward).getLast? = some incoming.point := by
    rw [getLast?_cons, getLast?_of_findAncestorOnBestChain hload hfind]
    rfl
  refine .inr ⟨hmem, ?_⟩
  rcases ancestor_total tree.leftUnique_child hanchor (ancestor_getLast hpath hlast) with hfork | hfork
  · exact hfork
  -- the points after the fork point are not on the best chain
  rcases mem_cons.1 (mem_of_isChain tree.ranked_child tree.leftUnique_child hpath hlast hfork
    hanchor) with heq | hforward
  · rw [heq]
  · have hon' := (h.isOnBestChain_iff (h.has hmem)).2 hmem
    exact absurd (hon'.symm.trans (hoff _ hforward)) nofun

/-- **Adopting a header** that does not leave the anchor behind keeps the path, in both stores. -/
theorem adoptBest
    (hbest : ∀ best ∈ currentBest, s.loadHeader best.hash = some best ∧ best.point = s.bestChainTip)
    (hnone : currentBest = none → s.bestChainTip = .origin)
    (hadopt : adoptBest s incoming currentBest = .ok s') :
    ∃ path', Indexed tree s' path' ∧ s'.bestChainTip = incoming.point ∧
      (InMemoryBestChain.mk path s.bestChainTip).afterWrite
        (adoptWrite s incoming currentBest) = some ⟨path', incoming.point⟩ := by
  obtain ⟨change, hwrite, hchange⟩ := exists_write_of_adoptBest hadopt
  rw [hwrite]
  have hforward : ∀ {point}, change = .rollForwardChain point → point = incoming.point →
      path = [] ∨ tree.Child s.bestChainTip incoming.point → ∃ path', Indexed tree s' path' ∧
        s'.bestChainTip = incoming.point ∧ (InMemoryBestChain.mk path s.bestChainTip).write change =
          some ⟨path', incoming.point⟩ := by
    rintro point rfl rfl hparent
    cases hchange
    exact ⟨path ++ [incoming.point], h.rollForwardChain ⟨incoming, hload, rfl⟩ hparent, rfl, rfl⟩
  rcases currentBest with - | best
  · cases hwrite
    exact hforward rfl rfl (.inl (h.eq_nil_iff.2 (hnone rfl ▸ rfl)))
  obtain ⟨hloadBest, hpoint⟩ := hbest best rfl
  rw [adoptWrite] at hwrite
  split_ifs at hwrite with hparent
  · cases hwrite
    refine hforward rfl rfl (.inr ?_)
    rw [← hpoint]
    exact h.within.child ⟨best, hloadBest, rfl⟩ hload hparent
  · cases hfind : s.findAncestorOnBestChain incoming.hash with
    | startHeaderNotFound | notFound => rw [hfind] at hwrite; cases hwrite
    | found forkPoint forward =>
      rw [hfind] at hwrite
      cases hwrite
      obtain ⟨hpath, hon, -⟩ := h.within.isChain_of_findAncestorOnBestChain hload hfind
      have hlast := getLast?_of_findAncestorOnBestChain hload hfind
      have hstored := h.within.hasHeader_of_findAncestorOnBestChain hload hfind
      have hfork : forkPoint ∈ path := (h.isOnBestChain_iff (hstored.1.has h.within)).1 hon
      have hkept := h.anchor_of_findAncestorOnBestChain hload hanchor hfind
      obtain ⟨older, newer, rfl⟩ := append_of_mem hfork
      refine ⟨older ++ forkPoint :: forward, h.switchToFork hpath hstored.2 (hkept.imp_right ?_)
        hchange, ?_, ?_⟩
      · rintro ⟨hmem, hancestor⟩
        rw [append_cons, mem_append] at hmem
        refine hmem.resolve_right fun hnewer ↦ ?_
        have hlt := (pairwise_cons.1 (pairwise_append.1 h.pairwise).2.1).1 _ hnewer
        exact absurd (slot_le_of_ancestor hancestor) (not_le.2 hlt)
      · exact bestChainTip_of_adoptBest hload hadopt
      · refine (h.memory_switchToFork _).trans ?_
        rw [hlast]
        rfl

end

theorem loadCurrentBest_eq_ok (hbest : st.currentBestTip = s.bestChainTip)
    (hcurrent : st.loadCurrentBest s = .ok currentBest) :
    (∀ best ∈ currentBest, s.loadHeader best.hash = some best ∧ best.point = s.bestChainTip) ∧
      (currentBest = none → s.bestChainTip = .origin) := by
  rw [loadCurrentBest, hbest] at hcurrent
  split_ifs at hcurrent with horigin
  · cases hcurrent
    exact ⟨nofun, fun _ ↦ horigin⟩
  have hne : path ≠ [] := by
    rintro rfl
    exact horigin h.tip_eq
  obtain ⟨header, hload, hpoint⟩ := h.stored _ (mem_of_getLast? (h.getLast?_eq hne))
  rw [hload] at hcurrent
  cases hcurrent
  refine ⟨fun best hmem ↦ ?_, nofun⟩
  cases hmem
  exact ⟨(h.within.hash_eq hload).symm ▸ hload, hpoint⟩

/-- **Handling a tip** keeps the path, in both stores, and the anchor does not go down. -/
theorem handle {st' msg sent} (hbest : st.currentBestTip = s.bestChainTip)
    (htip : s.HasHeader msg.tip) (hanchor : s.anchor = .origin ∨ tree.Ancestor s.anchor msg.tip)
    (hhandle : handle s st msg = .ok (s', st', sent)) :
    ∃ path', Indexed tree s' path' ∧ st'.currentBestTip = s'.bestChainTip ∧
      s.anchor.blockHeight ≤ s'.anchor.blockHeight ∧
      (InMemoryBestChain.mk path s.bestChainTip).afterWrite
        (messageWrite s (st.seen msg) msg) = some ⟨path', s'.bestChainTip⟩ := by
  cases handled_of_handle hhandle with
  | shorter hshorter =>
    refine ⟨path, h, hbest, le_rfl, ?_⟩
    rw [messageWrite, if_pos hshorter]
    rfl
  | notBetter hincoming hcurrent hworse =>
    refine ⟨path, h, hbest, le_rfl, ?_⟩
    simp only [messageWrite, hincoming, hcurrent, if_neg hworse, ite_self]
    rfl
  | @adopted incoming currentBest adopted _ hincoming hcurrent hbetter hadopt _ =>
    obtain ⟨header, hload, hpoint⟩ := htip
    obtain rfl : header = incoming := some.inj (hload.symm.trans hincoming)
    obtain ⟨hsome, hnone⟩ := h.loadCurrentBest_eq_ok hbest hcurrent
    have hnotShorter : ¬msg.tip.blockHeight < (st.seen msg).currentBestTip.blockHeight := by
      change ¬msg.tip.blockHeight < st.currentBestTip.blockHeight
      rw [hbest, ← hpoint, not_lt]
      rcases currentBest with - | best
      · rw [hnone rfl]
        exact zero_le _
      · rw [← (hsome best rfl).2]
        exact le_of_cmpTip hbetter
    obtain ⟨path', hpath', htip', hmemory⟩ := h.adoptBest ((h.within.hash_eq hload).symm ▸ hload)
      (hpoint.symm ▸ hanchor) hsome hnone hadopt
    obtain ⟨hdragged, hheight⟩ := hpath'.dragAnchorForward msg.tip (st.seen msg).consensusSecurityParam
    obtain ⟨bestChain, bestChainTip, rfl⟩ := exists_of_adoptBest hadopt
    obtain ⟨anchor, hanchored⟩ := exists_of_dragAnchorForward
      { s with bestChain, bestChainTip } msg.tip (st.seen msg).consensusSecurityParam
    rw [hanchored] at hdragged hheight ⊢
    have htip'' : bestChainTip = msg.tip := htip'.trans hpoint
    refine ⟨path', hdragged, htip''.symm, hheight, ?_⟩
    simp only [messageWrite, if_neg hnotShorter, hincoming, hcurrent, if_pos hbetter]
    rw [hmemory, hpoint, htip'']

end

end Indexed

/-! ### Runs -/

/-- The runs of the best chain in both stores: a node starts, other stages store headers, blocks and
verdicts, and tips of the ledger are adopted. `AllowedStart` and `Allowed` restrict where the node
starts, and which tips reach the stage. -/
inductive IndexRun (tree : HeaderTree) (AllowedStart : Point → Prop)
    (Allowed : ChainStore Body → Point → Prop) :
    ChainStore Body → AdoptChain → Option InMemoryBestChain → Prop
  | fresh {s : ChainStore Body} {st} (hwithin : s.Within tree)
    (hempty : s.bestChain.entries = []) (htip : s.bestChainTip = .origin)
    (hanchor : s.anchor = .origin) (hbest : st.currentBestTip = .origin) :
    IndexRun tree AllowedStart Allowed s st (some ⟨[], .origin⟩)
  | start {s s' st st' memory} (tip : Point) (clear : ClearValidity)
    (hrun : IndexRun tree AllowedStart Allowed s st memory)
    (htip : tip = .origin ∨ s.HasHeader tip) (hallowed : AllowedStart tip)
    (hrealign : s.realignChainStoreTo tip clear = .ok s') (hbest : st'.currentBestTip = tip) :
    IndexRun tree AllowedStart Allowed s' st' (memory.bind (·.write (startWrite s tip)))
  | grow {s s' : ChainStore Body} {st memory}
    (hrun : IndexRun tree AllowedStart Allowed s st memory) (hwithin : s'.Within tree)
    (hstored : ∀ p, s.HasHeader p → s'.HasHeader p) (hchain : s'.bestChain = s.bestChain)
    (htip : s'.bestChainTip = s.bestChainTip) (hanchor : s'.anchor = s.anchor) :
    IndexRun tree AllowedStart Allowed s' st memory
  | adopt {s s' st st' memory sent} (msg : AdoptChainMsg)
    (hrun : IndexRun tree AllowedStart Allowed s st memory) (htip : s.HasHeader msg.tip)
    (hallowed : Allowed s msg.tip)
    (hhandle : handle s st msg = .ok (s', st', sent)) :
    IndexRun tree AllowedStart Allowed s' st'
      (memory.bind (·.afterWrite (messageWrite s (st.seen msg) msg)))

/-- A tip that does not leave the anchor behind. -/
def AboveAnchor (tree : HeaderTree) (s : ChainStore Body) (tip : Point) : Prop :=
  s.anchor = .origin ∨ tree.Ancestor s.anchor tip

/-- **Every run keeps the path**, if no start is at the origin and no tip leaves the anchor behind. -/
theorem Indexed.of_run (hrun : IndexRun tree (· ≠ .origin) (AboveAnchor tree) s st memory) :
    ∃ path, Indexed tree s path ∧ st.currentBestTip = s.bestChainTip ∧
      memory = some ⟨path, s.bestChainTip⟩ := by
  induction hrun with
  | fresh hwithin hempty htip hanchor hbest =>
    exact ⟨[], ⟨hwithin, hempty, .nil, nofun, htip, .inl hanchor⟩, hbest.trans htip.symm, by rw [htip]⟩
  | start tip clear _ htip hallowed hrealign hbest ih =>
    obtain ⟨path, hpath, -, rfl⟩ := ih
    obtain ⟨path', hpath', htip', hmemory⟩ := hpath.realignChainStoreTo (htip.resolve_left hallowed) hrealign
    exact ⟨path', hpath', hbest.trans htip'.symm, htip' ▸ hmemory⟩
  | grow _ hwithin hstored hchain htip hanchor ih =>
    obtain ⟨path, hpath, hbest, rfl⟩ := ih
    refine ⟨path, ⟨hwithin, hchain ▸ hpath.entries_eq, hpath.isChain, fun p hp ↦ hstored p
      (hpath.stored p hp),
      htip ▸ hpath.tip_eq, hanchor ▸ hpath.anchor⟩, hbest.trans htip.symm, by rw [htip]⟩
  | adopt msg _ htip hallowed hhandle ih =>
    obtain ⟨path, hpath, hbest, rfl⟩ := ih
    obtain ⟨path', hpath', hbest', -, hmemory⟩ := hpath.handle hbest htip hallowed hhandle
    exact ⟨path', hpath', hbest', hmemory⟩

/-! ### A small node -/

open Pipeline (headerAt pointAt)

/-- A chain store with headers only. -/
def headersOnly (headers : List Header) : ChainStore Bool where
  headers := .ofList (headers.map fun header ↦ (header.hash, header))
  validity := ∅
  blocks := ∅
  anchor := .origin
  bestChain := ∅
  bestChainTip := .origin

/-- Two forks from the block of slot 1, the second one higher. -/
def forkFrom1 : ChainStore Bool :=
  headersOnly [headerAt 1 1 none, headerAt 2 2 (some 1), headerAt 4 3 (some 2), headerAt 3 2 (some 1),
    headerAt 5 3 (some 3), headerAt 6 4 (some 5)]

def forkFrom1Tree : HeaderTree := .ofMap forkFrom1.headers (by decide +kernel)

theorem forkFrom1_fresh {AllowedStart Allowed} :
    IndexRun forkFrom1Tree AllowedStart Allowed forkFrom1 (.new false false false 1 .origin)
      (some ⟨[], .origin⟩) :=
  .fresh ⟨id, nofun⟩ rfl rfl rfl rfl

/-- **The index is the path of the ancestors of the best tip.** In every run that does not start at the
origin, and whose tips do not leave the anchor behind: the points held are the ancestors of the best tip
down to the oldest one; the successor of a point is the next one; the anchor is on the path, and no tip
moves it down; and the stores in memory and on disk give the same answers. -/
theorem index_is_path (hrun : IndexRun tree (· ≠ .origin) (AboveAnchor tree) s st memory) :
    (∀ oldest ∈ s.bestChain.values.head?, ∀ p,
        p ∈ s.bestChain.values ↔ tree.Ancestor oldest p ∧ tree.Ancestor p s.bestChainTip) ∧
      (∀ i p, s.bestChain.values[i]? = some p → s.nextBestChain p = s.bestChain.values[i + 1]?) ∧
      List.IsChain tree.Child s.bestChain.values ∧
      s.bestChainTip = s.bestChain.values.getLast?.getD .origin ∧
      (s.anchor = .origin ∨ s.anchor ∈ s.bestChain.values) ∧
      (∀ {msg s' st' sent}, s.HasHeader msg.tip → AboveAnchor tree s msg.tip →
        handle s st msg = .ok (s', st', sent) →
        s.anchor.blockHeight ≤ s'.anchor.blockHeight) ∧
      ∃ inMemory, memory = some inMemory ∧ inMemory.bestChain = s.bestChainTip ∧
        (∀ p, inMemory.isOnBestChain p = s.isOnBestChain p) ∧
        ∀ p, p = .origin ∨ tree.Has p → inMemory.nextBestChain s.headers p = s.nextBestChain p := by
  obtain ⟨path, hpath, hbest, rfl⟩ := Indexed.of_run hrun
  rw [hpath.values_eq]
  refine ⟨fun oldest holdest p ↦ ?_, fun i p ↦ hpath.nextBestChain_eq_getElem?, hpath.isChain, hpath.tip_eq,
    hpath.anchor, fun htip habove hhandle ↦ ?_, _, rfl, rfl, hpath.memory_isOnBestChain _,
    fun p ↦ hpath.memory_nextBestChain _⟩
  · obtain ⟨newer, rfl⟩ : ∃ newer, path = oldest :: newer := head?_eq_some_iff.1 holdest
    exact ⟨fun hp ↦ ⟨ancestor_of_isChain hpath.isChain hp, hpath.ancestor_tip hp⟩, fun ⟨hold, hnew⟩ ↦
      mem_of_isChain tree.ranked_child tree.leftUnique_child hpath.isChain
        (hpath.getLast?_eq (cons_ne_nil _ _)) hold hnew⟩
  · obtain ⟨-, -, -, hheight, -⟩ := hpath.handle hbest htip habove hhandle
    exact hheight

/-- The node that starts at the block of slot 1, adopts the next, and switches to the other fork. -/
theorem index_is_path_forkFrom1 :
    ∃ (s : ChainStore Bool) (st : _) (memory : _), IndexRun forkFrom1Tree (· ≠ .origin)
      (AboveAnchor forkFrom1Tree) s st memory ∧
      s.bestChain.values = [pointAt 1 1, pointAt 3 2, pointAt 5 3] ∧
      s.nextBestChain (pointAt 1 1) = some (pointAt 3 2) := by
  have hstart : IndexRun _ (· ≠ .origin) (AboveAnchor forkFrom1Tree) _
      (.new false false false 1 (pointAt 1 1)) _ :=
    .start (pointAt 1 1) .validOnly forkFrom1_fresh (.inr ⟨headerAt 1 1 none, rfl, rfl⟩) nofun rfl rfl
  have hadopt2 := IndexRun.adopt ⟨pointAt 2 2, 0⟩ hstart ⟨headerAt 2 2 (some 1), rfl, rfl⟩
    (.inr (.single ⟨headerAt 1 1 none, headerAt 2 2 (some 1), rfl, rfl, rfl, rfl, rfl⟩)) rfl
  have hadopt5 := IndexRun.adopt ⟨pointAt 5 3, 0⟩ hadopt2 ⟨headerAt 5 3 (some 3), rfl, rfl⟩
    (.inr (.head ⟨headerAt 1 1 none, headerAt 3 2 (some 1), rfl, rfl, rfl, rfl, rfl⟩
      (.single ⟨headerAt 3 2 (some 1), headerAt 5 3 (some 3), rfl, rfl, rfl, rfl, rfl⟩))) rfl
  refine ⟨_, _, _, hadopt5, by decide +kernel, ?_⟩
  obtain ⟨-, hnext, -⟩ := index_is_path hadopt5
  exact (hnext 0 (pointAt 1 1) (by decide +kernel)).trans (by decide +kernel)

/-- **Either condition is needed.** A node that starts at the origin has the origin in its index, and the
successor of the origin is the origin. A node whose anchor is the block of slot 2 adopts the fork from the
block before: the anchor is not on the best chain, and has no successor from which to move on. -/
theorem index_loses_anchor_or_origin :
    (∃ (s : ChainStore Bool) (st : _) (memory : _), IndexRun forkFrom1Tree (fun _ ↦ True)
      (AboveAnchor forkFrom1Tree) s st memory ∧
      s.bestChain.values = [.origin, pointAt 1 1] ∧ s.nextBestChain .origin = some .origin) ∧
    ∃ (s : ChainStore Bool) (st : _) (memory : _), IndexRun forkFrom1Tree (· ≠ .origin)
      (fun _ _ ↦ True) s st memory ∧
      s.bestChain.values = [pointAt 1 1, pointAt 3 2, pointAt 5 3, pointAt 6 4] ∧
      s.anchor = pointAt 2 2 ∧ s.isOnBestChain s.anchor = false ∧
      s.nextBestChain s.anchor = none := by
  constructor
  · have hstart : IndexRun _ (fun _ ↦ True) (AboveAnchor forkFrom1Tree) _
        (.new false false false 1 .origin) _ :=
      .start .origin .validOnly forkFrom1_fresh (.inl rfl) trivial rfl rfl
    have hadopt := IndexRun.adopt ⟨pointAt 1 1, 0⟩ hstart ⟨headerAt 1 1 none, rfl, rfl⟩ (.inl rfl) rfl
    exact ⟨_, _, _, hadopt, by decide +kernel, by decide +kernel⟩
  · have hstart : IndexRun _ (· ≠ .origin) (fun _ _ ↦ True) _ (.new false false false 1 (pointAt 1 1)) _ :=
      .start (pointAt 1 1) .validOnly forkFrom1_fresh (.inr ⟨headerAt 1 1 none, rfl, rfl⟩) nofun rfl rfl
    have hadopt2 := IndexRun.adopt ⟨pointAt 2 2, 0⟩ hstart ⟨headerAt 2 2 (some 1), rfl, rfl⟩ trivial rfl
    have hadopt4 := IndexRun.adopt ⟨pointAt 4 3, 0⟩ hadopt2 ⟨headerAt 4 3 (some 2), rfl, rfl⟩ trivial rfl
    have hadopt6 := IndexRun.adopt ⟨pointAt 6 4, 0⟩ hadopt4 ⟨headerAt 6 4 (some 5), rfl, rfl⟩ trivial rfl
    exact ⟨_, _, _, hadopt6, by decide +kernel, by decide +kernel, by decide +kernel, by decide +kernel⟩

end Writes

end Amaru
