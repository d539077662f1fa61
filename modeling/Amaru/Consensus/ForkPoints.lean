import Amaru.Consensus.Selection
import Mathlib.Data.List.TakeWhile

/-!
# Fork points and fork paths

Two chains of stored headers are read from the newest point on, in step, to find the newest that they share;
a walk from a header down to a point collects the path between them. Where slots increase along each chain,
**both are exact** (`fork_points_are_exact`): the point is the most recent one on both chains, within the
range that ends at the anchor, and the path is found if and only if the header descends from the point. The
first header of all has no parent, so that no path is found from the origin (`no_path_from_the_origin`).
-/

namespace Amaru

open List Option Header Nat Point

theorem Header.point_lt {h h' : Header} (hlt : h.slot < h'.slot) : h.point < h'.point := by
  show h.point.toKey < h'.point.toKey
  simp [point, toKey, Prod.Lex.toLex_lt_toLex, hlt]

theorem Point.slot_le_of_le {p q : Point} (hle : p ≤ q) : p.slotOrDefault ≤ q.slotOrDefault := by
  replace hle : p.toKey ≤ q.toKey := hle
  rcases p with - | ⟨slot, hash, height⟩ <;> rcases q with - | ⟨slot', hash', height'⟩ <;>
    simp [toKey, slotOrDefault, Prod.Lex.toLex_le_toLex] at hle ⊢
  omega

namespace ChainStore

variable {Body : Type} {s : ChainStore Body} {hash hash' : ℕ} {h h' : Header} {p q start : Point}
  {path points others : List Point}

/-! ### Common points -/

/-- The point is on the chain of a header within the stored range: it is that of the header, or on the chain
of the parent if the header is after the anchor. -/
inductive OnChain (s : ChainStore Body) : Header → Point → Prop
  | self (h : Header) : OnChain s h h.point
  | parent {h h' parent p} (hanchor : s.anchor.slotOrDefault < h.slot) (hparent : h.parent = some parent)
    (hload : s.loadHeader parent = some h') (hon : OnChain s h' p) : OnChain s h p

theorem Ordered.of_mem_ancestors (hordered : s.Ordered) (hload : s.loadHeader hash = some h) :
    (∀ p ∈ (s.ancestors h).map point, s.OnChain h p ∧ p ≤ h.point) ∧
      ((s.ancestors h).map point).Pairwise (· > ·) := by
  induction hslot : h.slot using Nat.strong_induction_on generalizing h hash with
  | _ slot ih =>
    subst hslot
    have hself : ∀ p ∈ [h.point], s.OnChain h p ∧ p ≤ h.point := by
      intro p hp
      rw [mem_singleton.1 hp]
      exact ⟨.self h, le_rfl⟩
    rw [hordered.ancestors_eq_cons hload]
    split_ifs with hanchor
    · exact ⟨hself, pairwise_singleton ..⟩
    rcases hparent : h.parent with - | parent
    · exact ⟨hself, pairwise_singleton ..⟩
    rcases hload' : s.loadHeader parent with - | h'
    · simp only [bind_some, hload']
      exact ⟨hself, pairwise_singleton ..⟩
    simp only [bind_some, hload', map_cons]
    have hlt := hordered hload hparent hload'
    obtain ⟨hon, hpairwise⟩ := ih h'.slot hlt hload' rfl
    have hbelow : ∀ p ∈ (s.ancestors h').map point, p < h.point := fun p hp ↦
      (hon p hp).2.trans_lt (point_lt hlt)
    refine ⟨forall_mem_cons.2 ⟨⟨.self h, le_rfl⟩, fun p hp ↦ ⟨?_, (hbelow p hp).le⟩⟩,
      pairwise_cons.2 ⟨hbelow, hpairwise⟩⟩
    exact .parent (Nat.not_le.1 hanchor) hparent hload' (hon p hp).1

theorem OnChain.mem_ancestors (hon : s.OnChain h p) (hordered : s.Ordered)
    (hload : s.loadHeader hash = some h) : p ∈ (s.ancestors h).map point := by
  induction hon generalizing hash with
  | self h =>
    rw [hordered.ancestors_eq_cons hload]
    exact mem_cons_self ..
  | parent hanchor hparent hload' _ ih =>
    rw [hordered.ancestors_eq_cons hload, if_neg (not_le.2 hanchor), hparent, bind_some, hload']
    exact mem_cons_of_mem _ (ih hload')

/-- **The lock-step search finds the newest point** of two lists from the newest. -/
theorem exists_commonPoint (hpoints : points.Pairwise (· > ·)) (hothers : others.Pairwise (· > ·))
    (hmem : q ∈ points) (hmem' : q ∈ others) : ∃ p, commonPoint points others = some p ∧ q ≤ p := by
  induction others generalizing points with
  | nil => cases hmem'
  | cons other others ih =>
    rw [pairwise_cons] at hothers
    have hle : q ≤ other := by
      rcases mem_cons.1 hmem' with rfl | hmem'
      · exact le_rfl
      · exact (hothers.1 q hmem').le
    -- nothing that is dropped is the point
    have hkept : q ∈ points.dropWhile (other < ·) := by
      rw [← takeWhile_append_dropWhile (p := (other < ·)) (l := points), mem_append] at hmem
      refine hmem.resolve_left fun htake ↦ ?_
      have hlt := mem_takeWhile_imp htake
      exact absurd hle (by simpa using hlt)
    have hsorted := hpoints.sublist (dropWhile_sublist (other < ·))
    have hhead := head?_dropWhile_not (other < ·) points
    rw [commonPoint]
    rcases hdrop : points.dropWhile (other < ·) with - | ⟨newest, older⟩
    · rw [hdrop] at hkept; cases hkept
    rw [hdrop] at hkept hsorted hhead
    dsimp only
    split_ifs with heq
    · exact ⟨other, rfl, hle⟩
    refine ih hsorted hothers.2 hkept ((mem_cons.1 hmem').resolve_left fun hq ↦ heq ?_)
    subst hq
    rcases mem_cons.1 hkept with rfl | hkept
    · rfl
    · simp only [head?_cons, decide_eq_false_iff_not] at hhead
      exact absurd ((pairwise_cons.1 hsorted).1 q hkept) hhead

/-! ### Paths -/

/-- Slots increase along each chain from a point on, be its header stored or not. -/
structure OrderedFrom (s : ChainStore Body) (start : Point) : Prop where
  ordered : s.Ordered
  point_eq : ∀ {h}, s.loadHeader start.hash = some h → h.point = start
  child_lt : ∀ {hash h}, s.loadHeader hash = some h → h.parent = some start.hash →
    start.slotOrDefault < h.slot

theorem Ordered.orderedFrom (hordered : s.Ordered) (hload : s.loadHeader h.hash = some h) :
    s.OrderedFrom h.point where
  ordered := hordered
  point_eq hload' := by rw [some.inj (hload.symm.trans hload')]
  child_lt hload' hparent := hordered hload' hparent hload

theorem Path.length_le (hpath : s.Path start hash path) (hstart : s.OrderedFrom start)
    (hload : s.loadHeader hash = some h) : start.slotOrDefault + path.length ≤ h.slot := by
  induction hpath generalizing h with
  | start => rw [← hstart.point_eq hload]; rfl
  | @child hash parent header path hpath hload' hparent ih =>
    cases hload'.symm.trans hload
    rw [length_append, length_singleton, ← add_assoc]
    rcases hpath with - | ⟨-, hprevious, -⟩
    · exact hstart.child_lt hload hparent
    · exact (ih hprevious).trans_lt (hstart.ordered hload hparent hprevious)

theorem Path.collectBetween_eq (hpath : s.Path start hash path) (hstart : s.OrderedFrom start)
    {fuel : ℕ} (hfuel : path.length < fuel) (tips : List Point) :
    s.collectBetween start.slotOrDefault start.hash fuel hash tips = some (path ++ tips) := by
  induction hpath generalizing fuel tips with
  | start =>
    obtain ⟨fuel, rfl⟩ := exists_eq_add_one.2 (zero_lt_of_lt hfuel)
    rw [collectBetween, if_pos rfl]
    rfl
  | @child hash parent header path hpath hload hparent ih =>
    obtain ⟨fuel, rfl⟩ := exists_eq_add_one.2 (zero_lt_of_lt hfuel)
    have hle := (hpath.child hload hparent).length_le hstart hload
    rw [length_append, length_singleton] at hle hfuel
    have hne : hash ≠ start.hash := by
      rintro rfl
      rw [← hstart.point_eq hload] at hle
      exact absurd hle (by simp [point, slotOrDefault])
    have hlt : ¬header.slot ≤ start.slotOrDefault := by omega
    simp only [collectBetween, if_neg hne, hload, if_neg hlt, hparent]
    rw [ih (by omega), append_assoc]
    rfl

/-- **A path is returned exactly where there is one.** -/
theorem OrderedFrom.ancestorsBetween_eq_iff (hstart : s.OrderedFrom start) :
    s.ancestorsBetween start hash = some path ↔ s.Path start hash path := by
  refine ⟨path_of_ancestorsBetween, fun hpath ↦ ?_⟩
  rw [ancestorsBetween, hpath.collectBetween_eq hstart, append_nil]
  rcases hload : s.loadHeader hash with - | h
  · cases hpath with
    | start => exact zero_lt_two
    | child _ hload' => cases hload.symm.trans hload'
  · have hle := hpath.length_le hstart hload
    simp only [map_some, getD_some]
    omega

/-- **Fork points and fork paths are exact.** Where slots increase along each chain, the search for a common
ancestor of two stored headers finds the most recent point that is on both chains within the stored range,
and ends without one only if there is none; and the points between a point and a header are returned exactly
if they are the path of stored headers that leads from the one to the other, from parent to child. -/
theorem fork_points_are_exact (hordered : s.Ordered) :
    (∀ hash hash' h h', s.loadHeader hash = some h → s.loadHeader hash' = some h' →
      (∃ p, s.findCommonAncestor hash hash' = .found p ∧ s.OnChain h p ∧ s.OnChain h' p ∧
        ∀ q, s.OnChain h q → s.OnChain h' q → q.slotOrDefault ≤ p.slotOrDefault) ∨
      s.findCommonAncestor hash hash' = .notFound ∧ ∀ q, s.OnChain h q → ¬s.OnChain h' q) ∧
    ∀ start, s.OrderedFrom start → ∀ tip path,
      s.ancestorsBetween start tip = some path ↔ s.Path start tip path := by
  refine ⟨fun hash hash' h h' hload hload' ↦ ?_, fun _ hstart _ _ ↦ hstart.ancestorsBetween_eq_iff⟩
  obtain ⟨hon, hpairwise⟩ := hordered.of_mem_ancestors hload
  obtain ⟨hon', hpairwise'⟩ := hordered.of_mem_ancestors hload'
  have hfind (q : Point) (hq : s.OnChain h q) (hq' : s.OnChain h' q) :=
    exists_commonPoint hpairwise hpairwise' (hq.mem_ancestors hordered hload)
      (hq'.mem_ancestors hordered hload')
  simp only [findCommonAncestor, hload, hload']
  rcases hcommon : commonPoint ((s.ancestors h).map point) ((s.ancestors h').map point) with - | p
  · refine .inr ⟨rfl, fun q hq hq' ↦ ?_⟩
    obtain ⟨p, hp, -⟩ := hfind q hq hq'
    cases hcommon.symm.trans hp
  obtain ⟨hp, hp'⟩ := mem_of_commonPoint hcommon
  refine .inl ⟨p, rfl, (hon p hp).1, (hon' p hp').1, fun q hq hq' ↦ ?_⟩
  obtain ⟨p', hp', hle⟩ := hfind q hq hq'
  cases hcommon.symm.trans hp'
  exact slot_le_of_le hle

open Pipeline (headerAt pointAt)
open SelectChain (forkBelowAnchor sound_forkBelowAnchor)

/-- The fork below the anchor shares no point with the best chain in range, and there is a path from the block
below the anchor. -/
theorem fork_points_are_exact_below_anchor : forkBelowAnchor.Ordered ∧
    (∀ p, forkBelowAnchor.OnChain (headerAt 42 13 (some 41)) p →
      ¬forkBelowAnchor.OnChain (headerAt 36 13 (some 35)) p) ∧
    forkBelowAnchor.Path (pointAt 32 10) 36 [pointAt 33 11, pointAt 35 12, pointAt 36 13] := by
  have hordered := sound_forkBelowAnchor.within.ordered
  obtain ⟨hcommon, hpath⟩ := fork_points_are_exact hordered
  refine ⟨hordered, ?_, (hpath _ (hordered.orderedFrom (h := headerAt 32 10 none) rfl) _ _).1 rfl⟩
  rcases hcommon 42 36 _ _ rfl rfl with ⟨p, hfound, -⟩ | ⟨-, hnone⟩
  · cases hfound
  · exact hnone

/-- **No path is found from the origin** to the first header of a chain, which the store has among the
children of the origin. -/
theorem no_path_from_the_origin : ∃ s : ChainStore Bool, s.OrderedFrom .origin ∧
    ∃ first ∈ s.getChildren origin.hash, s.ancestorsBetween .origin first = none := by
  refine ⟨forkBelowAnchor, ⟨sound_forkBelowAnchor.within.ordered, fun hload ↦ ?_, fun hload hparent ↦ ?_⟩,
    32, by decide +kernel, by decide +kernel⟩
  · cases hload
  · exact absurd hparent ((by decide +kernel : ∀ entry ∈ forkBelowAnchor.headers.entries,
      entry.2.parent ≠ some originHash) _ (SortedMap.mem_entries_iff.2 hload))

end ChainStore

end Amaru
