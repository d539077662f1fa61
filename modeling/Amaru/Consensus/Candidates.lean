import Amaru.Consensus.Walk
import Amaru.Data.Traversal

/-!
# Candidates in the chain store

A store is **sound** if the headers above the anchor have their parents stored, the anchor is valid, and
no valid block descends from an invalid one. Then the ancestors of a header above the anchor are a line
that ends at a block with a verdict, or at a header without a parent (`Sound.line_induction`): the
ancestors without verdict are those of the parent and the header itself, and **the verdict that comes
before is positive exactly if no ancestor is invalid** (`Sound.snd_unvalidated`).

The search for the best candidate visits **every header above the anchor without an invalid ancestor**
(`Sound.mem_visit`), and no other (`Sound.clean_of_mem_visit`).
-/

namespace Amaru

open Option List Traversal SortedMap Ancestry Header

namespace ChainStore

variable {Body : Type} {tree : HeaderTree} {s : ChainStore Body} {p q : Point} {hash child : ℕ}
  {hdr : Header} {best result : Option Header} {fuel : ℕ}

/-- The point descends from the anchor. -/
def Above (tree : HeaderTree) (s : ChainStore Body) (p : Point) : Prop :=
  s.anchor = .origin ∨ tree.Ancestor s.anchor p

/-- What is known of the headers and of the verdicts of a store. -/
structure Sound (tree : HeaderTree) (s : ChainStore Body) : Prop where
  within : s.Within tree
  exists_parent : ∀ {hash h parent}, s.loadHeader hash = some h →
    s.anchor = .origin ∨ s.anchor.slotOrDefault < h.slot → h.parent = some parent →
    ∃ h', s.loadHeader parent = some h'
  anchor : s.anchor = .origin ∨
    s.HasHeader s.anchor ∧ s.validity.get? s.anchor.hash = some true
  verdicts : ∀ {p q}, tree.Ancestor p q → s.validity.get? q.hash = some true →
    s.validity.get? p.hash ≠ some false

/-- No ancestor of the point is invalid. -/
def Clean (tree : HeaderTree) (s : ChainStore Body) (p : Point) : Prop :=
  ∀ q, tree.Ancestor q p → s.validity.get? q.hash ≠ some false

/-! ### Lines of ancestors -/

theorem Within.hash_ne_origin (hstore : s.Within tree) (hp : s.HasHeader p) :
    p.hash ≠ originHash := by
  obtain ⟨hdr, hload, -⟩ := hp
  intro heq
  have hnone := hstore.loadHeader_origin
  rw [Point.hash, ← heq, hload] at hnone
  cases hnone

theorem Sound.anchor_ne (hsound : s.Sound tree) (hp : s.HasHeader p)
    (hnone : s.validity.get? p.hash = none) : s.anchor ≠ p := by
  rintro rfl
  rcases hsound.anchor with horigin | ⟨-, hvalid⟩
  · exact hsound.within.hash_ne_origin hp (by rw [horigin]; rfl)
  · rw [hnone] at hvalid
    cases hvalid

theorem Sound.above_of_child (hsound : s.Sound tree) (hq : s.HasHeader q)
    (habove : s.Above tree q) (hne : s.anchor ≠ q) (hchild : tree.Child p q) :
    s.HasHeader p ∧ s.Above tree p ∧ s.anchor.slotOrDefault < q.slotOrDefault := by
  have hstored (hslot : s.anchor = .origin ∨ s.anchor.slotOrDefault < q.slotOrDefault) :
      s.HasHeader p := by
    obtain ⟨hdr, hload, rfl⟩ := hq
    obtain ⟨hp, hq, hheader, hpoint, hheader', -, hparent⟩ := hchild
    rw [hsound.within.header_eq hload] at hheader'
    cases hheader'
    obtain ⟨found, hfound⟩ := hsound.exists_parent hload hslot hparent
    rw [hsound.within.header_eq hfound] at hheader
    exact ⟨found, hfound, some.inj hheader ▸ hpoint⟩
  rcases habove with horigin | hancestor
  · refine ⟨hstored (.inl horigin), .inl horigin, ?_⟩
    rw [horigin]
    exact Nat.zero_lt_of_lt hchild.slot_lt
  · have hancestor := (eq_or_ancestor_of_child tree.leftUnique_child hchild hancestor).resolve_left hne
    have hlt := (HeaderTree.slot_le_of_ancestor hancestor).trans_lt hchild.slot_lt
    exact ⟨hstored (.inr hlt), .inr hancestor, hlt⟩

/-- **Induction along the ancestors** of a header above the anchor, from one that has a verdict or no
parent. -/
@[elab_as_elim]
theorem Sound.line_induction (hsound : s.Sound tree) {motive : Point → Prop}
    (decided : ∀ {p v}, s.HasHeader p → s.validity.get? p.hash = some v → motive p)
    (root : ∀ {p}, s.HasHeader p → s.validity.get? p.hash = none → (∀ q, ¬tree.Child q p) → motive p)
    (child : ∀ {p q}, s.HasHeader p → s.HasHeader q → s.validity.get? q.hash = none →
      tree.Child p q → s.Above tree p → s.anchor.slotOrDefault < q.slotOrDefault → motive p →
      motive q)
    (hp : s.HasHeader p) (habove : s.Above tree p) : motive p := by
  induction hslot : p.slotOrDefault using Nat.strong_induction_on generalizing p with
  | _ slot ih =>
    subst hslot
    rcases hvalidity : s.validity.get? p.hash with - | v
    · by_cases hparent : ∃ q, tree.Child q p
      · obtain ⟨q, hchild⟩ := hparent
        obtain ⟨hq, habove', hlt⟩ :=
          hsound.above_of_child hp habove (hsound.anchor_ne hp hvalidity) hchild
        exact child hq hp hvalidity hchild habove' hlt (ih _ hchild.slot_lt hq habove' rfl)
      · exact root hp hvalidity (not_exists.1 hparent)
    · exact decided hp hvalidity

theorem unvalidated_of_decided (hp : s.HasHeader p) {v : Bool}
    (h : s.validity.get? p.hash = some v) : s.unvalidatedAncestorHashes p.hash = ([], v) := by
  obtain ⟨hdr, hload, rfl⟩ := hp
  rw [hash_point] at hload h ⊢
  obtain ⟨older, holder⟩ : ∃ older, s.ancestors hdr = hdr :: older := ⟨_, rfl⟩
  simp [unvalidatedAncestorHashes, hload, holder, h]

theorem unvalidated_of_root (hstore : s.Within tree) (hp : s.HasHeader p)
    (h : s.validity.get? p.hash = none) (hroot : ∀ q, ¬tree.Child q p) :
    s.unvalidatedAncestorHashes p.hash = ([p.hash], true) := by
  obtain ⟨hdr, hload, rfl⟩ := hp
  rw [hash_point] at hload h ⊢
  have holder : s.ancestors hdr = [hdr] := by
    rw [hstore.ordered.ancestors_eq_cons hload]
    split_ifs
    · rfl
    rcases hparent : hdr.parent with - | parent
    · rfl
    rcases hload' : s.loadHeader parent with - | header'
    · simp only [bind_some, hload']
    · obtain rfl := hstore.hash_eq hload'
      exact absurd (hstore.child (hstore.hasHeader hload') hload hparent) (hroot _)
  simp [unvalidatedAncestorHashes, hload, holder, h]

theorem unvalidated_of_child (hstore : s.Within tree) (hp : s.HasHeader p)
    (hq : s.HasHeader q) (h : s.validity.get? q.hash = none) (hchild : tree.Child p q)
    (hslot : s.anchor.slotOrDefault < q.slotOrDefault) :
    s.unvalidatedAncestorHashes q.hash =
      ((s.unvalidatedAncestorHashes p.hash).1 ++ [q.hash],
        (s.unvalidatedAncestorHashes p.hash).2) := by
  obtain ⟨header', hload', rfl⟩ := hp
  obtain ⟨hdr, hload, rfl⟩ := hq
  obtain ⟨-, header'', -, -, hheader, -, hparent⟩ := hchild
  rw [hstore.header_eq hload] at hheader
  cases hheader
  rw [hash_point] at *
  rw [slotOrDefault_point] at hslot
  have holder : s.ancestors hdr = hdr :: s.ancestors header' := by
    rw [hstore.ordered.ancestors_eq_cons hload, if_neg (Nat.not_le.2 hslot), hparent, bind_some, hload']
  simp [unvalidatedAncestorHashes, hload, hload', holder, h]

section

variable (hsound : s.Sound tree) (hp : s.HasHeader p) (habove : s.Above tree p)
include hsound hp habove

/-- **The verdict that comes before the ancestors without one** is positive exactly if no ancestor is
invalid. -/
theorem Sound.snd_unvalidated : (s.unvalidatedAncestorHashes p.hash).2 = true ↔ s.Clean tree p := by
  refine hsound.line_induction ?_ ?_ ?_ hp habove
  · intro p v hp hvalidity
    rw [unvalidated_of_decided hp hvalidity]
    constructor
    · rintro rfl q hancestor
      exact hsound.verdicts hancestor hvalidity
    · intro hclean
      rcases v with - | -
      · exact absurd hvalidity (hclean p .refl)
      · rfl
  · intro p hp hvalidity hroot
    rw [unvalidated_of_root hsound.within hp hvalidity hroot]
    refine ⟨fun _ q hancestor ↦ ?_, fun _ ↦ rfl⟩
    rcases hancestor.cases_tail with rfl | ⟨q, -, hchild⟩
    · simp [hvalidity]
    · exact absurd hchild (hroot q)
  · intro p q hp hq hvalidity hchild _ hslot ih
    rw [unvalidated_of_child hsound.within hp hq hvalidity hchild hslot, ih]
    constructor
    · intro hclean r hancestor
      rcases eq_or_ancestor_of_child tree.leftUnique_child hchild hancestor with rfl | hancestor
      · simp [hvalidity]
      · exact hclean r hancestor
    · exact fun hclean r hancestor ↦ hclean r (hancestor.tail hchild)

/-- The ancestors without verdict end at the header, if there are any. -/
theorem Sound.getLast?_unvalidated : (s.unvalidatedAncestorHashes p.hash).1 = [] ∨
      (s.unvalidatedAncestorHashes p.hash).1.getLast? = some p.hash := by
  refine hsound.line_induction ?_ ?_ ?_ hp habove
  · intro p v hp hvalidity
    exact .inl (by rw [unvalidated_of_decided hp hvalidity])
  · intro p hp hvalidity hroot
    exact .inr (by rw [unvalidated_of_root hsound.within hp hvalidity hroot]; rfl)
  · intro p q hp hq hvalidity hchild _ hslot _
    refine .inr ?_
    rw [unvalidated_of_child hsound.within hp hq hvalidity hchild hslot]
    exact getLast?_concat

theorem Sound.exists_of_mem_unvalidated (h : hash ∈ (s.unvalidatedAncestorHashes p.hash).1) :
    ∃ q, tree.Ancestor q p ∧ q.hash = hash := by
  revert h
  refine hsound.line_induction ?_ ?_ ?_ hp habove
  · intro p v hp hvalidity h
    rw [unvalidated_of_decided hp hvalidity] at h
    cases h
  · intro p hp hvalidity hroot h
    rw [unvalidated_of_root hsound.within hp hvalidity hroot] at h
    exact ⟨p, .refl, (mem_singleton.1 h).symm⟩
  · intro p q hp hq hvalidity hchild _ hslot ih h
    rw [unvalidated_of_child hsound.within hp hq hvalidity hchild hslot] at h
    rcases mem_append.1 h with h | h
    · obtain ⟨r, hancestor, hhash⟩ := ih h
      exact ⟨r, hancestor.tail hchild, hhash⟩
    · exact ⟨q, .refl, (mem_singleton.1 h).symm⟩

end

/-! ### The search for the best candidate -/

/-- The nodes that the search goes to from a header. -/
def searchChildren (s : ChainStore Body) (hash : ℕ) : List ℕ := (s.getChildren hash).reverse

/-- The headers that the search passes over. -/
def isInvalid (s : ChainStore Body) (hash : ℕ) : Bool := s.validity.get? hash = some false

/-- Keep the better one of a candidate and a header. -/
def pickBetter (s : ChainStore Body) (best : Option Header) (hash : ℕ) : Option Header :=
  match s.loadHeader hash with
  | none => best
  | some hdr => if cmpTip (some hdr) best = .gt then some hdr else best

/-- **The search keeps the best of what it visits.** -/
theorem searchBestCandidate_eq {toVisit} (h : s.searchBestCandidate fuel toVisit best = some result) :
    result = (visit s.searchChildren s.isInvalid fuel toVisit).foldl s.pickBetter
      best := by
  induction fuel generalizing toVisit best with
  | zero => cases toVisit <;> exact (some.inj h).symm
  | succ fuel ih =>
    rcases toVisit with - | ⟨hash, toVisit⟩
    · exact (some.inj h).symm
    rw [searchBestCandidate] at h
    rw [visit]
    rcases hload : s.loadHeader hash with - | hdr
    · simp [loadHeaderWithValidity, hload] at h
    rcases hvalidity : s.validity.get? hash with - | - | - <;>
      simp only [loadHeaderWithValidity, hload, hvalidity, map_some] at h <;> rw [ih h]
    · simp [isInvalid, hvalidity, pickBetter, hload, searchChildren]
    · simp [isInvalid, hvalidity]
    · simp [isInvalid, hvalidity, pickBetter, hload, searchChildren]

theorem pickBetter_cases (s : ChainStore Body) (best : Option Header) (hash : ℕ) :
    s.pickBetter best hash = best ∨ ∃ hdr, s.loadHeader hash = some hdr ∧
      s.pickBetter best hash = some hdr ∧ cmpTip (some hdr) best = .gt := by
  rw [pickBetter]
  rcases hload : s.loadHeader hash with - | hdr
  · exact .inl rfl
  · dsimp only
    split_ifs with hcmp
    · exact .inr ⟨hdr, rfl, rfl, hcmp⟩
    · exact .inl rfl

theorem foldl_pickBetter_cases (s : ChainStore Body) (visited : List ℕ) (best : Option Header) :
    visited.foldl s.pickBetter best = best ∨ ∃ hash ∈ visited, ∃ hdr,
      s.loadHeader hash = some hdr ∧ visited.foldl s.pickBetter best = some hdr := by
  induction visited generalizing best with
  | nil => exact .inl rfl
  | cons hash visited ih =>
    rcases ih (s.pickBetter best hash) with heq | ⟨hash', hmem, hdr, hload, heq⟩
    · rcases s.pickBetter_cases best hash with hbest | ⟨hdr, hload, hbest, -⟩
      · exact .inl (heq.trans hbest)
      · exact .inr ⟨hash, mem_cons_self .., hdr, hload, heq.trans hbest⟩
    · exact .inr ⟨hash', mem_cons_of_mem _ hmem, hdr, hload, heq⟩

theorem mem_getChildren (h : child ∈ s.getChildren hash) :
    ∃ hdr, s.loadHeader child = some hdr ∧ hdr.parent.getD originHash = hash := by
  obtain ⟨⟨key, hdr⟩, hmem, rfl⟩ := mem_map.1 h
  obtain ⟨hmem, hparent⟩ := mem_filter.1 hmem
  exact ⟨hdr, mem_entries_iff.1 hmem, of_decide_eq_true hparent⟩

theorem mem_getChildren_of_parent (hload : s.loadHeader child = some hdr)
    (hparent : hdr.parent.getD originHash = hash) :
    child ∈ s.getChildren hash :=
  mem_map.2 ⟨(child, hdr), mem_filter.2 ⟨mem_entries_iff.2 hload, decide_eq_true hparent⟩, rfl⟩

section

variable (hstore : s.Within tree) (hload : s.loadHeader hash = some hdr)
include hstore hload

theorem Within.child_of_mem_getChildren (h : child ∈ s.getChildren hash) :
    ∃ header', s.loadHeader child = some header' ∧ header'.parent = some hash ∧
      tree.Child hdr.point header'.point := by
  obtain ⟨header', hload', hparent⟩ := mem_getChildren h
  have hne : hash ≠ originHash := by
    rintro rfl
    have hnone := hstore.loadHeader_origin
    rw [Point.hash, hload] at hnone
    cases hnone
  have hsome : header'.parent = some hash := by
    rcases hparent' : header'.parent with - | parent <;> rw [hparent'] at hparent
    · exact absurd hparent.symm hne
    · exact congrArg some hparent
  have hhash := hstore.hash_eq hload
  exact ⟨header', hload', hsome, hstore.child (hstore.hasHeader hload) hload' (by rw [hsome, ← hhash]; rfl)⟩

/-- What a search finds below a header without invalid ancestors has none either. -/
theorem Within.clean_of_reach {hash' : ℕ}
    (hreach : Relation.ReflTransGen (Traversal.Step s.searchChildren s.isInvalid) hash hash')
    (hclean : s.isInvalid hash = false → s.Clean tree hdr.point) :
    ∃ header', s.loadHeader hash' = some header' ∧ tree.Ancestor hdr.point header'.point ∧
      (s.isInvalid hash' = false → s.Clean tree header'.point) := by
  induction hreach with
  | refl => exact ⟨hdr, hload, .refl, hclean⟩
  | @tail parent child _ hstep ih =>
    obtain ⟨header', hload', hancestor, hclean'⟩ := ih
    obtain ⟨header'', hload'', -, hchild⟩ :=
      hstore.child_of_mem_getChildren hload' (mem_reverse.1 hstep.2)
    refine ⟨header'', hload'', hancestor.tail hchild, fun hvalid q hq ↦ ?_⟩
    rcases eq_or_ancestor_of_child tree.leftUnique_child hchild hq with rfl | hq
    · rw [hash_point, hstore.hash_eq hload'']
      exact of_decide_eq_false hvalid
    · exact hclean' hstep.1 q hq

theorem Within.not_child_of_root (hparent : hdr.parent.getD originHash = originHash) (q : Point) :
    ¬tree.Child q hdr.point := by
  rintro ⟨h, h', hq, -, hheader, -, hparent'⟩
  rw [hash_point, hstore.hash_eq hload, hstore.header_eq hload] at hheader
  cases hheader
  rw [hparent', getD_some] at hparent
  rw [hparent, tree.header_origin] at hq
  cases hq

end

/-- Where the search starts. -/
inductive Starts (s : ChainStore Body) : List ℕ → Option Header → Prop
  | origin (horigin : s.anchor.hash = originHash) : Starts s (s.searchChildren originHash) none
  | anchor {hdr : Header} (horigin : s.anchor.hash ≠ originHash)
    (hload : s.loadHeader s.anchor.hash = some hdr) :
    Starts s [s.anchor.hash] (some hdr)

variable {toVisit : List ℕ} {candidate : Option Header}

theorem exists_of_findBestCandidate {best : ℕ} (h : s.findBestCandidate = some best) :
    ∃ toVisit candidate result, s.Starts toVisit candidate ∧
      result = (visit s.searchChildren s.isInvalid s.headers.entries.length
        toVisit).foldl s.pickBetter candidate ∧
      best = (result.map Header.hash).getD originHash := by
  rw [findBestCandidate] at h
  split_ifs at h with horigin
  · obtain ⟨result, hresult, rfl⟩ := map_eq_some_iff.1 h
    refine ⟨_, _, result, .origin horigin, ?_, rfl⟩
    rw [searchBestCandidate_eq hresult, horigin]
    rfl
  · split at h
    · cases h
    · rename_i hdr hload
      obtain ⟨result, hresult, rfl⟩ := map_eq_some_iff.1 h
      exact ⟨_, _, result, .anchor horigin hload, searchBestCandidate_eq hresult, rfl⟩

/-- The header of the anchor is above it and has no invalid ancestor. -/
theorem Sound.clean_of_anchor {hdr} (hsound : s.Sound tree) (horigin : s.anchor.hash ≠ originHash)
    (hload : s.loadHeader s.anchor.hash = some hdr) :
    s.Above tree hdr.point ∧ s.Clean tree hdr.point := by
  obtain ⟨⟨header', hload', hpoint⟩, hvalid⟩ :=
    hsound.anchor.resolve_left fun h ↦ horigin (by rw [h]; rfl)
  obtain rfl := some.inj (hload.symm.trans hload')
  exact ⟨.inr (hpoint ▸ .refl), fun q hq ↦ hsound.verdicts (hpoint ▸ hq) hvalid⟩

section

variable (hsound : s.Sound tree) (h : s.Starts toVisit candidate)
include hsound h

/-- The search starts above the anchor, at headers that have no invalid ancestor but themselves. -/
theorem Sound.clean_of_starts (hmem : hash ∈ toVisit) : ∃ hdr, s.loadHeader hash = some hdr ∧
      s.Above tree hdr.point ∧ (s.isInvalid hash = false → s.Clean tree hdr.point) := by
  cases h with
  | origin horigin =>
    obtain ⟨hdr, hload, hparent⟩ := mem_getChildren (mem_reverse.1 hmem)
    refine ⟨hdr, hload, .inl (hsound.anchor.resolve_right fun hanchor ↦ ?_), fun hvalid q hq ↦ ?_⟩
    · exact hsound.within.hash_ne_origin hanchor.1 horigin
    rcases hq.cases_tail with rfl | ⟨q, -, hchild⟩
    · rw [hash_point, hsound.within.hash_eq hload]
      exact of_decide_eq_false hvalid
    · exact absurd hchild (hsound.within.not_child_of_root hload hparent q)
  | @anchor hdr horigin hload =>
    obtain ⟨habove, hclean⟩ := hsound.clean_of_anchor horigin hload
    rw [mem_singleton.1 hmem]
    exact ⟨hdr, hload, habove, fun _ ↦ hclean⟩

/-- **What the search visits** is above the anchor and has no invalid ancestor. -/
theorem Sound.clean_of_mem_visit (hmem : hash ∈ visit s.searchChildren s.isInvalid fuel toVisit) :
    ∃ hdr, s.loadHeader hash = some hdr ∧ s.Above tree hdr.point ∧
      s.Clean tree hdr.point := by
  obtain ⟨hvalid, start, hstart, hreach⟩ := exists_of_mem_visit hmem
  obtain ⟨hdr, hload, habove, hclean⟩ := hsound.clean_of_starts h hstart
  obtain ⟨header', hload', hancestor, hclean'⟩ := hsound.within.clean_of_reach hload hreach hclean
  exact ⟨header', hload', habove.imp id fun h ↦ h.trans hancestor, hclean' hvalid⟩

/-- Headers above the anchor without an invalid ancestor can be reached. -/
theorem Sound.exists_reach (hp : s.HasHeader p) (habove : s.Above tree p)
    (hclean : s.Clean tree p) :
    ∃ start ∈ toVisit,
      Relation.ReflTransGen (Traversal.Step s.searchChildren s.isInvalid) start p.hash := by
  induction hslot : p.slotOrDefault using Nat.strong_induction_on generalizing p with
  | _ slot ih =>
    subst hslot
    by_cases hanchor : s.anchor = p
    · cases h with
      | origin horigin => exact absurd (hanchor ▸ horigin) (hsound.within.hash_ne_origin hp)
      | anchor => exact ⟨_, mem_singleton_self _, hanchor ▸ .refl⟩
    by_cases hparent : ∃ q, tree.Child q p
    · obtain ⟨q, hchild⟩ := hparent
      obtain ⟨hq, habove', -⟩ := hsound.above_of_child hp habove hanchor hchild
      obtain ⟨start, hstart, hreach⟩ := ih _ hchild.slot_lt hq habove'
        (fun r hr ↦ hclean r (hr.tail hchild)) rfl
      have hvalid : s.isInvalid q.hash = false := decide_eq_false (hclean q (.single hchild))
      obtain ⟨hdr, hload, rfl⟩ := hp
      obtain ⟨-, header', -, -, hheader, -, hnames⟩ := hchild
      rw [hsound.within.header_eq hload] at hheader
      cases hheader
      refine ⟨start, hstart, hreach.tail ⟨hvalid, ?_⟩⟩
      exact mem_reverse.2 (mem_getChildren_of_parent hload (by rw [hnames]; rfl))
    · -- a header without a parent is above the origin only
      have horigin : s.anchor = .origin := by
        refine habove.resolve_right fun hancestor ↦ ?_
        rcases hancestor.cases_tail with heq | ⟨q, -, hchild⟩
        · exact hanchor heq.symm
        · exact hparent ⟨q, hchild⟩
      cases h with
      | anchor hne => exact absurd (by rw [horigin]; rfl) hne
      | origin =>
        obtain ⟨hdr, hload, rfl⟩ := hp
        refine ⟨_, mem_reverse.2 (mem_getChildren_of_parent hload ?_), .refl⟩
        rcases hnames : hdr.parent with - | parent
        · rfl
        · obtain ⟨header', hload'⟩ := hsound.exists_parent hload (.inl horigin) hnames
          obtain rfl := hsound.within.hash_eq hload'
          exact absurd ⟨_, hsound.within.child (hsound.within.hasHeader hload') hload hnames⟩ hparent

end

/-- The height of a stored header. -/
def heightOf (s : ChainStore Body) (hash : ℕ) : ℕ :=
  ((s.loadHeader hash).map blockHeight).getD 0

theorem Within.forest (hstore : s.Within tree) :
    Traversal.Forest s.searchChildren s.heightOf s.headers.keys.toFinset := by
  have hload {hash : ℕ} (h : hash ∈ s.headers.keys.toFinset) :
      ∃ hdr, s.loadHeader hash = some hdr :=
    isSome_iff_exists.1 (mem_keys_iff.1 (mem_toFinset.1 h))
  refine ⟨fun {a b} _ hb ↦ ?_, fun {a} _ ↦ ?_, fun a b hab ↦ ?_, fun a a' b h h' ↦ ?_⟩
  · obtain ⟨hdr, hheader, -⟩ := mem_getChildren (mem_reverse.1 hb)
    exact mem_toFinset.2 (mem_keys_iff.2 (isSome_iff_exists.2 ⟨hdr, hheader⟩))
  · exact nodup_reverse.2 ((filter_sublist.map Prod.fst).nodup s.headers.nodup_keys)
  · obtain ⟨hdr, hheader⟩ := hload hab.1
    obtain ⟨header', hheader', hparent, -⟩ :=
      hstore.child_of_mem_getChildren hheader (mem_reverse.1 hab.2)
    rw [heightOf, heightOf, hheader, hheader']
    exact (tree.linked (hstore.header_eq hheader') hparent (hstore.header_eq hheader)).2
  · obtain ⟨hdr, hheader⟩ := hload h.1
    obtain ⟨header', hheader'⟩ := hload h'.1
    obtain ⟨child, hchild, hparent, -⟩ :=
      hstore.child_of_mem_getChildren hheader (mem_reverse.1 h.2)
    obtain ⟨child', hchild', hparent', -⟩ :=
      hstore.child_of_mem_getChildren hheader' (mem_reverse.1 h'.2)
    rw [hchild] at hchild'
    cases hchild'
    exact some.inj (hparent.symm.trans hparent')

theorem Within.apart_of_starts (hstore : s.Within tree) (h : s.Starts toVisit candidate) :
    toVisit.Pairwise (Traversal.Apart s.searchChildren s.headers.keys.toFinset) := by
  cases h with
  | anchor => exact pairwise_singleton _ _
  | origin =>
    have hroot {a b : ℕ} (hb : b ∈ s.searchChildren originHash)
        (hab : Ancestry.Ancestor (fun a b ↦ a ∈ s.headers.keys.toFinset ∧
          b ∈ s.searchChildren a) a b) : a = b := by
      rcases hab.cases_tail with heq | ⟨c, -, hc, hchild⟩
      · exact heq.symm
      obtain ⟨hdr, hload⟩ := isSome_iff_exists.1 (mem_keys_iff.1 (mem_toFinset.1 hc))
      obtain ⟨header', hload', hparent, -⟩ :=
        hstore.child_of_mem_getChildren hload (mem_reverse.1 hchild)
      obtain ⟨header'', hload'', hparent'⟩ := mem_getChildren (mem_reverse.1 hb)
      rw [hload'] at hload''
      cases hload''
      rw [hparent, getD_some] at hparent'
      rw [← hstore.hash_eq hload] at hparent'
      exact absurd hparent' (hstore.hash_ne_origin (hstore.hasHeader hload))
    have hnodup : (s.searchChildren originHash).Nodup :=
      nodup_reverse.2 ((filter_sublist.map Prod.fst).nodup s.headers.nodup_keys)
    exact hnodup.imp_of_mem fun {a b} ha hb hne ↦
      ⟨fun hab ↦ hne (hroot hb hab), fun hba ↦ hne (hroot ha hba).symm⟩

/-- **The search visits every header above the anchor without an invalid ancestor.** -/
theorem Sound.mem_visit (hsound : s.Sound tree) (h : s.Starts toVisit candidate)
    (hp : s.HasHeader p) (habove : s.Above tree p) (hclean : s.Clean tree p) :
    p.hash ∈ visit s.searchChildren s.isInvalid s.headers.entries.length
      toVisit := by
  obtain ⟨start, hstart, hreach⟩ := hsound.exists_reach h hp habove hclean
  refine hsound.within.forest.mem_visit (fun hash hmem ↦ ?_) (hsound.within.apart_of_starts h) ?_ hstart
    hreach (decide_eq_false (hclean p .refl))
  · obtain ⟨hdr, hload, -⟩ := hsound.clean_of_starts h hmem
    exact mem_toFinset.2 (mem_keys_iff.2 (isSome_iff_exists.2 ⟨hdr, hload⟩))
  · calc (below s.searchChildren s.headers.keys.toFinset toVisit).card
        ≤ s.headers.keys.toFinset.card :=
          Finset.card_le_card fun _ hmem ↦ (mem_below.1 hmem).1
      _ ≤ s.headers.keys.length := toFinset_card_le _
      _ = s.headers.entries.length := length_map _

theorem le_pickBetter (h : best = some hdr ∨ s.loadHeader hash = some hdr) :
    ∃ header', s.pickBetter best hash = some header' ∧ hdr.blockHeight ≤ header'.blockHeight := by
  rw [pickBetter]
  rcases hload : s.loadHeader hash with - | loaded
  · exact ⟨hdr, h.resolve_right (by simp [hload]), le_rfl⟩
  dsimp only
  split_ifs with hcmp
  · refine ⟨loaded, rfl, ?_⟩
    rcases h with rfl | h
    · exact le_of_cmpTip hcmp
    · rw [some.inj (hload.symm.trans h)]
  · rcases best with - | best
    · exact absurd rfl hcmp
    · refine ⟨best, rfl, ?_⟩
      rcases h with h | h
      · rw [some.inj h]
      · rw [← some.inj (hload.symm.trans h)]
        exact not_lt_of_cmpTip hcmp

/-- What the search picks is not lower than what it visits, nor than the candidate before. -/
theorem le_of_foldl_pickBetter {visited : List ℕ} (h : visited.foldl s.pickBetter best = result) :
    (∀ hdr, best = some hdr → ∃ header', result = some header' ∧
        hdr.blockHeight ≤ header'.blockHeight) ∧
      ∀ hash ∈ visited, ∀ hdr, s.loadHeader hash = some hdr → ∃ header', result = some header' ∧
        hdr.blockHeight ≤ header'.blockHeight := by
  induction visited generalizing best with
  | nil =>
    subst h
    exact ⟨fun hdr hbest ↦ ⟨hdr, hbest, le_rfl⟩, by simp⟩
  | cons hash visited ih =>
    obtain ⟨hbest, hvisited⟩ := ih h
    have hfirst : ∀ hdr, best = some hdr ∨ s.loadHeader hash = some hdr →
        ∃ header', result = some header' ∧ hdr.blockHeight ≤ header'.blockHeight := by
      intro hdr hheader
      obtain ⟨picked, hpicked, hle⟩ := le_pickBetter hheader
      obtain ⟨header', hresult, hle'⟩ := hbest picked hpicked
      exact ⟨header', hresult, hle.trans hle'⟩
    refine ⟨fun hdr h ↦ hfirst hdr (.inl h), fun hash' hmem hdr hload ↦ ?_⟩
    rcases mem_cons.1 hmem with rfl | hmem
    · exact hfirst hdr (.inr hload)
    · exact hvisited hash' hmem hdr hload

/-- **The best candidate** is above the anchor and has no invalid ancestor. -/
theorem Sound.exists_of_findBestCandidate (hsound : s.Sound tree) {best : ℕ}
    (h : s.findBestCandidate = some best) (hne : best ≠ originHash) :
    ∃ hdr, s.loadHeader best = some hdr ∧ s.Above tree hdr.point ∧
      s.Clean tree hdr.point := by
  obtain ⟨toVisit, candidate, result, hstarts, hresult, rfl⟩ := ChainStore.exists_of_findBestCandidate h
  rcases s.foldl_pickBetter_cases (visit s.searchChildren s.isInvalid
    s.headers.entries.length toVisit) candidate with heq | ⟨hash, hmem, hdr, hload, heq⟩
  · rw [heq] at hresult
    cases hstarts with
    | origin => rw [hresult] at hne; exact absurd rfl hne
    | @anchor hdr horigin hload =>
      rw [hresult, map_some, getD_some, hsound.within.hash_eq hload]
      exact ⟨hdr, hload, hsound.clean_of_anchor horigin hload⟩
  · obtain ⟨header', hload', habove, hclean⟩ := hsound.clean_of_mem_visit hstarts hmem
    obtain rfl := some.inj (hload.symm.trans hload')
    rw [hresult, heq, map_some, getD_some, hsound.within.hash_eq hload]
    exact ⟨hdr, hload, habove, hclean⟩

/-- **No candidate is higher than the best one.** -/
theorem Sound.le_findBestCandidate (hsound : s.Sound tree) {best : ℕ}
    (h : s.findBestCandidate = some best) (hp : s.HasHeader p) (habove : s.Above tree p)
    (hclean : s.Clean tree p) :
    best ≠ originHash ∧ ∃ hdr, s.loadHeader best = some hdr ∧
      p.blockHeight ≤ hdr.blockHeight := by
  obtain ⟨toVisit, candidate, result, hstarts, hresult, rfl⟩ := ChainStore.exists_of_findBestCandidate h
  have hmem := hsound.mem_visit hstarts hp habove hclean
  obtain ⟨hdr, hload, rfl⟩ := hp
  obtain ⟨best, hbest, hle⟩ := (le_of_foldl_pickBetter hresult.symm).2 _ hmem hdr hload
  have hloaded : ∃ hash, s.loadHeader hash = some best := by
    rcases s.foldl_pickBetter_cases (visit s.searchChildren s.isInvalid
      s.headers.entries.length toVisit) candidate with heq | ⟨hash, -, header', hload', heq⟩ <;>
      rw [heq, hbest] at hresult
    · cases hstarts with
      | origin => cases hresult
      | anchor _ hload' => exact ⟨_, hload'.trans hresult.symm⟩
    · exact ⟨hash, hload'.trans hresult.symm⟩
  obtain ⟨hash, hloaded⟩ := hloaded
  obtain rfl := hsound.within.hash_eq hloaded
  rw [hbest]
  exact ⟨hsound.within.hash_ne_origin (hsound.within.hasHeader hloaded), best, hloaded, hle⟩

end ChainStore

end Amaru
