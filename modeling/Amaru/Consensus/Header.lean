import Amaru.Data.Ancestry
import Amaru.Ledger.Store.Columns

/-!
# Headers

A header names its parent, so that headers form a tree. Peers send headers, and one is kept only if its
parent is there, its height is one more and its slot is later: a **header tree** is any set of headers
that pass, identified by their hashes.

`cmpTip` is the rule that prefers a chain to another, by the headers at their tips.
-/

namespace Amaru

open SortedMap

/-- The hash that stands for the origin. -/
def originHash : ℕ := 0

namespace Point

/-- The hash of a point. -/
def hash : Point → ℕ
  | origin => originHash
  | specific _ hash _ => hash

end Point

/-- A header. -/
structure Header where
  hash : ℕ
  slot : ℕ
  blockHeight : ℕ
  /-- The hash of the parent. -/
  parent : Option ℕ
  /-- What the leader derivation makes of the VRF output. -/
  vrfLeader : ℕ
  opCertSeq : ℕ
deriving DecidableEq, Repr

/-- The point of a header. -/
def Header.point (header : Header) : Point :=
  .specific header.slot header.hash header.blockHeight

@[simp] theorem Header.hash_point (header : Header) : header.point.hash = header.hash := rfl

@[simp] theorem Header.slotOrDefault_point (header : Header) : header.point.slotOrDefault = header.slot := rfl

/-- Compare two tips: a longer chain is better; between two of one length, the same leader with a later
certificate, or else the lower leader value if the slots are at most five apart. -/
def cmpTip : Option Header → Option Header → Ordering
  | none, none => .eq
  | none, some _ => .lt
  | some _, none => .gt
  | some a, some b => (compare a.blockHeight b.blockHeight).then <|
    if a.vrfLeader = b.vrfLeader then compare a.opCertSeq b.opCertSeq
    else if ((a.slot : ℤ) - b.slot).natAbs ≤ 5 then compare b.vrfLeader a.vrfLeader
    else .eq

variable {a b : Header}

theorem cmpTip_of_lt (h : b.blockHeight < a.blockHeight) : cmpTip (some a) (some b) = .gt := by
  rw [cmpTip, Nat.compare_eq_gt.2 h]
  rfl

theorem le_of_cmpTip (h : cmpTip (some a) (some b) = .gt) : b.blockHeight ≤ a.blockHeight := by
  by_contra hlt
  rw [cmpTip, Nat.compare_eq_lt.2 (Nat.not_le.1 hlt)] at h
  cases h

theorem not_lt_of_cmpTip (h : cmpTip (some a) (some b) ≠ .gt) : a.blockHeight ≤ b.blockHeight :=
  Nat.not_lt.1 fun hlt ↦ h (cmpTip_of_lt hlt)

/-- Headers that are validated against their parents, by hash. -/
structure HeaderTree where
  header : ℕ → Option Header
  header_origin : header originHash = none
  hash_eq : ∀ {hash h}, header hash = some h → h.hash = hash
  linked : ∀ {hash h parent h'}, header hash = some h → h.parent = some parent →
    header parent = some h' → h'.slot < h.slot ∧ h.blockHeight = h'.blockHeight + 1

namespace HeaderTree

variable {tree : HeaderTree} {p q r : Point}

/-- The point is that of a header of the tree. -/
def Has (tree : HeaderTree) (p : Point) : Prop := ∃ h, tree.header p.hash = some h ∧ h.point = p

/-- `q` is the point of a child of the header at `p`. -/
def Child (tree : HeaderTree) (p q : Point) : Prop :=
  ∃ h h', tree.header p.hash = some h ∧ h.point = p ∧ tree.header q.hash = some h' ∧ h'.point = q ∧
    h'.parent = some p.hash

/-- `p` is `q` or the point of one of its ancestors. -/
abbrev Ancestor (tree : HeaderTree) : Point → Point → Prop := Ancestry.Ancestor tree.Child

theorem Has.eq_of_hash_eq (hp : tree.Has p) (hq : tree.Has q) (h : p.hash = q.hash) : p = q := by
  obtain ⟨header, hheader, rfl⟩ := hp
  obtain ⟨header', hheader', rfl⟩ := hq
  rw [← h, hheader] at hheader'
  rw [Option.some.inj hheader']

theorem Child.has_left (h : tree.Child p q) : tree.Has p :=
  have ⟨header, _, hheader, hpoint, _⟩ := h
  ⟨header, hheader, hpoint⟩

theorem Child.has_right (h : tree.Child p q) : tree.Has q :=
  have ⟨_, header, _, _, hheader, hpoint, _⟩ := h
  ⟨header, hheader, hpoint⟩

theorem leftUnique_child (tree : HeaderTree) : Relator.LeftUnique tree.Child := by
  intro p p' q h h'
  refine h.has_left.eq_of_hash_eq h'.has_left ?_
  obtain ⟨-, header, -, -, hheader, -, hparent⟩ := h
  obtain ⟨-, header', -, -, hheader', -, hparent'⟩ := h'
  rw [hheader] at hheader'
  cases hheader'
  exact Option.some.inj (hparent.symm.trans hparent')

theorem ranked_child (tree : HeaderTree) : Ancestry.Ranked tree.Child Point.blockHeight := by
  rintro p q ⟨header, header', hheader, rfl, hheader', rfl, hparent⟩
  exact (tree.linked hheader' hparent hheader).2

/-- Slots grow from parent to child. -/
theorem Child.before (h : tree.Child p q) : p.Before q := by
  obtain ⟨header, header', hheader, rfl, hheader', rfl, hparent⟩ := h
  exact (tree.linked hheader' hparent hheader).1

theorem Child.slot_lt (h : tree.Child p q) : p.slotOrDefault < q.slotOrDefault := by
  obtain ⟨header, header', hheader, rfl, hheader', rfl, hparent⟩ := h
  exact (tree.linked hheader' hparent hheader).1

theorem slot_le_of_ancestor (h : tree.Ancestor p q) : p.slotOrDefault ≤ q.slotOrDefault := by
  induction h with
  | refl => exact le_rfl
  | tail _ hchild ih => exact ih.trans hchild.slot_lt.le

theorem height_le_of_ancestor (h : tree.Ancestor p q) : p.blockHeight ≤ q.blockHeight :=
  Ancestry.rank_le tree.ranked_child h

theorem Has.of_ancestor (hq : tree.Has q) (h : tree.Ancestor p q) : tree.Has p := by
  rcases h.cases_head with rfl | ⟨_, hchild, -⟩
  · exact hq
  · exact hchild.has_left

theorem Has.of_descendant (hp : tree.Has p) (h : tree.Ancestor p q) : tree.Has q := by
  rcases h.cases_tail with rfl | ⟨_, -, hchild⟩
  · exact hp
  · exact hchild.has_right

theorem eq_of_slot_le (h : tree.Ancestor p q) (hle : q.slotOrDefault ≤ p.slotOrDefault) : p = q := by
  rcases h.cases_tail with rfl | ⟨_, h, hchild⟩
  · rfl
  · exact absurd hchild.slot_lt (Nat.not_lt.2 (hle.trans (slot_le_of_ancestor h)))

/-- Of two ancestors of one point, the one that is not later is an ancestor of the other. -/
theorem ancestor_of_slot_le (hp : tree.Ancestor p r) (hq : tree.Ancestor q r)
    (hle : p.slotOrDefault ≤ q.slotOrDefault) : tree.Ancestor p q := by
  rcases Ancestry.ancestor_total tree.leftUnique_child hp hq with h | h
  · exact h
  · rw [eq_of_slot_le h hle]

/-- Each header is under its own hash, after its parent and one higher. -/
def Linked (headers : SortedMap ℕ Header) : Prop :=
  ∀ entry ∈ headers.entries, entry.2.hash = entry.1 ∧ entry.1 ≠ originHash ∧
    ∀ entry' ∈ headers.entries, entry.2.parent = some entry'.1 →
      entry'.2.slot < entry.2.slot ∧ entry.2.blockHeight = entry'.2.blockHeight + 1

instance (headers : SortedMap ℕ Header) : Decidable (Linked headers) :=
  inferInstanceAs (Decidable (∀ entry ∈ headers.entries, _ ∧ _ ∧ _))

/-- The tree of the headers of a map. -/
def ofMap (headers : SortedMap ℕ Header) (hlinked : Linked headers) : HeaderTree where
  header := headers.get?
  header_origin := by
    rcases hget : headers.get? originHash with - | header
    · rfl
    · exact absurd rfl (hlinked _ (mem_entries_iff.2 hget)).2.1
  hash_eq h := (hlinked _ (mem_entries_iff.2 h)).1
  linked h hparent h' := (hlinked _ (mem_entries_iff.2 h)).2.2 _ (mem_entries_iff.2 h') hparent

end HeaderTree

end Amaru
