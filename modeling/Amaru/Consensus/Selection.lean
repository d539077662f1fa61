import Amaru.Consensus.Candidates
import Amaru.Consensus.Pipeline
import Amaru.Consensus.SelectChain

/-!
# Runs of chain selection

The stage is told of headers and of verdicts, in any order; between two messages other stages store
headers and move the anchor up.

**The tips that are tracked mirror the store** (`tips_mirror_store`): the list of a tip above the anchor
is what the store would answer, none of its ancestors is invalid, and the best tip is tracked. Each
verdict is taken to agree with those before: no block is valid on top of an invalid one. A tip that is not
above the anchor escapes: the store does not look below the anchor, and the stage goes on with the list
it has (`tip_below_anchor_does_not_mirror`).
-/

namespace Amaru

open SortedMap ChainStore Option Header HeaderTree

namespace ChainStore

variable {Body : Type} {tree : HeaderTree} {s s' : ChainStore Body} {p : Point}

/-- What other stages do to the store: headers are added, and the anchor moves up. -/
structure Advances (tree : HeaderTree) (s s' : ChainStore Body) : Prop where
  loadHeader : ∀ {hash h}, s.loadHeader hash = some h → s'.loadHeader hash = some h
  validity_eq : s'.validity = s.validity
  anchor : s'.anchor = s.anchor ∨ s'.anchor ≠ .origin ∧ s.Above tree s'.anchor
  sound : s'.Sound tree

theorem Advances.hasHeader (h : s.Advances tree s') (hp : s.HasHeader p) : s'.HasHeader p :=
  have ⟨hdr, hload, hpoint⟩ := hp
  ⟨hdr, h.loadHeader hload, hpoint⟩

theorem Advances.above (h : s.Advances tree s') (hp : s'.Above tree p) : s.Above tree p := by
  rcases h.anchor with heq | ⟨hne, habove⟩
  · rwa [Above, ← heq]
  · exact habove.imp id fun h ↦ h.trans (hp.resolve_left hne)

theorem Advances.unvalidated_eq (h : s.Advances tree s') (hsound : s.Sound tree)
    (hp : s.HasHeader p) (habove : s'.Above tree p) :
    s'.unvalidatedAncestorHashes p.hash = s.unvalidatedAncestorHashes p.hash := by
  have hp' := h.hasHeader hp
  revert hp
  refine h.sound.line_induction ?_ ?_ ?_ hp' habove
  · intro p v hp' hvalidity hp
    rw [unvalidated_of_decided hp' hvalidity, unvalidated_of_decided hp (h.validity_eq ▸ hvalidity)]
  · intro p hp' hvalidity hroot hp
    rw [unvalidated_of_root h.sound.within hp' hvalidity hroot,
      unvalidated_of_root hsound.within hp (h.validity_eq ▸ hvalidity) hroot]
  · intro p q hp' hq' hvalidity hchild habove' hslot ih hq
    have hnone : s.validity.get? q.hash = none := h.validity_eq ▸ hvalidity
    have habove : s'.Above tree q := habove'.imp id fun h ↦ h.tail hchild
    obtain ⟨hp, -, hslot'⟩ :=
      hsound.above_of_child hq (h.above habove) (hsound.anchor_ne hq hnone) hchild
    rw [unvalidated_of_child h.sound.within hp' hq' hvalidity hchild hslot,
      unvalidated_of_child hsound.within hp hq hnone hchild hslot', ih hp]

/-- A store is sound, with its own headers for the tree, if all parents are stored and the parents of
valid blocks are valid. -/
theorem sound_ofMap {hlinked} (hwithin : s.Within (ofMap s.headers hlinked))
    (hparents : ∀ entry ∈ s.headers.entries,
      entry.2.parent.all (fun parent ↦ (s.loadHeader parent).isSome) = true)
    (hanchor : s.anchor = .origin ∨
      (s.loadHeader s.anchor.hash).map point = some s.anchor ∧
        s.validity.get? s.anchor.hash = some true)
    (hvalid : ∀ entry ∈ s.headers.entries, s.validity.get? entry.1 = some true →
      entry.2.parent.all (fun parent ↦ s.validity.get? parent = some true) = true) :
    s.Sound (ofMap s.headers hlinked) := by
  refine ⟨hwithin, fun {hash h parent} hload _ hparent ↦ ?_, hanchor.imp id fun h ↦ ⟨?_, h.2⟩,
    fun {p q} hancestor htrue ↦ ?_⟩
  · have hall := hparents _ (mem_entries_iff.2 hload)
    rw [hparent] at hall
    exact isSome_iff_exists.1 hall
  · exact map_eq_some_iff.1 h.1
  · -- all ancestors of a valid block are valid
    suffices s.validity.get? p.hash = some true by simp [this]
    induction hancestor with
    | refl => exact htrue
    | tail _ hchild ih =>
      obtain ⟨-, hdr, -, -, hheader, -, hparent⟩ := hchild
      have hall := hvalid _ (mem_entries_iff.2 hheader) htrue
      rw [hparent] at hall
      exact ih (of_decide_eq_true hall)

end ChainStore

namespace SelectChain

variable {Body : Type} {tree : HeaderTree} {s s' : ChainStore Body} {st st' : SelectChain}
  {msg : SelectChainMsg} {sent : List NewBestTip} {p x : Point} {chain : List ℕ} {hash : ℕ}
  {parent tip : Point} {tips : SortedMap ℕ (List ℕ)}

/-! ### Draining -/

theorem drainThrough_concat_self (h : hash ∉ chain) : drainThrough hash (chain ++ [hash]) = [] := by
  have hnone : chain.findIdx? (· = hash) = none := List.findIdx?_eq_none_iff.2 fun x hx ↦
    decide_eq_false fun heq ↦ h (heq ▸ hx)
  simp [drainThrough, List.findIdx?_append, hnone]

theorem drainThrough_concat_of_ne {other : ℕ} (chain : List ℕ) (h : other ≠ hash) :
    drainThrough hash (chain ++ [other]) = drainThrough hash chain ++ [other] := by
  rw [drainThrough, drainThrough, List.findIdx?_append]
  rcases hfind : chain.findIdx? (· = hash) with - | index
  · simp [h]
  · have hlt : index < chain.length := (List.findIdx?_eq_some_iff_findIdx_eq.1 hfind).1
    exact List.drop_append_of_le_length hlt

/-! ### Verdicts -/

/-- The verdicts agree with the one that is to come: no block is valid on top of an invalid one. -/
def InOrder (tree : HeaderTree) (s : ChainStore Body) : SelectChainMsg → Prop
  | .blockValidationResult point true =>
    ∀ p, tree.Ancestor p point → p ≠ point → s.validity.get? p.hash ≠ some false
  | .blockValidationResult point false =>
    ∀ p, tree.Ancestor point p → s.validity.get? p.hash ≠ some true
  | .initialise _ | .tipFromUpstream _ _ | .fetchNextFrom _ => True

theorem validity_setBlockValid (s : ChainStore Body) (hash hash' : ℕ) (valid : Bool) :
    (s.setBlockValid hash valid).validity.get? hash' =
      if hash' = hash then some valid else s.validity.get? hash' :=
  get?_insert ..

/-- Recording a verdict that agrees with the others keeps the store sound. -/
theorem sound_setBlockValid (hsound : s.Sound tree) (hx : s.HasHeader x) {valid : Bool}
    (horder : InOrder tree s (.blockValidationResult x valid)) :
    (s.setBlockValid x.hash valid).Sound tree := by
  have heq {q r : Point} (hchild : tree.Ancestor q r) (hne : q ≠ r) (hhash : r.hash = x.hash) : r = x := by
    rcases hchild.cases_tail with heq | ⟨_, -, hchild⟩
    · exact absurd heq.symm hne
    · exact hchild.has_right.eq_of_hash_eq (hx.has hsound.within) hhash
  have heq' {q r : Point} (hchild : tree.Ancestor q r) (hne : q ≠ r) (hhash : q.hash = x.hash) : q = x := by
    rcases hchild.cases_head with heq | ⟨_, hchild, -⟩
    · exact absurd heq hne
    · exact hchild.has_left.eq_of_hash_eq (hx.has hsound.within) hhash
  refine ⟨hsound.within.congr rfl rfl, hsound.exists_parent, hsound.anchor.imp id fun h ↦ ⟨h.1, ?_⟩,
    fun {q r} hancestor hvalid hinvalid ↦ ?_⟩
  · have hvalid : s.validity.get? s.anchor.hash = some true := h.2
    rw [validity_setBlockValid]
    split_ifs with hhash
    · rcases valid with - | -
      · exact absurd hvalid (hhash ▸ horder x .refl)
      · rfl
    · exact hvalid
  · by_cases hqr : q = r
    · rw [hqr, hvalid] at hinvalid
      cases hinvalid
    rw [validity_setBlockValid] at hvalid hinvalid
    split_ifs at hvalid hinvalid with hr hq hq
    · cases (some.inj hvalid).symm.trans (some.inj hinvalid)
    · cases hvalid
      exact horder q (heq hancestor hqr hr ▸ hancestor) (heq hancestor hqr hr ▸ hqr) hinvalid
    · cases hinvalid
      exact horder r (heq' hancestor hqr hq ▸ hancestor) hvalid
    · exact hsound.verdicts hancestor hvalid hinvalid

section

variable (hsound : s.Sound tree) (hp : s.HasHeader p) (habove : s.Above tree p)
include hsound hp habove

theorem hash_notMem_unvalidated (hchild : tree.Child p x) :
    x.hash ∉ (s.unvalidatedAncestorHashes p.hash).1 := by
  intro hmem
  obtain ⟨q, hancestor, hhash⟩ := hsound.exists_of_mem_unvalidated hp habove hmem
  have hq : tree.Has q := hchild.has_left.of_ancestor hancestor
  rw [hq.eq_of_hash_eq hchild.has_right hhash] at hancestor
  have hle := height_le_of_ancestor hancestor
  have heq := tree.ranked_child hchild
  omega

/-- **A valid block drains the ancestors without verdict** up to itself. -/
theorem unvalidated_of_valid (x : Point)
    (hvalid : (s.unvalidatedAncestorHashes p.hash).2 = true) :
    (s.setBlockValid x.hash true).unvalidatedAncestorHashes p.hash =
      (drainThrough x.hash (s.unvalidatedAncestorHashes p.hash).1, true) := by
  have hwithin : (s.setBlockValid x.hash true).Within tree := hsound.within.congr rfl rfl
  have hget (q : Point) := validity_setBlockValid s x.hash q.hash true
  have hdecided {q : Point} (hq : (s.setBlockValid x.hash true).HasHeader q)
      (h : (s.setBlockValid x.hash true).validity.get? q.hash = some true) :
      (s.setBlockValid x.hash true).unvalidatedAncestorHashes q.hash = ([], true) :=
    unvalidated_of_decided hq h
  have hself {q : Point} (h : q.hash = x.hash) :
      (s.setBlockValid x.hash true).validity.get? q.hash = some true := by rw [hget, if_pos h]
  have hother {q : Point} (h : q.hash ≠ x.hash) :
      (s.setBlockValid x.hash true).validity.get? q.hash = s.validity.get? q.hash := by
    rw [hget, if_neg h]
  revert hvalid
  refine hsound.line_induction ?_ ?_ ?_ hp habove
  · intro p v hp hvalidity hvalid
    rw [unvalidated_of_decided hp hvalidity] at hvalid ⊢
    obtain rfl : v = true := hvalid
    exact hdecided hp (by rw [hget, hvalidity, ite_self])
  · intro p hp hvalidity hroot _
    rw [unvalidated_of_root hsound.within hp hvalidity hroot]
    by_cases hhash : p.hash = x.hash
    · rw [hdecided hp (hself hhash), hhash]
      exact Prod.ext (drainThrough_concat_self List.not_mem_nil).symm rfl
    · rw [unvalidated_of_root hwithin hp ((hother hhash).trans hvalidity) hroot]
      exact Prod.ext (drainThrough_concat_of_ne [] hhash).symm rfl
  · intro p q hp hq hvalidity hchild habove hslot ih hvalid
    rw [unvalidated_of_child hsound.within hp hq hvalidity hchild hslot] at hvalid ⊢
    by_cases hhash : q.hash = x.hash
    · rw [hdecided hq (hself hhash), ← hhash,
        drainThrough_concat_self (hash_notMem_unvalidated hsound hp habove hchild)]
    · rw [unvalidated_of_child hwithin hp hq ((hother hhash).trans hvalidity) hchild hslot,
        ih hvalid, drainThrough_concat_of_ne _ hhash]

/-- **An invalid block leaves the others alone**: those that have it neither among the ancestors without
verdict nor below a valid block. -/
theorem unvalidated_of_invalid (horder : InOrder tree s (.blockValidationResult x false))
    (hvalid : (s.unvalidatedAncestorHashes p.hash).2 = true)
    (hnotMem : x.hash ∉ (s.unvalidatedAncestorHashes p.hash).1) :
    (s.setBlockValid x.hash false).unvalidatedAncestorHashes p.hash =
      s.unvalidatedAncestorHashes p.hash := by
  have hwithin : (s.setBlockValid x.hash false).Within tree := hsound.within.congr rfl rfl
  have hother {q : Point} (h : q.hash ≠ x.hash) :
      (s.setBlockValid x.hash false).validity.get? q.hash = s.validity.get? q.hash := by
    rw [validity_setBlockValid, if_neg h]
  revert hvalid hnotMem
  refine hsound.line_induction ?_ ?_ ?_ hp habove
  · intro p v hp hvalidity hvalid _
    rw [unvalidated_of_decided hp hvalidity] at hvalid ⊢
    obtain rfl : v = true := hvalid
    have hne : p.hash ≠ x.hash := fun hhash ↦ horder x .refl (hhash ▸ hvalidity)
    have hp' : (s.setBlockValid x.hash false).HasHeader p := hp
    exact unvalidated_of_decided hp' ((hother hne).trans hvalidity)
  · intro p hp hvalidity hroot _ hnotMem
    rw [unvalidated_of_root hsound.within hp hvalidity hroot] at hnotMem ⊢
    have hne : p.hash ≠ x.hash := fun hhash ↦ hnotMem (List.mem_singleton.2 hhash.symm)
    exact unvalidated_of_root hwithin hp ((hother hne).trans hvalidity) hroot
  · intro p q hp hq hvalidity hchild habove hslot ih hvalid hnotMem
    rw [unvalidated_of_child hsound.within hp hq hvalidity hchild hslot] at hvalid hnotMem ⊢
    rw [List.mem_append, not_or] at hnotMem
    have hne : q.hash ≠ x.hash := fun hhash ↦ hnotMem.2 (List.mem_singleton.2 hhash.symm)
    rw [unvalidated_of_child hwithin hp hq ((hother hne).trans hvalidity) hchild hslot, ih hvalid hnotMem.1]

end

/-! ### Runs -/

/-- What the stage may be told of: stored headers with their parents, verdicts on them, and at start a
candidate without invalid ancestors. -/
def Told (tree : HeaderTree) (s : ChainStore Body) : SelectChainMsg → Prop
  | .initialise best => best = originHash ∨ ∃ hdr, s.loadHeader best = some hdr ∧
    s.Above tree hdr.point ∧ s.Clean tree hdr.point
  | .tipFromUpstream tip parent => s.HasHeader tip ∧
    (parent = .origin ∧ (∀ q, ¬tree.Child q tip) ∨ tree.Child parent tip)
  | .blockValidationResult point _ => s.HasHeader point
  | .fetchNextFrom _ => True

/-- The states of a run in which each message meets a condition. -/
inductive Run (tree : HeaderTree) (condition : ChainStore Body → SelectChain → SelectChainMsg → Prop) :
    ChainStore Body → SelectChain → Prop
  | start {s : ChainStore Body} (hsound : s.Sound tree) : Run tree condition s new
  | handle {s s' : ChainStore Body} {st st' msg sent} (hrun : Run tree condition s st)
    (htold : Told tree s msg) (hcondition : condition s st msg)
    (h : SelectChain.handle s st msg = .ok (s', st', sent)) : Run tree condition s' st'
  | advance {s s' : ChainStore Body} {st} (hrun : Run tree condition s st)
    (hadvances : s.Advances tree s') : Run tree condition s' st

/-- The tips that are tracked agree with the store. -/
structure Mirrors (tree : HeaderTree) (s : ChainStore Body) (st : SelectChain) : Prop where
  sound : s.Sound tree
  tip : ∀ {hash chain}, st.tips.get? hash = some chain → ∃ hdr, s.loadHeader hash = some hdr ∧
    (s.Above tree hdr.point → s.unvalidatedAncestorHashes hash = (chain, true))
  best : ∀ {hdr}, st.bestTip = some hdr →
    s.loadHeader hdr.hash = some hdr ∧ st.tips.contains hdr.hash = true

theorem contains_insert (tips : SortedMap ℕ (List ℕ)) (hash hash' : ℕ) (chain : List ℕ) :
    (tips.insert hash chain).contains hash' = true ↔ hash' = hash ∨ tips.contains hash' = true := by
  rw [contains, get?_insert]
  split_ifs with h <;> simp [h, contains]

theorem Tracks.get?_cases {tips'} (h : Tracks s tips tip parent tips')
    (hget : tips'.get? hash = some chain) :
    hash = tip.hash ∧ tips'.get? tip.hash = some chain ∨ tips.get? hash = some chain := by
  by_cases hhash : hash = tip.hash
  · exact .inl ⟨hhash, hhash ▸ hget⟩
  right
  cases h with
  | extend =>
    rw [get?_insert_of_ne _ _ hhash, get?_erase] at hget
    split_ifs at hget
    exact hget
  | origin | fork => rwa [get?_insert_of_ne _ _ hhash] at hget

section

variable (hmirrors : Mirrors tree s st)
include hmirrors

section

variable (htracks : Tracks s st.tips tip parent tips)
  (htold : Told tree s (.tipFromUpstream tip parent))
include htracks htold

theorem Mirrors.unvalidated_of_tracks (hvalidity : s.validity.get? tip.hash = none)
    (habove : s.Above tree tip) (hget : tips.get? tip.hash = some chain) :
    s.unvalidatedAncestorHashes tip.hash = (chain, true) := by
  obtain ⟨htip, hparent⟩ := htold
  have hsound := hmirrors.sound
  rcases htracks with heq | ⟨hne, hchain⟩ | ⟨hne, _, hancestors⟩ <;>
    rw [get?_insert_self, some.injEq] at hget <;> subst hget
  · rcases hparent with ⟨-, hroot⟩ | hchild
    · exact unvalidated_of_root hsound.within htip hvalidity hroot
    · rw [heq] at hchild
      obtain ⟨hdr, hheader, -⟩ := hchild.has_left
      exact absurd (hheader.symm.trans tree.header_origin) (by simp)
  · have hchild := hparent.resolve_left fun h ↦ hne h.1
    obtain ⟨hstored, habove', hslot⟩ :=
      hsound.above_of_child htip habove (hsound.anchor_ne htip hvalidity) hchild
    obtain ⟨hdr, hload, hmirror⟩ := hmirrors.tip hchain
    obtain ⟨header', hload', hpoint⟩ := hstored
    obtain rfl := some.inj (hload.symm.trans hload')
    rw [unvalidated_of_child hsound.within ⟨hdr, hload, hpoint⟩ htip hvalidity hchild hslot,
      hmirror (hpoint ▸ habove')]
  · have hchild := hparent.resolve_left fun h ↦ hne h.1
    obtain ⟨hstored, -, hslot⟩ :=
      hsound.above_of_child htip habove (hsound.anchor_ne htip hvalidity) hchild
    rw [unvalidated_of_child hsound.within hstored htip hvalidity hchild hslot, hancestors]

/-- The best tip is still tracked when a tip is added that is not better. -/
theorem Mirrors.contains_of_tracks {hdr best} (hload : s.loadHeader tip.hash = some hdr)
    (hbest : st.bestTip = some best) (hcmp : cmpTip (some hdr) st.bestTip ≠ .gt) :
    tips.contains best.hash = true := by
  obtain ⟨hloaded, hcontains⟩ := hmirrors.best hbest
  cases htracks with
  | origin | fork => exact (contains_insert ..).2 (.inr hcontains)
  | extend hne _ =>
    refine (contains_insert ..).2 (.inr ?_)
    rw [contains, get?_erase]
    split_ifs with hhash
    · -- a child of the best tip is better
      obtain ⟨-, header', -, -, hheader', -, hparent'⟩ := htold.2.resolve_left fun h ↦ hne h.1
      rw [hmirrors.sound.within.header_eq hload] at hheader'
      cases hheader'
      have hheight := (tree.linked (hmirrors.sound.within.header_eq hload) hparent'
        (hhash ▸ hmirrors.sound.within.header_eq hloaded)).2
      rw [hbest] at hcmp
      exact absurd (cmpTip_of_lt (hheight ▸ Nat.lt_succ_self _)) hcmp
    · exact hcontains

theorem Mirrors.tip_of_tracks {hdr} (hnew : IsNew s st tip hdr)
    (hget : tips.get? hash = some chain) :
    ∃ hdr, s.loadHeader hash = some hdr ∧
      (s.Above tree hdr.point → s.unvalidatedAncestorHashes hash = (chain, true)) := by
  rcases htracks.get?_cases hget with ⟨rfl, hget⟩ | hget
  · refine ⟨hdr, hnew.loadHeader_eq, fun habove ↦ ?_⟩
    have hpoint : hdr.point = tip := by
      obtain ⟨header', hload', hpoint⟩ := htold.1
      rwa [some.inj (hnew.loadHeader_eq.symm.trans hload')]
    exact hmirrors.unvalidated_of_tracks htracks htold hnew.validity_eq (hpoint ▸ habove) hget
  · exact hmirrors.tip hget

end

/-- **The tips without those of an invalid block** agree with the store that has the verdict. -/
theorem Mirrors.tip_of_prune {point : Point}
    (horder : InOrder tree s (.blockValidationResult point false))
    (hget : (st.prune point.hash).tips.get? hash = some chain) : ∃ hdr,
      s.loadHeader hash = some hdr ∧ (s.Above tree hdr.point →
        (s.setBlockValid point.hash false).unvalidatedAncestorHashes hash = (chain, true)) := by
  rw [prune, get?_filter, filter_eq_some_iff] at hget
  obtain ⟨hget, hnotMem⟩ := hget
  obtain ⟨hdr, hload, hmirror⟩ := hmirrors.tip hget
  refine ⟨hdr, hload, fun habove ↦ ?_⟩
  have hhash := hmirrors.sound.within.hash_eq hload
  have hstored := hmirrors.sound.within.hasHeader hload
  have heq := hmirror habove
  subst hhash
  have hnotMem' : point.hash ∉ (s.unvalidatedAncestorHashes hdr.point.hash).1 := by
    rw [hash_point, heq]
    simpa using hnotMem
  have hvalid : (s.unvalidatedAncestorHashes hdr.point.hash).2 = true := by
    rw [hash_point, heq]
  exact (unvalidated_of_invalid hmirrors.sound hstored habove horder hvalid hnotMem').trans heq

/-- **Handling a message keeps the tips in agreement with the store.** -/
theorem Mirrors.handle (htold : Told tree s msg) (horder : InOrder tree s msg)
    (h : SelectChain.handle s st msg = .ok (s', st', sent)) : Mirrors tree s' st' := by
  cases handled_of_handle h with
  | initialised best =>
    rw [handleInitialise]
    split_ifs with horigin
    · exact hmirrors
    obtain ⟨hdr, hload, habove, hclean⟩ := htold.resolve_left horigin
    have hhash := hmirrors.sound.within.hash_eq hload
    refine ⟨hmirrors.sound, fun {hash chain} hget ↦ ?_, fun {best'} hbest ↦ ?_⟩
    · rw [get?_insert] at hget
      split_ifs at hget with heq
      · subst heq
        refine ⟨hdr, hload, fun _ ↦ Prod.ext (some.inj hget) ?_⟩
        rw [← hhash]
        exact (hmirrors.sound.snd_unvalidated (hmirrors.sound.within.hasHeader hload) habove).2 hclean
      · exact hmirrors.tip hget
    · obtain rfl := some.inj (hload.symm.trans hbest)
      rw [hhash]
      exact ⟨hload, (contains_insert ..).2 (.inl rfl)⟩
  | ignored => exact hmirrors
  | tracked hnew htracks hcmp =>
    exact ⟨hmirrors.sound, fun hget ↦ hmirrors.tip_of_tracks htracks htold hnew hget, fun hbest ↦
      ⟨(hmirrors.best hbest).1, hmirrors.contains_of_tracks htracks htold hnew.loadHeader_eq hbest hcmp⟩⟩
  | @selected tip parent hdr tips hnew htracks hcmp =>
    refine ⟨hmirrors.sound, fun hget ↦ hmirrors.tip_of_tracks htracks htold hnew hget, fun hbest ↦ ?_⟩
    cases hbest
    have hhash := hmirrors.sound.within.hash_eq hnew.loadHeader_eq
    rw [hhash]
    refine ⟨hnew.loadHeader_eq, ?_⟩
    cases htracks with
    | origin | extend | fork => exact (contains_insert ..).2 (.inl rfl)
  | @validated point hheader =>
    refine ⟨sound_setBlockValid hmirrors.sound htold horder, fun {hash chain} hget ↦ ?_, fun hbest ↦ ?_⟩
    · rw [get?_map] at hget
      obtain ⟨older, holder, rfl⟩ := map_eq_some_iff.1 hget
      obtain ⟨hdr, hload, hmirror⟩ := hmirrors.tip holder
      refine ⟨hdr, hload, fun habove ↦ ?_⟩
      have heq := hmirror habove
      obtain rfl := hmirrors.sound.within.hash_eq hload
      have hdrained := unvalidated_of_valid hmirrors.sound (hmirrors.sound.within.hasHeader hload) habove
        point (by rw [hash_point, heq])
      rwa [hash_point, heq] at hdrained
    · refine ⟨(hmirrors.best hbest).1, ?_⟩
      have hcontains := (hmirrors.best hbest).2
      rw [contains] at hcontains ⊢
      rwa [get?_map, isSome_map]
  | @pruned point hheader htracks =>
    refine ⟨sound_setBlockValid hmirrors.sound htold horder, fun hget ↦ hmirrors.tip_of_prune horder hget,
      fun hbest ↦ ⟨(hmirrors.best hbest).1, ?_⟩⟩
    rw [tracksBest, hbest] at htracks
    exact htracks
  | @fellBack point hheader =>
    exact ⟨sound_setBlockValid hmirrors.sound htold horder, fun hget ↦ hmirrors.tip_of_prune horder hget,
      nofun⟩
  | @reselected point parent best hdr hheader hbest hcandidate horigin hload hparent =>
    have hsound := sound_setBlockValid hmirrors.sound htold horder
    obtain ⟨header', hload', habove, hclean⟩ := hsound.exists_of_findBestCandidate hcandidate horigin
    obtain rfl := some.inj (hload.symm.trans hload')
    have hhash := hsound.within.hash_eq hload'
    refine ⟨hsound, fun {hash chain} hget ↦ ?_, fun {header'} hbest ↦ ?_⟩
    · rw [get?_insert] at hget
      split_ifs at hget with heq
      · subst heq
        rw [hhash]
        refine ⟨hdr, hload', fun _ ↦ Prod.ext ?_ ?_⟩
        · rw [← some.inj hget, hhash]
        · rw [← hhash]
          exact (hsound.snd_unvalidated (hsound.within.hasHeader hload') habove).2 hclean
      · exact hmirrors.tip_of_prune horder hget
    · cases hbest
      rw [hhash]
      exact ⟨hload', (contains_insert ..).2 (.inl rfl)⟩
  | permitted => exact ⟨hmirrors.sound, hmirrors.tip, hmirrors.best⟩
  | answered => exact hmirrors

theorem Mirrors.advance (h : s.Advances tree s') : Mirrors tree s' st := by
  refine ⟨h.sound, fun {hash chain} hget ↦ ?_, fun hbest ↦
    ⟨h.loadHeader (hmirrors.best hbest).1, (hmirrors.best hbest).2⟩⟩
  obtain ⟨hdr, hload, hmirror⟩ := hmirrors.tip hget
  refine ⟨hdr, h.loadHeader hload, fun habove ↦ ?_⟩
  rw [← hmirror (h.above habove), ← hmirrors.sound.within.hash_eq hload]
  exact h.unvalidated_eq hmirrors.sound (hmirrors.sound.within.hasHeader hload) habove

end

/-- A condition on the messages of a run, from which the verdicts are in order. -/
theorem Run.mirrors {condition}
    (horder : ∀ {s st msg}, condition s st msg → InOrder tree s msg)
    (h : Run tree condition s st) : Mirrors tree s st := by
  induction h with
  | start hsound => exact ⟨hsound, fun hget ↦ (nomatch hget), fun hbest ↦ (nomatch hbest)⟩
  | handle _ htold hcondition h ih => exact ih.handle htold (horder hcondition) h
  | advance _ hadvances ih => exact ih.advance hadvances

/-- **The tips that are tracked mirror the store**, above the anchor. -/
theorem tips_mirror_store (h : Run tree (fun s _ ↦ InOrder tree s) s st) :
    (∀ hash chain, st.tips.get? hash = some chain → ∃ hdr, s.loadHeader hash = some hdr ∧
      (s.Above tree hdr.point → chain = (s.unvalidatedAncestorHashes hash).1 ∧
        (chain = [] ∨ chain.getLast? = some hash) ∧
        ∀ p, tree.Ancestor p hdr.point → s.validity.get? p.hash ≠ some false)) ∧
      ∀ best, st.bestTip = some best → st.tips.contains best.hash = true := by
  have hmirrors := h.mirrors id
  refine ⟨fun hash chain hget ↦ ?_, fun best hbest ↦ (hmirrors.best hbest).2⟩
  obtain ⟨hdr, hload, hmirror⟩ := hmirrors.tip hget
  refine ⟨hdr, hload, fun habove ↦ ?_⟩
  have heq := hmirror habove
  have hstored := hmirrors.sound.within.hasHeader hload
  obtain rfl := hmirrors.sound.within.hash_eq hload
  have hlast := hmirrors.sound.getLast?_unvalidated hstored habove
  have hclean := (hmirrors.sound.snd_unvalidated hstored habove).1 (by rw [hash_point, heq])
  rw [hash_point, heq] at hlast
  exact ⟨by rw [heq], hlast, hclean⟩

/-- What says that a tip may be announced, where it can be evaluated. -/
theorem child_of_map {q : Point} (hstore : s.Within tree)
    (h : (s.loadHeader p.hash).map point = some p ∧ (s.loadHeader q.hash).map
      (fun h ↦ (h.point, h.parent)) = some (q, some p.hash)) :
    tree.Child p q ∧ s.HasHeader q := by
  obtain ⟨hdr, hload, heq⟩ := map_eq_some_iff.1 h.2
  obtain ⟨rfl, hparent⟩ := Prod.mk.inj heq
  exact ⟨hstore.child (map_eq_some_iff.1 h.1) hload hparent, hdr, hload, rfl⟩

/-! ### A fork below the anchor -/

open Pipeline (headerAt pointAt)

/-- The anchor at slot 40 on top of slot 32, and a fork at slot 32 with the invalid block at slot 33. -/
def forkBelowAnchor : ChainStore Bool where
  headers := .ofList [(32, headerAt 32 10 none), (40, headerAt 40 11 (some 32)),
    (33, headerAt 33 11 (some 32)), (35, headerAt 35 12 (some 33)), (36, headerAt 36 13 (some 35)),
    (41, headerAt 41 12 (some 40)), (42, headerAt 42 13 (some 41))]
  validity := .ofList [(32, true), (40, true), (33, false)]
  blocks := ∅
  anchor := pointAt 40 11
  bestChain := .ofList [(32, pointAt 32 10), (40, pointAt 40 11)]
  bestChainTip := pointAt 40 11

/-- The headers of the small store. -/
def forkBelowAnchorTree : HeaderTree := ofMap forkBelowAnchor.headers (by decide +kernel)

theorem sound_forkBelowAnchor : forkBelowAnchor.Sound forkBelowAnchorTree :=
  sound_ofMap (within_ofMap (by decide +kernel)) (by decide +kernel)
    (.inr (by decide +kernel)) (by decide +kernel)

/-- The best candidate is at slot 42. -/
theorem told_forkBelowAnchor : Told forkBelowAnchorTree forkBelowAnchor (.initialise 42) :=
  .inr (sound_forkBelowAnchor.exists_of_findBestCandidate (by decide +kernel) (by decide))

theorem tips_mirror_store_after_verdict : ∃ (tree : HeaderTree) (s : ChainStore Bool)
    (st : SelectChain), Run tree (fun s _ ↦ InOrder tree s) s st ∧
      st.tips.get? 42 = some [42] ∧
      (∀ hash chain, st.tips.get? hash = some chain → ∃ hdr, s.loadHeader hash = some hdr ∧
        (s.Above tree hdr.point → chain = (s.unvalidatedAncestorHashes hash).1 ∧
          (chain = [] ∨ chain.getLast? = some hash) ∧
          ∀ p, tree.Ancestor p hdr.point → s.validity.get? p.hash ≠ some false)) ∧
      ∀ best, st.bestTip = some best → st.tips.contains best.hash = true := by
  have hchild : forkBelowAnchorTree.Child (pointAt 41 12) (pointAt 42 13) :=
    (child_of_map sound_forkBelowAnchor.within (by decide +kernel)).1
  have htold : Told forkBelowAnchorTree forkBelowAnchor (.blockValidationResult (pointAt 41 12) true) :=
    ⟨headerAt 41 12 (some 40), by decide +kernel, rfl⟩
  have horder : InOrder forkBelowAnchorTree forkBelowAnchor
      (.blockValidationResult (pointAt 41 12) true) := by
    intro p hancestor _
    obtain ⟨hdr, hload, -, hclean⟩ := told_forkBelowAnchor.resolve_left (by decide)
    obtain rfl : hdr = headerAt 42 13 (some 41) := (some.inj hload).symm
    exact hclean p (hancestor.tail hchild)
  have hrun : Run _ (fun s _ ↦ InOrder forkBelowAnchorTree s) _ _ :=
    .handle (.handle (.start sound_forkBelowAnchor) told_forkBelowAnchor trivial rfl) htold horder rfl
  exact ⟨_, _, _, hrun, rfl, tips_mirror_store hrun⟩

/-- **A tip that is not above the anchor does not mirror the store.** The store does not look below the
header at slot 35, which is not after the anchor: its answer for the tip at slot 36 is shorter than the list
that is tracked, and the invalid block at slot 33 goes unnoticed. -/
theorem tip_below_anchor_does_not_mirror : ∃ (tree : HeaderTree) (s : ChainStore Bool)
    (st : SelectChain), Run tree (fun s _ ↦ InOrder tree s) s st ∧
      st.tips.get? 36 = some [35, 36] ∧ (s.unvalidatedAncestorHashes 36).1 = [36] ∧
      s.loadHeader 36 = some (headerAt 36 13 (some 35)) ∧
      tree.Ancestor (pointAt 33 11) (pointAt 36 13) ∧ s.validity.get? 33 = some false := by
  obtain ⟨hchild, hstored⟩ : forkBelowAnchorTree.Child (pointAt 35 12) (pointAt 36 13) ∧
      forkBelowAnchor.HasHeader (pointAt 36 13) := child_of_map sound_forkBelowAnchor.within
        (by decide +kernel)
  have htold : Told forkBelowAnchorTree forkBelowAnchor
      (.tipFromUpstream (pointAt 36 13) (pointAt 35 12)) := ⟨hstored, .inr hchild⟩
  have hchild' : forkBelowAnchorTree.Child (pointAt 33 11) (pointAt 35 12) :=
    (child_of_map sound_forkBelowAnchor.within (by decide +kernel)).1
  exact ⟨_, forkBelowAnchor, _, .handle (.handle (.start sound_forkBelowAnchor) told_forkBelowAnchor
    trivial rfl) htold trivial rfl, rfl, by decide +kernel, by decide +kernel,
    .tail (.single hchild') hchild, by decide +kernel⟩

end SelectChain

end Amaru
