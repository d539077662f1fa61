import Amaru.Consensus.Selection

/-!
# Fork choice

Tips are ranked by height, then by the lower leader value, then by the certificate number. The comparison
of tips is not this order: two tips of one height that are more than five slots apart are not compared.
But **a tip that is better outranks the other** (`outranks_of_cmpTip`), so that along a run the best tip
only rises, and one that was replaced does not come back, until a block turns out to be invalid. The same
holds for the tips that are adopted.

The best tip is **as high as every tip above the anchor**, and of those that are as high and at most five
slots apart it is the one that ranks first, since the last time a block was invalid.

Neither survives an invalid block as it is. The best tip is searched from the anchor on, so that a tip
elsewhere may be higher. And the tip that kept another one from being compared may be gone
(`best_tip_after_invalid_block`).
-/

namespace Amaru

open Option SortedMap Nat HeaderTree

namespace Header

variable {a b c : Header}

/-- The order of tips: height, then the lower leader value, then the certificate number. -/
def Outranks (a b : Header) : Prop :=
  b.blockHeight < a.blockHeight ∨ a.blockHeight = b.blockHeight ∧
    (a.vrfLeader < b.vrfLeader ∨ a.vrfLeader = b.vrfLeader ∧ b.opCertSeq < a.opCertSeq)

/-- Of two tips of one height, the first has the lower leader value, or the same and no lower
certificate number. -/
def Preferred (a b : Header) : Prop :=
  a.vrfLeader < b.vrfLeader ∨ a.vrfLeader = b.vrfLeader ∧ b.opCertSeq ≤ a.opCertSeq

/-- Two tips are at most five slots apart. -/
def Close (a b : Header) : Prop := ((a.slot : ℤ) - b.slot).natAbs ≤ 5

instance (a b : Header) : Decidable (a.Close b) := inferInstanceAs (Decidable (_ ≤ 5))

theorem Outranks.trans (h : a.Outranks b) (h' : b.Outranks c) : a.Outranks c := by
  unfold Outranks at *
  omega

theorem Outranks.ne (h : a.Outranks b) : a ≠ b := by
  rintro rfl
  unfold Outranks at h
  omega

theorem Preferred.refl (a : Header) : a.Preferred a := .inr ⟨rfl, le_rfl⟩

theorem Outranks.preferred (h : a.Outranks b) (hheight : a.blockHeight = b.blockHeight)
    (h' : b.Preferred c) : a.Preferred c := by
  unfold Outranks Preferred at *
  omega

end Header

/-- **A better tip outranks the other.** -/
theorem outranks_of_cmpTip {a b} (h : cmpTip (some a) (some b) = .gt) : a.Outranks b := by
  rw [cmpTip, Ordering.then_eq_gt] at h
  rcases h with h | ⟨hheight, h⟩
  · exact .inl (Nat.compare_eq_gt.1 h)
  refine .inr ⟨Nat.compare_eq_eq.1 hheight, ?_⟩
  split_ifs at h with hleader hslot
  · exact .inr ⟨hleader, Nat.compare_eq_gt.1 h⟩
  · exact .inl (Nat.compare_eq_gt.1 h)

theorem preferred_of_cmpTip {a b} (hheight : a.blockHeight = b.blockHeight) (hclose : a.Close b)
    (h : cmpTip (some a) (some b) ≠ .gt) : b.Preferred a := by
  rw [cmpTip, hheight, Nat.compare_eq_eq.2 rfl, Ordering.then] at h
  rw [Header.Close] at hclose
  split_ifs at h with hleader
  · exact .inr ⟨hleader.symm, Nat.compare_ne_gt.1 h⟩
  · exact .inl (lt_of_le_of_ne (Nat.compare_ne_gt.1 h) fun heq ↦ hleader heq.symm)

namespace SelectChain

variable {Body : Type} {tree : HeaderTree} {s s' : ChainStore Body} {st st' : SelectChain}
  {msg : SelectChainMsg} {sent : List NewBestTip} {hdr : Header} {bestTip : Option Header}
  {mayFetchBlocks : Bool} {tips : SortedMap ℕ (List ℕ)} {header' : Header} {height : ℕ}

/-- A header whose tip is tracked. -/
def IsTracked (s : ChainStore Body) (st : SelectChain) (hdr : Header) : Prop :=
  st.tips.contains hdr.hash = true ∧ s.loadHeader hdr.hash = some hdr

/-- Verdicts come in order, and the stage is told of the best candidate at start only. -/
def Ordered (tree : HeaderTree) (s : ChainStore Body) (st : SelectChain) (msg : SelectChainMsg) :
    Prop :=
  InOrder tree s msg ∧ ∀ best, msg = .initialise best → st = new

/-- A part of a run in which no block turns out to be invalid. -/
inductive Onward (tree : HeaderTree) (s : ChainStore Body) (st : SelectChain) :
    ChainStore Body → SelectChain → Prop
  | refl : Onward tree s st s st
  | handle {store₁ store₂ stage₁ stage₂ msg sent} (honward : Onward tree s st store₁ stage₁)
    (htold : Told tree store₁ msg) (hordered : Ordered tree store₁ stage₁ msg)
    (hvalid : ∀ point, msg ≠ .blockValidationResult point false)
    (h : SelectChain.handle store₁ stage₁ msg = .ok (store₂, stage₂, sent)) :
    Onward tree s st store₂ stage₂
  | advance {store₁ store₂ stage₁} (honward : Onward tree s st store₁ stage₁)
    (hadvances : store₁.Advances tree store₂) : Onward tree s st store₂ stage₁

theorem Onward.run (honward : Onward tree s st s' st')
    (hrun : Run tree (Ordered tree) s st) : Run tree (Ordered tree) s' st' := by
  induction honward with
  | refl => exact hrun
  | handle _ htold hordered _ h ih => exact .handle ih htold hordered h
  | advance _ hadvances ih => exact .advance ih hadvances

theorem Run.mirrors_of_ordered (hrun : Run tree (Ordered tree) s st) : Mirrors tree s st :=
  hrun.mirrors And.left

/-! ### What a message does to the tips -/

/-- What a message does to the tips and to the best one, unless a block is invalid. -/
inductive Moves (s : ChainStore Body) (st : SelectChain) (s' : ChainStore Body)
    (st' : SelectChain) : Prop
  | kept (htracked : ∀ hdr, IsTracked s' st' hdr ↔ IsTracked s st hdr)
    (hbest : st'.bestTip = st.bestTip)
  | added {tip : Header} (htracked : ∀ hdr, IsTracked s' st' hdr → hdr = tip ∨
      IsTracked s st hdr)
    (hkept : ∀ hdr, IsTracked s st hdr → IsTracked s' st' hdr ∨
      tip.blockHeight = hdr.blockHeight + 1)
    (hbest : st'.bestTip = st.bestTip) (hcmp : cmpTip (some tip) st.bestTip ≠ .gt)
  | selected {tip : Header} (htracked : ∀ hdr, IsTracked s' st' hdr → hdr = tip ∨
      IsTracked s st hdr)
    (hkept : ∀ hdr, IsTracked s st hdr → IsTracked s' st' hdr ∨
      tip.blockHeight = hdr.blockHeight + 1)
    (hbest : st'.bestTip = some tip) (hcmp : cmpTip (some tip) st.bestTip = .gt)

theorem isTracked_of_tracks {tip parent : Point} (hnew : IsNew s st tip hdr)
    (htracks : Tracks s st.tips tip parent tips)
    (h : IsTracked s { tips, bestTip, mayFetchBlocks } header') :
    header' = hdr ∨ IsTracked s st header' := by
  obtain ⟨chain, hget⟩ := isSome_iff_exists.1 h.1
  rcases htracks.get?_cases hget with ⟨hhash, -⟩ | hget
  · refine .inl (some.inj (h.2.symm.trans ?_))
    rw [hhash, hnew.loadHeader_eq]
  · exact .inr ⟨isSome_iff_exists.2 ⟨chain, hget⟩, h.2⟩

/-- What is not tracked any more is the parent of the tip that was added. -/
theorem kept_of_tracks {tip parent : Point} (hstore : s.Within tree)
    (hnew : IsNew s st tip hdr) (htracks : Tracks s st.tips tip parent tips)
    (htold : Told tree s (.tipFromUpstream tip parent))
    (h : IsTracked s st header') :
    IsTracked s { tips, bestTip, mayFetchBlocks } header' ∨
      hdr.blockHeight = header'.blockHeight + 1 := by
  cases htracks with
  | origin | fork => exact .inl ⟨(contains_insert ..).2 (.inr h.1), h.2⟩
  | extend hne =>
    by_cases hhash : header'.hash = parent.hash
    · right
      obtain ⟨-, child, -, -, hchild, -, hparent⟩ := htold.2.resolve_left fun h ↦ hne h.1
      rw [hstore.header_eq hnew.loadHeader_eq] at hchild
      cases hchild
      exact (tree.linked (hstore.header_eq hnew.loadHeader_eq) hparent (hhash ▸ hstore.header_eq h.2)).2
    · refine .inl ⟨(contains_insert ..).2 (.inr ?_), h.2⟩
      rw [contains, get?_erase_of_ne _ hhash]
      exact h.1

/-- **What a message does to the tips**, unless a block is invalid. -/
theorem Mirrors.moves (hmirrors : Mirrors tree s st) (htold : Told tree s msg)
    (hordered : Ordered tree s st msg)
    (hvalid : ∀ point, msg ≠ .blockValidationResult point false)
    (h : SelectChain.handle s st msg = .ok (s', st', sent)) :
    Moves s st s' st' := by
  have hstore := hmirrors.sound.within
  cases handled_of_handle h with
  | initialised best =>
    obtain rfl := hordered.2 best rfl
    rw [handleInitialise]
    split_ifs with horigin
    · exact .kept (fun _ ↦ Iff.rfl) rfl
    obtain ⟨hdr, hload, -⟩ := htold.resolve_left horigin
    have hnone (header' : Header) (h : IsTracked s new header') : False := by
      have := h.1
      cases this
    refine .selected (fun header' h ↦ .inl ?_) (fun header' h ↦ (hnone header' h).elim) hload rfl
    rcases (contains_insert ..).1 h.1 with hhash | hcontains
    · exact some.inj (h.2.symm.trans (hhash ▸ hload))
    · exact (hnone header' ⟨hcontains, h.2⟩).elim
  | tracked hnew htracks hcmp =>
    exact .added (fun _ ↦ isTracked_of_tracks hnew htracks)
      (fun _ ↦ kept_of_tracks hstore hnew htracks htold) rfl hcmp
  | selected hnew htracks hcmp =>
    exact .selected (fun _ ↦ isTracked_of_tracks hnew htracks)
      (fun _ ↦ kept_of_tracks hstore hnew htracks htold) rfl hcmp
  | validated =>
    refine .kept (fun hdr ↦ ?_) rfl
    rw [IsTracked, IsTracked, contains, get?_map, isSome_map]
    rfl
  | pruned | fellBack | reselected => exact absurd rfl (hvalid _)
  | ignored | permitted | answered => exact .kept (fun _ ↦ Iff.rfl) rfl

theorem Mirrors.moves_of_advances (hmirrors : Mirrors tree s st)
    (h : s.Advances tree s') : Moves s st s' st := by
  refine .kept (fun hdr ↦ ⟨fun htracked ↦ ⟨htracked.1, ?_⟩, fun htracked ↦
    ⟨htracked.1, h.loadHeader htracked.2⟩⟩) rfl
  obtain ⟨chain, hget⟩ := isSome_iff_exists.1 htracked.1
  obtain ⟨header', hload, -⟩ := hmirrors.tip hget
  rwa [← some.inj (htracked.2.symm.trans (h.loadHeader hload))] at hload

/-- What holds at first and is kept by every message holds along a run, unless a block is invalid. -/
theorem Onward.invariant {P : ChainStore Body → SelectChain → Prop}
    (honward : Onward tree s st s' st') (hrun : Run tree (Ordered tree) s st)
    (hstart : P s st) (hstep : ∀ {store₁ stage₁ store₂ stage₂}, Mirrors tree store₁ stage₁ →
      Moves store₁ stage₁ store₂ stage₂ → P store₁ stage₁ → P store₂ stage₂) : P s' st' := by
  induction honward with
  | refl => exact hstart
  | handle honward htold hordered hvalid h ih =>
    have hmirrors := (honward.run hrun).mirrors_of_ordered
    exact hstep hmirrors (hmirrors.moves htold hordered hvalid h) ih
  | advance honward hadvances ih =>
    have hmirrors := (honward.run hrun).mirrors_of_ordered
    exact hstep hmirrors (hmirrors.moves_of_advances hadvances) ih

/-! ### The best tip rises -/

theorem Moves.best (h : Moves s st s' st') {best} (hbest : st.bestTip = some best) :
    ∃ best', st'.bestTip = some best' ∧ (best' = best ∨ best'.Outranks best) := by
  cases h with
  | kept _ heq | added _ _ heq => exact ⟨best, heq.trans hbest, .inl rfl⟩
  | @selected tip _ _ heq hcmp =>
    rw [hbest] at hcmp
    exact ⟨tip, heq, .inr (outranks_of_cmpTip hcmp)⟩

/-- **Along a run the best tip only rises**, unless a block is invalid. -/
theorem Onward.best (honward : Onward tree s st s' st')
    (hrun : Run tree (Ordered tree) s st) {best : Header} (hbest : st.bestTip = some best) :
    ∃ best', st'.bestTip = some best' ∧ (best' = best ∨ best'.Outranks best) := by
  refine honward.invariant (P := fun _ st' ↦ ∃ best', st'.bestTip = some best' ∧
    (best' = best ∨ best'.Outranks best)) hrun ⟨best, hbest, .inl rfl⟩ fun _ h ⟨best₁, hbest₁, hrank⟩ ↦ ?_
  obtain ⟨best₂, hbest₂, hrank'⟩ := h.best hbest₁
  refine ⟨best₂, hbest₂, ?_⟩
  rcases hrank' with rfl | hrank'
  · exact hrank
  · rcases hrank with rfl | hrank
    · exact .inr hrank'
    · exact .inr (hrank'.trans hrank)

/-! ### The best tip ranks first -/

/-- From some height on, no tip is higher than the best one, and if those that are as high are close to
each other then the best one is preferred to each. -/
structure Fair (height : ℕ) (s : ChainStore Body) (st : SelectChain) : Prop where
  le : ∀ {hdr}, IsTracked s st hdr → height ≤ hdr.blockHeight →
    ∃ best, st.bestTip = some best ∧ hdr.blockHeight ≤ best.blockHeight
  preferred : ∀ {best}, st.bestTip = some best → height ≤ best.blockHeight →
    (∀ a b, IsTracked s st a → IsTracked s st b → a.blockHeight = best.blockHeight →
      b.blockHeight = best.blockHeight → a.Close b) →
    ∀ hdr, IsTracked s st hdr → hdr.blockHeight = best.blockHeight → best.Preferred hdr

theorem Moves.le_best (h : Moves s st s' st') (hheader : IsTracked s' st' hdr)
    (hold : IsTracked s st hdr →
      ∃ best, st.bestTip = some best ∧ hdr.blockHeight ≤ best.blockHeight) :
    ∃ best, st'.bestTip = some best ∧ hdr.blockHeight ≤ best.blockHeight := by
  cases h with
  | kept hsame hbest =>
    rw [hbest]
    exact hold ((hsame hdr).1 hheader)
  | added hnew _ hbest hcmp =>
    rw [hbest]
    rcases hnew hdr hheader with rfl | hheader
    · rcases heq : st.bestTip with - | best <;> rw [heq] at hcmp
      · exact absurd rfl hcmp
      · exact ⟨best, rfl, not_lt_of_cmpTip hcmp⟩
    · exact hold hheader
  | @selected tip hnew _ hbest hcmp =>
    refine ⟨tip, hbest, ?_⟩
    rcases hnew hdr hheader with rfl | hheader
    · exact le_rfl
    · obtain ⟨best, heq, hle⟩ := hold hheader
      rw [heq] at hcmp
      exact hle.trans (le_of_cmpTip hcmp)

theorem Fair.moves (hfair : Fair height s st)
    (htracked : ∀ {best}, st.bestTip = some best → IsTracked s st best)
    (h : Moves s st s' st') : Fair height s' st' := by
  refine ⟨fun hheader hle ↦ h.le_best hheader (hfair.le · hle), ?_⟩
  intro best heq hle hclose hdr hheader hheight
  cases h with
  | kept hsame hbest =>
    exact hfair.preferred (hbest ▸ heq) hle
      (fun a b ha hb ↦ hclose a b ((hsame a).2 ha) ((hsame b).2 hb)) hdr ((hsame hdr).1 hheader) hheight
  | @added tip hnew hkept hbest hcmp =>
    rw [hbest] at heq
    rw [heq] at hcmp
    -- the parent of the new tip is lower than the best tip
    have hkept' (a : Header) (ha : IsTracked s st a) (hheight : a.blockHeight = best.blockHeight) :
        IsTracked s' st' a := by
      refine (hkept a ha).resolve_right fun h ↦ ?_
      have : tip.blockHeight ≤ best.blockHeight := not_lt_of_cmpTip hcmp
      omega
    rcases hnew hdr hheader with rfl | hheader'
    · exact preferred_of_cmpTip hheight
        (hclose hdr best hheader (hkept' best (htracked heq) rfl) hheight rfl) hcmp
    · exact hfair.preferred heq hle
        (fun a b ha hb hah hbh ↦ hclose a b (hkept' a ha hah) (hkept' b hb hbh) hah hbh) hdr hheader'
        hheight
  | @selected tip hnew hkept hbest hcmp =>
    obtain rfl := some.inj (hbest.symm.trans heq)
    rcases hnew hdr hheader with rfl | hheader
    · exact .refl _
    -- a tip that was tracked is not higher than the best tip before, which the new one outranks
    obtain ⟨best, heq', hheight'⟩ := hfair.le hheader (hheight ▸ hle)
    rw [heq'] at hcmp
    have hrank := outranks_of_cmpTip hcmp
    have heqHeight : tip.blockHeight = best.blockHeight := by
      have := hrank.elim le_of_lt fun h ↦ h.1.ge
      omega
    have hkept' (a : Header) (ha : IsTracked s st a) (h : a.blockHeight = best.blockHeight) :
        IsTracked s' st' a := (hkept a ha).resolve_right (by omega)
    exact hrank.preferred heqHeight (hfair.preferred heq' (heqHeight ▸ hle)
      (fun a b ha hb hah hbh ↦ hclose a b (hkept' a ha hah) (hkept' b hb hbh)
        (hah.trans heqHeight.symm) (hbh.trans heqHeight.symm)) hdr hheader
      (hheight.trans heqHeight))

theorem Mirrors.isTracked_best (hmirrors : Mirrors tree s st) {best : Header}
    (hbest : st.bestTip = some best) : IsTracked s st best :=
  ⟨(hmirrors.best hbest).2, (hmirrors.best hbest).1⟩

theorem Onward.fair (honward : Onward tree s st s' st')
    (hrun : Run tree (Ordered tree) s st)
    (hlt : ∀ hdr, IsTracked s st hdr → hdr.blockHeight < height) :
    Fair height s' st' :=
  honward.invariant hrun ⟨fun hheader hle ↦ absurd (hlt _ hheader) (not_lt.2 hle), fun hbest hle ↦
    absurd (hlt _ (hrun.mirrors_of_ordered.isTracked_best hbest)) (not_lt.2 hle)⟩
    fun hmirrors h ih ↦ ih.moves hmirrors.isTracked_best h

/-! ### The best tip is highest -/

/-- No tip above the anchor is higher than the best one. -/
def Highest (tree : HeaderTree) (s : ChainStore Body) (st : SelectChain) : Prop :=
  ∀ hdr, IsTracked s st hdr → s.Above tree hdr.point →
    ∃ best, st.bestTip = some best ∧ hdr.blockHeight ≤ best.blockHeight

theorem Highest.moves (hhighest : Highest tree s st) (h : Moves s st s' st')
    (habove : ∀ {p}, s'.Above tree p → s.Above tree p) : Highest tree s' st' :=
  fun hdr hheader hheaderAbove ↦
    h.le_best hheader fun hold ↦ hhighest hdr hold (habove hheaderAbove)

/-- The tips that are left by an invalid block are not higher than the best candidate. -/
theorem Mirrors.le_of_prune (hmirrors : Mirrors tree s st) {point best}
    (hpoint : s.HasHeader point) (horder : InOrder tree s (.blockValidationResult point false))
    (hcandidate : (s.setBlockValid point.hash false).findBestCandidate = some best)
    (hheader : IsTracked s (st.prune point.hash) hdr) (habove : s.Above tree hdr.point) :
    best ≠ originHash ∧ ∃ header', s.loadHeader best = some header' ∧
      hdr.blockHeight ≤ header'.blockHeight := by
  have hsound := sound_setBlockValid hmirrors.sound hpoint horder
  obtain ⟨chain, hget⟩ := isSome_iff_exists.1 hheader.1
  obtain ⟨header', hload, hmirror⟩ := hmirrors.tip_of_prune horder hget
  obtain rfl := some.inj (hheader.2.symm.trans hload)
  have hstored : (s.setBlockValid point.hash false).HasHeader hdr.point :=
    hsound.within.hasHeader hload
  refine hsound.le_findBestCandidate hcandidate hstored habove ?_
  refine (hsound.snd_unvalidated hstored habove).1 ?_
  rw [Header.hash_point, hmirror habove]

theorem Highest.handle (hhighest : Highest tree s st) (hmirrors : Mirrors tree s st)
    (htold : Told tree s msg) (hordered : Ordered tree s st msg)
    (h : SelectChain.handle s st msg = .ok (s', st', sent)) : Highest tree s' st' := by
  by_cases hvalid : ∀ point, msg ≠ .blockValidationResult point false
  · refine hhighest.moves (hmirrors.moves htold hordered hvalid h) fun {p} habove ↦ ?_
    cases handled_of_handle h <;> exact habove
  -- the block is invalid
  push Not at hvalid
  obtain ⟨point, rfl⟩ := hvalid
  have hprune {hdr : Header} (hheader : IsTracked s (st.prune point.hash) hdr) :
      IsTracked s st hdr := by
    refine ⟨?_, hheader.2⟩
    obtain ⟨chain, hget⟩ := isSome_iff_exists.1 hheader.1
    rw [prune, get?_filter, filter_eq_some_iff] at hget
    exact isSome_iff_exists.2 ⟨chain, hget.1⟩
  cases handled_of_handle h with
  | pruned => exact fun hdr hheader habove ↦ hhighest hdr (hprune hheader) habove
  | fellBack _ _ hcandidate =>
    intro hdr hheader habove
    exact absurd rfl (hmirrors.le_of_prune htold hordered.1 hcandidate hheader habove).1
  | @reselected _ parent best best' hheader hbest hcandidate horigin hload hparent =>
    intro hdr htracked habove
    refine ⟨best', rfl, ?_⟩
    rcases (contains_insert ..).1 htracked.1 with hhash | hcontains
    · have heq : s.loadHeader hdr.hash = some hdr := htracked.2
      rw [hhash, hmirrors.sound.within.hash_eq hload, hload] at heq
      rw [some.inj heq]
    · obtain ⟨-, header', hload', hle⟩ := hmirrors.le_of_prune htold hordered.1 hcandidate
        ⟨hcontains, htracked.2⟩ habove
      rwa [some.inj (hload.symm.trans hload')]

theorem Run.highest (hrun : Run tree (Ordered tree) s st) : Highest tree s st := by
  induction hrun with
  | start =>
    intro hdr hheader
    have hcontains := hheader.1
    cases hcontains
  | handle hrun htold hordered h ih => exact ih.handle hrun.mirrors_of_ordered htold hordered h
  | advance hrun hadvances ih =>
    exact ih.moves (hrun.mirrors_of_ordered.moves_of_advances hadvances) hadvances.above

end SelectChain

namespace SelectChain

variable {Body : Type} {tree : HeaderTree} {s s' : ChainStore Body} {st st' : SelectChain}

/-- **Chain selection picks a highest tip and does not go back.** From any state of a run, as long as no
block is invalid: the best tip is as high as every tip above the anchor. If it is higher than all tips were
at first, it is as high as every tip, and preferred among those that are as high if these are close to each
other. It only rises, and one that was replaced is not selected again; nor does adoption ever go back. -/
theorem best_tip_is_highest_and_never_returns (hrun : Run tree (Ordered tree) s st)
    (honward : Onward tree s st s' st') :
    (∀ hdr, IsTracked s' st' hdr → s'.Above tree hdr.point →
      ∃ best, st'.bestTip = some best ∧ hdr.blockHeight ≤ best.blockHeight) ∧
    (∀ best, st'.bestTip = some best →
      (∀ hdr, IsTracked s st hdr → hdr.blockHeight < best.blockHeight) →
      (∀ hdr, IsTracked s' st' hdr → hdr.blockHeight ≤ best.blockHeight) ∧
      ((∀ a b, IsTracked s' st' a → IsTracked s' st' b →
          a.blockHeight = best.blockHeight → b.blockHeight = best.blockHeight → a.Close b) →
        ∀ hdr, IsTracked s' st' hdr → hdr.blockHeight = best.blockHeight →
          best.Preferred hdr)) ∧
    (∀ best, st.bestTip = some best →
      ∃ best', st'.bestTip = some best' ∧ (best' = best ∨ best'.Outranks best)) ∧
    (∀ best, st.bestTip = some best → st'.bestTip ≠ some best →
      ∀ store'' stage'', Onward tree s' st' store'' stage'' → stage''.bestTip ≠ some best) ∧
    ∀ (chainStore chainStore' : ChainStore Body) (adopt adopt' : AdoptChain) (msg : AdoptChainMsg)
      (announcements : List Announcement),
      AdoptChain.handle chainStore adopt msg = .ok (chainStore', adopt', announcements) →
      adopt'.currentBestTip = adopt.currentBestTip ∨ adopt'.currentBestTip = msg.tip ∧
        ∃ incoming, chainStore.loadHeader msg.tip.hash = some incoming ∧
          (adopt.currentBestTip = .origin ∨ ∃ current,
            chainStore.loadHeader adopt.currentBestTip.hash = some current ∧ incoming.Outranks current) := by
  refine ⟨(honward.run hrun).highest, fun best hbest hlt ↦ ?_, fun best hbest ↦ honward.best hrun hbest,
    fun best hbest hne store'' stage'' honward' hagain ↦ ?_,
    fun chainStore _ adopt _ msg _ h ↦ ?_⟩
  · have hfair := honward.fair hrun hlt
    refine ⟨fun hdr hheader ↦ ?_, hfair.preferred hbest le_rfl⟩
    by_contra hgt
    obtain ⟨best', hbest', hle⟩ := hfair.le hheader (Nat.le_of_not_le hgt)
    rw [some.inj (hbest.symm.trans hbest')] at hgt
    exact hgt hle
  · obtain ⟨best', hbest', hrank⟩ := honward.best hrun hbest
    have hrank := hrank.resolve_left fun heq ↦ hne (heq ▸ hbest')
    obtain ⟨best'', hbest'', hrank'⟩ := honward'.best (honward.run hrun) hbest'
    obtain rfl := some.inj (hagain.symm.trans hbest'')
    rcases hrank' with rfl | hrank'
    · exact hrank.ne rfl
    · exact (hrank'.trans hrank).ne rfl
  · cases AdoptChain.handled_of_handle h with
    | shorter | notBetter => exact .inl rfl
    | @adopted incoming currentBest _ _ hincoming hbest hbetter =>
      refine .inr ⟨rfl, incoming, hincoming, ?_⟩
      rw [AdoptChain.loadCurrentBest] at hbest
      split_ifs at hbest with horigin
      · exact .inl horigin
      split at hbest
      · next hload =>
        cases hbest
        exact .inr ⟨_, hload, outranks_of_cmpTip hbetter⟩
      · cases hbest

/-! ### Ties -/

open Pipeline (headerAt pointAt)

/-- A header at a slot of the small store, with a leader value. -/
def tiedHeader (slot vrfLeader : ℕ) : Header := { headerAt slot 11 (some 40) with vrfLeader }

/-- Three tips on top of the anchor at slot 40. The first is too far from the last to be compared. -/
def tiedTips : ChainStore Bool where
  headers := .ofList [(40, headerAt 40 10 none), (41, tiedHeader 41 30), (44, tiedHeader 44 20),
    (47, tiedHeader 47 10)]
  validity := .ofList [(40, true)]
  blocks := ∅
  anchor := pointAt 40 10
  bestChain := .ofList [(40, pointAt 40 10)]
  bestChainTip := pointAt 40 10

/-- The headers of the small store. -/
def tiedTipsTree : HeaderTree := ofMap tiedTips.headers (by decide +kernel)

theorem sound_tiedTips : tiedTips.Sound tiedTipsTree :=
  ChainStore.sound_ofMap (ChainStore.within_ofMap (by decide +kernel)) (by decide +kernel)
    (.inr (by decide +kernel)) (by decide +kernel)

theorem told_tiedTips : Told tiedTipsTree tiedTips (.initialise 40) := by
  refine .inr ⟨headerAt 40 10 none, by decide +kernel, .inr .refl, fun p hp ↦ ?_⟩
  exact sound_tiedTips.verdicts hp (by decide +kernel)

theorem told_tiedTips_tip (slot : ℕ) (h : (tiedTips.loadHeader slot).map (fun h ↦ (h.point, h.parent)) =
    some (pointAt slot 11, some 40)) :
    Told tiedTipsTree tiedTips (.tipFromUpstream (pointAt slot 11) (pointAt 40 10)) :=
  have ⟨hchild, hstored⟩ : tiedTipsTree.Child (pointAt 40 10) (pointAt slot 11) ∧
      tiedTips.HasHeader (pointAt slot 11) := child_of_map sound_tiedTips.within ⟨by decide +kernel, h⟩
  ⟨hstored, .inr hchild⟩

theorem ordered_tip {s : ChainStore Bool} {tip parent : Point} :
    Ordered tree s st (.tipFromUpstream tip parent) := ⟨trivial, by simp⟩

/-- Of the first two tips, which are close to each other, the best one has the lower leader value. -/
theorem best_tip_is_preferred : ∃ (tree : HeaderTree) (s : ChainStore Bool)
    (st st' : SelectChain), Run tree (Ordered tree) s st ∧
      Onward tree s st s st' ∧ st'.tips.keys = [41, 44] ∧
      st'.bestTip = some (tiedHeader 44 20) ∧ (tiedHeader 44 20).Preferred (tiedHeader 41 30) := by
  obtain ⟨st, st', hrun, honward, hkeys, hkeys', hbest⟩ : ∃ st st',
      Run tiedTipsTree (Ordered tiedTipsTree) tiedTips st ∧
      Onward tiedTipsTree tiedTips st tiedTips st' ∧ st.tips.keys = [40] ∧
      st'.tips.keys = [41, 44] ∧ st'.bestTip = some (tiedHeader 44 20) :=
    ⟨_, _, .handle (.start sound_tiedTips) told_tiedTips ⟨trivial, fun _ _ ↦ rfl⟩ rfl,
      .handle (.handle .refl (told_tiedTips_tip 41 (by decide +kernel)) ordered_tip
        (by simp) rfl) (told_tiedTips_tip 44 (by decide +kernel)) ordered_tip
        (by simp) rfl, rfl, rfl, rfl⟩
  have hlower : ∀ entry ∈ tiedTips.headers.entries, entry.1 ∈ st.tips.keys → entry.2.blockHeight < 11 := by
    rw [hkeys]
    decide +kernel
  have hclose : ∀ entry ∈ tiedTips.headers.entries, ∀ entry' ∈ tiedTips.headers.entries,
      entry.1 ∈ st'.tips.keys → entry'.1 ∈ st'.tips.keys → entry.2.Close entry'.2 := by
    rw [hkeys']
    decide +kernel
  refine ⟨_, tiedTips, st, st', hrun, honward, hkeys', hbest, ?_⟩
  refine ((best_tip_is_highest_and_never_returns hrun honward).2.1 _ hbest fun hdr h ↦ ?_).2
    (fun a b ha hb _ _ ↦ ?_) _ ⟨?_, by decide +kernel⟩ rfl
  · exact hlower _ (mem_entries_iff.2 h.2) (mem_keys_iff.2 h.1)
  · exact hclose _ (mem_entries_iff.2 ha.2) _ (mem_entries_iff.2 hb.2) (mem_keys_iff.2 ha.1)
      (mem_keys_iff.2 hb.1)
  · rw [contains, ← mem_keys_iff, hkeys']
    decide

/-- A block is invalid, where all valid ones are lower. -/
theorem ordered_of_invalid {s : ChainStore Bool} {hlinked : HeaderTree.Linked s.headers}
    {p : Point} (hp : (ofMap s.headers hlinked).Has p)
    (h : ∀ entry ∈ s.headers.entries, s.validity.get? entry.1 = some true → entry.2.blockHeight
      < p.blockHeight) :
    Ordered (ofMap s.headers hlinked) s st (.blockValidationResult p false) := by
  refine ⟨fun q hancestor hvalid ↦ ?_, by simp⟩
  obtain ⟨hdr, hheader, rfl⟩ := hp.of_descendant hancestor
  have hlt := h _ (mem_entries_iff.2 hheader) hvalid
  exact absurd (height_le_of_ancestor hancestor) (not_le.2 hlt)

/-- **After an invalid block** the best tip need not rank first among two tips that are close to each
other, nor be as high as a tip that is not above the anchor. -/
theorem best_tip_after_invalid_block :
    (∃ (tree : HeaderTree) (s : ChainStore Bool) (st : SelectChain),
      Run tree (Ordered tree) s st ∧ st.tips.keys = [44, 47] ∧
        s.loadHeader 44 = some (tiedHeader 44 20) ∧ s.loadHeader 47 = some (tiedHeader 47 10) ∧
        (tiedHeader 44 20).Close (tiedHeader 47 10) ∧ st.bestTip = some (tiedHeader 44 20) ∧
        ¬(tiedHeader 44 20).Preferred (tiedHeader 47 10)) ∧
    ∃ (tree : HeaderTree) (s : ChainStore Bool) (st : SelectChain),
      Run tree (Ordered tree) s st ∧ IsTracked s st (headerAt 36 13 (some 35)) ∧
        st.bestTip = some (headerAt 41 12 (some 40)) := by
  constructor
  · -- the first tip is selected, the last is not compared, the second is selected; the first is invalid
    have htold : Told tiedTipsTree tiedTips (.blockValidationResult (pointAt 41 11) false) :=
      ⟨tiedHeader 41 30, by decide +kernel, rfl⟩
    refine ⟨tiedTipsTree, _, _, .handle (.handle (.handle
      (.handle (.handle (.start sound_tiedTips) told_tiedTips
      ⟨trivial, fun _ _ ↦ rfl⟩ rfl) (told_tiedTips_tip 41 (by decide +kernel)) ordered_tip rfl)
      (told_tiedTips_tip 47 (by decide +kernel)) ordered_tip rfl) (told_tiedTips_tip 44 (by decide +kernel))
      ordered_tip rfl) htold (ordered_of_invalid (htold.has sound_tiedTips.within) (by decide +kernel)) rfl,
      rfl, rfl, rfl, by decide, rfl, by unfold Header.Preferred; decide⟩
  · -- the best tip, at slot 42, is invalid
    obtain ⟨hchild, hstored⟩ : forkBelowAnchorTree.Child (pointAt 35 12) (pointAt 36 13) ∧
        forkBelowAnchor.HasHeader (pointAt 36 13) :=
      child_of_map sound_forkBelowAnchor.within (by decide +kernel)
    have htold : Told forkBelowAnchorTree forkBelowAnchor
        (.tipFromUpstream (pointAt 36 13) (pointAt 35 12)) := ⟨hstored, .inr hchild⟩
    have htold' : Told forkBelowAnchorTree forkBelowAnchor (.blockValidationResult (pointAt 42 13) false) :=
      ⟨headerAt 42 13 (some 41), by decide +kernel, rfl⟩
    exact ⟨_, _, _, .handle (.handle (.handle (.start sound_forkBelowAnchor)
      told_forkBelowAnchor ⟨trivial, fun _ _ ↦ rfl⟩ rfl) htold ordered_tip rfl) htold'
      (ordered_of_invalid (htold'.has sound_forkBelowAnchor.within) (by decide +kernel)) rfl,
      ⟨rfl, rfl⟩, rfl⟩

end SelectChain

end Amaru
