import Amaru.Consensus.AdoptChain

/-!
# The stage that selects a chain

The stage is told of each header that peers announce, and tracks the **tips** of the branches, each with
the blocks on it that are not validated yet. Its best tip changes if an announced tip is strictly better,
or if the best tip turns out to descend from an invalid block; then the store is searched from the
anchor on.

The stage hands the best tip to the stage that fetches blocks, once each time it is **permitted** to: it
gives its permission away with the tip, and gets it back when the other stage asks for the next one.

`Handled` lists every way a message is handled; what follows about the stage follows from it.
-/

namespace Amaru

open SortedMap Bool AdoptChain Option Except

/-- A message to the stage. -/
inductive SelectChainMsg
  /-- Once, at start: the hash of the best candidate of the store. -/
  | initialise (best : ℕ)
  | tipFromUpstream (tip parent : Point)
  | blockValidationResult (point : Point) (valid : Bool)
  | fetchNextFrom (point : Point)
deriving DecidableEq, Repr

/-- A message to the stage that fetches blocks: a new best tip. -/
structure NewBestTip where
  tip : Point
  parent : Point
deriving DecidableEq, Repr

/-- The state of the stage. -/
structure SelectChain where
  /-- The tips, each with the hashes of the blocks that are yet to be validated, oldest first. -/
  tips : SortedMap ℕ (List ℕ)
  bestTip : Option Header
  /-- The other stage has asked for a tip, and was not answered. -/
  mayFetchBlocks : Bool
deriving DecidableEq

namespace SelectChain

variable {Body : Type} {stage stage' : SelectChain} {sent : List NewBestTip} {tip parent : Point}
  {tips : SortedMap ℕ (List ℕ)}

/-- The stage at start. -/
def new : SelectChain where
  tips := ∅
  bestTip := none
  mayFetchBlocks := false

/-- Hand a best tip over, if it is permitted. -/
def sendBest (stage : SelectChain) (best : NewBestTip) : SelectChain × List NewBestTip :=
  if stage.mayFetchBlocks then ({ stage with mayFetchBlocks := false }, [best]) else (stage, [])

section

variable (store : ChainStore Body)

section

variable (stage : SelectChain)

/-- Take the best candidate of the store for the best tip. -/
def handleInitialise (best : ℕ) : SelectChain :=
  if best = originHash then stage
  else { stage with
    bestTip := store.loadHeader best
    tips := stage.tips.insert best (store.unvalidatedAncestorHashes best).1 }

/-- Track a tip, unless it descends from an invalid block. -/
def trackTip (tips : SortedMap ℕ (List ℕ)) (tip parent : Point) : SortedMap ℕ (List ℕ) :=
  if parent = .origin then tips.insert tip.hash [tip.hash]
  else match tips.get? parent.hash with
    -- the branch goes on
    | some chain => (tips.erase parent.hash).insert tip.hash (chain ++ [tip.hash])
    -- a new branch
    | none =>
      let (ancestors, valid) := store.unvalidatedAncestorHashes parent.hash
      if valid then tips.insert tip.hash (ancestors ++ [tip.hash]) else tips

/-- Handle a tip that a peer announced. -/
def handleTipFromUpstream (tip parent : Point) : Except Termination (SelectChain × List NewBestTip) :=
  match store.loadHeaderWithValidity tip.hash with
  | none => .error (.headerNotFound tip.hash)
  | some (_, some _) => .ok (stage, [])
  | some (header, none) =>
    if stage.tips.contains tip.hash || stage.bestTip.any (·.hash = tip.hash) then .ok (stage, [])
    else
      let tracking := { stage with tips := trackTip store stage.tips tip parent }
      if !tracking.tips.contains tip.hash then .ok (tracking, [])
      else if cmpTip (some header) stage.bestTip = .gt then
        .ok ({ tracking with bestTip := some header }.sendBest ⟨tip, parent⟩)
      else .ok (tracking, [])

/-- Drop the blocks up to a valid one. -/
def drainThrough (hash : ℕ) (chain : List ℕ) : List ℕ :=
  match chain.findIdx? (· = hash) with
  | some index => chain.drop (index + 1)
  | none => chain

/-- Search the store for the best tip. -/
def selectAgain : Except Termination (SelectChain × List NewBestTip) :=
  match store.findBestCandidate with
  | none => .error .findBestCandidateFailed
  | some best =>
    if best = originHash then .ok ({ stage with bestTip := none }, [])
    else match store.loadHeader best with
      | none => .error (.headerNotFound best)
      | some header => do
        let parent ← loadParentPoint store header
        .ok ({ stage with
          tips := stage.tips.insert header.hash (store.unvalidatedAncestorHashes header.hash).1
          bestTip := some header }.sendBest ⟨header.point, parent⟩)

/-- The stage without the tips that descend from a block. -/
def prune (hash : ℕ) : SelectChain :=
  { stage with tips := stage.tips.filter fun _ chain ↦ !chain.contains hash }

/-- Whether the best tip, if there is one, is tracked. -/
def tracksBest : Bool :=
  stage.bestTip.all fun best ↦ stage.tips.contains best.hash

/-- Record the verdict on a block. -/
def handleBlockValidationResult (tip : Point)
    (valid : Bool) : Except Termination (ChainStore Body × SelectChain × List NewBestTip) :=
  if (store.loadHeader tip.hash).isNone then .error (.headerNotFound tip.hash)
  else
    let store := store.setBlockValid tip.hash valid
    if valid then
      .ok (store, { stage with tips := stage.tips.map fun _ ↦ drainThrough tip.hash }, [])
    else if (stage.prune tip.hash).tracksBest then .ok (store, stage.prune tip.hash, [])
    else (selectAgain store (stage.prune tip.hash)).map (store, ·)

/-- Answer the other stage with the best tip, or keep its permission. -/
def handleFetchNextFrom (point : Point) : Except Termination (SelectChain × List NewBestTip) :=
  if stage.mayFetchBlocks then .error .fetchAlreadyAllowed
  else match stage.bestTip with
    | none => .ok ({ stage with mayFetchBlocks := true }, [])
    | some best =>
      if best.point = point then .ok ({ stage with mayFetchBlocks := true }, [])
      else match store.loadHeader best.hash with
        | none => .error (.headerNotFound best.hash)
        | some header => do
          let parent ← loadParentPoint store header
          .ok (stage, [⟨best.point, parent⟩])

/-- Handle a message. -/
def handle : SelectChainMsg → Except Termination (ChainStore Body × SelectChain × List NewBestTip)
  | .initialise best => .ok (store, handleInitialise store stage best, [])
  | .tipFromUpstream tip parent => (handleTipFromUpstream store stage tip parent).map (store, ·)
  | .blockValidationResult point valid => handleBlockValidationResult store stage point valid
  | .fetchNextFrom point => (handleFetchNextFrom store stage point).map (store, ·)

end

end

/-! ### Every way a message is handled -/

/-- A tip that is to be tracked: its block has no verdict, and it is not tracked yet. -/
structure IsNew (store : ChainStore Body) (stage : SelectChain) (tip : Point) (header : Header) : Prop where
  loadHeader_eq : store.loadHeader tip.hash = some header
  validity_eq : store.validity.get? tip.hash = none
  get?_tips : stage.tips.get? tip.hash = none
  ne_best : ∀ best, stage.bestTip = some best → best.hash ≠ tip.hash

/-- How a tip is tracked. -/
inductive Tracks (store : ChainStore Body) (tips : SortedMap ℕ (List ℕ)) (tip parent : Point) :
    SortedMap ℕ (List ℕ) → Prop
  | origin (hparent : parent = .origin) : Tracks store tips tip parent (tips.insert tip.hash [tip.hash])
  | extend {chain} (hparent : parent ≠ .origin) (h : tips.get? parent.hash = some chain) :
    Tracks store tips tip parent ((tips.erase parent.hash).insert tip.hash (chain ++ [tip.hash]))
  | fork {ancestors} (hparent : parent ≠ .origin) (h : tips.get? parent.hash = none)
    (hvalid : store.unvalidatedAncestorHashes parent.hash = (ancestors, true)) :
    Tracks store tips tip parent (tips.insert tip.hash (ancestors ++ [tip.hash]))

/-- Every way a message is handled. -/
inductive Handled (store : ChainStore Body) (stage : SelectChain) :
    SelectChainMsg → ChainStore Body → SelectChain → List NewBestTip → Prop
  | initialised (best : ℕ) :
    Handled store stage (.initialise best) store (handleInitialise store stage best) []
  /-- The tip is known, or descends from an invalid block. -/
  | ignored (tip parent : Point) : Handled store stage (.tipFromUpstream tip parent) store stage []
  /-- The tip is tracked, and not better. -/
  | tracked {tip parent header tips} (hnew : IsNew store stage tip header)
    (htips : Tracks store stage.tips tip parent tips) (hcmp : cmpTip (some header) stage.bestTip ≠ .gt) :
    Handled store stage (.tipFromUpstream tip parent) store { stage with tips } []
  /-- The tip is tracked, and the best. -/
  | selected {tip parent header tips} (hnew : IsNew store stage tip header)
    (htips : Tracks store stage.tips tip parent tips) (hcmp : cmpTip (some header) stage.bestTip = .gt) :
    Handled store stage (.tipFromUpstream tip parent) store
      { tips, bestTip := some header, mayFetchBlocks := false }
      (if stage.mayFetchBlocks then [⟨tip, parent⟩] else [])
  | validated {point} (hheader : (store.loadHeader point.hash).isSome) :
    Handled store stage (.blockValidationResult point true) (store.setBlockValid point.hash true)
      { stage with tips := stage.tips.map fun _ ↦ drainThrough point.hash } []
  /-- The block is invalid, and the best tip does not descend from it. -/
  | pruned {point} (hheader : (store.loadHeader point.hash).isSome)
    (hbest : (stage.prune point.hash).tracksBest = true) :
    Handled store stage (.blockValidationResult point false) (store.setBlockValid point.hash false)
      (stage.prune point.hash) []
  /-- The best tip descends from the invalid block, and there is no other. -/
  | fellBack {point} (hheader : (store.loadHeader point.hash).isSome)
    (hbest : (stage.prune point.hash).tracksBest = false)
    (hcandidate : (store.setBlockValid point.hash false).findBestCandidate = some originHash) :
    Handled store stage (.blockValidationResult point false) (store.setBlockValid point.hash false)
      { stage.prune point.hash with bestTip := none } []
  /-- The best tip descends from the invalid block, and another is selected. -/
  | reselected {point parent best header} (hheader : (store.loadHeader point.hash).isSome)
    (hbest : (stage.prune point.hash).tracksBest = false)
    (hcandidate : (store.setBlockValid point.hash false).findBestCandidate = some best)
    (horigin : best ≠ originHash) (hload : store.loadHeader best = some header)
    (hparent : loadParentPoint store header = .ok parent) :
    Handled store stage (.blockValidationResult point false) (store.setBlockValid point.hash false)
      { tips := (stage.prune point.hash).tips.insert header.hash
          ((store.setBlockValid point.hash false).unvalidatedAncestorHashes header.hash).1
        bestTip := some header
        mayFetchBlocks := false }
      (if stage.mayFetchBlocks then [⟨header.point, parent⟩] else [])
  /-- The other stage is at the best tip. -/
  | permitted {point} (hfetch : stage.mayFetchBlocks = false)
    (hpoint : ∀ best, stage.bestTip = some best → best.point = point) :
    Handled store stage (.fetchNextFrom point) store { stage with mayFetchBlocks := true } []
  /-- The other stage is told the best tip. -/
  | answered {point parent best header} (hfetch : stage.mayFetchBlocks = false)
    (hbest : stage.bestTip = some best) (hne : best.point ≠ point)
    (hload : store.loadHeader best.hash = some header) (hparent : loadParentPoint store header = .ok parent) :
    Handled store stage (.fetchNextFrom point) store stage [⟨best.point, parent⟩]

theorem sendBest_eq (stage : SelectChain) (best : NewBestTip) :
    stage.sendBest best = ({ stage with mayFetchBlocks := false },
      if stage.mayFetchBlocks then [best] else []) := by
  rcases stage with ⟨tips, bestTip, mayFetchBlocks⟩
  cases mayFetchBlocks <;> rfl

variable {store store' : ChainStore Body} {point : Point}

theorem tracks_of_trackTip (hnew : tips.get? tip.hash = none)
    (h : (trackTip store tips tip parent).contains tip.hash = true) :
    Tracks store tips tip parent (trackTip store tips tip parent) := by
  rw [trackTip] at h ⊢
  split_ifs with hparent
  · exact .origin hparent
  rcases hget : tips.get? parent.hash with - | chain
  · simp only [hget, if_neg hparent] at h ⊢
    split_ifs at h ⊢ with hvalid
    · exact .fork hparent hget (Prod.ext rfl hvalid)
    · rw [contains, hnew] at h
      cases h
  · exact .extend hparent hget

theorem trackTip_eq_of_not_contains (h : (trackTip store tips tip parent).contains tip.hash = false) :
    trackTip store tips tip parent = tips := by
  rw [trackTip] at h ⊢
  split_ifs at h ⊢ with hparent
  · rw [contains, get?_insert_self] at h
    cases h
  rcases hget : tips.get? parent.hash with - | chain
  · simp only [hget] at h ⊢
    split_ifs at h ⊢ with hvalid
    · rw [contains, get?_insert_self] at h
      cases h
    · rfl
  · simp only [hget] at h
    rw [contains, get?_insert_self] at h
    cases h

theorem isNew_of_not {header} (hload : store.loadHeaderWithValidity tip.hash = some (header, none))
    (h : ¬(stage.tips.contains tip.hash || stage.bestTip.any (·.hash = tip.hash)) = true) :
    IsNew store stage tip header := by
  obtain ⟨loaded, hheader, heq⟩ := map_eq_some_iff.1 hload
  obtain ⟨rfl, hvalidity⟩ := Prod.mk.inj heq
  rw [not_eq_true, or_eq_false_iff] at h
  refine ⟨hheader, hvalidity, isNone_iff_eq_none.1 (by simpa [contains] using h.1), fun best hbest heq ↦ ?_⟩
  rw [hbest, any_some, decide_eq_false_iff_not] at h
  exact h.2 heq

theorem handled_of_handleTipFromUpstream
    (h : handleTipFromUpstream store stage tip parent = .ok (stage', sent)) :
    Handled store stage (.tipFromUpstream tip parent) store stage' sent := by
  rw [handleTipFromUpstream] at h
  split at h
  · cases h
  · cases h
    exact .ignored tip parent
  · rename_i header hload
    dsimp only at h
    split_ifs at h with hknown htracks hcmp
    · cases h
      exact .ignored tip parent
    · cases h
      rw [not_eq_true'] at htracks
      rw [trackTip_eq_of_not_contains htracks]
      exact .ignored tip parent
    · have hnew := isNew_of_not hload hknown
      rw [not_eq_true', not_eq_false] at htracks
      rw [sendBest_eq] at h
      cases h
      exact .selected hnew (tracks_of_trackTip hnew.get?_tips htracks) hcmp
    · have hnew := isNew_of_not hload hknown
      rw [not_eq_true', not_eq_false] at htracks
      cases h
      exact .tracked hnew (tracks_of_trackTip hnew.get?_tips htracks) hcmp

theorem handled_of_handleBlockValidationResult {valid : Bool}
    (h : handleBlockValidationResult store stage point valid = .ok (store', stage', sent)) :
    Handled store stage (.blockValidationResult point valid) store' stage' sent := by
  rw [handleBlockValidationResult] at h
  have hheader : (store.loadHeader point.hash).isSome = true := by
    rw [← not_isNone, not_eq_true', ← not_eq_true]
    intro hnone
    rw [if_pos hnone] at h
    cases h
  split_ifs at h with hnone hvalid hbest
  · subst hvalid
    cases h
    exact .validated hheader
  · rw [not_eq_true] at hvalid
    subst hvalid
    cases h
    exact .pruned hheader hbest
  · rw [not_eq_true] at hvalid hbest
    subst hvalid
    obtain ⟨⟨next, sent⟩, h, heq⟩ := map_eq_ok_iff.1 h
    cases heq
    rw [selectAgain] at h
    split at h
    · cases h
    rename_i best hcandidate
    split_ifs at h with horigin
    · subst horigin
      cases h
      exact .fellBack hheader hbest hcandidate
    split at h
    · cases h
    rename_i header hload
    obtain ⟨parent, hparent, h⟩ := bind_eq_ok_iff.1 h
    rw [sendBest_eq] at h
    cases h
    exact .reselected hheader hbest hcandidate horigin hload hparent

theorem handled_of_handleFetchNextFrom (h : handleFetchNextFrom store stage point = .ok (stage', sent)) :
    Handled store stage (.fetchNextFrom point) store stage' sent := by
  rw [handleFetchNextFrom] at h
  split_ifs at h with hfetch
  rw [not_eq_true] at hfetch
  split at h
  next hbest =>
    cases h
    exact .permitted hfetch fun best h ↦ absurd (hbest.symm.trans h) (by simp)
  next best hbest =>
    split_ifs at h with hpoint
    · cases h
      exact .permitted hfetch fun best' h ↦ (some.inj (hbest.symm.trans h)) ▸ hpoint
    split at h
    · cases h
    · rename_i header hload
      obtain ⟨parent, hparent, h⟩ := bind_eq_ok_iff.1 h
      cases h
      exact .answered hfetch hbest hpoint hload hparent

theorem handled_of_handle {msg} (h : handle store stage msg = .ok (store', stage', sent)) :
    Handled store stage msg store' stage' sent := by
  cases msg with
  | initialise best =>
    cases h
    exact .initialised best
  | tipFromUpstream tip parent =>
    obtain ⟨⟨next, sent⟩, h, heq⟩ := map_eq_ok_iff.1 h
    cases heq
    exact handled_of_handleTipFromUpstream h
  | blockValidationResult point valid => exact handled_of_handleBlockValidationResult h
  | fetchNextFrom point =>
    obtain ⟨⟨next, sent⟩, h, heq⟩ := map_eq_ok_iff.1 h
    cases heq
    exact handled_of_handleFetchNextFrom h

end SelectChain

end Amaru
