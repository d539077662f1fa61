import Amaru.Consensus.Pipeline

/-!
# The tips agree

The ledger moves first, and the stage that adopts chains applies its own test afterwards. Once it has
handled its messages, the tip of the ledger, the current tip of the first stage, the best tip of the
chain store and the tip that was last announced are **one and the same point** (`tips_agree`), if no fork
crosses a boundary far enough for it to be written before the last block.

A fork that does, and then turns out to be invalid, is applied in part: the ledger stays on a tip that
need not be better than the one before, and is then never adopted
(`partly_applied_fork_is_not_adopted`).
-/

namespace Amaru

open List AdoptChain State ChainStore Option Except

variable {tree : HeaderTree}

/-- `q` is at a header that is strictly better than the one at `p`. -/
def HeaderTree.Better (tree : HeaderTree) (p q : Point) : Prop :=
  tree.Has q ∧ cmpTip (tree.header q.hash) (tree.header p.hash) = .gt

theorem HeaderTree.Child.better {p q : Point} (h : tree.Child p q) : tree.Better p q := by
  refine ⟨h.has_right, ?_⟩
  obtain ⟨header, header', hheader, -, hheader', -, hparent⟩ := h
  rw [hheader, hheader']
  have hheight := (tree.linked hheader' hparent hheader).2
  exact cmpTip_of_lt (by omega)

theorem HeaderTree.Better.height_le {p q : Point} (h : tree.Better p q) (hp : tree.Has p) :
    p.blockHeight ≤ q.blockHeight := by
  obtain ⟨⟨header', hheader', rfl⟩, hcmp⟩ := h
  obtain ⟨header, hheader, rfl⟩ := hp
  rw [hheader, hheader'] at hcmp
  exact le_of_cmpTip hcmp

namespace AdoptChain

variable {Body : Type} {st : AdoptChain} {tip : Point} {sent : List Announcement}
  {incoming : Header} {recipient : Recipient}

variable {s : ChainStore Body}

theorem loadCurrentBest_eq (hstore : s.Within tree) {currentBest}
    (h : st.loadCurrentBest s = .ok currentBest) :
    currentBest = tree.header st.currentBestTip.hash := by
  rw [loadCurrentBest] at h
  split_ifs at h with horigin
  · rw [← ok.inj h, horigin]
    exact tree.header_origin.symm
  · split at h
    · next hload => rw [← ok.inj h, hstore.header_eq hload]
    · cases h

/-- Whether there is someone to tell. -/
def tells (st : AdoptChain) : Recipient → Bool
  | .mempool => st.hasMempool
  | .manager => true
  | .blockSource => st.hasBlockSource
  | .forge => st.hasForge

/-- The tip that was announced last. -/
def lastAnnounced (announced : List Announcement) (recipient : Recipient) : Option Point :=
  (announced.filter (·.recipient = recipient)).getLast?.map Announcement.tip

theorem exists_mem_announce (h : st.announce s incoming tip = .ok sent)
    (htells : st.tells recipient = true) :
    ∃ announcement ∈ sent, announcement.recipient = recipient := by
  have hall : st.announceTip tip ⊆ sent ∧
      (st.hasForge = true → ∃ parent, ⟨.forge, tip, some parent⟩ ∈ sent) := by
    rw [announce] at h
    split_ifs at h with hforge
    · obtain ⟨parent, -, rfl⟩ := map_eq_ok_iff.1 h
      exact ⟨subset_append_left .., fun _ ↦ ⟨parent, by simp⟩⟩
    · cases h
      exact ⟨Subset.refl _, fun h ↦ absurd h hforge⟩
  cases recipient with
  | mempool | manager | blockSource =>
    exact ⟨⟨_, tip, none⟩, hall.1 (by simp_all [tells, announceTip]), rfl⟩
  | forge =>
    obtain ⟨parent, hmem⟩ := hall.2 htells
    exact ⟨_, hmem, rfl⟩

theorem lastAnnounced_append (h : st.announce s incoming tip = .ok sent)
    (announced : List Announcement) (htells : st.tells recipient = true) :
    lastAnnounced (announced ++ sent) recipient = some tip := by
  obtain ⟨announcement, hmem, hrecipient⟩ := exists_mem_announce h htells
  have hne : sent.filter (·.recipient = recipient) ≠ [] :=
    ne_nil_of_mem (mem_filter.2 ⟨hmem, decide_eq_true hrecipient⟩)
  obtain ⟨last, hlast⟩ := ne_none_iff_exists'.1 (mt getLast?_eq_none_iff.1 hne)
  rw [lastAnnounced, filter_append, getLast?_append, hlast]
  exact congrArg some (tip_of_announce h (mem_filter.1 (mem_of_getLast? hlast)).1)

end AdoptChain

namespace Pipeline

variable {Body : Type} {tree : HeaderTree} {env : Environment Body}
  {pipe pipe' : Pipeline Body} {msg : ValidateBlockMsg}

/-- If the ledger is asked to switch to a fork, none of its blocks but the last can have a boundary
written. -/
def CalmFork (env : Environment Body) (pipe : Pipeline Body) (msg : ValidateBlockMsg) : Prop :=
  ∀ fork blocks, pipe.AsksSwitch msg fork blocks →
    ∀ guard base, pipe.ledger.rollbackTo fork = .ok (guard, base) →
      State.Calm env base.volatile blocks.dropLast

/-- Each tip that waits to be adopted is better than the one before, and the last is the current
one. -/
structure Agree (tree : HeaderTree) (pipe : Pipeline Body) : Prop where
  has : tree.Has pipe.adoptChain.currentBestTip
  isChain : List.IsChain tree.Better (pipe.adoptChain.currentBestTip :: pipe.toAdopt.map AdoptChainMsg.tip)
  getLast?_eq : (pipe.adoptChain.currentBestTip ::
    pipe.toAdopt.map AdoptChainMsg.tip).getLast? = some pipe.validateBlock.current
  bestChainTip_eq : pipe.store.bestChainTip = pipe.adoptChain.currentBestTip
  announced : pipe.announced = [] ∨ ∀ recipient, pipe.adoptChain.tells recipient = true →
    lastAnnounced pipe.announced recipient = some pipe.adoptChain.currentBestTip

theorem Live.better_of_isBetter (hlive : pipe.Live tree env) (hmsg : pipe.Handed tree msg)
    (hbetter : pipe.validateBlock.isBetter pipe.store msg = true) :
    tree.Better pipe.validateBlock.current msg.tip := by
  obtain ⟨header, hheader, -⟩ := hlive.hasHeader
  obtain ⟨header', hheader', -⟩ := hmsg.1
  refine ⟨hmsg.1.has hlive.within, ?_⟩
  rw [ValidateBlock.isBetter, hheader, hheader', decide_eq_true_iff] at hbetter
  rw [hlive.within.header_eq hheader, hlive.within.header_eq hheader']
  exact hbetter

theorem Agree.concat (hagree : pipe.Agree tree) {ledger st tip height}
    (hbetter : tree.Better pipe.validateBlock.current tip) (hcurrent : st.current = tip) :
    Agree tree { pipe with
      ledger
      validateBlock := st
      toAdopt := pipe.toAdopt ++ [⟨tip, height⟩] } := by
  refine { hagree with isChain := ?_, getLast?_eq := ?_ }
  · rw [map_append, ← cons_append]
    refine List.isChain_append.2 ⟨hagree.isChain, .singleton _, fun p hp q hq ↦ ?_⟩
    obtain rfl := some.inj (hagree.getLast?_eq.symm.trans hp)
    cases hq
    exact hbetter
  · rw [map_append, ← cons_append]
    exact getLast?_concat.trans (congrArg some hcurrent.symm)

theorem Agree.validate (hagree : pipe.Agree tree) (hlive : pipe.Live tree env)
    (hmsg : pipe.Handed tree msg) (hcalm : pipe.CalmFork env msg) {signals}
    (h : pipe.validate env msg = .ok (pipe', signals)) :
    pipe'.Agree tree := by
  obtain ⟨⟨ledger, st, signals'⟩, hhandle, h⟩ := bind_eq_ok_iff.1 h
  cases h
  cases (hlive.moved hmsg hhandle).1 with
  | stayed hchain hcurrent hadoptions =>
    simp only [hadoptions, append_nil]
    exact { hagree with getLast?_eq := hagree.getLast?_eq.trans (congrArg some hcurrent.symm) }
  | extended hchild hchain hcurrent hadoptions =>
    simp only [hadoptions]
    exact hagree.concat hchild.better hcurrent
  | switched hasks _ _ _ _ hcurrent hadoptions =>
    simp only [hadoptions]
    exact hagree.concat (hlive.better_of_isBetter hmsg hasks.isBetter_eq) hcurrent
  | switchedPartly hasks hfork _ hswitch =>
    exact absurd rfl (not_partiallyApplied_of_calm hlive.wellFormed hlive.length_le
      hfork.follows (hcalm _ _ hasks) hswitch _ _)

theorem Agree.adopt (hagree : pipe.Agree tree) (hwithin : pipe.store.Within tree)
    (h : pipe.adopt = .ok pipe') : pipe'.Agree tree := by
  obtain ⟨rfl, -⟩ | ⟨msg, toAdopt, s, st, sent, htoAdopt, hhandle, rfl⟩ :=
    exists_of_adopt h
  · exact hagree
  have hchain := hagree.isChain
  have hlast := hagree.getLast?_eq
  rw [htoAdopt, map_cons] at hchain hlast
  have hbetter : tree.Better pipe.adoptChain.currentBestTip msg.tip := hchain.rel
  cases handled_of_handle hhandle with
  | shorter hshorter => exact absurd hshorter (Nat.not_lt.2 (hbetter.height_le hagree.has))
  | notBetter hincoming hbest hnot =>
    rw [loadCurrentBest_eq hwithin hbest, ← hwithin.header_eq hincoming] at hnot
    exact absurd hbetter.2 hnot
  | @adopted incoming _ adopted _ hincoming _ _ hadopt hannounce =>
    have hpoint : incoming.point = msg.tip := by
      obtain ⟨header, hheader, heq⟩ := hbetter.1
      rw [hwithin.header_eq hincoming] at hheader
      rw [some.inj hheader, heq]
    have hload : pipe.store.loadHeader incoming.hash = some incoming := by
      rw [hwithin.hash_eq hincoming]
      exact hincoming
    refine ⟨hbetter.1, hchain.tail, ?_, ?_, .inr fun recipient htells ↦
      lastAnnounced_append hannounce _ htells⟩
    · exact hlast
    · obtain ⟨anchor, hanchor⟩ := exists_of_dragAnchorForward adopted msg.tip
        (pipe.adoptChain.seen ⟨msg.tip, msg.maxBlockHeight⟩).consensusSecurityParam
      exact (congrArg bestChainTip hanchor).trans ((bestChainTip_of_adoptBest hload hadopt).trans hpoint)

theorem Agree.grow (hagree : pipe.Agree tree) {s} (hgrows : pipe.store.Grows s) :
    Agree tree { pipe with store := s } :=
  { hagree with bestChainTip_eq := hgrows.bestChainTip_eq.trans hagree.bestChainTip_eq }

theorem agree_of_start {config stable snapshots chainStore} (hdisk : Disk tree stable chainStore)
    (h : start env config stable snapshots chainStore = .ok pipe) (hlive : pipe.Live tree env) :
    pipe.Agree tree := by
  obtain ⟨-, hrealigned, hvalidate, hadopt, htoAdopt, hannounced, -⟩ := exists_of_start hdisk h
  obtain ⟨validity, bestChain, hstore', -⟩ := exists_of_realignChainStoreTo hrealigned
  have hcurrent : pipe.validateBlock.current = stable.tip := by rw [hvalidate]; rfl
  have hbest : pipe.adoptChain.currentBestTip = stable.tip := by rw [hadopt]; rfl
  refine ⟨?_, ?_, ?_, ?_, .inl hannounced⟩
  · rw [hbest, ← hcurrent]
    exact hlive.has_current
  · rw [htoAdopt]
    exact .singleton _
  · rw [htoAdopt, hbest, hcurrent]
    rfl
  · rw [hstore', hbest]

theorem Reachable.agree (h : Reachable tree env (CalmFork env) pipe) :
    pipe.Live tree env ∧ pipe.Agree tree ∨ pipe.Idle tree := by
  induction h with
  | start hdisk h =>
    exact (live_or_idle_of_start hdisk h).imp_left fun hlive ↦ ⟨hlive, agree_of_start hdisk h hlive⟩
  | validate _ hmsg hcalm h ih =>
    exact ih.imp (fun ⟨hlive, hagree⟩ ↦
      ⟨hlive.validate hmsg h, hagree.validate hlive hmsg hcalm h⟩) (fun hidle ↦ hidle.validate h)
  | adopt _ h ih =>
    exact ih.imp (fun ⟨hlive, hagree⟩ ↦ ⟨hlive.adopt h, hagree.adopt hlive.within h⟩)
      (fun hidle ↦ hidle.adopt h)
  | grow _ hgrows hstore ih =>
    exact ih.imp (fun ⟨hlive, hagree⟩ ↦ ⟨hlive.grow hgrows hstore, hagree.grow hgrows⟩)
      (fun hidle ↦ hidle.grow hgrows hstore)

/-- **The tips agree** in every state of a run in which no tip waits to be adopted, if no fork has a
boundary written before its last block. -/
theorem tips_agree (h : Reachable tree env (CalmFork env) pipe) (hhandled : pipe.toAdopt = []) :
    pipe.ledger.tip = pipe.validateBlock.current ∧
      pipe.adoptChain.currentBestTip = pipe.validateBlock.current ∧
      pipe.store.bestChainTip = pipe.validateBlock.current ∧
      (pipe.announced = [] ∨ ∀ recipient, pipe.adoptChain.tells recipient = true →
        lastAnnounced pipe.announced recipient = some pipe.validateBlock.current) := by
  rcases h.agree with ⟨hlive, hagree⟩ | hidle
  · have hbest : pipe.adoptChain.currentBestTip = pipe.validateBlock.current := by
      have hlast := hagree.getLast?_eq
      rw [hhandled] at hlast
      exact some.inj hlast
    rw [← hbest]
    exact ⟨hlive.tip_eq.trans hbest.symm, rfl, hagree.bestChainTip_eq, hagree.announced⟩
  · rw [hidle.current_eq]
    exact ⟨hidle.tip_eq, hidle.currentBestTip_eq, hidle.bestChainTip_eq, .inl hidle.announced_eq⟩

/-! ### A fork that crosses a boundary -/

/-- The small ledger, with blocks that are stable four blocks later and boundaries three slots
later. -/
def smallNode : Environment Bool :=
  { tenSlots with consensusSecurityParam := 4, stabilityWindow := 3 }

/-- A store at slot 32. -/
def stableAt32 : Store := { thirdEpoch with tip := pointAt 32 10 }

/-- Three blocks in the epoch of the store, and a fork after the first of them, whose second block is
past the boundary and whose third is invalid. -/
def forkPastBoundary : ChainStore Bool :=
  storeWith (pointAt 32 10)
    [(headerAt 32 10 none, true), (headerAt 33 11 (some 32), true), (headerAt 35 12 (some 33), true),
      (headerAt 36 13 (some 35), true), (headerAt 38 12 (some 33), true),
      (headerAt 45 13 (some 38), true), (headerAt 46 14 (some 45), false)]

theorem disk_forkPastBoundary :
    Disk (HeaderTree.ofMap forkPastBoundary.headers (by decide +kernel)) stableAt32 forkPastBoundary :=
  ⟨within_ofMap (by decide +kernel), .inr ⟨headerAt 32 10 none, rfl, rfl⟩, fun h ↦ absurd h (by decide)⟩

/-- The three blocks, one after another. -/
def threeBlocks : List ValidateBlockMsg :=
  [⟨pointAt 33 11, pointAt 32 10, 11⟩, ⟨pointAt 35 12, pointAt 33 11, 12⟩, ⟨pointAt 36 13, pointAt 35 12, 13⟩]

/-- The blocks of the fork. -/
def forkBlocks : List ValidateBlockMsg :=
  [⟨pointAt 38 12, pointAt 33 11, 13⟩, ⟨pointAt 45 13, pointAt 38 12, 13⟩, ⟨pointAt 46 14, pointAt 45 13, 14⟩]

/-- Nothing drains, and no block is in a later epoch. -/
def isCalm (env : Environment Body) (db : VolatileDB) (blocks : List (Block Body)) : Bool :=
  db.draining.isEmpty && blocks.all fun block ↦
    match env.epochOf block.slot with
    | .ok epoch => epoch ≤ db.epoch
    | .error _ => true

theorem calm_of_isCalm {db blocks} (h : isCalm env db blocks = true) :
    State.Calm env db blocks := by
  intro older block holder _
  simp only [isCalm, Bool.and_eq_true, List.isEmpty_iff, List.all_eq_true] at h
  refine ⟨h.1, fun crossing hcrossing epoch hepoch ↦ ?_⟩
  have hle := h.2 crossing (holder.subset hcrossing)
  rw [hepoch] at hle
  exact of_decide_eq_true hle

/-- No boundary is pending where the fork starts, and none is crossed before the last block. -/
def isCalmFork (env : Environment Body) (pipe : Pipeline Body) (msg : ValidateBlockMsg) : Bool :=
  match ValidateBlock.forkTo pipe.store pipe.ledger.tip msg.tip with
  | .error _ => true
  | .ok (fork, blocks) => match pipe.ledger.rollbackTo fork with
    | .error _ => true
    | .ok (_, base) => isCalm env base.volatile blocks.dropLast

theorem calmFork_of_isCalmFork (h : isCalmFork env pipe msg = true) : pipe.CalmFork env msg := by
  intro fork blocks hasks guard base hroll
  simp only [isCalmFork, hasks.forkTo_eq, hroll] at h
  exact calm_of_isCalm h

theorem tips_agree_after_switch : ∃ (tree : HeaderTree) (pipe : Pipeline Bool),
    Reachable tree smallNode (CalmFork smallNode) pipe ∧ pipe.toAdopt = [] ∧
      pipe.validateBlock.current = pointAt 45 13 ∧
      pipe.ledger.tip = pipe.validateBlock.current ∧
      pipe.adoptChain.currentBestTip = pipe.validateBlock.current ∧
      pipe.store.bestChainTip = pipe.validateBlock.current ∧
      (pipe.announced = [] ∨ ∀ recipient, pipe.adoptChain.tells recipient = true →
        lastAnnounced pipe.announced recipient = some pipe.validateBlock.current) := by
  have hstarted : Reachable _ smallNode (CalmFork smallNode) _ :=
    .start disk_forkPastBoundary (rfl : start _ ⟨false, true, true⟩ _ thirdEpochSnapshots _ = _)
  have hadopted := (hstarted.validateAll (fun _ _ ↦ calmFork_of_isCalmFork)
    (rfl : passAll _ _ _ (threeBlocks.take 2 ++ forkBlocks.take 2) = _) rfl).adoptAll rfl
  exact ⟨_, _, hadopted, rfl, rfl, tips_agree hadopted rfl⟩

/-- **A fork that is applied in part is not adopted.** Its second block is as high as the tip before, and
no better; it has the boundary written, so that the ledger cannot go back when the third block turns out
to be invalid. The ledger stays there, and everyone else on the tip before. -/
theorem partly_applied_fork_is_not_adopted : ∃ (tree : HeaderTree) (pipe : Pipeline Bool),
    Reachable tree smallNode (fun _ _ ↦ True) pipe ∧ pipe.toAdopt = [] ∧
      pipe.ledger.tip = pointAt 45 13 ∧ pipe.validateBlock.current = pointAt 45 13 ∧
      pipe.store.bestChainTip = pointAt 36 13 ∧
      lastAnnounced pipe.announced .manager = some (pointAt 36 13) := by
  have hstarted : Reachable _ smallNode (fun _ _ ↦ True) _ :=
    .start disk_forkPastBoundary (rfl : start _ ⟨false, true, true⟩ _ thirdEpochSnapshots _ = _)
  have hadopted := (hstarted.validateAll (fun _ _ _ ↦ trivial)
    (rfl : passAll _ (fun _ _ ↦ true) _ (threeBlocks ++ forkBlocks) = _) rfl).adoptAll rfl
  exact ⟨_, _, hadopted, rfl, rfl, rfl, rfl, rfl⟩

end Pipeline

end Amaru
