import Amaru.Consensus.ValidateBlock

/-!
# The stage that adopts chains

The stage is told of each new tip of the ledger. It applies **its own test**: a tip that is not strictly
better than the best one so far is skipped. Otherwise the best chain of the store is rolled forward, or
switched to the fork, the anchor is dragged behind the tip, and the tip is announced to the mempool, to
the peers, to the source of blocks and to the forge.
-/

namespace Amaru

open Except ChainStore List

/-- A message to the stage: a new tip. -/
structure AdoptChainMsg where
  tip : Point
  maxBlockHeight : ℕ
deriving DecidableEq, Repr

/-- To whom a tip is announced. -/
inductive Recipient
  | mempool
  | manager
  | blockSource
  | forge
deriving DecidableEq, Repr

/-- A tip that is announced. The forge is told its parent as well. -/
structure Announcement where
  recipient : Recipient
  tip : Point
  parent : Option Point
deriving DecidableEq, Repr

/-- The state of the stage. -/
structure AdoptChain where
  hasBlockSource : Bool
  hasMempool : Bool
  hasForge : Bool
  consensusSecurityParam : ℕ
  currentBestTip : Point
  maxBlockHeight : ℕ

namespace AdoptChain

variable {Body : Type} {stage : AdoptChain} {incoming : Header} {announcement : Announcement}
  {announcements : List Announcement} {currentBest : Option Header} {msg : AdoptChainMsg}

/-- The stage at start. -/
def new (hasBlockSource hasMempool hasForge : Bool) (consensusSecurityParam : ℕ)
    (currentBestTip : Point) : AdoptChain where
  hasBlockSource
  hasMempool
  hasForge
  consensusSecurityParam
  currentBestTip
  maxBlockHeight := 0

section

variable (store : ChainStore Body)

/-- Make the best chain end at a header, from the one it ends at. -/
def adoptTip (incoming currentBest : Header) : Except Termination (ChainStore Body) :=
  if incoming.parent = some currentBest.hash then .ok (store.rollForwardChain incoming.point)
  else match store.findAncestorOnBestChain incoming.hash with
    | .startHeaderNotFound => .error (.headerNotFound incoming.hash)
    | .notFound => .error (.noAncestorOnBestChain incoming.point)
    | .found forkPoint forwardPoints => match store.switchToFork forkPoint forwardPoints with
      | some store => .ok store
      | none => .error (.forkPointNotOnBestChain forkPoint)

/-- Make the best chain end at a header. The first one is added without a search. -/
def adoptBest (incoming : Header) : Option Header → Except Termination (ChainStore Body)
  | some currentBest => adoptTip store incoming currentBest
  | none => .ok (store.rollForwardChain incoming.point)

/-- Keep the anchor close behind the tip. -/
def dragAnchorForward (tip : Point) (consensusSecurityParam : ℕ) : ChainStore Body :=
  match store.findAnchorAtHeight (tip.blockHeight - consensusSecurityParam) with
  | some anchor => store.setAnchorPoint anchor
  | none => store

/-- The point of the parent of a header. -/
def loadParentPoint (header : Header) : Except Termination Point :=
  match header.parent with
  | none => .ok .origin
  | some parent => match store.loadPoint parent with
    | some point => .ok point
    | none => .error (.headerNotFound parent)

section

variable (stage : AdoptChain)

/-- Announce a tip to all but the forge. -/
def announceTip (tip : Point) : List Announcement :=
  (if stage.hasMempool then [⟨.mempool, tip, none⟩] else []) ++ [⟨.manager, tip, none⟩] ++
    (if stage.hasBlockSource then [⟨.blockSource, tip, none⟩] else [])

/-- Announce a tip. -/
def announce (store : ChainStore Body) (incoming : Header) (tip : Point) :
    Except Termination (List Announcement) :=
  if stage.hasForge then (loadParentPoint store incoming).map fun parent ↦
    stage.announceTip tip ++ [⟨.forge, tip, some parent⟩]
  else .ok (stage.announceTip tip)

/-- The header of the best tip so far, none at the origin. -/
def loadCurrentBest (store : ChainStore Body) : Except Termination (Option Header) :=
  if stage.currentBestTip = .origin then .ok none
  else match store.loadHeader stage.currentBestTip.hash with
    | some header => .ok (some header)
    | none => .error (.headerNotFound stage.currentBestTip.hash)

/-- The stage once it has seen how high the chain is. -/
def seen (msg : AdoptChainMsg) : AdoptChain :=
  { stage with maxBlockHeight := max msg.maxBlockHeight stage.maxBlockHeight }

/-- Handle a tip that is not lower than the best one. -/
def considerTip (tip : Point) (incoming : Header) (currentBest : Option Header) :
    Except Termination (ChainStore Body × AdoptChain × List Announcement) :=
  if cmpTip (some incoming) currentBest = .gt then do
    let adopted ← adoptBest store incoming currentBest
    let anchored := dragAnchorForward adopted tip stage.consensusSecurityParam
    let announcements ← stage.announce anchored incoming tip
    .ok (anchored, { stage with currentBestTip := tip }, announcements)
  else .ok (store, stage, [])

/-- Handle a message. -/
def handle (msg : AdoptChainMsg) : Except Termination (ChainStore Body × AdoptChain × List Announcement) :=
  if msg.tip.blockHeight < (stage.seen msg).currentBestTip.blockHeight then
    .ok (store, stage.seen msg, [])
  else match store.loadHeader msg.tip.hash with
    | none => .error (.headerNotFound msg.tip.hash)
    | some incoming => do
      let currentBest ← (stage.seen msg).loadCurrentBest store
      considerTip store (stage.seen msg) msg.tip incoming currentBest

end

end

/-- Every way a message is handled. -/
inductive Handled (store : ChainStore Body) (stage : AdoptChain) (msg : AdoptChainMsg) :
    ChainStore Body × AdoptChain × List Announcement → Prop
  | shorter (h : msg.tip.blockHeight < stage.currentBestTip.blockHeight) :
    Handled store stage msg (store, stage, [])
  | notBetter {incoming : Header} {currentBest} (hincoming : store.loadHeader msg.tip.hash = some incoming)
    (hbest : stage.loadCurrentBest store = .ok currentBest) (h : cmpTip (some incoming) currentBest ≠ .gt) :
    Handled store stage msg (store, stage, [])
  | adopted {incoming currentBest adopted announcements}
    (hincoming : store.loadHeader msg.tip.hash = some incoming)
    (hbest : stage.loadCurrentBest store = .ok currentBest)
    (hbetter : cmpTip (some incoming) currentBest = .gt)
    (hadopt : adoptBest store incoming currentBest = .ok adopted)
    (hannounce : stage.announce (dragAnchorForward adopted msg.tip stage.consensusSecurityParam)
      incoming msg.tip = .ok announcements) :
    Handled store stage msg (dragAnchorForward adopted msg.tip stage.consensusSecurityParam,
      { stage with currentBestTip := msg.tip }, announcements)

variable {store : ChainStore Body}

theorem handled_of_handle {result} (h : handle store stage msg = .ok result) :
    Handled store (stage.seen msg) msg result := by
  rw [handle] at h
  split_ifs at h with hshorter
  · cases h
    exact .shorter hshorter
  split at h
  · cases h
  rename_i incoming hincoming
  obtain ⟨currentBest, hbest, h⟩ := bind_eq_ok_iff.1 h
  rw [considerTip] at h
  split_ifs at h with hbetter
  · obtain ⟨adopted, hadopt, h⟩ := bind_eq_ok_iff.1 h
    obtain ⟨announcements, hannounce, h⟩ := bind_eq_ok_iff.1 h
    cases h
    exact .adopted hincoming hbest hbetter hadopt hannounce
  · cases h
    exact .notBetter hincoming hbest hbetter

variable {store' : ChainStore Body} {tip : Point}

/-- Every way a header is adopted. -/
inductive AdoptsBest (store : ChainStore Body) (incoming : Header) : Option Header → ChainStore Body → Prop
  | first : AdoptsBest store incoming none (store.rollForwardChain incoming.point)
  | child {best} (hparent : incoming.parent = some best.hash) :
    AdoptsBest store incoming (some best) (store.rollForwardChain incoming.point)
  | fork {best forkPoint path store'} (hparent : incoming.parent ≠ some best.hash)
    (hfind : store.findAncestorOnBestChain incoming.hash = .found forkPoint path)
    (hswitch : store.switchToFork forkPoint path = some store') : AdoptsBest store incoming (some best) store'

theorem adoptsBest_of_adoptBest (h : adoptBest store incoming currentBest = .ok store') :
    AdoptsBest store incoming currentBest store' := by
  rcases currentBest with - | best
  · cases h
    exact .first
  rw [adoptBest, adoptTip] at h
  split_ifs at h with hparent
  · cases h
    exact .child hparent
  split at h
  · cases h
  · cases h
  next hfind =>
    split at h <;> cases h
    next hswitch => exact .fork hparent hfind hswitch

theorem exists_of_adoptBest (h : adoptBest store incoming currentBest = .ok store') :
    ∃ bestChain bestChainTip, store' = { store with bestChain, bestChainTip } := by
  cases adoptsBest_of_adoptBest h with
  | first | child => exact ⟨_, _, rfl⟩
  | fork _ _ hswitch =>
    rw [switchToFork] at hswitch
    split_ifs at hswitch
    cases hswitch
    exact ⟨_, _, rfl⟩

theorem exists_of_dragAnchorForward (store : ChainStore Body) (tip : Point) (consensusSecurityParam : ℕ) :
    ∃ anchor, dragAnchorForward store tip consensusSecurityParam = { store with anchor } := by
  rw [dragAnchorForward]
  split <;> exact ⟨_, rfl⟩

theorem headers_of_handle {stage'} (h : handle store stage msg = .ok (store', stage', announcements)) :
    store'.headers = store.headers ∧ store'.blocks = store.blocks := by
  cases handled_of_handle h with
  | shorter | notBetter => exact ⟨rfl, rfl⟩
  | @adopted _ _ adopted _ _ _ _ hadopt _ =>
    obtain ⟨bestChain, bestChainTip, rfl⟩ := exists_of_adoptBest hadopt
    obtain ⟨anchor, hanchor⟩ := exists_of_dragAnchorForward
      { store with bestChain, bestChainTip } msg.tip (stage.seen msg).consensusSecurityParam
    rw [hanchor]
    exact ⟨rfl, rfl⟩

theorem tip_of_mem_announceTip (h : announcement ∈ stage.announceTip tip) : announcement.tip = tip := by
  rw [announceTip] at h
  split_ifs at h <;> simp only [mem_append, mem_singleton, not_mem_nil, or_false,
    false_or] at h <;> rcases h with (rfl | rfl) | rfl <;> rfl

theorem tip_of_announce (h : stage.announce store incoming tip = .ok announcements)
    (hmem : announcement ∈ announcements) : announcement.tip = tip := by
  rw [announce] at h
  split_ifs at h
  · obtain ⟨parent, -, rfl⟩ := map_eq_ok_iff.1 h
    rcases mem_append.1 hmem with hmem | hmem
    · exact tip_of_mem_announceTip hmem
    · rw [mem_singleton.1 hmem]
  · cases h
    exact tip_of_mem_announceTip hmem

theorem bestChainTip_of_adoptBest (hload : store.loadHeader incoming.hash = some incoming)
    (h : adoptBest store incoming currentBest = .ok store') :
    store'.bestChainTip = incoming.point := by
  cases adoptsBest_of_adoptBest h with
  | first | child => rfl
  | fork _ hfind hswitch =>
    rw [switchToFork, getLast?_of_findAncestorOnBestChain hload hfind] at hswitch
    split_ifs at hswitch
    cases hswitch
    rfl

end AdoptChain

end Amaru
