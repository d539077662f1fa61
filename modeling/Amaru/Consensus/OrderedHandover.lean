import Amaru.Consensus.BlockDelivery

/-!
# Blocks are handed over in order

While a batch is open, any replies may come in from any peers, and timers may fire: blocks that were asked
for, blocks that were not or are out of turn, blocks whose body is another one, twice or late. **What is
handed over is the beginning of the batch** (`HandsOver`), in order, each block once and with the one before
it as its parent. The next tip is asked for when the batch ends, from the last of these blocks.
-/

namespace Amaru

open List FetchEffect
open ChainStore (MissingBlocks)
open Pipeline (headerAt pointAt)
open Delivery (twoPeers networkBlockOf)

/-- A block that is handed over, or the point from which the next tip is asked for. -/
def FetchEffect.handed? : FetchEffect → Option (ValidateBlockMsg ⊕ Point)
  | .downloaded msg => some (.inl msg)
  | .fetchNextFrom point => some (.inr point)
  | .fetchBlocks _ _ _ _ | .scheduleTimeout _ | .cancelTimeout _ | .scheduleWiden _ | .cancelWiden _
  | .fetchFailure _ | .adversarial _ | .blockReceived _ _ => none

namespace FetchBlocks

variable {Body : Type} {s s' store'' : ChainStore Body} {st : FetchBlocks}
  {missing missing' missing'' : Option MissingBlocks} {msg : FetchBlocksMsg Body} {blockHeight : ℕ}
  {handed handed' : List (ValidateBlockMsg ⊕ Point)}

/-- The message starts another batch. -/
def startsBatch : FetchBlocksMsg Body → Bool
  | .newTip _ _ | .recoverStoredBlocks _ _ => true
  | .block _ _ | .timeout _ | .widen _ | .peersAsked _ _ | .noBlocks _ _ | .noPeersAvailable _ => false

/-- The stage handles messages one after the other. -/
def handleEach (s : ChainStore Body) (st : FetchBlocks) :
    List (SelectPeers × FetchBlocksMsg Body) →
      Except Termination (ChainStore Body × FetchBlocks × List FetchEffect)
  | [] => .ok (s, st, [])
  | (select, msg) :: inputs => do
    let (s, st, effects) ← st.handle select s msg
    let (s, st, effects') ← handleEach s st inputs
    .ok (s, st, effects ++ effects')

/-- The first blocks of a batch are stored and handed over, in order, each after the boundary that the one
before it has become. Then the others are still missing, or the batch has ended and the next tip is asked for
from the boundary. -/
inductive HandsOver (blockHeight : ℕ) : Option MissingBlocks → ChainStore Body → ChainStore Body →
    Option MissingBlocks → List (ValidateBlockMsg ⊕ Point) → Prop
  | waits (missing : Option MissingBlocks) (s : ChainStore Body) :
    HandsOver blockHeight missing s s missing []
  | ends (missing : MissingBlocks) (s : ChainStore Body) :
    HandsOver blockHeight (some missing) s s none [.inr missing.boundary]
  | block {decoded : DecodedBlock Body} {boundary points s s' missing handed}
    (hmatches : decoded.bodyMatches = true) (hparent : decoded.header.parent = some boundary.hash)
    (h : HandsOver blockHeight (some ⟨decoded.header.point, points⟩)
      (s.storeBlock decoded.header.point.hash decoded.block) s' missing handed) :
    HandsOver blockHeight (some ⟨boundary, decoded.header.point :: points⟩) s s' missing
      (.inl ⟨decoded.header.point, boundary, blockHeight⟩ :: handed)

theorem HandsOver.of_eq (h : missing' = missing) : HandsOver blockHeight missing s s missing' [] :=
  h.symm ▸ .waits missing s

theorem HandsOver.trans (h : HandsOver blockHeight missing s s' missing' handed)
    (h' : HandsOver blockHeight missing' s' store'' missing'' handed') :
    HandsOver blockHeight missing s store'' missing'' (handed ++ handed') := by
  induction h with
  | waits => exact h'
  | ends missing s =>
    cases h'
    exact .ends missing _
  | block hmatches hparent _ ih => exact .block hmatches hparent (ih h')

theorem handed?_completeBatch (st : FetchBlocks) (point : Point) :
    (st.completeBatch point).2.filterMap handed? = [.inr point] := by
  simp only [completeBatch, cancelWiden, endAttempt, filterMap_append]
  cases st.widen <;> cases st.timeout <;> rfl

theorem handsOver_block (s : ChainStore Body) (st : FetchBlocks) (peer : Peer)
    (nb : NetworkBlock Body) :
    (st.block s peer nb).2.1.blockHeight = st.blockHeight ∧
    HandsOver st.blockHeight st.missing s (st.block s peer nb).1
      (st.block s peer nb).2.1.missing
      ((st.block s peer nb).2.2.filterMap handed?) := by
  rw [FetchBlocks.block]
  rcases nb.decodeBlock with - | decoded
  · exact ⟨rfl, .waits _ _⟩
  dsimp only
  split_ifs with hmatches
  · exact ⟨rfl, .waits _ _⟩
  rcases hmissing : st.missing with - | missing
  · exact ⟨rfl, .of_eq hmissing⟩
  obtain ⟨boundary, points⟩ := missing
  dsimp only
  split_ifs with hnext
  · obtain ⟨rest, rfl⟩ : ∃ rest, points = decoded.header.point :: rest := head?_eq_some_iff.1 hnext.2
    have hbody : decoded.bodyMatches = true := by simpa using hmatches
    rcases rest with - | ⟨next, rest⟩
    · have hlast : HandsOver st.blockHeight _ s _ _ _ := .block hbody hnext.1 (.ends ⟨_, []⟩ _)
      rw [← handed?_completeBatch] at hlast
      exact ⟨rfl, hlast⟩
    · exact ⟨rfl, .block hbody hnext.1 (.waits _ _)⟩
  · exact ⟨rfl, .of_eq hmissing⟩

theorem handsOver_timeout (s : ChainStore Body) (st : FetchBlocks) (reqId : ℕ) :
    (st.handleTimeout reqId).1.blockHeight = st.blockHeight ∧
    HandsOver st.blockHeight st.missing s s (st.handleTimeout reqId).1.missing
      ((st.handleTimeout reqId).2.filterMap handed?) := by
  have hfailures : (if st.noPeersPause || st.failedPeers.isEmpty then []
      else [fetchFailure st.failedPeers]).filterMap handed? = [] := by
    split_ifs <;> rfl
  by_cases hreqId : reqId = st.reqId
  · rcases hmissing : st.missing with - | missing
    · simp only [handleTimeout, hreqId, ne_eq, not_true, if_false, hmissing, hfailures]
      exact ⟨trivial, .waits _ _⟩
    · simp only [handleTimeout, hreqId, ne_eq, not_true, if_false, hmissing, filterMap_append, hfailures,
        cancelWiden, endAttempt]
      cases st.widen <;> exact ⟨trivial, .ends missing s⟩
  · rw [handleTimeout, if_pos hreqId]
    exact ⟨rfl, .waits _ _⟩

/-- A message that does not start a batch moves an open one forward, or ends it. -/
theorem handsOver_of_handle (select : SelectPeers) (s : ChainStore Body) (st : FetchBlocks)
    (hmsg : startsBatch msg = false) : ∃ s' st' effects,
      st.handle select s msg = .ok (s', st', effects) ∧
      st'.blockHeight = st.blockHeight ∧
      HandsOver st.blockHeight st.missing s s' st'.missing (effects.filterMap handed?) := by
  cases msg with
  | newTip | recoverStoredBlocks => cases hmsg
  | block peer nb => exact ⟨_, _, _, rfl, handsOver_block s st peer nb⟩
  | timeout reqId => exact ⟨_, _, _, rfl, handsOver_timeout s st reqId⟩
  | widen reqId =>
    obtain ⟨hmissing, -, -, hheight, hasks⟩ := handleWiden_keeps select st reqId
    have hquiet : (st.handleWiden select reqId).2.filterMap handed? = [] := by
      refine filterMap_eq_nil_iff.2 fun effect hmem ↦ ?_
      cases effect <;> first | rfl | exact (hasks _ hmem).elim
    exact ⟨_, _, _, rfl, hheight, hquiet ▸ .of_eq hmissing⟩
  | peersAsked reqId peers =>
    rw [handle, peersAsked]
    split_ifs <;> exact ⟨_, _, _, rfl, rfl, .waits _ _⟩
  | noBlocks reqId peer =>
    rw [handle, noBlocks]
    split_ifs <;> exact ⟨_, _, _, rfl, rfl, .waits _ _⟩
  | noPeersAvailable reqId =>
    rw [handle, noPeersAvailable]
    split_ifs <;> exact ⟨_, _, _, rfl, rfl, .waits _ _⟩

/-- **Blocks are handed over in order.** Whatever comes in while a batch is open, the stage does not stop, and
what it stores and hands over is the beginning of the batch. -/
theorem batch_is_handed_over_in_order (s : ChainStore Body) (st : FetchBlocks)
    (inputs : List (SelectPeers × FetchBlocksMsg Body))
    (hinputs : ∀ input ∈ inputs, startsBatch input.2 = false) : ∃ s' st' effects,
      handleEach s st inputs = .ok (s', st', effects) ∧
      HandsOver st.blockHeight st.missing s s' st'.missing (effects.filterMap handed?) := by
  induction inputs generalizing s st with
  | nil => exact ⟨_, _, _, rfl, .waits _ _⟩
  | cons input inputs ih =>
    obtain ⟨select, msg⟩ := input
    rw [forall_mem_cons] at hinputs
    obtain ⟨store₁, stage₁, effects₁, heq₁, hheight, h₁⟩ := handsOver_of_handle select s st hinputs.1
    obtain ⟨store₂, stage₂, effects₂, heq₂, h₂⟩ := ih store₁ stage₁ hinputs.2
    refine ⟨store₂, stage₂, effects₁ ++ effects₂, ?_, ?_⟩
    · exact Except.bind_eq_ok_iff.2 ⟨_, heq₁, Except.bind_eq_ok_iff.2 ⟨_, heq₂, rfl⟩⟩
    · rw [filterMap_append]
      exact h₁.trans (hheight ▸ h₂)

/-- The second block comes too early, the first comes twice, and then the batch takes too long. -/
def outOfTurn : List (SelectPeers × FetchBlocksMsg Bool) :=
  [.block 2 (networkBlockOf (headerAt 12 3 (some 11))), .block 1 (networkBlockOf (headerAt 11 2 (some 10))),
    .block 2 (networkBlockOf (headerAt 11 2 (some 10))), .timeout 1].map (fun _ _ _ ↦ ⟨true, []⟩, ·)

/-- The first block is handed over once, and the next tip is asked for from there. -/
theorem batch_is_handed_over_in_order_outOfTurn : ∃ s' st' effects,
    handleEach twoPeers.store twoPeers.fetch outOfTurn = .ok (s', st', effects) ∧
    HandsOver 0 twoPeers.fetch.missing twoPeers.store s' st'.missing (effects.filterMap handed?) ∧
    effects.filterMap handed? = [.inl ⟨pointAt 11 2, pointAt 10 1, 0⟩, .inr (pointAt 11 2)] := by
  obtain ⟨s', st', effects, heq, h⟩ := batch_is_handed_over_in_order twoPeers.store
    twoPeers.fetch outOfTurn (by simp [outOfTurn, startsBatch])
  have hhanded : (handleEach twoPeers.store twoPeers.fetch outOfTurn).map
      (·.2.2.filterMap handed?) = .ok [.inl ⟨pointAt 11 2, pointAt 10 1, 0⟩, .inr (pointAt 11 2)] := rfl
  rw [heq] at hhanded
  exact ⟨s', st', effects, heq, h, Except.ok.inj hhanded⟩

end FetchBlocks

end Amaru
