import Amaru.Consensus.BlockDelivery
import Amaru.Data.FairQueue

/-!
# The permission to fetch

Chain selection and the stage that fetches blocks pass a **permission** to and fro. Chain selection gives it
away with a best tip; the other stage keeps it while a batch is open, and gives it back when it asks for the
next tip. The two stages run on their own and talk through queues; announcements, verdicts, replies and
timers come at any time.

If the ledger does not start at the origin, and the search for missing blocks always ends at a block that is
there or at the anchor, then **there is one permission at all times**, and in a fair run it comes back to
chain selection again and again (`permission_stays`). Otherwise it is lost (`permission_is_lost`): a new
node never has it, and it is not given back for a tip that forks off below the anchor.
-/

namespace Amaru

open List FetchBlocksMsg Except SelectChainMsg FetchEffect SelectChain ChainStore Option

open Delivery (networkBlockOf)
open Pipeline (headerAt pointAt)
open ChainStore (MissingBlocks)

/-- The two stages, with their queues and the timeouts that are armed. -/
structure FetchLoop (Body : Type) where
  store : ChainStore Body
  select : SelectChain
  cleanup : Cleanup
  fetch : FetchBlocks
  toSelect : List SelectChainMsg
  toFetch : List (FetchBlocksMsg Body)
  timers : List ℕ

/-- What happens to the two stages. -/
inductive FetchLoopEvent (Body : Type)
  /-- Chain selection handles its next message. -/
  | handleSelect
  /-- The stage that fetches blocks handles its next message. -/
  | handleFetch (select : SelectPeers)
  | timeoutFires (reqId : ℕ)
  | widenFires (reqId : ℕ)
  /-- A peer announces a tip. -/
  | announced (tip parent : Point)
  /-- A block is validated. -/
  | validated (point : Point) (valid : Bool)
  | reply (blocks : Blocks Body)
  /-- Others write to the store. -/
  | storeChanges (s : ChainStore Body)

/-- The message that an effect sends to chain selection. -/
def FetchEffect.request? : FetchEffect → Option SelectChainMsg
  | .fetchNextFrom point => some (.fetchNextFrom point)
  | .downloaded _ | .fetchBlocks _ _ _ _ | .scheduleTimeout _ | .cancelTimeout _ | .scheduleWiden _
  | .cancelWiden _ | .fetchFailure _ | .adversarial _ | .blockReceived _ _ => none

/-- The timeouts that are armed after an effect. -/
def FetchEffect.arm (timers : List ℕ) : FetchEffect → List ℕ
  | .scheduleTimeout reqId => reqId :: timers
  | .cancelTimeout reqId => timers.filter (· ≠ reqId)
  | .downloaded _ | .fetchNextFrom _ | .fetchBlocks _ _ _ _ | .scheduleWiden _ | .cancelWiden _
  | .fetchFailure _ | .adversarial _ | .blockReceived _ _ => timers

namespace FetchLoop

variable {Body : Type}

/-- The stages at start, with the messages that wait for them: the ledger is at a tip, and the store has a
best candidate. -/
def start (s : ChainStore Body) (ledgerTip : Point) (best : ℕ) : FetchLoop Body where
  store := s
  select := .new
  cleanup := .new
  fetch := .new
  toSelect := [.initialise best]
  toFetch := [.recoverStoredBlocks ledgerTip best]
  timers := []

section

variable (loop : FetchLoop Body)

/-- Chain selection handles its next message. -/
def handleSelect : Except Termination (FetchLoop Body) :=
  match loop.toSelect with
  | [] => .ok loop
  | msg :: toSelect => do
    let (s, select, sent) ← handle loop.store loop.select msg
    .ok { loop with
      store := s, select, toSelect
      toFetch := loop.toFetch ++ sent.map fun best ↦ .newTip best.tip best.parent }

/-- The stage that fetches blocks handles its next message. -/
def handleFetch (select : SelectPeers) : Except Termination (FetchLoop Body) :=
  match loop.toFetch with
  | [] => .ok loop
  | msg :: toFetch => do
    let (s, fetch, effects) ← loop.fetch.handle select loop.store msg
    .ok { loop with
      store := s, fetch, toFetch
      toSelect := loop.toSelect ++ effects.filterMap request?
      timers := effects.foldl arm loop.timers }

/-- Something happens. -/
def step : FetchLoopEvent Body → Except Termination (FetchLoop Body)
  | .handleSelect => loop.handleSelect
  | .handleFetch select => loop.handleFetch select
  | .timeoutFires reqId =>
    if reqId ∈ loop.timers then .ok { loop with
      timers := loop.timers.filter (· ≠ reqId)
      toFetch := loop.toFetch ++ [.timeout reqId] }
    else .ok loop
  | .widenFires reqId => .ok { loop with toFetch := loop.toFetch ++ [.widen reqId] }
  | .announced tip parent => .ok { loop with toSelect := loop.toSelect ++ [.tipFromUpstream tip parent] }
  | .validated point valid =>
    .ok { loop with toSelect := loop.toSelect ++ [.blockValidationResult point valid] }
  | .reply blocks =>
    let (cleanup, forwarded, _) := loop.cleanup.handle blocks
    .ok { loop with cleanup, toFetch := loop.toFetch ++ forwarded }
  | .storeChanges s => .ok { loop with store := s }

/-- Things happen one after the other. -/
def run (events : List (FetchLoopEvent Body)) : Except Termination (FetchLoop Body) :=
  events.foldlM step loop

end

/-! ### Where the permission is -/

end FetchLoop

/-- The message hands a best tip over. -/
def FetchBlocksMsg.isNewTip {Body : Type} : FetchBlocksMsg Body → Bool
  | .newTip _ _ => true
  | .recoverStoredBlocks _ _ | .block _ _ | .timeout _ | .widen _ | .peersAsked _ _ | .noBlocks _ _
  | .noPeersAvailable _ => false

/-- The message comes once, at start. -/
def FetchBlocksMsg.isRecover {Body : Type} : FetchBlocksMsg Body → Bool
  | .recoverStoredBlocks _ _ => true
  | .newTip _ _ | .block _ _ | .timeout _ | .widen _ | .peersAsked _ _ | .noBlocks _ _
  | .noPeersAvailable _ => false

/-- The message asks for the next tip. -/
def SelectChainMsg.isRequest : SelectChainMsg → Bool
  | .fetchNextFrom _ => true
  | .initialise _ | .tipFromUpstream _ _ | .blockValidationResult _ _ => false

namespace FetchLoop

variable {Body : Type}

/-- How many permissions there are: chain selection has one, a best tip is on its way, a batch is open, or
the next tip is asked for. -/
def permissions (loop : FetchLoop Body) : ℕ :=
  loop.select.mayFetchBlocks.toNat + loop.toFetch.countP isNewTip +
    loop.fetch.missing.isSome.toNat + loop.toSelect.countP isRequest

/-- How often the message at start is still to be handled. -/
def recoveries (loop : FetchLoop Body) : ℕ := loop.toFetch.countP isRecover

/-- The timeout of an open batch is armed, or its message waits. -/
def TimeoutComes (loop : FetchLoop Body) : Prop :=
  loop.fetch.reqId ∈ loop.timers ∨ .timeout loop.fetch.reqId ∈ loop.toFetch

/-- The search for missing blocks from a tip ends at a block that is there, or at the anchor. -/
def Anchored (s : ChainStore Body) (tip : Point) : Prop :=
  ∀ header, s.loadHeader tip.hash = some header → ∃ ancestor ∈ s.ancestors header,
    s.hasBlock ancestor.hash = true ∨ ancestor.hash = s.anchor.hash

/-- A message to the stage that fetches blocks for which the permission is not lost. -/
def KeepsPermission (s : ChainStore Body) : FetchBlocksMsg Body → Prop
  | .newTip tip _ => Anchored s tip
  | .recoverStoredBlocks ledgerTip _ => ledgerTip.hash ≠ originHash
  | .block _ _ | .timeout _ | .widen _ | .peersAsked _ _ | .noBlocks _ _ | .noPeersAvailable _ => True

end FetchLoop

namespace FetchBlocks

variable {Body : Type} {s s' : ChainStore Body} {st st' : FetchBlocks}
  {select : SelectPeers} {msg : FetchBlocksMsg Body} {effects : List FetchEffect} {limit : ℕ}

/-- What a message does to the permission. -/
inductive Moved (s : ChainStore Body) (st : FetchBlocks) (msg : FetchBlocksMsg Body)
    (st' : FetchBlocks) (effects : List FetchEffect) : Prop
  | kept (hmsg : msg.isNewTip = false ∧ msg.isRecover = false)
    (hmissing : st'.missing.isSome = st.missing.isSome) (hreqId : st'.reqId = st.reqId)
    (htimeout : msg = .timeout st.reqId → st.missing = none)
    (hrequests : effects.filterMap request? = [])
    (htimers : ∀ timers, effects.foldl arm timers = timers)
  /-- A batch is asked for. -/
  | opened (hmsg : msg.isNewTip = true ∨ msg.isRecover = true) (hnone : st.missing = none)
    (hopen : st'.missing.isSome = true) (hrequests : effects.filterMap request? = [])
    (htimers : ∀ timers, st'.reqId ∈ effects.foldl arm timers)
  /-- Nothing is missing. -/
  | returned (hmsg : msg.isNewTip = true ∨ msg.isRecover = true)
    (hnone : st.missing = none) (hclosed : st'.missing = none)
    (hrequests : ∃ point, effects.filterMap request? = [.fetchNextFrom point])
  /-- The batch is complete, or given up. -/
  | closed (hmsg : msg.isNewTip = false ∧ msg.isRecover = false)
    (hopen : st.missing.isSome = true) (hclosed : st'.missing = none)
    (hrequests : ∃ point, effects.filterMap request? = [.fetchNextFrom point])
  | lost (hmsg : ¬FetchLoop.KeepsPermission s msg) (hnone : st.missing = none)
    (hclosed : st'.missing = none) (hrequests : effects.filterMap request? = [])

theorem Moved.permissions (h : Moved s st msg st' effects)
    (hkeeps : FetchLoop.KeepsPermission s msg) :
    st'.missing.isSome.toNat + (effects.filterMap request?).countP isRequest =
      st.missing.isSome.toNat + (msg.isNewTip || msg.isRecover).toNat := by
  cases h with
  | kept hmsg hmissing _ _ hrequests => simp [hmsg, hmissing, hrequests]
  | opened hmsg hnone hopen hrequests => simp [Bool.or_eq_true_iff.2 hmsg, hnone, hopen, hrequests]
  | returned hmsg hnone hclosed hrequests =>
    obtain ⟨point, hrequests⟩ := hrequests
    simp [Bool.or_eq_true_iff.2 hmsg, hnone, hclosed, hrequests, isRequest]
  | closed hmsg hopen hclosed hrequests =>
    obtain ⟨point, hrequests⟩ := hrequests
    simp [hmsg, hopen, hclosed, hrequests, isRequest]
  | lost hmsg => exact absurd hkeeps hmsg

theorem request?_eq_nil_of_asks (h : ∀ effect ∈ effects, effect.Asks) : effects.filterMap request? = [] := by
  refine filterMap_eq_nil_iff.2 fun effect hmem ↦ ?_
  have hasks := h effect hmem
  cases effect <;> first | rfl | exact hasks.elim

theorem arm_of_asks (h : ∀ effect ∈ effects, effect.Asks) (timers : List ℕ) :
    effects.foldl arm timers = timers := by
  induction effects with
  | nil => rfl
  | cons effect effects ih =>
    rw [forall_mem_cons] at h
    have harm : arm timers effect = timers := by
      obtain ⟨hasks, -⟩ := h
      cases effect <;> first | rfl | exact hasks.elim
    rw [foldl_cons, harm]
    exact ih h.2

theorem armNextWiden_missing (st : FetchBlocks) : st.armNextWiden.1.missing = st.missing := by
  obtain ⟨widen, armed, heq, -⟩ := armNextWiden_eq st
  rw [heq]

theorem asks_armNextWiden (st : FetchBlocks) : ∀ effect ∈ st.armNextWiden.2, effect.Asks := by
  obtain ⟨widen, armed, heq, hasks⟩ := armNextWiden_eq st
  rw [heq]
  exact hasks

/-- Either a batch is open and its timeout armed, or the next tip is asked for. -/
theorem requestBlocks_eq (select : SelectPeers) (s : ChainStore Body) (st : FetchBlocks)
    (missing : MissingBlocks) (tip parent : Point) : ∃ st' effects,
    requestBlocks select s st missing tip parent = (st', effects) ∧
      ((st'.missing.isSome = true ∧ effects.filterMap request? = [] ∧
        ∀ timers, st'.reqId ∈ effects.foldl arm timers) ∨
      st'.missing = none ∧ effects.filterMap request? = [.fetchNextFrom tip]) := by
  rw [requestBlocks]
  rcases missing.fromTo with - | range
  · refine ⟨_, _, rfl, .inr ⟨rfl, ?_⟩⟩
    split_ifs <;> rfl
  dsimp only [startBatch, cancelWiden]
  refine ⟨_, _, rfl, .inl ⟨?_, ?_, fun timers ↦ ?_⟩⟩
  · rw [armNextWiden_missing]
    rfl
  · rw [filterMap_append, request?_eq_nil_of_asks (asks_armNextWiden _)]
    cases st.widen <;> rfl
  · rw [foldl_append, arm_of_asks (asks_armNextWiden _)]
    cases st.widen <;> exact mem_cons_self ..

theorem collectMissing_eq_boundaryNotFound {headers missing}
    (h : s.collectMissing limit headers missing = .boundaryNotFound) :
    ∀ header ∈ headers, ¬(s.hasBlock header.hash = true ∨ header.hash = s.anchor.hash) := by
  induction headers generalizing missing with
  | nil => simp
  | cons header headers ih =>
    rw [collectMissing] at h
    split_ifs at h with hfound
    exact forall_mem_cons.2 ⟨by simpa using hfound, ih h⟩

theorem not_anchored_of_boundaryNotFound {tip : Point}
    (h : s.findMissingBlocks tip.hash limit = .boundaryNotFound) : ¬FetchLoop.Anchored s tip := by
  rw [findMissingBlocks] at h
  intro hanchored
  split at h
  · cases h
  · next header hload =>
    obtain ⟨ancestor, hmem, hfound⟩ := hanchored header hload
    exact collectMissing_eq_boundaryNotFound h ancestor hmem hfound

theorem moved_of_newTip {tip parent : Point}
    (h : newTip select s st tip parent = .ok (st', effects)) :
    Moved s st (.newTip tip parent) st' effects := by
  rw [newTip] at h
  split_ifs at h with hmissing
  have hnone : st.missing = none := by simpa using hmissing
  rw [requestMissingBlocks] at h
  split at h
  · cases h
  · next hfind =>
    cases h
    exact .lost (not_anchored_of_boundaryNotFound hfind) hnone rfl rfl
  · next missing _ =>
    obtain ⟨stage'', effects', heq, hmoved⟩ := requestBlocks_eq select s
      { st with blockHeight := max tip.blockHeight st.blockHeight } missing tip parent
    rw [heq] at h
    cases h
    rcases hmoved with ⟨hopen, hrequests, htimers⟩ | ⟨hclosed, hrequests⟩
    · exact .opened (.inl rfl) hnone hopen hrequests htimers
    · exact .returned (.inl rfl) hnone hclosed ⟨tip, hrequests⟩

/-- Blocks that are handed over again are nothing else to others. -/
theorem replay_keeps (s : ChainStore Body) (blockHeight : ℕ) (parent : Point) (path : List Point) :
    (replay s blockHeight parent path).1.filterMap request? = [] ∧
      ∀ timers, (replay s blockHeight parent path).1.foldl arm timers = timers := by
  induction path generalizing parent with
  | nil => exact ⟨rfl, fun _ ↦ rfl⟩
  | cons point path ih =>
    rw [replay]
    split_ifs
    · exact ih point
    · exact ⟨rfl, fun _ ↦ rfl⟩

theorem moved_of_recoverStoredBlocks {ledgerTip best}
    (h : recoverStoredBlocks select s st ledgerTip best = .ok (st', effects)) :
    Moved s st (.recoverStoredBlocks ledgerTip best) st' effects := by
  rw [recoverStoredBlocks] at h
  split_ifs at h with hmissing horigin hbest
  · cases h
    exact .lost (fun hne ↦ hne horigin) (by simpa using hmissing) (by simpa using hmissing) rfl
  have hnone : st.missing = none := by simpa using hmissing
  split at h
  · cases h
  rename_i path _
  split at h
  · cases h
  rename_i header _
  obtain ⟨hrequests, htimers⟩ :=
    replay_keeps s (max header.blockHeight st.blockHeight) ledgerTip path
  obtain ⟨stage'', effects', heq, hmoved⟩ := requestBlocks_eq select s
    { st with blockHeight := max header.blockHeight st.blockHeight }
    ⟨(replay s (max header.blockHeight st.blockHeight) ledgerTip path).2.1,
      (replay s (max header.blockHeight st.blockHeight) ledgerTip path).2.2⟩ header.point
    (replay s (max header.blockHeight st.blockHeight) ledgerTip path).2.1
  simp only [heq] at h
  cases h
  rcases hmoved with ⟨hopen, hrequests', htimers'⟩ | ⟨hclosed, hrequests'⟩
  · refine .opened (.inr rfl) hnone hopen ?_ fun timers ↦ ?_
    · rw [filterMap_append, hrequests, hrequests', append_nil]
    · rw [foldl_append, htimers]
      exact htimers' timers
  · exact .returned (.inr rfl) hnone hclosed
      ⟨_, by rw [filterMap_append, hrequests, hrequests', nil_append]⟩

theorem moved_of_block (s : ChainStore Body) (st : FetchBlocks) (peer : Peer)
    (nb : NetworkBlock Body) :
    Moved s st (.block peer nb) (st.block s peer nb).2.1
      (st.block s peer nb).2.2 := by
  have hkept {effects : List FetchEffect} (hrequests : effects.filterMap request? = [])
      (htimers : ∀ timers, effects.foldl arm timers = timers) :
      Moved s st (.block peer nb) st effects :=
    .kept ⟨rfl, rfl⟩ rfl rfl (by simp) hrequests htimers
  rw [block]
  rcases nb.decodeBlock with - | decoded
  · exact hkept rfl fun _ ↦ rfl
  dsimp only
  split_ifs
  · exact hkept rfl fun _ ↦ rfl
  rcases hmissing : st.missing with - | missing
  · exact hkept rfl fun _ ↦ rfl
  dsimp only
  split_ifs
  · rw [acceptBlock]
    split_ifs
    · refine .closed ⟨rfl, rfl⟩ (by rw [hmissing]; rfl) rfl ⟨decoded.header.point, ?_⟩
      cases st.widen <;> cases st.timeout <;> rfl
    · exact .kept ⟨rfl, rfl⟩ (by rw [hmissing]; rfl) rfl (by simp) rfl fun _ ↦ rfl
  · exact hkept rfl fun _ ↦ rfl

theorem moved_of_timeout (s : ChainStore Body) (st : FetchBlocks) (reqId : ℕ) :
    Moved s st (.timeout reqId) (st.handleTimeout reqId).1 (st.handleTimeout reqId).2 := by
  rw [handleTimeout]
  by_cases hreqId : reqId = st.reqId
  · rw [if_neg (not_not.2 hreqId)]
    have hfailures : ∀ failures : List FetchEffect,
        failures = (if st.noPeersPause || st.failedPeers.isEmpty then []
          else [fetchFailure st.failedPeers]) →
        failures.filterMap request? = [] ∧ ∀ timers, failures.foldl arm timers = timers := by
      rintro failures rfl
      split_ifs <;> exact ⟨rfl, fun _ ↦ rfl⟩
    rcases hmissing : st.missing with - | missing
    · obtain ⟨hrequests, htimers⟩ := hfailures _ rfl
      exact .kept ⟨rfl, rfl⟩ (by rw [hmissing]) rfl (fun _ ↦ hmissing) hrequests htimers
    · obtain ⟨hrequests, -⟩ := hfailures _ rfl
      refine .closed ⟨rfl, rfl⟩ (by rw [hmissing]; rfl) rfl ⟨missing.boundary, ?_⟩
      rw [filterMap_append, filterMap_append, hrequests]
      cases st.widen <;> simp [endAttempt, cancelWiden, request?]
  · rw [if_pos hreqId]
    refine .kept ⟨rfl, rfl⟩ rfl rfl (fun hmsg ↦ ?_) rfl fun _ ↦ rfl
    injection hmsg with heq
    exact absurd heq hreqId

/-- **What a message does to the permission.** -/
theorem moved_of_handle (h : st.handle select s msg = .ok (s', st', effects)) :
    Moved s st msg st' effects := by
  cases msg with
  | newTip tip parent =>
    obtain ⟨result, h, heq⟩ := map_eq_ok_iff.1 h
    cases heq
    exact moved_of_newTip h
  | recoverStoredBlocks ledgerTip best =>
    obtain ⟨result, h, heq⟩ := map_eq_ok_iff.1 h
    cases heq
    exact moved_of_recoverStoredBlocks h
  | block peer nb =>
    have hmoved := moved_of_block s st peer nb
    rw [ok.inj h] at hmoved
    exact hmoved
  | timeout reqId =>
    have hmoved := moved_of_timeout s st reqId
    rw [(Prod.mk.inj (ok.inj h)).2] at hmoved
    exact hmoved
  | widen reqId =>
    obtain ⟨hmissing, hreqId, -, -, hasks⟩ := handleWiden_keeps select st reqId
    rw [(Prod.mk.inj (ok.inj h)).2] at hmissing hreqId hasks
    exact .kept ⟨rfl, rfl⟩ (by rw [hmissing]) hreqId (by simp)
      (request?_eq_nil_of_asks hasks) (arm_of_asks hasks)
  | peersAsked reqId peers =>
    cases h
    refine .kept ⟨rfl, rfl⟩ ?_ ?_ (by simp) rfl fun _ ↦ rfl
    · rw [peersAsked]; split_ifs <;> rfl
    · rw [peersAsked]; split_ifs <;> rfl
  | noBlocks reqId peer =>
    have heq := (Prod.mk.inj (ok.inj h)).2
    rw [noBlocks] at heq
    split_ifs at heq <;> cases heq <;>
      exact .kept ⟨rfl, rfl⟩ rfl rfl (by simp) rfl fun _ ↦ rfl
  | noPeersAvailable reqId =>
    cases h
    refine .kept ⟨rfl, rfl⟩ ?_ ?_ (by simp) rfl fun _ ↦ rfl
    · rw [noPeersAvailable]; split_ifs <;> rfl
    · rw [noPeersAvailable]; split_ifs <;> rfl

end FetchBlocks

/-- An assertion on the permission failed. -/
def Termination.IsAssertion (termination : Termination) : Prop :=
  termination = .fetchAlreadyAllowed ∨ termination = .missingBlocksPending

attribute [simp] Termination.IsAssertion

namespace SelectChain

variable {Body : Type} {s s' : ChainStore Body} {st st' : SelectChain}
  {msg : SelectChainMsg} {sent : List NewBestTip} {termination : Termination}

/-- Chain selection gives its permission away with a tip, and gets it with a request. -/
theorem permissions_of_handle (h : handle s st msg = .ok (s', st', sent)) :
    st'.mayFetchBlocks.toNat + sent.length = st.mayFetchBlocks.toNat + msg.isRequest.toNat := by
  have hif (best : NewBestTip) :
      (if st.mayFetchBlocks then [best] else []).length = st.mayFetchBlocks.toNat := by
    cases st.mayFetchBlocks <;> rfl
  cases handled_of_handle h with
  | initialised best =>
    rw [handleInitialise]
    split_ifs <;> rfl
  | ignored | tracked => rfl
  | selected => simp [hif, isRequest]
  | validated | pruned | fellBack => rfl
  | reselected => simp [hif, isRequest]
  | permitted hfetch | answered hfetch => simp [hfetch, isRequest]

theorem not_isAssertion_of_loadParentPoint {header}
    (h : AdoptChain.loadParentPoint s header = .error termination) : ¬termination.IsAssertion := by
  rw [AdoptChain.loadParentPoint] at h
  split at h
  · cases h
  · split at h <;> cases h
    simp

theorem not_isAssertion_of_selectAgain (h : selectAgain s st = .error termination) :
    ¬termination.IsAssertion := by
  rw [selectAgain] at h
  split at h
  · cases h
    simp
  split_ifs at h
  split at h
  · cases h
    simp
  rcases bind_eq_error_iff.1 h with h | ⟨parent, -, h⟩
  · exact not_isAssertion_of_loadParentPoint h
  · cases h

/-- The assertion fails only if the permission comes twice. -/
theorem mayFetchBlocks_of_isAssertion (h : handle s st msg = .error termination)
    (hassertion : termination.IsAssertion) : st.mayFetchBlocks = true ∧ msg.isRequest = true := by
  cases msg with
  | initialise best => cases h
  | tipFromUpstream tip parent =>
    have h := map_eq_error_iff.1 h
    rw [handleTipFromUpstream] at h
    split at h
    · cases h
      simp at hassertion
    · cases h
    · dsimp only at h
      split_ifs at h
  | blockValidationResult point valid =>
    rw [handle, handleBlockValidationResult] at h
    split_ifs at h
    · cases h
      simp at hassertion
    · exact absurd hassertion (not_isAssertion_of_selectAgain (map_eq_error_iff.1 h))
  | fetchNextFrom point =>
    have h := map_eq_error_iff.1 h
    rw [handleFetchNextFrom] at h
    split_ifs at h with hfetch
    · exact ⟨hfetch, rfl⟩
    split at h
    · cases h
    split_ifs at h
    split at h
    · cases h
      simp at hassertion
    rcases bind_eq_error_iff.1 h with h | ⟨parent, -, h⟩
    · exact absurd hassertion (not_isAssertion_of_loadParentPoint h)
    · cases h

end SelectChain

namespace FetchBlocks

variable {Body : Type} {s : ChainStore Body} {st : FetchBlocks} {select : SelectPeers}
  {msg : FetchBlocksMsg Body} {termination : Termination}

/-- The assertion fails only if a tip comes while a batch is open. -/
theorem missing_of_isAssertion (h : st.handle select s msg = .error termination)
    (hassertion : termination.IsAssertion) :
    st.missing.isSome = true ∧ (msg.isNewTip = true ∨ msg.isRecover = true) := by
  cases msg with
  | newTip tip parent =>
    have h := map_eq_error_iff.1 h
    rw [newTip] at h
    split_ifs at h with hmissing
    · exact ⟨hmissing, .inl rfl⟩
    rw [requestMissingBlocks] at h
    split at h <;> cases h
    simp at hassertion
  | recoverStoredBlocks ledgerTip best =>
    have h := map_eq_error_iff.1 h
    rw [recoverStoredBlocks] at h
    split_ifs at h with hmissing
    · exact ⟨hmissing, .inr rfl⟩
    · cases h
      simp at hassertion
    split at h
    · cases h
      simp at hassertion
    · split at h <;> cases h
      simp at hassertion
  | block | timeout | widen | peersAsked | noBlocks | noPeersAvailable => cases h

end FetchBlocks

/-! ### One permission -/

namespace FetchLoop

variable {Body : Type} {loop loop' : FetchLoop Body} {event : FetchLoopEvent Body}
  {msg : FetchBlocksMsg Body} {toFetch : List (FetchBlocksMsg Body)} {s : ChainStore Body}

/-- When the next message is handled, the permission is not lost. -/
def Sustained (loop : FetchLoop Body) : FetchLoopEvent Body → Prop
  | .handleFetch _ => ∀ msg ∈ loop.toFetch.head?, KeepsPermission loop.store msg
  | .handleSelect | .timeoutFires _ | .widenFires _ | .announced _ _ | .validated _ _ | .reply _
  | .storeChanges _ => True

/-- The states that the stages reach, if each event meets a condition. -/
inductive Run (condition : FetchLoop Body → FetchLoopEvent Body → Prop) : FetchLoop Body → Prop
  | start (s : ChainStore Body) (ledgerTip : Point) (best : ℕ) :
    Run condition (FetchLoop.start s ledgerTip best)
  | step {loop loop' : FetchLoop Body} {event} (hrun : Run condition loop) (hcondition : condition loop event)
    (hstep : loop.step event = .ok loop') : Run condition loop'

/-- There is one permission, or the message at start is still to be handled; and an open batch does not stay
open. -/
structure Inv (loop : FetchLoop Body) : Prop where
  one : loop.permissions + loop.recoveries = 1
  timeoutComes : loop.fetch.missing.isSome = true → loop.TimeoutComes

theorem Inv.start (s : ChainStore Body) (ledgerTip : Point) (best : ℕ) :
    Inv (FetchLoop.start s ledgerTip best) := ⟨rfl, fun h ↦ (nomatch h)⟩

theorem Inv.fetch {fetch effects} (h : loop.Inv) (hcons : loop.toFetch = msg :: toFetch)
    (hkeeps : KeepsPermission loop.store msg)
    (hmoved : FetchBlocks.Moved loop.store loop.fetch msg fetch effects) :
    Inv { loop with
      store := s, fetch, toFetch
      toSelect := loop.toSelect ++ effects.filterMap request?
      timers := effects.foldl arm loop.timers } := by
  have hmoved' := hmoved.permissions hkeeps
  have hone := h.one
  simp only [permissions, recoveries, hcons, countP_cons] at hone
  have hasks : (if msg.isNewTip = true then 1 else 0) + (if msg.isRecover = true then 1 else 0) =
      (msg.isNewTip || msg.isRecover).toNat := by
    cases msg <;> rfl
  refine ⟨?_, fun hopen ↦ ?_⟩
  · simp only [permissions, recoveries, countP_append]
    omega
  cases hmoved with
  | kept hmsg hmissing hreqId htimeout hnone hsame =>
    rw [hmissing] at hopen
    simp only [TimeoutComes, hreqId, hsame]
    refine (h.timeoutComes hopen).imp_right fun hmem ↦ ?_
    rw [hcons] at hmem
    refine (mem_cons.1 hmem).resolve_left fun heq ↦ ?_
    rw [htimeout heq.symm] at hopen
    cases hopen
  | opened _ _ _ _ hsame => exact .inl (hsame _)
  | returned _ _ hclosed | closed _ _ hclosed | lost _ _ hclosed => simp [hclosed] at hopen

theorem not_permission_of_forwarded (cleanup : Cleanup) (blocks : Blocks Body) :
    ∀ msg ∈ (cleanup.handle blocks).2.1, msg.isNewTip = false ∧ msg.isRecover = false := by
  intro msg hmem
  cases blocks with
  | block id peer nb =>
    rw [Cleanup.handle] at hmem
    rcases hdecode : nb.decodeHeader with - | header
    · simp [hdecode] at hmem
    · simp only [hdecode, mem_ite_nil_right, mem_singleton] at hmem
      exact hmem.2 ▸ ⟨rfl, rfl⟩
  | noPeersAvailable id => exact mem_singleton.1 hmem ▸ ⟨rfl, rfl⟩
  | noBlocks | peersAsked =>
    rw [Cleanup.handle, mem_ite_nil_right, mem_singleton] at hmem
    exact hmem.2 ▸ ⟨rfl, rfl⟩
  | done id => simp [Cleanup.handle] at hmem

/-- What happens in a step. -/
inductive Stepped (loop : FetchLoop Body) : FetchLoopEvent Body → FetchLoop Body → Prop
  | selectIdle (hnil : loop.toSelect = []) : Stepped loop .handleSelect loop
  | select {msg toSelect s select sent} (hcons : loop.toSelect = msg :: toSelect)
    (hhandle : handle loop.store loop.select msg = .ok (s, select, sent)) :
    Stepped loop .handleSelect { loop with
      store := s, select, toSelect
      toFetch := loop.toFetch ++ sent.map fun best ↦ .newTip best.tip best.parent }
  | fetchIdle {peers} (hnil : loop.toFetch = []) : Stepped loop (.handleFetch peers) loop
  | fetch {peers msg toFetch s fetch effects} (hcons : loop.toFetch = msg :: toFetch)
    (hmoved : FetchBlocks.Moved loop.store loop.fetch msg fetch effects) :
    Stepped loop (.handleFetch peers) { loop with
      store := s, fetch, toFetch
      toSelect := loop.toSelect ++ effects.filterMap request?
      timers := effects.foldl arm loop.timers }
  /-- What happens outside the two stages leaves them alone, and messages come in. -/
  | outside {event loop' msgs msgs'} (hevent : event ≠ .handleSelect ∧ ¬∃ peers, event = .handleFetch peers)
    (hselect : loop'.select = loop.select) (hfetch : loop'.fetch = loop.fetch)
    (htoFetch : loop'.toFetch = loop.toFetch ++ msgs) (htoSelect : loop'.toSelect = loop.toSelect ++ msgs')
    (htimers : ∀ reqId ∈ loop.timers, reqId ∈ loop'.timers ∨ .timeout reqId ∈ msgs)
    (hmsgs : ∀ msg ∈ msgs, msg.isNewTip = false ∧ msg.isRecover = false)
    (hmsgs' : ∀ msg ∈ msgs', msg.isRequest = false) : Stepped loop event loop'

theorem stepped_of_step (hstep : loop.step event = .ok loop') : Stepped loop event loop' := by
  cases event with
  | handleSelect =>
    rw [step, handleSelect] at hstep
    split at hstep
    · next hnil =>
      cases hstep
      exact .selectIdle hnil
    · next hcons =>
      obtain ⟨result, hhandle, hstep⟩ := bind_eq_ok_iff.1 hstep
      cases hstep
      exact .select hcons hhandle
  | handleFetch peers =>
    rw [step, handleFetch] at hstep
    split at hstep
    · next hnil =>
      cases hstep
      exact .fetchIdle hnil
    · next hcons =>
      obtain ⟨result, hhandle, hstep⟩ := bind_eq_ok_iff.1 hstep
      cases hstep
      exact .fetch hcons (FetchBlocks.moved_of_handle hhandle)
  | timeoutFires reqId =>
    rw [step] at hstep
    split_ifs at hstep with harmed <;> cases hstep
    · refine .outside (by simp) rfl rfl rfl (append_nil _).symm (fun other hmem ↦ ?_)
        (by simp [isNewTip, isRecover]) (by simp)
      by_cases heq : other = reqId
      · exact .inr (heq ▸ mem_singleton_self _)
      · exact .inl (mem_filter.2 ⟨hmem, by simpa using heq⟩)
    · exact .outside (by simp) rfl rfl (append_nil _).symm (append_nil _).symm (fun _ ↦ .inl)
        (by simp) (by simp)
  | widenFires reqId =>
    cases hstep
    exact .outside (by simp) rfl rfl rfl (append_nil _).symm (fun _ ↦ .inl)
      (by simp [isNewTip, isRecover]) (by simp)
  | announced | validated =>
    cases hstep
    exact .outside (by simp) rfl rfl (append_nil _).symm rfl (fun _ ↦ .inl) (by simp) (by simp [isRequest])
  | reply blocks =>
    cases hstep
    exact .outside (by simp) rfl rfl rfl (append_nil _).symm (fun _ ↦ .inl)
      (not_permission_of_forwarded loop.cleanup blocks) (by simp)
  | storeChanges s =>
    cases hstep
    exact .outside (by simp) rfl rfl (append_nil _).symm (append_nil _).symm (fun _ ↦ .inl)
      (by simp) (by simp)

/-- **A step keeps the permission.** -/
theorem Inv.step (h : loop.Inv) (hsustained : loop.Sustained event) (hstep : loop.step event = .ok loop') :
    loop'.Inv := by
  cases stepped_of_step hstep with
  | selectIdle | fetchIdle => exact h
  | select hcons hhandle =>
    have hpermissions := permissions_of_handle hhandle
    refine ⟨?_, fun hopen ↦ (h.timeoutComes hopen).imp_right (mem_append_left _)⟩
    have hone := h.one
    simp only [permissions, recoveries, hcons, countP_cons, countP_append, countP_map, Function.comp_def,
      isNewTip, isRecover, countP_true, countP_false, Function.const_apply] at hone ⊢
    generalize SelectChainMsg.isRequest _ = request at hone hpermissions
    cases request <;> simp at hone hpermissions <;> omega
  | fetch hcons hmoved => exact h.fetch hcons (hsustained _ (by rw [hcons]; rfl)) hmoved
  | @outside _ _ msgs msgs' _ hselect hfetch htoFetch htoSelect htimers hmsgs hmsgs' =>
    -- messages that do not carry the permission come in
    have hnewTip : msgs.countP isNewTip = 0 :=
      countP_eq_zero.2 fun msg hmem ↦ by simp [(hmsgs msg hmem).1]
    have hrecover : msgs.countP isRecover = 0 :=
      countP_eq_zero.2 fun msg hmem ↦ by simp [(hmsgs msg hmem).2]
    have hrequest : msgs'.countP isRequest = 0 :=
      countP_eq_zero.2 fun msg hmem ↦ by simp [hmsgs' msg hmem]
    refine ⟨?_, fun hopen ↦ ?_⟩
    · rw [permissions, recoveries, hselect, hfetch, htoFetch, htoSelect, countP_append, countP_append,
        countP_append, hnewTip, hrecover, hrequest]
      exact h.one
    · rw [hfetch] at hopen
      rw [TimeoutComes, hfetch, htoFetch]
      rcases h.timeoutComes hopen with hmem | hmem
      · exact (htimers _ hmem).imp_right (mem_append_right _)
      · exact .inr (mem_append_left _ hmem)

theorem Run.inv (h : Run Sustained loop) : loop.Inv := by
  induction h with
  | start s ledgerTip best => exact .start s ledgerTip best
  | step hrun hsustained hstep ih => exact ih.step hsustained hstep

/-- **No assertion fails.** -/
theorem Inv.not_isAssertion {termination} (h : loop.Inv) (hstep : loop.step event = .error termination) :
    ¬termination.IsAssertion := by
  intro hassertion
  have hone := h.one
  cases event with
  | handleSelect =>
    rw [FetchLoop.step, handleSelect] at hstep
    split at hstep
    · cases hstep
    rename_i htoSelect
    rcases bind_eq_error_iff.1 hstep with hstep | ⟨_, -, hstep⟩
    · obtain ⟨hfetch, hrequest⟩ := mayFetchBlocks_of_isAssertion hstep hassertion
      simp only [permissions, htoSelect, countP_cons, hfetch, hrequest, Bool.toNat_true, if_true] at hone
      omega
    · cases hstep
  | handleFetch select =>
    rw [FetchLoop.step, handleFetch] at hstep
    split at hstep
    · cases hstep
    rename_i htoFetch
    rcases bind_eq_error_iff.1 hstep with hstep | ⟨_, -, hstep⟩
    · obtain ⟨hopen, hmsg⟩ := FetchBlocks.missing_of_isAssertion hstep hassertion
      simp only [permissions, recoveries, htoFetch, countP_cons, hopen, Bool.toNat_true] at hone
      rcases hmsg with hmsg | hmsg <;> simp only [hmsg, if_true] at hone <;> omega
    · cases hstep
  | timeoutFires reqId => rw [FetchLoop.step] at hstep; split_ifs at hstep
  | widenFires | announced | validated | reply | storeChanges => cases hstep

/-! ### The permission comes back -/

/-- A run without end, in which no message and no timeout waits forever. -/
structure FairRun (loops : ℕ → FetchLoop Body) (events : ℕ → FetchLoopEvent Body) : Prop where
  start : ∃ s ledgerTip best, loops 0 = .start s ledgerTip best
  sustained : ∀ n, (loops n).Sustained (events n)
  step : ∀ n, (loops n).step (events n) = .ok (loops (n + 1))
  select : ∀ {n}, (loops n).toSelect ≠ [] → ∃ m, n ≤ m ∧ events m = .handleSelect
  fetch : ∀ {n}, (loops n).toFetch ≠ [] → ∃ m, n ≤ m ∧ ∃ select, events m = .handleFetch select
  timers : ∀ {n reqId}, reqId ∈ (loops n).timers →
    ∃ m, n ≤ m ∧ (events m = .timeoutFires reqId ∨ reqId ∉ (loops m).timers)

/-- The next tip is asked for. -/
def Asked (loop : FetchLoop Body) : Prop := ∃ point, .fetchNextFrom point ∈ loop.toSelect

/-- Chain selection has the permission, or is about to get it. -/
def Permitted (loop : FetchLoop Body) (event : FetchLoopEvent Body) : Prop :=
  loop.select.mayFetchBlocks = true ∨
    event = .handleSelect ∧ ∃ point rest, loop.toSelect = .fetchNextFrom point :: rest

theorem toSelect_of_step (hstep : loop.step event = .ok loop') :
    (event ≠ .handleSelect → ∃ new, loop'.toSelect = loop.toSelect ++ new) ∧
      ∀ {msg rest}, event = .handleSelect → loop.toSelect = msg :: rest → loop'.toSelect = rest := by
  cases stepped_of_step hstep with
  | selectIdle hnil => exact ⟨fun hne ↦ absurd rfl hne, fun _ hcons ↦ absurd (hnil.symm.trans hcons) nofun⟩
  | select hcons => exact ⟨fun hne ↦ absurd rfl hne, fun _ hcons' ↦
    (cons.inj (hcons.symm.trans hcons')).2⟩
  | fetchIdle => exact ⟨fun _ ↦ ⟨[], (append_nil _).symm⟩, nofun⟩
  | fetch => exact ⟨fun _ ↦ ⟨_, rfl⟩, nofun⟩
  | outside hevent _ _ _ htoSelect => exact ⟨fun _ ↦ ⟨_, htoSelect⟩, fun heq ↦ absurd heq hevent.1⟩

theorem toFetch_of_step (hstep : loop.step event = .ok loop') :
    ((¬∃ select, event = .handleFetch select) → ∃ new, loop'.toFetch = loop.toFetch ++ new) ∧
      ∀ {msg rest}, (∃ select, event = .handleFetch select) → loop.toFetch = msg :: rest →
        loop'.toFetch = rest := by
  cases stepped_of_step hstep with
  | selectIdle => exact ⟨fun _ ↦ ⟨[], (append_nil _).symm⟩, nofun⟩
  | select => exact ⟨fun _ ↦ ⟨_, rfl⟩, nofun⟩
  | fetchIdle hnil => exact ⟨fun hne ↦ absurd ⟨_, rfl⟩ hne, fun _ hcons ↦ absurd
    (hnil.symm.trans hcons) nofun⟩
  | fetch hcons =>
    exact ⟨fun hne ↦ absurd ⟨_, rfl⟩ hne, fun _ hcons' ↦ (cons.inj (hcons.symm.trans hcons')).2⟩
  | outside hevent _ _ htoFetch => exact ⟨fun _ ↦ ⟨_, htoFetch⟩, fun heq ↦ absurd heq hevent.2⟩

theorem exists_of_handleFetch {select} (hstep : loop.step (.handleFetch select) = .ok loop')
    (hcons : loop.toFetch = msg :: toFetch) : ∃ effects,
      FetchBlocks.Moved loop.store loop.fetch msg loop'.fetch effects ∧
      loop'.toSelect = loop.toSelect ++ effects.filterMap request? := by
  cases stepped_of_step hstep with
  | fetchIdle hnil => cases hnil.symm.trans hcons
  | fetch hcons' hmoved =>
    cases hcons'.symm.trans hcons
    exact ⟨_, hmoved, rfl⟩
  | outside hevent => exact absurd ⟨_, rfl⟩ hevent.2

/-- While a batch is open, the next message leaves it open or ends it. -/
theorem open_of_step (hstep : loop.step event = .ok loop') (hopen : loop.fetch.missing.isSome = true) :
    loop'.fetch.missing.isSome = true ∧ loop'.fetch.reqId = loop.fetch.reqId ∨ loop'.Asked := by
  cases stepped_of_step hstep with
  | selectIdle | select | fetchIdle => exact .inl ⟨hopen, rfl⟩
  | fetch hcons hmoved => cases hmoved with
    | kept hmsg hmissing hreqId => exact .inl ⟨hmissing.trans hopen, hreqId⟩
    | opened _ hnone | returned _ hnone | lost _ hnone => simp [hnone] at hopen
    | closed _ _ _ hasked => exact .inr (hasked.imp fun _ hasked ↦ by simp [hasked])
  | outside _ _ hsame =>
    rw [hsame]
    exact .inl ⟨hopen, rfl⟩

namespace FairRun

variable {loops : ℕ → FetchLoop Body} {events : ℕ → FetchLoopEvent Body} {n : ℕ}

section

variable (h : FairRun loops events)
include h

theorem inv (n : ℕ) : (loops n).Inv := by
  induction n with
  | zero =>
    obtain ⟨s, ledgerTip, best, heq⟩ := h.start
    rw [heq]
    exact .start s ledgerTip best
  | succ n ih => exact ih.step (h.sustained n) (h.step n)

theorem fifo_toSelect : FifoRun (fun n ↦ (loops n).toSelect) fun n ↦ events n = .handleSelect where
  keep hnot := (toSelect_of_step (h.step _)).1 hnot
  pop hpop hcons := ⟨[], by rw [(toSelect_of_step (h.step _)).2 hpop hcons, append_nil]⟩
  fair := h.select

theorem fifo_toFetch :
    FifoRun (fun n ↦ (loops n).toFetch) fun n ↦ ∃ select, events n = .handleFetch select where
  keep hnot := (toFetch_of_step (h.step _)).1 hnot
  pop hpop hcons := ⟨[], by rw [(toFetch_of_step (h.step _)).2 hpop hcons, append_nil]⟩
  fair := h.fetch

theorem permitted_of_asked (hasked : (loops n).Asked) : ∃ m, n ≤ m ∧ (loops m).Permitted (events m) := by
  obtain ⟨point, hmem⟩ := hasked
  obtain ⟨m, hle, hselect, rest, hcons⟩ := h.fifo_toSelect.served hmem
  exact ⟨m, hle, .inr ⟨hselect, point, rest, hcons⟩⟩

/-- A batch stays open until the next tip is asked for. -/
theorem open_or_asked (hopen : (loops n).fetch.missing.isSome = true) {m : ℕ} (hle : n ≤ m) :
    ((loops m).fetch.missing.isSome = true ∧ (loops m).fetch.reqId = (loops n).fetch.reqId) ∨
      ∃ j, n ≤ j ∧ j ≤ m ∧ (loops j).Asked := by
  refine holds_or_exists_of_unless
    (fun j ↦ (loops j).fetch.missing.isSome = true ∧ (loops j).fetch.reqId = (loops n).fetch.reqId)
    (fun j ↦ (loops j).Asked) (fun j hj ↦ ?_) ⟨hopen, rfl⟩ hle
  exact (open_of_step (h.step j) hj.1).imp_left fun hnext ↦ ⟨hnext.1, hnext.2.trans hj.2⟩

theorem asked_of_timeout (hopen : (loops n).fetch.missing.isSome = true)
    (hmem : .timeout (loops n).fetch.reqId ∈ (loops n).toFetch) : ∃ m, n ≤ m ∧ (loops m).Asked := by
  obtain ⟨m, hle, ⟨select, hfetch⟩, rest, hcons⟩ := h.fifo_toFetch.served hmem
  rcases h.open_or_asked hopen hle with ⟨hopen', hreqId⟩ | ⟨j, hj, -, hasked⟩
  · have hstep := h.step m
    rw [hfetch] at hstep
    obtain ⟨effects, hmoved, hrequests⟩ := exists_of_handleFetch hstep hcons
    refine ⟨m + 1, by omega, ?_⟩
    cases hmoved with
    | kept hmsg _ _ htimeout => simp [htimeout (by rw [hreqId])] at hopen'
    | opened _ hnone | returned _ hnone | lost _ hnone => simp [hnone] at hopen'
    | closed _ _ _ hasked => exact hasked.imp fun _ hasked ↦ by simp [hrequests, hasked]
  · exact ⟨j, hj, hasked⟩

/-- **A batch ends.** -/
theorem asked_of_open (hopen : (loops n).fetch.missing.isSome = true) : ∃ m, n ≤ m ∧ (loops m).Asked := by
  by_cases harmed : (loops n).fetch.reqId ∈ (loops n).timers
  · obtain ⟨m, hle, hfires⟩ := h.timers harmed
    rcases h.open_or_asked hopen hle with ⟨hopen', hreqId⟩ | ⟨j, hj, -, hasked⟩
    · by_cases harmed' : (loops m).fetch.reqId ∈ (loops m).timers
      · -- the timer fires, and the message of the timeout waits
        have hstep := h.step m
        rw [hfires.resolve_right fun hnot ↦ hnot (hreqId ▸ harmed'), ← hreqId, FetchLoop.step,
          if_pos harmed'] at hstep
        have hnext : (loops (m + 1)).fetch = (loops m).fetch ∧
            .timeout (loops m).fetch.reqId ∈ (loops (m + 1)).toFetch := by
          rw [← ok.inj hstep]
          exact ⟨rfl, mem_append_right _ (mem_singleton_self _)⟩
        obtain ⟨m', hle', hasked⟩ := h.asked_of_timeout (n := m + 1) (hnext.1 ▸ hopen') (hnext.1 ▸ hnext.2)
        exact ⟨m', by omega, hasked⟩
      · obtain ⟨m', hle', hasked⟩ :=
          h.asked_of_timeout hopen' (((h.inv m).timeoutComes hopen').resolve_left harmed')
        exact ⟨m', by omega, hasked⟩
    · exact ⟨j, hj, hasked⟩
  · exact h.asked_of_timeout hopen (((h.inv n).timeoutComes hopen).resolve_left harmed)

/-- A tip is handled: a batch is open, or the next tip is asked for. -/
theorem asked_of_newTip (hmem : msg ∈ (loops n).toFetch)
    (hmsg : msg.isNewTip = true ∨ msg.isRecover = true) : ∃ m, n ≤ m ∧ (loops m).Asked := by
  obtain ⟨m, hle, ⟨select, hfetch⟩, rest, hcons⟩ := h.fifo_toFetch.served hmem
  have hstep := h.step m
  have hsustained := h.sustained m
  rw [hfetch] at hstep hsustained
  obtain ⟨effects, hmoved, hrequests⟩ := exists_of_handleFetch hstep hcons
  cases hmoved with
  | kept hkept => simp [hkept.1, hkept.2] at hmsg
  | opened _ _ hopen =>
    obtain ⟨m', hle', hasked⟩ := h.asked_of_open hopen
    exact ⟨m', by omega, hasked⟩
  | returned _ _ _ hasked =>
    exact ⟨m + 1, by omega, hasked.imp fun _ hasked ↦ by simp [hrequests, hasked]⟩
  | closed hclosed => simp [hclosed.1, hclosed.2] at hmsg
  | lost hlost => exact absurd (hsustained msg (by rw [hcons]; rfl)) hlost

/-- **The permission comes back** to chain selection again and again. -/
theorem permitted (n : ℕ) : ∃ m, n ≤ m ∧ (loops m).Permitted (events m) := by
  have hof (hasked : ∃ m, n ≤ m ∧ (loops m).Asked) : ∃ m, n ≤ m ∧ (loops m).Permitted (events m) := by
    obtain ⟨m, hle, hasked⟩ := hasked
    obtain ⟨m', hle', hpermitted⟩ := h.permitted_of_asked hasked
    exact ⟨m', by omega, hpermitted⟩
  by_cases hselect : (loops n).select.mayFetchBlocks = true
  · exact ⟨n, le_rfl, .inl hselect⟩
  by_cases hopen : (loops n).fetch.missing.isSome = true
  · exact hof (h.asked_of_open hopen)
  by_cases htip : ∃ msg ∈ (loops n).toFetch, msg.isNewTip = true ∨ msg.isRecover = true
  · obtain ⟨msg, hmem, hmsg⟩ := htip
    exact hof (h.asked_of_newTip hmem hmsg)
  -- what is left is a request
  push Not at htip
  have hone := (h.inv n).one
  have hnewTip : (loops n).toFetch.countP isNewTip = 0 :=
    countP_eq_zero.2 fun msg hmem ↦ (htip msg hmem).1
  have hrecover : (loops n).toFetch.countP isRecover = 0 :=
    countP_eq_zero.2 fun msg hmem ↦ (htip msg hmem).2
  have hpos : 0 < (loops n).toSelect.countP isRequest := by
    simp only [permissions, recoveries, hnewTip, hrecover, hselect, hopen, Bool.toNat_false] at hone
    omega
  obtain ⟨msg, hmem, hrequest⟩ := countP_pos_iff.1 hpos
  cases msg with
  | fetchNextFrom point => exact h.permitted_of_asked ⟨point, hmem⟩
  | initialise | tipFromUpstream | blockValidationResult => cases hrequest

end

end FairRun

/-- **The permission stays.** Wherever the ledger does not start at the origin, and every search for missing
blocks ends at a block that is there or at the anchor: once the message at start is handled there is one
permission, an open batch has its timeout armed or about to be handled, and no assertion fails; and in a fair
run the permission comes back to chain selection again and again. -/
theorem permission_stays {Body : Type} :
    (∀ loop : FetchLoop Body, Run Sustained loop →
      ((∀ ledgerTip best, .recoverStoredBlocks ledgerTip best ∉ loop.toFetch) → loop.permissions = 1) ∧
      (loop.fetch.missing.isSome = true → loop.TimeoutComes) ∧
      ∀ event termination, loop.step event = .error termination →
        termination ≠ .fetchAlreadyAllowed ∧ termination ≠ .missingBlocksPending) ∧
    ∀ (loops : ℕ → FetchLoop Body) (events : ℕ → FetchLoopEvent Body), FairRun loops events →
      ∀ n, ∃ m, n ≤ m ∧ (loops m).Permitted (events m) := by
  refine ⟨fun loop hrun ↦ ⟨fun hstarted ↦ ?_, hrun.inv.timeoutComes, fun event termination hstep ↦ ?_⟩,
    fun loops events h ↦ h.permitted⟩
  · have hone := hrun.inv.one
    have hrecover : loop.toFetch.countP isRecover = 0 := by
      refine countP_eq_zero.2 fun msg hmem hrecover ↦ ?_
      cases msg <;> first | exact hstarted _ _ hmem | cases hrecover
    rw [recoveries, hrecover] at hone
    exact hone
  · have hnot := hrun.inv.not_isAssertion hstep
    rw [Termination.IsAssertion, not_or] at hnot
    exact hnot

/-! ### Small nodes -/

/-- The anchor at slot 40, and a fork that leaves the best chain below it. -/
def forkedBelow : ChainStore Bool where
  headers := .ofList [(32, headerAt 32 10 none), (40, headerAt 40 11 (some 32)),
    (35, headerAt 35 11 (some 32)), (36, headerAt 36 12 (some 35))]
  validity := .ofList [(32, true), (40, true)]
  blocks := ∅
  anchor := pointAt 40 11
  bestChain := .ofList [(32, pointAt 32 10), (40, pointAt 40 11)]
  bestChainTip := pointAt 40 11

/-- A store with nothing in it but headers. -/
def freshWith (headers : SortedMap ℕ Header) : ChainStore Bool where
  headers
  validity := ∅
  blocks := ∅
  anchor := .origin
  bestChain := ∅
  bestChainTip := .origin

/-- No peer is known. -/
def noPeers : SelectPeers := fun _ _ _ ↦ ⟨true, []⟩

/-- The anchor at slot 40, and a candidate whose body is missing. -/
def oneMissing : ChainStore Bool where
  headers := .ofList [(40, headerAt 40 11 none), (41, headerAt 41 12 (some 40))]
  validity := .ofList [(40, true)]
  blocks := ∅
  anchor := pointAt 40 11
  bestChain := .ofList [(40, pointAt 40 11)]
  bestChainTip := pointAt 40 11

/-- A batch is opened for the missing block, which comes; then only chain selection is left to work. -/
def oneBatchEvents : ℕ → FetchLoopEvent Bool
  | 0 | 2 => .handleFetch noPeers
  | 1 => .reply (.block 1 7 (networkBlockOf (headerAt 41 12 (some 40))))
  | _ + 3 => .handleSelect

/-- The states of a node that fetches one batch. -/
def oneBatch : ℕ → FetchLoop Bool
  | 0 => .start oneMissing (pointAt 40 11) 41
  | n + 1 => ((oneBatch n).step (oneBatchEvents n)).toOption.getD (oneBatch n)

theorem oneBatch_rests : ∀ n, oneBatch (n + 5) = oneBatch 5
  | 0 => rfl
  | n + 1 => by
    rw [oneBatch, oneBatch_rests n]
    rfl

theorem step_oneBatch : ∀ n, (oneBatch n).step (oneBatchEvents n) = .ok (oneBatch (n + 1))
  | 0 | 1 | 2 | 3 | 4 => rfl
  | n + 5 => by
    rw [oneBatch_rests n, show oneBatch (n + 5 + 1) = _ from oneBatch_rests (n + 1)]
    rfl

theorem sustained_oneBatch : ∀ n, (oneBatch n).Sustained (oneBatchEvents n)
  | 0 => fun msg hmsg ↦ by
    obtain rfl : recoverStoredBlocks (pointAt 40 11) 41 = msg := some.inj hmsg
    exact (by decide : (pointAt 40 11).hash ≠ originHash)
  | 2 => fun msg hmsg ↦ by
    obtain rfl : FetchBlocksMsg.block 7 _ = msg := some.inj hmsg
    trivial
  | 1 | _ + 3 => trivial

theorem fairRun_oneBatch : FairRun oneBatch oneBatchEvents where
  start := ⟨_, _, _, rfl⟩
  sustained := sustained_oneBatch
  step := step_oneBatch
  select {n} _ := ⟨n + 3, Nat.le_add_right n 3, rfl⟩
  fetch {n} hne := match n with
    | 0 | 1 | 2 => ⟨2, by decide, noPeers, rfl⟩
    | 3 | 4 => absurd rfl hne
    | n + 5 => absurd (by rw [oneBatch_rests]; rfl) hne
  timers {n reqId} _ := ⟨n + 5, Nat.le_add_right n 5, .inr (by rw [oneBatch_rests]; nofun)⟩

/-- The permission is with a batch that is open, and comes back. -/
theorem permission_stays_oneBatch : ∃ (loops : ℕ → FetchLoop Bool) (events : ℕ → FetchLoopEvent Bool),
    FairRun loops events ∧ Run Sustained (loops 1) ∧ (loops 1).fetch.missing.isSome = true ∧
      (loops 1).permissions = 1 ∧ (loops 1).TimeoutComes ∧ ∃ m, 1 ≤ m ∧ (loops m).Permitted (events m) := by
  have hrun : Run Sustained (oneBatch 1) :=
    .step (.start oneMissing (pointAt 40 11) 41) (sustained_oneBatch 0) (step_oneBatch 0)
  obtain ⟨hone, htimeout, -⟩ := permission_stays.1 _ hrun
  exact ⟨oneBatch, oneBatchEvents, fairRun_oneBatch, hrun, rfl, hone fun _ _ hmem ↦ (nomatch hmem),
    htimeout rfl, permission_stays.2 _ _ fairRun_oneBatch 1⟩

theorem Run.of_run {events} (h : Run (fun _ _ ↦ True) loop) (hevents : loop.run events = .ok loop') :
    Run (fun _ _ ↦ True) loop' := by
  induction events generalizing loop with
  | nil =>
    cases hevents
    exact h
  | cons event events ih =>
    obtain ⟨next, hstep, hevents⟩ := bind_eq_ok_iff.1 hevents
    exact ih (h.step trivial hstep) hevents

/-- **The permission is lost.** A new node has none once the message at start is handled, and its first tip
is not fetched. And a node that starts at slot 40 loses it when the tip at slot 35 is announced, which forks
off below the anchor. -/
theorem permission_is_lost :
    (∃ (events : List (FetchLoopEvent Bool)) (loop : FetchLoop Bool),
      (start (freshWith ∅) .origin originHash).run events = .ok loop ∧ Run (fun _ _ ↦ True) loop ∧
      loop.select.bestTip = some (headerAt 11 1 none) ∧ loop.toFetch = [] ∧ loop.permissions = 0) ∧
    ∃ (events : List (FetchLoopEvent Bool)) (loop : FetchLoop Bool),
      (start forkedBelow (pointAt 40 11) 40).run events = .ok loop ∧ Run (fun _ _ ↦ True) loop ∧
      loop.select.bestTip = some (headerAt 36 12 (some 35)) ∧ loop.toFetch = [] ∧ loop.permissions = 0 := by
  constructor
  · have hevents : (start (freshWith ∅) .origin originHash).run
        [.handleFetch noPeers, .storeChanges (freshWith (.ofList [(11, headerAt 11 1 none)])),
          .announced (pointAt 11 1) .origin, .handleSelect, .handleSelect] = .ok _ := rfl
    exact ⟨_, _, hevents, .of_run (.start ..) hevents, rfl, rfl, rfl⟩
  · have hevents : (start forkedBelow (pointAt 40 11) 40).run
        [.handleFetch noPeers, .handleSelect, .handleSelect, .announced (pointAt 35 11) (pointAt 32 10),
          .handleSelect, .announced (pointAt 36 12) (pointAt 35 11), .handleSelect,
          .handleFetch noPeers] = .ok _ := rfl
    exact ⟨_, _, hevents, .of_run (.start ..) hevents, rfl, rfl, rfl⟩

end FetchLoop

end Amaru
