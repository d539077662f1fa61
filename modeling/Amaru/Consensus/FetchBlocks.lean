import Amaru.Consensus.SelectChain

/-!
# The stage that fetches blocks

The stage is handed one best tip at a time. It looks for the oldest blocks on the way to the tip that are
missing, asks peers for a **batch** of them, and hands each block that comes in its turn to the stage that
validates blocks. When the batch is complete, or took too long, the stage asks chain selection for the
next tip.

The replies of all peers come through a stage of their own, which keeps those to earlier requests away.

Which peers are asked depends on what is known about them; here it is a parameter of each step.
-/

namespace Amaru

/-- A peer. -/
abbrev Peer := ℕ

/-- How many blocks a batch has at most. -/
def maxMissingBlocksPerBatch : ℕ := 25

/-- How many peers are asked for a batch at most. -/
def maxFetchPeers : ℕ := 5

/-- How often more peers are asked for a batch. -/
def fetchWidenDelays : ℕ := 3

/-- A block that a peer sent, once it is decoded. -/
structure DecodedBlock (Body : Type) where
  header : Header
  block : Block Body
  /-- The body is the one that the header names. -/
  bodyMatches : Bool
  point_eq : block.point = header.point

/-- A block that a peer sent. -/
structure NetworkBlock (Body : Type) where
  decodeHeader : Option Header
  decodeBlock : Option (DecodedBlock Body)

/-- A message to the stage. -/
inductive FetchBlocksMsg (Body : Type)
  | newTip (tip parent : Point)
  /-- Once, at start: the tip of the ledger, and the hash of the best candidate of the store. -/
  | recoverStoredBlocks (ledgerTip : Point) (best : ℕ)
  | block (peer : Peer) (networkBlock : NetworkBlock Body)
  | timeout (reqId : ℕ)
  | widen (reqId : ℕ)
  | peersAsked (reqId : ℕ) (peers : List Peer)
  | noBlocks (reqId : ℕ) (peer : Peer)
  | noPeersAvailable (reqId : ℕ)

/-- What the stage does to others. -/
inductive FetchEffect
  /-- A block is handed to the stage that validates blocks. -/
  | downloaded (msg : ValidateBlockMsg)
  /-- Chain selection is asked for the next tip. -/
  | fetchNextFrom (point : Point)
  /-- Peers are asked for blocks, all of them if none is named. -/
  | fetchBlocks (first last : Point) (reqId : ℕ) (peers : Option (List Peer))
  | scheduleTimeout (reqId : ℕ)
  | cancelTimeout (reqId : ℕ)
  | scheduleWiden (reqId : ℕ)
  | cancelWiden (reqId : ℕ)
  /-- Peers are recorded to have failed. -/
  | fetchFailure (peers : List Peer)
  | adversarial (peer : Peer)
  /-- The source of blocks is told of a block. -/
  | blockReceived (peer : Peer) (tip : Point)
deriving DecidableEq, Repr

/-- Peers are asked, or will be. -/
def FetchEffect.Asks : FetchEffect → Prop
  | .fetchBlocks _ _ _ _ | .scheduleWiden _ => True
  | .downloaded _ | .fetchNextFrom _ | .scheduleTimeout _ | .cancelTimeout _ | .cancelWiden _
  | .fetchFailure _ | .adversarial _ | .blockReceived _ _ => False

/-- Which peers to ask. -/
structure SelectedPeers where
  weak : Bool
  peers : List Peer

/-- What is known about peers: whom to ask for blocks, how many of them at most, and whom not. -/
abbrev SelectPeers := List ℕ → ℕ → List Peer → SelectedPeers

namespace ChainStore.MissingBlocks

variable (missing : MissingBlocks)

/-- The first and the last missing block. -/
def fromTo : Option (Point × Point) :=
  missing.missing.head?.bind fun first ↦ missing.missing.getLast?.map fun last ↦ (first, last)

/-- The first missing block is there. -/
def shiftOneBlock : MissingBlocks :=
  match missing.missing with
  | [] => missing
  | first :: rest => { boundary := first, missing := rest }

/-- The hashes of the missing blocks. -/
def hashes : List ℕ := missing.missing.map Point.hash

end ChainStore.MissingBlocks

open ChainStore (MissingBlocks)

/-- The state of the stage. -/
structure FetchBlocks where
  reqId : ℕ
  /-- What is left of the batch. -/
  missing : Option MissingBlocks
  /-- The request whose timeout is armed. -/
  timeout : Option ℕ
  noPeersPause : Bool
  blockHeight : ℕ
  fetchStarted : Bool
  /-- The peers that were asked and may still fail. -/
  fetchPeers : SortedSet Peer
  /-- The peers that have failed. -/
  fetchSettled : SortedSet Peer
  /-- The peers that have sent a block in its turn. -/
  fetchContributors : SortedSet Peer
  /-- The peers that were chosen to be asked. -/
  asked : SortedSet Peer
  widenIndex : ℕ
  /-- The request for which more peers are to be asked later. -/
  widen : Option ℕ
  awaitingBroadcast : Bool

namespace FetchBlocks

variable {Body : Type}

/-- The stage at start. -/
def new : FetchBlocks where
  reqId := 0
  missing := none
  timeout := none
  noPeersPause := false
  blockHeight := 0
  fetchStarted := false
  fetchPeers := ∅
  fetchSettled := ∅
  fetchContributors := ∅
  asked := ∅
  widenIndex := 0
  widen := none
  awaitingBroadcast := false

variable (stage : FetchBlocks)

/-- Forget who was asked. -/
def endAttempt : FetchBlocks :=
  { stage with
    fetchStarted := false
    fetchPeers := ∅
    fetchSettled := ∅
    fetchContributors := ∅
    asked := ∅
    awaitingBroadcast := false
    widenIndex := 0 }

/-- Do not ask more peers later. -/
def cancelWiden : FetchBlocks × List FetchEffect :=
  ({ stage with widen := none }, (stage.widen.map FetchEffect.cancelWiden).toList)

/-- Ask more peers later, unless that was done often enough. -/
def armNextWiden : FetchBlocks × List FetchEffect :=
  if stage.fetchStarted && decide (stage.widenIndex < fetchWidenDelays) then
    ({ stage with widen := some stage.reqId }, [.scheduleWiden stage.reqId])
  else (stage, [])

/-- Add peers to a set of them. -/
def addAll (set : SortedSet Peer) (peers : List Peer) : SortedSet Peer :=
  peers.foldl (fun set peer ↦ set.add peer) set

variable (select : SelectPeers)

/-- Ask peers for a batch that is not empty. -/
def startBatch (stage : FetchBlocks) (missing : MissingBlocks)
    (first last : Point) : FetchBlocks × List FetchEffect :=
  let (stage, cancelled) := stage.cancelWiden
  let stage := { stage with reqId := stage.reqId + 1, noPeersPause := false }.endAttempt
  let selected := select missing.hashes maxFetchPeers []
  let (asked, awaitingBroadcast, peers) :=
    if selected.weak || selected.peers.isEmpty then (stage.asked, true, none)
    else (addAll stage.asked selected.peers, stage.awaitingBroadcast, some selected.peers)
  let stage := { stage with
    missing := some missing
    asked, awaitingBroadcast
    fetchStarted := true
    timeout := some stage.reqId }
  let (stage, armed) := stage.armNextWiden
  (stage, cancelled ++ [.fetchBlocks first last stage.reqId peers, .scheduleTimeout stage.reqId] ++ armed)

variable (store : ChainStore Body)

/-- Ask peers for a batch. If nothing is missing, ask for the next tip; a tip whose body is there without
a verdict is handed over before. -/
def requestBlocks (stage : FetchBlocks)
    (missing : MissingBlocks) (tip parent : Point) : FetchBlocks × List FetchEffect :=
  match missing.fromTo with
  | some (first, last) => startBatch select stage missing first last
  | none =>
    ({ stage with missing := none },
      (if parent ≠ tip ∧ (store.loadHeaderWithValidity tip.hash).any (·.2.isNone) = true ∧
          store.hasBlock tip.hash = true then
        [.downloaded ⟨tip, parent, stage.blockHeight⟩]
      else []) ++ [.fetchNextFrom tip])

/-- Look for missing blocks, and ask for them. -/
def requestMissingBlocks (stage : FetchBlocks)
    (tip parent : Point) : Except Termination (FetchBlocks × List FetchEffect) :=
  match store.findMissingBlocks tip.hash maxMissingBlocksPerBatch with
  | .startHeaderNotFound => .error (.headerNotFound tip.hash)
  | .boundaryNotFound => .ok ({ stage with missing := none }, [])
  | .found missing => .ok (requestBlocks select store stage missing tip parent)

/-- Handle a best tip. -/
def newTip (stage : FetchBlocks) (tip parent : Point) : Except Termination (FetchBlocks × List FetchEffect) :=
  if stage.missing.isSome then .error .missingBlocksPending
  else requestMissingBlocks select store
    { stage with blockHeight := max tip.blockHeight stage.blockHeight } tip parent

/-- Hand over the stored blocks of a path, until one is missing. -/
def replay (store : ChainStore Body) (blockHeight : ℕ) :
    Point → List Point → List FetchEffect × Point × List Point
  | parent, [] => ([], parent, [])
  | parent, point :: path =>
    if store.hasBlock point.hash then
      let (replayed, last, toFetch) := replay store blockHeight point path
      (.downloaded ⟨point, parent, blockHeight⟩ :: replayed, last, toFetch)
    else ([], parent, (point :: path).take maxMissingBlocksPerBatch)

/-- Hand over the blocks that are stored between the tip of the ledger and the best candidate, and ask for
those that are missing. -/
def recoverStoredBlocks (stage : FetchBlocks)
    (ledgerTip : Point) (best : ℕ) : Except Termination (FetchBlocks × List FetchEffect) :=
  if stage.missing.isSome then .error .missingBlocksPending
  else if ledgerTip.hash = originHash then
    if best ≠ originHash then .error .recoverInconsistent else .ok (stage, [])
  else match store.ancestorsBetween ledgerTip best with
    | none => .error .recoverInconsistent
    | some path => match store.loadHeader best with
      | none => .error (.headerNotFound best)
      | some header =>
        let stage := { stage with blockHeight := max header.blockHeight stage.blockHeight }
        let (replayed, last, toFetch) := replay store stage.blockHeight ledgerTip path
        let (stage, effects) := requestBlocks select store stage ⟨last, toFetch⟩ header.point last
        .ok (stage, replayed ++ effects)

/-- The batch is complete. -/
def completeBatch (point : Point) : FetchBlocks × List FetchEffect :=
  let (stage, cancelled) :=
    { stage with missing := none, noPeersPause := false }.endAttempt.cancelWiden
  ({ stage with timeout := none },
    cancelled ++ (stage.timeout.map FetchEffect.cancelTimeout).toList ++ [.fetchNextFrom point])

/-- Take a block in its turn. -/
def acceptBlock (stage : FetchBlocks) (missing : MissingBlocks) (peer : Peer)
    (decoded : DecodedBlock Body) : ChainStore Body × FetchBlocks × List FetchEffect :=
  let point := decoded.header.point
  let stage := { stage with fetchContributors := stage.fetchContributors.add peer }
  let downloaded := FetchEffect.downloaded ⟨point, missing.boundary, stage.blockHeight⟩
  let missing := missing.shiftOneBlock
  let (stage, effects) := if missing.missing.isEmpty then stage.completeBatch point
    else ({ stage with missing := some missing }, [])
  (store.storeBlock point.hash decoded.block, stage, downloaded :: effects)

/-- Handle a block that a peer sent. -/
def block (stage : FetchBlocks) (peer : Peer)
    (networkBlock : NetworkBlock Body) : ChainStore Body × FetchBlocks × List FetchEffect :=
  match networkBlock.decodeBlock with
  | none => (store, stage, [])
  | some decoded =>
    if !decoded.bodyMatches then (store, stage, [.adversarial peer])
    else match stage.missing with
      | none => (store, stage, [])
      | some missing =>
        if decoded.header.parent = some missing.boundary.hash ∧
            missing.missing.head? = some decoded.header.point then
          acceptBlock store stage missing peer decoded
        else (store, stage, [])

/-- Note which peers were asked. -/
def peersAsked (reqId : ℕ) (peers : List Peer) : FetchBlocks :=
  if reqId ≠ stage.reqId ∨ stage.missing.isNone = true then stage
  else
    let fresh := peers.filter fun peer ↦
      !(stage.fetchSettled.contains peer) && !(stage.fetchPeers.contains peer)
    { stage with
      fetchPeers := addAll stage.fetchPeers fresh
      asked := addAll stage.asked fresh
      awaitingBroadcast := false }

/-- A peer does not have the blocks. -/
def noBlocks (reqId : ℕ) (peer : Peer) : FetchBlocks × List FetchEffect :=
  if reqId ≠ stage.reqId ∨ stage.missing.isNone = true then (stage, [])
  else if stage.fetchSettled.contains peer then (stage, [])
  else ({ stage with
      fetchSettled := stage.fetchSettled.add peer
      fetchPeers := stage.fetchPeers.erase peer }, [.fetchFailure [peer]])

/-- No peer was asked. -/
def noPeersAvailable (reqId : ℕ) : FetchBlocks :=
  if reqId ≠ stage.reqId ∨ stage.missing.isNone = true then stage
  else { stage with
    noPeersPause := true
    fetchPeers := ∅
    fetchSettled := ∅
    fetchContributors := ∅
    asked := ∅
    awaitingBroadcast := false }

/-- The peers that were asked for the batch and have sent nothing. -/
def failedPeers : List Peer :=
  stage.fetchPeers.keys.filter fun peer ↦ !(stage.fetchContributors.contains peer)

/-- The batch takes too long. -/
def handleTimeout (reqId : ℕ) : FetchBlocks × List FetchEffect :=
  if reqId ≠ stage.reqId then (stage, [])
  else
    let failures := if stage.noPeersPause || stage.failedPeers.isEmpty then []
      else [FetchEffect.fetchFailure stage.failedPeers]
    let stage := { stage with fetchPeers := ∅, fetchContributors := ∅, fetchSettled := ∅ }
    match stage.missing with
    | none => (stage, failures)
    | some missing =>
      let (stage, cancelled) :=
        { stage with timeout := none, missing := none, noPeersPause := false }.endAttempt.cancelWiden
      (stage, failures ++ cancelled ++ [.fetchNextFrom missing.boundary])

/-- Ask more peers for what is left of the batch. -/
def handleWiden (stage : FetchBlocks) (reqId : ℕ) : FetchBlocks × List FetchEffect :=
  if reqId ≠ stage.reqId then (stage, [])
  else
    let stage := { stage with widen := none }
    match stage.missing with
    | none => (stage, [])
    | some missing =>
      let (stage, armed) := { stage with widenIndex := stage.widenIndex + 1 }.armNextWiden
      let already := stage.asked.insertAll stage.fetchPeers
      let room := maxFetchPeers - already.keys.length
      if (stage.awaitingBroadcast && stage.fetchPeers.keys.isEmpty) || decide (room = 0) then (stage, armed)
      else match missing.fromTo with
        | none => (stage, armed)
        | some (first, last) =>
          let selected := select missing.hashes room already.keys
          let fresh := selected.peers.filter fun peer ↦
            !(stage.asked.contains peer) && !(stage.fetchPeers.contains peer)
          if selected.weak || fresh.isEmpty then (stage, armed)
          else ({ stage with asked := addAll stage.asked fresh },
            armed ++ [.fetchBlocks first last stage.reqId (some fresh)])

/-- Handle a message. -/
def handle (stage : FetchBlocks) :
    FetchBlocksMsg Body → Except Termination (ChainStore Body × FetchBlocks × List FetchEffect)
  | .newTip tip parent => (newTip select store stage tip parent).map (store, ·)
  | .recoverStoredBlocks ledgerTip best =>
    (recoverStoredBlocks select store stage ledgerTip best).map (store, ·)
  | .block peer networkBlock => .ok (stage.block store peer networkBlock)
  | .timeout reqId => .ok (store, stage.handleTimeout reqId)
  | .widen reqId => .ok (store, stage.handleWiden select reqId)
  | .peersAsked reqId peers => .ok (store, stage.peersAsked reqId peers, [])
  | .noBlocks reqId peer => .ok (store, stage.noBlocks reqId peer)
  | .noPeersAvailable reqId => .ok (store, stage.noPeersAvailable reqId, [])

theorem armNextWiden_eq : ∃ widen armed,
    stage.armNextWiden = ({ stage with widen }, armed) ∧ ∀ effect ∈ armed, effect.Asks := by
  rw [armNextWiden]
  split_ifs
  · exact ⟨_, _, rfl, by simp [FetchEffect.Asks]⟩
  · exact ⟨stage.widen, _, rfl, by simp⟩

theorem handleWiden_keeps (stage : FetchBlocks) (reqId : ℕ) :
    (stage.handleWiden select reqId).1.missing = stage.missing ∧
      (stage.handleWiden select reqId).1.reqId = stage.reqId ∧
      (stage.handleWiden select reqId).1.fetchPeers = stage.fetchPeers ∧
      (stage.handleWiden select reqId).1.blockHeight = stage.blockHeight ∧
      ∀ effect ∈ (stage.handleWiden select reqId).2, effect.Asks := by
  rw [handleWiden]
  split_ifs
  · exact ⟨rfl, rfl, rfl, rfl, by simp⟩
  rcases hmissing : stage.missing with - | missing
  · simp
  obtain ⟨widen, armed, harmed, hasks⟩ :=
    armNextWiden_eq { stage with widen := none, widenIndex := stage.widenIndex + 1 }
  simp only [hmissing] at harmed ⊢
  rw [harmed]
  split
  · exact ⟨rfl, rfl, rfl, rfl, hasks⟩
  split
  · exact ⟨rfl, rfl, rfl, rfl, hasks⟩
  split
  · exact ⟨rfl, rfl, rfl, rfl, hasks⟩
  · exact ⟨rfl, rfl, rfl, rfl, List.forall_mem_append.2 ⟨hasks, by simp [FetchEffect.Asks]⟩⟩

end FetchBlocks

/-! ### Replies -/

/-- A reply to a request for blocks. -/
inductive Blocks (Body : Type)
  | noBlocks (id : ℕ) (peer : Peer)
  | noPeersAvailable (id : ℕ)
  | peersAsked (id : ℕ) (peers : List Peer)
  | block (id : ℕ) (peer : Peer) (networkBlock : NetworkBlock Body)
  | done (id : ℕ)

/-- The stage that keeps replies to earlier requests away. -/
structure Cleanup where
  currId : ℕ

namespace Cleanup

variable {Body : Type}

/-- The stage at start. -/
def new : Cleanup := ⟨0⟩

/-- Handle a reply. What answers an earlier request is not forwarded to the stage that fetches blocks. -/
def handle (cleanup : Cleanup) : Blocks Body → Cleanup × List (FetchBlocksMsg Body) × List FetchEffect
  | .noBlocks id peer => (cleanup, if cleanup.currId ≤ id then [.noBlocks id peer] else [], [])
  | .noPeersAvailable id => (cleanup, [.noPeersAvailable id], [])
  | .peersAsked id peers => (cleanup, if cleanup.currId ≤ id then [.peersAsked id peers] else [], [])
  | .block id peer networkBlock => match networkBlock.decodeHeader with
    | none => (cleanup, [], [.adversarial peer])
    | some header =>
      (⟨max id cleanup.currId⟩, if cleanup.currId ≤ id then [.block peer networkBlock] else [],
        [.blockReceived peer header.point])
  -- the next request is expected, though other peers may not be done
  | .done id => (⟨max (id + 1) cleanup.currId⟩, [], [])

end Cleanup

end Amaru
