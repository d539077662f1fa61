import Amaru.Consensus.FetchBlocks

/-!
# The stage that tracks peers

Each connection to a peer follows the chain of that peer. The stage keeps the point that a connection has
come to, and takes the next header only if it follows on that point. A header that cannot be validated yet is
**deferred**: if it is too far ahead of the ledger, if the stake distribution for it is missing, or if its
slot has not begun. What comes after it on the same connection is deferred with it. All this is tried again
when the ledger or the time has moved on.

A peer whose header fails is reported as an **adversary**, and the connection is forgotten.

A step is given what it reads: the time, the height of the ledger, and how headers are validated against what
is stored. Times are in milliseconds.
-/

namespace Amaru

/-! ### What comes in -/

/-- The name of an era. -/
inductive EraName
  | byron
  | shelley
  | allegra
  | mary
  | alonzo
  | babbage
  | conway
  | dijkstra
deriving DecidableEq, Repr

/-- A connection. -/
abbrev ConnectionId := ℕ

/-- A header as it is sent. -/
structure HeaderContent where
  variant : EraName
  /-- The header, if the bytes can be decoded. -/
  header? : Option Header

/-- The header that is sent. Only one era is supported. -/
def decodeHeader (content : HeaderContent) : Option Header :=
  if content.variant = .conway then content.header? else none

/-- What a connection reports. -/
inductive InitiatorResult
  | initialise
  | intersectFound (current tip : Point)
  | intersectNotFound (tip : Point)
  | rollForward (content : HeaderContent) (tip : Point)
  | rollBackward (current tip : Point)
  | terminated

/-- A message to the stage. -/
inductive TrackPeersMsg
  | fromUpstream (peer : Peer) (connId : ConnectionId) (msg : InitiatorResult)
  | stakeDistUpdated (maxEpoch : ℕ)
  | recheckLedgerHeight

/-- What the stage does to others. -/
inductive TrackEffect
  /-- The connection is asked for the next header. -/
  | requestNext (connId : ConnectionId)
  /-- The connection is asked to end. -/
  | done (connId : ConnectionId)
  | adversarial (peer : Peer)
  /-- The peer is of no interest for a while, or for a longer while. -/
  | uninteresting (peer : Peer) (connId : ConnectionId) (longer : Bool)
  /-- A new header is stored. -/
  | newTip (tip parent : Point)
  | schedule (when : ℕ)
  | cancelSchedule
deriving DecidableEq

/-! ### What is stored -/

/-- The headers that were validated, with the nonces that came of it. -/
structure HeaderStore (Nonces : Type) where
  headers : SortedMap ℕ Header
  nonces : SortedMap ℕ Nonces

namespace HeaderStore

variable {Nonces : Type} (store : HeaderStore Nonces)

/-- The point of the header with a hash. -/
def loadPoint (hash : ℕ) : Option Point :=
  if hash = originHash then some .origin else (store.headers.get? hash).map Header.point

/-- The nonces of the header with a hash. -/
def getNonces (hash : ℕ) : Option Nonces := store.nonces.get? hash

/-- Store a header with its nonces. -/
def storeValidatedHeader (header : Header) (nonces : Nonces) : HeaderStore Nonces where
  headers := store.headers.insert header.hash header
  nonces := store.nonces.insert header.hash nonces

end HeaderStore

/-! ### The state of the stage -/

/-- How long to wait before the height of the ledger is looked at again. -/
def heightRecheckInterval : ℕ := 200

/-- How far in the future a slot may begin. -/
def maxHeaderClockSkew : ℕ := 2000

/-- What is known of a connection. -/
inductive PerPeer
  | connecting (peer : Peer)
  | established (peer : Peer) (current highest : Point)

/-- The point that a connection has come to, and the tip of the peer. -/
def PerPeer.established? : PerPeer → Option (Point × Point)
  | .connecting _ => none
  | .established _ current highest => some (current, highest)

/-- Why a header is deferred. -/
inductive DeferReason
  | ledgerHeight (minHeight : ℕ)
  | stakeDistribution (epoch : ℕ) (rnSent : Bool)
  | clockSkew (minTime : ℕ) (rnSent : Bool)
  /-- Another header of the connection is deferred. -/
  | followUp

/-- A header that is deferred. -/
structure DeferredHeader where
  peer : Peer
  connId : ConnectionId
  header : Header
  tip : Point
  variant : EraName
  reason : DeferReason

/-- A header that a connection is to be rolled forward to. -/
structure RollForwardArgs where
  peer : Peer
  connId : ConnectionId
  sentRequestNext : Bool
  variant : EraName
  header : Header
  tip : Point

/-- The next header was asked for already. -/
def DeferReason.rnSent : DeferReason → Bool
  | .ledgerHeight _ | .followUp => false
  | .stakeDistribution _ rnSent | .clockSkew _ rnSent => rnSent

/-- A deferred header that is tried again. -/
def DeferredHeader.args (deferred : DeferredHeader) : RollForwardArgs where
  peer := deferred.peer
  connId := deferred.connId
  sentRequestNext := deferred.reason.rnSent
  variant := deferred.variant
  header := deferred.header
  tip := deferred.tip

/-- A header that is deferred for a reason. -/
def RollForwardArgs.deferred (args : RollForwardArgs) (reason : DeferReason) : DeferredHeader where
  peer := args.peer
  connId := args.connId
  header := args.header
  tip := args.tip
  variant := args.variant
  reason

/-- The stage. -/
structure TrackPeers where
  upstream : SortedMap ConnectionId PerPeer
  maxPeerLead : ℕ
  ledgerAppliedBlockHeight : ℕ
  ledgerLastCheckedAt : ℕ
  maxEpoch : ℕ
  deferred : List DeferredHeader
  /-- When deferred headers are tried again. -/
  recheckTimer : Option ℕ

/-- The stage at start. -/
def TrackPeers.new (maxPeerLead maxEpoch : ℕ) : TrackPeers where
  upstream := ∅
  maxPeerLead
  ledgerAppliedBlockHeight := 0
  ledgerLastCheckedAt := 0
  maxEpoch
  deferred := []
  recheckTimer := none

/-- The history of eras. -/
structure EraTimes where
  slotToEraTag : ℕ → Option EraName
  /-- When a slot begins, if that can be foreseen from another. -/
  slotToRelativeTime : ℕ → ℕ → Option ℕ
  slotToEpoch : ℕ → ℕ

/-- Why the ledger does not validate a header. -/
inductive ValidateHeaderError
  /-- The stake distribution of an epoch is missing. -/
  | missingStakeDistribution (target : ℕ)
  | invalid
deriving DecidableEq

/-- What a step reads. -/
structure Reading (Nonces : Type) where
  now : ℕ
  ledgerHeight : ℕ
  validateHeader : HeaderStore Nonces → Header → Except ValidateHeaderError Nonces

/-- Why a header is not taken. -/
inductive TrackPeersError
  | eraHistory
  | eraNameMismatch (fromRawHeader fromSlot : EraName)
  | unknownPeer (peer : Peer)
  | unknownPoint (hash : ℕ)
  | invalidHeaderParent (peer : Peer) (forwarded : Point) (actual : Option ℕ) (expected : Point)
  | invalidHeaderHeight (actual expected : ℕ)
  | invalidHeaderPoint (actual parent highest : Point)
  | headerSlotTooFarInFuture (actual parent highest : Point) (onset elapsed : ℕ)
  | headerSlotInNearFuture (slot : ℕ)
  | invalidHeader (point : Point) (error : ValidateHeaderError)

/-- The stage, what is stored, and what was sent. -/
structure TrackStage (Nonces : Type) where
  peers : TrackPeers
  store : HeaderStore Nonces
  sent : List TrackEffect

namespace TrackPeers

variable (peers : TrackPeers)

/-- Forget a connection. -/
def purgeConnection (connId : ConnectionId) : TrackPeers :=
  { peers with
    upstream := peers.upstream.erase connId
    deferred := peers.deferred.filter fun d ↦ d.connId ≠ connId }

/-- A connection has come to another point. -/
def moveTo (connId : ConnectionId) (current highest : Point) : TrackPeers :=
  { peers with upstream := peers.upstream.modify connId fun
    | .connecting peer => .connecting peer
    | .established peer _ _ => .established peer current highest }

/-- Defer a header. -/
def defer (deferred : DeferredHeader) : TrackPeers :=
  { peers with deferred := peers.deferred ++ [deferred] }

/-- A header of the connection is deferred. -/
def isDeferred (connId : ConnectionId) : Bool := peers.deferred.any fun d ↦ d.connId = connId

/-- Defer a header for which the stake distribution is missing, unless it is too far ahead. -/
def tryDeferForStake (args : RollForwardArgs) : TrackPeersError → Option DeferredHeader
  | .invalidHeader _ (.missingStakeDistribution target) =>
    if target - peers.maxEpoch > 1 then none
    else some (args.deferred (.stakeDistribution target args.sentRequestNext))
  | _ => none

/-- Defer a header whose slot is about to begin. -/
def tryDeferForClockSkew (times : EraTimes) (now : ℕ) (args : RollForwardArgs) :
    TrackPeersError → Option DeferredHeader
  | .headerSlotInNearFuture _ =>
    ((peers.upstream.get? args.connId).bind PerPeer.established?).bind fun (current, _) ↦
      (times.slotToRelativeTime args.header.slot current.slotOrDefault).map fun onset ↦
        args.deferred (.clockSkew (now + (onset - now)) args.sentRequestNext)
  | _ => none

/-- When deferred headers are to be tried again. -/
def nextRecheckAt (now : ℕ) : Option ℕ :=
  (peers.deferred.filterMap fun d ↦ match d.reason with
    | .ledgerHeight _ => some (now + heightRecheckInterval)
    | .clockSkew minTime _ => some minTime
    | .stakeDistribution _ _ | .followUp => none).min?

/-- Set the timer to the time when deferred headers are to be tried again. -/
def ensureRecheckArmed (now : ℕ) : TrackPeers × List TrackEffect :=
  match peers.nextRecheckAt now with
  | none => match peers.recheckTimer with
    | some _ => ({ peers with recheckTimer := none }, [.cancelSchedule])
    | none => (peers, [])
  | some time => match peers.recheckTimer with
    | some timer =>
      if timer ≤ time then (peers, [])
      else ({ peers with recheckTimer := some time }, [.cancelSchedule, .schedule time])
    | none => ({ peers with recheckTimer := some time }, [.schedule time])

/-- A deferred header has to wait. -/
def waits (now : ℕ) (deferred : DeferredHeader) : Bool :=
  match deferred.reason with
  | .ledgerHeight minHeight => peers.ledgerAppliedBlockHeight < minHeight
  | .stakeDistribution epoch _ => peers.maxEpoch < epoch
  | .clockSkew minTime _ => now < minTime
  | .followUp => false

end TrackPeers

namespace TrackStage

variable {Nonces : Type} (times : EraTimes) (reading : Reading Nonces) (stage : TrackStage Nonces)

def send (effect : TrackEffect) : TrackStage Nonces := { stage with sent := stage.sent ++ [effect] }

/-- Set the timer. -/
def ensureRecheckArmed : TrackStage Nonces :=
  { stage with
    peers := (stage.peers.ensureRecheckArmed reading.now).1
    sent := stage.sent ++ (stage.peers.ensureRecheckArmed reading.now).2 }

/-- Validate a header: it follows on the point that the connection has come to, its slot has begun, and the
ledger takes it. A header with nonces was validated before. -/
def validateHeader (args : RollForwardArgs) : Except TrackPeersError (Option (Point × Nonces)) :=
  match times.slotToEraTag args.header.slot with
  | none => .error .eraHistory
  | some era =>
    if era ≠ args.variant then .error (.eraNameMismatch args.variant era)
    else match (stage.peers.upstream.get? args.connId).bind PerPeer.established? with
    | none => .error (.unknownPeer args.peer)
    | some (current, _) =>
      if args.header.parent.getD originHash ≠ current.hash then
        .error (.invalidHeaderParent args.peer args.header.point args.header.parent current)
      else if args.header.blockHeight ≠ current.blockHeight + 1 then
        .error (.invalidHeaderHeight args.header.blockHeight (current.blockHeight + 1))
      else if args.header.slot ≤ current.slotOrDefault then
        .error (.invalidHeaderPoint args.header.point current args.tip)
      else match times.slotToRelativeTime args.header.slot current.slotOrDefault with
      | none => .error .eraHistory
      | some onset =>
        if onset > reading.now then
          if onset - reading.now > maxHeaderClockSkew then
            .error (.headerSlotTooFarInFuture args.header.point current args.tip onset reading.now)
          else .error (.headerSlotInNearFuture args.header.slot)
        else if (stage.store.getNonces args.header.hash).isSome then .ok none
        else match reading.validateHeader stage.store args.header with
        | .error error => .error (.invalidHeader args.header.point error)
        | .ok nonces => .ok (some (current, nonces))

/-- Roll a connection forward to a header. The header is deferred, or the peer is an adversary, if it is not
valid. -/
def tryRollForward (args : RollForwardArgs) : TrackStage Nonces × Option DeferredHeader :=
  match stage.validateHeader times reading args with
  | .error error => match stage.peers.tryDeferForStake args error with
    | some deferred => (stage, some deferred)
    | none => match stage.peers.tryDeferForClockSkew times reading.now args error with
      | some deferred => (stage, some deferred)
      | none =>
        (send { stage with peers := stage.peers.purgeConnection args.connId } (.adversarial args.peer), none)
  | .ok validated =>
    let stage := { stage with peers := stage.peers.moveTo args.connId args.header.point args.tip }
    let stage := match validated with
      | none => stage
      | some (parent, nonces) =>
        send { stage with store := stage.store.storeValidatedHeader args.header nonces }
          (.newTip args.header.point parent)
    (if args.sentRequestNext then stage else stage.send (.requestNext args.connId), none)

/-- The height of the ledger, which is looked up at most twice a second if a header is ahead of it. -/
def lookAtLedger (limit : ℕ) : TrackPeers :=
  if limit > stage.peers.ledgerAppliedBlockHeight ∧
      (reading.now - stage.peers.ledgerLastCheckedAt > 500 ∨ stage.peers.ledgerAppliedBlockHeight = 0) then
    { stage.peers with
      ledgerLastCheckedAt := reading.now
      ledgerAppliedBlockHeight := reading.ledgerHeight }
  else stage.peers

/-- A header comes in. -/
def handleRollForward (peer : Peer) (connId : ConnectionId) (content : HeaderContent) (tip : Point) :
    TrackStage Nonces :=
  match decodeHeader content with
  | none => send { stage with peers := stage.peers.purgeConnection connId } (.adversarial peer)
  | some header =>
    let args : RollForwardArgs :=
      { peer, connId, sentRequestNext := true, variant := content.variant, header, tip }
    if stage.peers.isDeferred connId then
      { stage with peers := stage.peers.defer (args.deferred .followUp) }
    else
      let limit := header.blockHeight - stage.peers.maxPeerLead
      let stage := { stage with peers := stage.lookAtLedger reading limit }
      if stage.peers.ledgerAppliedBlockHeight < limit then
        ensureRecheckArmed reading
          { stage with peers := stage.peers.defer (args.deferred (.ledgerHeight limit)) }
      else match (stage.send (.requestNext connId)).tryRollForward times reading args with
        | (stage, some deferred) =>
          ensureRecheckArmed reading { stage with peers := stage.peers.defer deferred }
        | (stage, none) => stage

/-- The peer rolls back. -/
def rollBackward (peer : Peer) (connId : ConnectionId) (current tip : Point) :
    Except TrackPeersError TrackPeers :=
  match stage.store.loadPoint current.hash with
  | none => .error (.unknownPoint current.hash)
  | some currentTip => match (stage.peers.upstream.get? connId).bind PerPeer.established? with
    | none => .error (.unknownPeer peer)
    | some _ => .ok (stage.peers.moveTo connId currentTip tip)

def handleRollBackward (peer : Peer) (connId : ConnectionId) (current tip : Point) : TrackStage Nonces :=
  match stage.rollBackward peer connId current tip with
  | .ok peers => send { stage with peers } (.requestNext connId)
  | .error (.unknownPoint _) =>
    let stage := (stage.send (.uninteresting peer connId true)).send (.done connId)
    { stage with peers := stage.peers.purgeConnection connId }
  | .error _ =>
    let stage := stage.send (.requestNext connId)
    send { stage with peers := stage.peers.purgeConnection connId } (.adversarial peer)

/-- A connection reports. -/
def handleFromUpstream (peer : Peer) (connId : ConnectionId) (msg : InitiatorResult) : TrackStage Nonces :=
  match msg with
  | .initialise =>
    let peers := stage.peers.purgeConnection connId
    { stage with peers := { peers with upstream := peers.upstream.insert connId (.connecting peer) } }
  | .terminated => { stage with peers := stage.peers.purgeConnection connId }
  | .intersectFound current tip => match stage.store.loadPoint current.hash with
    | none => stage.send (.done connId)
    | some currentTip =>
      { stage with peers := { stage.peers with
        upstream := stage.peers.upstream.insert connId (.established peer currentTip tip) } }
  | .intersectNotFound _ =>
    let stage := (stage.send (.uninteresting peer connId false)).send (.done connId)
    { stage with peers := stage.peers.purgeConnection connId }
  | .rollForward content tip => stage.handleRollForward times reading peer connId content tip
  | .rollBackward current tip => stage.handleRollBackward peer connId current tip

/-- Try a deferred header again, unless it or an earlier one of its connection has to wait. -/
def recheckOne (progress : TrackStage Nonces × List ConnectionId) (deferred : DeferredHeader) :
    TrackStage Nonces × List ConnectionId :=
  let (stage, blocked) := progress
  if !stage.peers.upstream.contains deferred.connId then (stage, blocked)
  else if blocked.contains deferred.connId || stage.peers.waits reading.now deferred then
    ({ stage with peers := stage.peers.defer deferred }, deferred.connId :: blocked)
  else match stage.tryRollForward times reading deferred.args with
    | (stage, some deferred') =>
      ({ stage with peers := stage.peers.defer deferred' }, deferred.connId :: blocked)
    | (stage, none) => (stage, blocked)

/-- Try all deferred headers again, in order. -/
def recheckDeferred : TrackStage Nonces :=
  let peers := { stage.peers with ledgerAppliedBlockHeight := reading.ledgerHeight, deferred := [] }
  ensureRecheckArmed reading
    (stage.peers.deferred.foldl (recheckOne times reading) ({ stage with peers }, [])).1

/-- The stage handles a message. -/
def handle : TrackPeersMsg → TrackStage Nonces
  | .fromUpstream peer connId msg => stage.handleFromUpstream times reading peer connId msg
  | .stakeDistUpdated maxEpoch =>
    recheckDeferred times reading { stage with peers := { stage.peers with maxEpoch } }
  | .recheckLedgerHeight =>
    recheckDeferred times reading { stage with peers := { stage.peers with recheckTimer := none } }

end TrackStage

end Amaru
