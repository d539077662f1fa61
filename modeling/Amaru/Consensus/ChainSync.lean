import Amaru.Consensus.TrackPeers

/-!
# What a peer may send

A peer **follows the protocol** if each header that it sends comes right after the point that it has come to,
and it rolls back to a point of its chain that is stored. Its headers are valid if the ledger takes each of
them once the parent is stored, or misses the stake distribution (`Conforming`). `Tracked` are the states that
the stage reaches with one such peer, while others may send anything.

`Rolls` says what becomes of a header. A header that the peer may send after the point that the stage has for
the connection is taken or deferred, but **never rejected** for want of anything but a stake distribution that
is more than an epoch away (`maxEpoch_lt_of_rejected`). So the headers that are deferred for a connection
should lie on a **line** from that point to the one that the peer has come to (`OnLine`).
-/

namespace Amaru

open TrackPeers SortedMap Option List TrackStage

variable {Nonces : Type}

/-! ### What a peer may send -/

/-- A header may come right after a point. -/
structure Follows (times : EraTimes) (p : Point) (header : Header) : Prop where
  parent : header.parent.getD originHash = p.hash
  height : header.blockHeight = p.blockHeight + 1
  slot : p.slotOrDefault < header.slot
  era : times.slotToEraTag header.slot = some .conway
  foreseeable : (times.slotToRelativeTime header.slot p.slotOrDefault).isSome

/-- The slot of a header that comes after a point begins soon, if it has not begun. -/
def Timely (times : EraTimes) (now : ℕ) (p : Point) (header : Header) : Prop :=
  ∀ onset, times.slotToRelativeTime header.slot p.slotOrDefault = some onset →
    onset ≤ now + maxHeaderClockSkew

/-- The header at a point is stored with its nonces. -/
def HeaderStore.Ready (store : HeaderStore Nonces) (p : Point) : Prop :=
  store.loadPoint p.hash = some p ∧ (p = .origin ∨ (store.getNonces p.hash).isSome)

/-- The stage, the point that each peer has come to on a connection, and the time. -/
structure Tracking (Nonces : Type) where
  stage : TrackStage Nonces
  pointer : ConnectionId → Option Point
  clock : ℕ

/-- A connection reports what a peer may send. The connection has looked up the points that it reports. -/
inductive Conforms (times : EraTimes) (tree : HeaderTree) (tracking : Tracking Nonces) (now : ℕ)
    (connId : ConnectionId) : InitiatorResult → Prop
  | initialise : Conforms times tree tracking now connId .initialise
  | terminated : Conforms times tree tracking now connId .terminated
  | intersectNotFound (tip : Point) : Conforms times tree tracking now connId (.intersectNotFound tip)
  | intersectFound {current tip} (hpointer : tracking.pointer connId = none)
    (hstored : tracking.stage.store.loadPoint current.hash = some current) :
    Conforms times tree tracking now connId (.intersectFound current tip)
  | rollForward {header tip p} (hpointer : tracking.pointer connId = some p)
    (htree : tree.header header.hash = some header) (hfollows : Follows times p header)
    (htimely : Timely times now p header) :
    Conforms times tree tracking now connId (.rollForward ⟨.conway, some header⟩ tip)
  | rollBackward {current tip p} (hpointer : tracking.pointer connId = some p)
    (hancestor : current = .origin ∨ tree.Ancestor current p)
    (hstored : tracking.stage.store.loadPoint current.hash = some current) :
    Conforms times tree tracking now connId (.rollBackward current tip)

/-- The point that a peer has come to, once it has sent something. -/
def InitiatorResult.pointer : InitiatorResult → Option Point
  | .initialise | .terminated | .intersectNotFound _ => none
  | .intersectFound current _ | .rollBackward current _ => some current
  | .rollForward content _ => content.header?.map Header.point

/-- The stage handles a message. -/
def Tracking.step (times : EraTimes) (tracking : Tracking Nonces) (msg : TrackPeersMsg)
    (reading : Reading Nonces) : Tracking Nonces where
  stage := tracking.stage.handle times reading msg
  pointer := match msg with
    | .fromUpstream _ connId msg => Function.update tracking.pointer connId msg.pointer
    | .stakeDistUpdated _ | .recheckLedgerHeight => tracking.pointer
  clock := reading.now

/-- The ledger takes the headers of the tree, or misses the stake distribution of two epochs before. -/
def Reading.Sound (times : EraTimes) (tree : HeaderTree) (reading : Reading Nonces) : Prop :=
  ∀ store p header, tree.header header.hash = some header → Follows times p header → store.Ready p →
    (∃ nonces, reading.validateHeader store header = .ok nonces) ∨
    reading.validateHeader store header =
      .error (.missingStakeDistribution (times.slotToEpoch header.slot - 2))

/-- What is given: whose each connection is, and which header has a hash. -/
structure Peering where
  owner : ConnectionId → Peer
  headerOf : ℕ → Header

/-- The header has a hash of its own. -/
def Peering.Knows (peering : Peering) (header : Header) : Prop :=
  peering.headerOf header.hash = header ∧ header.hash ≠ originHash

/-- What every step has to do with: time goes on, the ledger takes valid headers, and one peer follows the
protocol. Others may send anything. -/
structure Conforming (times : EraTimes) (tree : HeaderTree) (peering : Peering) (peer : Peer)
    (tracking : Tracking Nonces) (msg : TrackPeersMsg) (reading : Reading Nonces) : Prop where
  clock_le : tracking.clock ≤ reading.now
  sound : reading.Sound times tree
  owner : ∀ {sender connId result}, msg = .fromUpstream sender connId result → peering.owner connId = sender
  knows : ∀ {sender connId content tip header},
    msg = .fromUpstream sender connId (.rollForward content tip) → content.header? = some header →
    peering.Knows header
  conforms : ∀ {connId result}, msg = .fromUpstream peer connId result →
    Conforms times tree tracking reading.now connId result

/-- What is stored at start. -/
structure HeaderStore.Valid (peering : Peering) (store : HeaderStore Nonces) : Prop where
  nonces_of : ∀ {hash header}, store.headers.get? hash = some header → (store.nonces.get? hash).isSome
  header_of : ∀ {hash}, hash ≠ originHash → (store.nonces.get? hash).isSome →
    ∃ header, store.headers.get? hash = some header
  knows : ∀ {hash header}, store.headers.get? hash = some header → header.hash = hash ∧ peering.Knows header

/-- The states that are reached while a peer follows the protocol, and each message is one of those that are
allowed. -/
inductive Tracked (times : EraTimes) (tree : HeaderTree) (peering : Peering) (peer : Peer)
    (Allowed : Tracking Nonces → TrackPeersMsg → Prop) : Tracking Nonces → Prop
  | start {store} (maxPeerLead maxEpoch : ℕ) (hstore : store.Valid peering) :
    Tracked times tree peering peer Allowed
      { stage := { peers := .new maxPeerLead maxEpoch, store, sent := [] }
        pointer := fun _ ↦ none
        clock := 0 }
  | step {tracking msg reading} (htracked : Tracked times tree peering peer Allowed tracking)
    (hconforming : Conforming times tree peering peer tracking msg reading)
    (hallowed : Allowed tracking msg) :
    Tracked times tree peering peer Allowed (tracking.step times msg reading)

/-- A header of the peer is to be validated. -/
def Tracking.Pending (peer : Peer) (tracking : Tracking Nonces) (msg : TrackPeersMsg) (header : Header) :
    Prop :=
  (∃ d ∈ tracking.stage.peers.deferred, d.peer = peer ∧ d.header = header) ∨
    ∃ connId content tip, msg = .fromUpstream peer connId (.rollForward content tip) ∧
      content.header? = some header

/-- The last epoch whose stake distribution is known. -/
def Tracking.maxEpoch (tracking : Tracking Nonces) : TrackPeersMsg → ℕ
  | .stakeDistUpdated maxEpoch => maxEpoch
  | .fromUpstream _ _ _ | .recheckLedgerHeight => tracking.stage.peers.maxEpoch

/-- The peer does not roll back on a connection with deferred headers, and is not more than an epoch ahead of
the stake distributions. -/
structure Calm (times : EraTimes) (peer : Peer) (tracking : Tracking Nonces) (msg : TrackPeersMsg) :
    Prop where
  rollBackward : ∀ {connId current tip}, msg = .fromUpstream peer connId (.rollBackward current tip) →
    tracking.stage.peers.isDeferred connId = false
  stake : ∀ {header}, tracking.Pending peer msg header →
    times.slotToEpoch header.slot - 2 ≤ tracking.maxEpoch msg + 1

/-! ### What is stored stays -/

section Store

variable {peering : Peering} {store store' : HeaderStore Nonces} {header : Header} {p : Point}

/-- What is stored of a header that was validated. -/
def Stores (store : HeaderStore Nonces) (header : Header) (store' : HeaderStore Nonces) : Prop :=
  store' = store ∧ (store.getNonces header.hash).isSome ∨
    ∃ nonces, store' = store.storeValidatedHeader header nonces

theorem HeaderStore.Valid.ready (h : store.Valid peering) (hload : store.loadPoint p.hash = some p) :
    store.Ready p := by
  refine ⟨hload, ?_⟩
  rw [loadPoint] at hload
  split_ifs at hload with horigin
  · exact .inl (some.inj hload).symm
  · obtain ⟨header, hheader, -⟩ := map_eq_some_iff.1 hload
    exact .inr (h.nonces_of hheader)

variable (hvalid : store.Valid peering) (hknows : peering.Knows header)
  (hstores : Stores store header store')
include hvalid hknows hstores

theorem HeaderStore.Valid.stores : store'.Valid peering := by
  rcases hstores with ⟨rfl, -⟩ | ⟨nonces, rfl⟩
  · exact hvalid
  constructor
  · intro hash header' hget
    rw [storeValidatedHeader, get?_insert] at hget ⊢
    split_ifs at hget ⊢
    · rfl
    · exact hvalid.nonces_of hget
  · intro hash horigin hget
    rw [storeValidatedHeader, get?_insert] at hget ⊢
    split_ifs at hget ⊢
    · exact ⟨header, rfl⟩
    · exact hvalid.header_of horigin hget
  · intro hash header' hget
    rw [storeValidatedHeader, get?_insert] at hget
    split_ifs at hget with heq
    · cases hget
      exact ⟨heq.symm, hknows⟩
    · exact hvalid.knows hget

theorem HeaderStore.Ready.stores (h : store.Ready p) : store'.Ready p := by
  have hvalid' := hvalid.stores hknows hstores
  rcases hstores with ⟨rfl, -⟩ | ⟨nonces, rfl⟩
  · exact h
  refine hvalid'.ready ?_
  have hload := h.1
  rw [loadPoint] at hload ⊢
  split_ifs at hload ⊢ with horigin
  · exact hload
  rw [storeValidatedHeader, get?_insert]
  split_ifs with heq
  · -- a header is known by its hash
    obtain ⟨header', hheader', hpoint⟩ := map_eq_some_iff.1 hload
    obtain ⟨hhash, hknows'⟩ := hvalid.knows hheader'
    have hsame : header' = header := by
      rw [← hknows'.1, ← hknows.1, hhash, heq]
    rw [map_some, ← hsame, hpoint]
  · exact hload

theorem HeaderStore.Valid.ready_of_stores : store'.Ready header.point := by
  have hvalid' := hvalid.stores hknows hstores
  refine hvalid'.ready ?_
  rw [loadPoint, Header.hash_point, if_neg hknows.2]
  rcases hstores with ⟨rfl, hnonces⟩ | ⟨nonces, rfl⟩
  · obtain ⟨header', hheader'⟩ := hvalid.header_of hknows.2 hnonces
    obtain ⟨hhash, hknows'⟩ := hvalid.knows hheader'
    have hsame : header' = header := by
      rw [← hknows'.1, ← hknows.1, hhash]
    rw [hheader', hsame, map_some]
  · rw [storeValidatedHeader, get?_insert_self, map_some]

end Store

/-! ### What becomes of a header -/

section Rolls

variable {times : EraTimes} {tree : HeaderTree} {reading : Reading Nonces} {stage : TrackStage Nonces}
  {args : RollForwardArgs} {current highest : Point} {error : TrackPeersError}
  {deferred : DeferredHeader} {peers : TrackPeers}

/-- Every way in which a connection is rolled forward, or not. -/
inductive Rolls (times : EraTimes) (reading : Reading Nonces) (stage : TrackStage Nonces)
    (args : RollForwardArgs) : TrackStage Nonces × Option DeferredHeader → Prop
  | deferred (reason : DeferReason) : Rolls times reading stage args (stage, some (args.deferred reason))
  | rejected {error : TrackPeersError} (hvalidate : stage.validateHeader times reading args = .error error)
    (hstake : stage.peers.tryDeferForStake args error = none)
    (hclock : stage.peers.tryDeferForClockSkew times reading.now args error = none) :
    Rolls times reading stage args
      ({ stage with
        peers := stage.peers.purgeConnection args.connId
        sent := stage.sent ++ [.adversarial args.peer] }, none)
  | moved {store effects} (hstores : Stores stage.store args.header store)
    (heffects : ∀ peer, .adversarial peer ∉ effects) :
    Rolls times reading stage args
      ({ peers := stage.peers.moveTo args.connId args.header.point args.tip, store,
         sent := stage.sent ++ effects }, none)

theorem Rolls.of_moved {store sent} (effects : List TrackEffect)
    (hstores : Stores stage.store args.header store) (heffects : ∀ peer, .adversarial peer ∉ effects)
    (hsent : sent = stage.sent ++ effects) :
    Rolls times reading stage args
      ({ peers := stage.peers.moveTo args.connId args.header.point args.tip, store, sent }, none) := by
  rw [hsent]
  exact .moved hstores heffects

theorem exists_of_tryDeferForStake (h : peers.tryDeferForStake args error = some deferred) :
    ∃ reason, reason.rnSent = args.sentRequestNext ∧ deferred = args.deferred reason := by
  unfold tryDeferForStake at h
  split at h
  · split_ifs at h
    cases h
    exact ⟨_, rfl, rfl⟩
  · cases h

theorem exists_of_tryDeferForClockSkew {now : ℕ}
    (h : peers.tryDeferForClockSkew times now args error = some deferred) :
    ∃ reason, reason.rnSent = args.sentRequestNext ∧ deferred = args.deferred reason := by
  unfold tryDeferForClockSkew at h
  split at h
  · obtain ⟨_, -, h⟩ := bind_eq_some_iff.1 h
    obtain ⟨onset, -, rfl⟩ := map_eq_some_iff.1 h
    exact ⟨_, rfl, rfl⟩
  · cases h

theorem isSome_of_validateHeader (h : stage.validateHeader times reading args = .ok none) :
    (stage.store.getNonces args.header.hash).isSome := by
  unfold TrackStage.validateHeader at h
  -- there is only one way to this result
  repeat' split at h
  all_goals first | assumption | cases h

theorem rolls_tryRollForward (times : EraTimes) (reading : Reading Nonces) (stage : TrackStage Nonces)
    (args : RollForwardArgs) : Rolls times reading stage args (stage.tryRollForward times reading args) := by
  rw [tryRollForward]
  rcases hvalidate : stage.validateHeader times reading args with error | validated
  · dsimp only
    rcases hstake : stage.peers.tryDeferForStake args error with - | deferred
    · rcases hclock : stage.peers.tryDeferForClockSkew times reading.now args error with - | deferred
      · exact .rejected hvalidate hstake hclock
      · obtain ⟨reason, -, rfl⟩ := exists_of_tryDeferForClockSkew hclock
        exact .deferred reason
    · obtain ⟨reason, -, rfl⟩ := exists_of_tryDeferForStake hstake
      exact .deferred reason
  · rcases validated with - | validated
    · have hstores : Stores stage.store args.header stage.store :=
        .inl ⟨rfl, isSome_of_validateHeader hvalidate⟩
      split_ifs
      · exact .of_moved [] hstores nofun (append_nil _).symm
      · exact .of_moved [.requestNext args.connId] hstores (by simp) rfl
    · obtain ⟨parent, nonces⟩ := validated
      have hstores : Stores stage.store args.header (stage.store.storeValidatedHeader args.header nonces) :=
        .inr ⟨nonces, rfl⟩
      split_ifs
      · exact .moved hstores (by simp)
      · exact .of_moved [.newTip args.header.point parent, .requestNext args.connId] hstores (by simp)
          (append_assoc _ _ _)

/-- A header that a peer that follows the protocol sends after a point. -/
structure Eligible (times : EraTimes) (tree : HeaderTree) (now : ℕ) (p : Point) (variant : EraName)
    (header : Header) : Prop where
  variant : variant = .conway
  tree : tree.header header.hash = some header
  follows : Follows times p header
  timely : Timely times now p header

/-- **A header that the peer may send is not rejected.** -/
theorem maxEpoch_lt_of_rejected (hsound : reading.Sound times tree)
    (hcurrent : (stage.peers.upstream.get? args.connId).bind PerPeer.established? =
      some (current, highest)) (hready : stage.store.Ready current)
    (heligible : Eligible times tree reading.now current args.variant args.header)
    (hvalidate : stage.validateHeader times reading args = .error error)
    (hstake : stage.peers.tryDeferForStake args error = none)
    (hclock : stage.peers.tryDeferForClockSkew times reading.now args error = none) :
    stage.peers.maxEpoch + 1 < times.slotToEpoch args.header.slot - 2 := by
  obtain ⟨hvariant, htree, hfollows, htimely⟩ := heligible
  obtain ⟨onset, honset⟩ := isSome_iff_exists.1 hfollows.foreseeable
  have hskew := htimely onset honset
  rw [TrackStage.validateHeader, hfollows.era] at hvalidate
  dsimp only at hvalidate
  rw [if_neg (not_not.2 hvariant.symm), hcurrent] at hvalidate
  dsimp only at hvalidate
  rw [if_neg (not_not.2 hfollows.parent), if_neg (not_not.2 hfollows.height),
    if_neg (not_le.2 hfollows.slot), honset] at hvalidate
  dsimp only at hvalidate
  split_ifs at hvalidate with hfuture htoofar hnonces
  · omega
  · -- the slot begins soon, so the header is deferred
    cases hvalidate
    rw [tryDeferForClockSkew, hcurrent, bind_some] at hclock
    dsimp only at hclock
    rw [honset] at hclock
    cases hclock
  · rcases hsound stage.store current args.header htree hfollows hready with ⟨nonces, hok⟩ | hmissing
    · rw [hok] at hvalidate
      cases hvalidate
    · rw [hmissing] at hvalidate
      cases hvalidate
      rw [tryDeferForStake] at hstake
      split_ifs at hstake with hfar
      omega

end Rolls

/-! ### The line of a connection -/

section Line

variable {times : EraTimes} {tree : HeaderTree} {now now' : ℕ} {ds : List DeferredHeader} {d : DeferredHeader}
  {p q : Point} {pointer : Option Point} {connId : ConnectionId}

/-- Headers lead from a point to another. -/
def Line (times : EraTimes) (tree : HeaderTree) (now : ℕ) : Point → List DeferredHeader → Point → Prop
  | p, [], q => p = q
  | p, d :: ds, q => Eligible times tree now p d.variant d.header ∧ Line times tree now d.header.point ds q

theorem Line.mono (h : Line times tree now p ds q) (hle : now ≤ now') : Line times tree now' p ds q := by
  induction ds generalizing p with
  | nil => exact h
  | cons d ds ih =>
    obtain ⟨heligible, hrest⟩ := h
    refine ⟨⟨heligible.variant, heligible.tree, heligible.follows, ?_⟩, ih hrest⟩
    intro onset honset
    exact (heligible.timely onset honset).trans (Nat.add_le_add_right hle _)

theorem Line.append (h : Line times tree now p ds q) (hd : Eligible times tree now q d.variant d.header) :
    Line times tree now p (ds ++ [d]) d.header.point := by
  induction ds generalizing p with
  | nil =>
    obtain rfl : p = q := h
    exact ⟨hd, rfl⟩
  | cons d' ds ih => exact ⟨h.1, ih h.2⟩

/-- The headers of a connection. -/
def headersOf (connId : ConnectionId) (queue : List DeferredHeader) : List DeferredHeader :=
  queue.filter fun d ↦ d.connId = connId

/-- The point that a connection has come to, and the tip of the peer. -/
def TrackPeers.established? (peers : TrackPeers) (connId : ConnectionId) : Option (Point × Point) :=
  (peers.upstream.get? connId).bind PerPeer.established?

/-- The headers of a connection that are still to be validated lie between the point that the stage has for
the connection and the one that the peer has come to. -/
inductive OnLine (times : EraTimes) (tree : HeaderTree) (now : ℕ) (stage : TrackStage Nonces)
    (connId : ConnectionId) (queue : List DeferredHeader) : Option Point → Prop
  | established {current highest q} (hcurrent : stage.peers.established? connId = some (current, highest))
    (hready : stage.store.Ready current) (hline : Line times tree now current (headersOf connId queue) q) :
    OnLine times tree now stage connId queue (some q)
  | idle (hnone : stage.peers.established? connId = none) (hqueue : headersOf connId queue = []) :
    OnLine times tree now stage connId queue none

theorem OnLine.congr {stage stage' : TrackStage Nonces} {queue queue' : List DeferredHeader}
    (h : OnLine times tree now stage connId queue pointer)
    (hcurrent : stage'.peers.established? connId = stage.peers.established? connId)
    (hready : ∀ {p}, stage.store.Ready p → stage'.store.Ready p)
    (hqueue : headersOf connId queue' = headersOf connId queue) :
    OnLine times tree now stage' connId queue' pointer := by
  cases h with
  | established hcurrent' hready' hline =>
    refine .established (hcurrent.trans hcurrent') (hready hready') ?_
    rw [hqueue]
    exact hline
  | idle hnone hqueue' => exact .idle (hcurrent.trans hnone) (hqueue.trans hqueue')

theorem OnLine.mono {stage : TrackStage Nonces} {queue : List DeferredHeader}
    (h : OnLine times tree now stage connId queue pointer) (hle : now ≤ now') :
    OnLine times tree now' stage connId queue pointer := by
  cases h with
  | established hcurrent hready hline => exact .established hcurrent hready (hline.mono hle)
  | idle hnone hqueue => exact .idle hnone hqueue

end Line

section Connections

variable {peers : TrackPeers} {connId connId' : ConnectionId} {queue rest : List DeferredHeader}
  {d : DeferredHeader} {p q : Point} {peer : Peer}

theorem headersOf_append :
    headersOf connId (queue ++ rest) = headersOf connId queue ++ headersOf connId rest :=
  filter_append ..

theorem headersOf_cons_of_ne (h : d.connId ≠ connId) :
    headersOf connId (d :: queue) = headersOf connId queue :=
  filter_cons_of_neg (by simpa using h)

theorem headersOf_cons_self : headersOf d.connId (d :: queue) = d :: headersOf d.connId queue :=
  filter_cons_of_pos (by simp)

theorem headersOf_first {args : RollForwardArgs} (reason : DeferReason) (rest : List DeferredHeader)
    (hfirst : headersOf args.connId queue = []) :
    headersOf args.connId (queue ++ args.deferred reason :: rest)
      = args.deferred reason :: headersOf args.connId rest := by
  rw [headersOf_append, hfirst, nil_append]
  exact headersOf_cons_self

theorem headersOf_eq_nil : headersOf connId queue = [] ↔ ∀ d ∈ queue, d.connId ≠ connId := by
  simp [headersOf, filter_eq_nil_iff]

theorem TrackPeers.isDeferred_eq_false :
    peers.isDeferred connId = false ↔ headersOf connId peers.deferred = [] := by
  simp [isDeferred, headersOf_eq_nil]

theorem headersOf_purgeConnection (h : connId' ≠ connId) :
    headersOf connId' (peers.purgeConnection connId).deferred = headersOf connId' peers.deferred := by
  simp only [headersOf, purgeConnection, List.filter_filter]
  refine List.filter_congr fun d _ ↦ ?_
  by_cases hd : d.connId = connId'
  · simp [hd, h]
  · simp [hd]

theorem headersOf_purgeConnection_self : headersOf connId (peers.purgeConnection connId).deferred = [] :=
  headersOf_eq_nil.2 fun _ hd ↦ of_decide_eq_true (mem_filter.1 hd).2

theorem TrackPeers.established?_purgeConnection (h : connId' ≠ connId) :
    (peers.purgeConnection connId).established? connId' = peers.established? connId' := by
  rw [established?, purgeConnection, get?_erase_of_ne _ h]
  rfl

theorem TrackPeers.established?_purgeConnection_self :
    (peers.purgeConnection connId).established? connId = none := by
  simp [established?, purgeConnection]

theorem TrackPeers.established?_moveTo (h : connId' ≠ connId) :
    (peers.moveTo connId p q).established? connId' = peers.established? connId' := by
  rw [established?, moveTo, get?_modify, if_neg h]
  rfl

theorem TrackPeers.established?_moveTo_self {current} (h : peers.established? connId = some current) :
    (peers.moveTo connId p q).established? connId = some (p, q) := by
  obtain ⟨perPeer, hget, hperPeer⟩ := bind_eq_some_iff.1 h
  cases perPeer with
  | connecting peer => cases hperPeer
  | established peer current highest =>
    rw [established?, moveTo, get?_modify, if_pos rfl, hget]
    rfl

theorem TrackPeers.established?_insert {perPeer} (h : connId' ≠ connId) :
    { peers with upstream := peers.upstream.insert connId perPeer }.established? connId'
      = peers.established? connId' := by
  rw [established?, get?_insert, if_neg h]
  rfl

theorem TrackPeers.established?_connecting_self :
    { peers with upstream := peers.upstream.insert connId (.connecting peer) }.established? connId
      = none := by
  rw [established?, get?_insert_self]
  rfl

theorem TrackPeers.established?_established_self :
    { peers with upstream := peers.upstream.insert connId (.established peer p q) }.established? connId
      = some (p, q) := by
  rw [established?, get?_insert_self]
  rfl

end Connections

end Amaru
