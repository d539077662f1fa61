import Amaru.Consensus.ChainSync
import Amaru.Consensus.Pipeline

/-!
# Peers that follow the protocol

The connections of a peer that follows the protocol stay on their lines (`Tracks`), whatever other peers send
and whenever deferred headers are tried again, as long as the peer does not roll back while headers are
deferred: the stage then goes back to the point, but still has the headers, and tries them later. So **a peer
that rolls back at the wrong time is taken for an adversary** (`roll_back_is_taken_for_adversary`), and no
other peer that follows the protocol is (`conforming_is_not_adversarial`).

No peer has to follow the protocol for what is stored to be sound (`stored_headers_are_rooted`).
-/

namespace Amaru

open TrackPeers List TrackStage Function Option Nat SortedMap

variable {Nonces : Type} {header : Header}

/-! ### What every step keeps -/

section Tracks

variable {times : EraTimes} {tree : HeaderTree} {peering : Peering} {peer : Peer} {now now' : ℕ}
  {r : Reading Nonces} {st st' : TrackStage Nonces}
  {queue queue' rest : List DeferredHeader} {pointer : ConnectionId → Option Point}
  {args : RollForwardArgs} {d : DeferredHeader} {connId : ConnectionId} {peers : TrackPeers}
  {progress : TrackStage Nonces × List ConnectionId} {reason : DeferReason} {p : Option Point}
  {maxEpoch : ℕ}

/-- The peer is not taken for an adversary, and its connections are on their lines. Some headers are still to
be validated. -/
structure Tracks (times : EraTimes) (tree : HeaderTree) (peering : Peering) (peer : Peer) (now : ℕ)
    (st : TrackStage Nonces) (queue : List DeferredHeader) (pointer : ConnectionId → Option Point) :
    Prop where
  valid : st.store.Valid peering
  known : ∀ {d}, d ∈ queue → peering.owner d.connId = d.peer ∧ peering.Knows d.header
  line : ∀ {connId}, peering.owner connId = peer → OnLine times tree now st connId queue (pointer connId)
  sent : .adversarial peer ∉ st.sent

theorem Tracks.mono (h : Tracks times tree peering peer now st queue pointer) (hle : now ≤ now') :
    Tracks times tree peering peer now' st queue pointer :=
  ⟨h.valid, h.known, fun howner ↦ (h.line howner).mono hle, h.sent⟩

/-- What does not touch connections, headers and what is stored. -/
theorem Tracks.frame (h : Tracks times tree peering peer now st queue pointer)
    (hupstream : ∀ connId, st'.peers.established? connId = st.peers.established? connId)
    (hstore : st'.store = st.store)
    (hsent : .adversarial peer ∈ st'.sent → .adversarial peer ∈ st.sent) :
    Tracks times tree peering peer now st' queue pointer := by
  refine ⟨hstore ▸ h.valid, h.known, ?_, fun hmem ↦ h.sent (hsent hmem)⟩
  intro connId howner
  exact (h.line howner).congr (hupstream connId) (fun hready ↦ hstore ▸ hready) rfl

section

variable (connId : ConnectionId) (h : Tracks times tree peering peer now st queue pointer)
  (hupstream : ∀ connId', connId' ≠ connId →
    st'.peers.established? connId' = st.peers.established? connId')
  (hstore : st'.store = st.store)
  (hqueue : ∀ connId', connId' ≠ connId → headersOf connId' queue' = headersOf connId' queue)
include h hupstream hstore hqueue

theorem Tracks.update
    (hknown : ∀ {d}, d ∈ queue' → peering.owner d.connId = d.peer ∧ peering.Knows d.header)
    (hsent : .adversarial peer ∈ st'.sent → .adversarial peer ∈ st.sent)
    (hline : peering.owner connId = peer → OnLine times tree now st' connId queue' p) :
    Tracks times tree peering peer now st' queue' (update pointer connId p) := by
  refine ⟨hstore ▸ h.valid, hknown, ?_, fun hadversarial ↦ h.sent (hsent hadversarial)⟩
  intro connId' howner
  by_cases hne : connId' = connId
  · subst hne
    rw [update_self]
    exact hline howner
  · rw [update_of_ne hne]
    exact (h.line howner).congr (hupstream connId' hne) (fun hready ↦ hstore ▸ hready) (hqueue connId' hne)

theorem Tracks.other (howner : peering.owner connId ≠ peer) (hsub : queue' ⊆ queue)
    (hsent : .adversarial peer ∈ st'.sent → .adversarial peer ∈ st.sent) :
    Tracks times tree peering peer now st' queue' pointer := by
  have hupdate := h.update (p := pointer connId) connId hupstream hstore hqueue
    (fun hd ↦ h.known (hsub hd)) hsent fun h' ↦ absurd h' howner
  rwa [update_eq_self] at hupdate

end

theorem mem_of_mem_purgeConnection (h : d ∈ (peers.purgeConnection connId).deferred) : d ∈ peers.deferred :=
  mem_of_mem_filter h

theorem subset_append_cons (queue : List DeferredHeader) (d : DeferredHeader) (rest : List DeferredHeader) :
    queue ++ rest ⊆ queue ++ d :: rest :=
  ((sublist_cons_self d rest).append_left queue).subset

theorem Tracks.drop (h : Tracks times tree peering peer now st (queue ++ d :: rest) pointer)
    (hgone : st.peers.established? d.connId = none) :
    Tracks times tree peering peer now st (queue ++ rest) pointer := by
  have hmem : d ∈ queue ++ d :: rest := by simp
  refine h.other d.connId (fun _ _ ↦ rfl) rfl ?_ ?_ (subset_append_cons queue d rest) id
  · intro connId hne
    rw [headersOf_append, headersOf_append, headersOf_cons_of_ne (Ne.symm hne)]
  · -- the peer has no such connection
    intro howner
    have hline := h.line howner
    generalize pointer d.connId = p at hline
    cases hline with
    | established hcurrent => exact absurd (hgone.symm.trans hcurrent) (some_ne_none _).symm
    | idle _ hnil => exact headersOf_eq_nil.1 hnil d hmem rfl

/-- The stage, once a header that could not be validated is deferred. -/
def settle : TrackStage Nonces × Option DeferredHeader → TrackStage Nonces
  | (st, none) => st
  | (st, some deferred) => { st with peers := st.peers.defer deferred }

theorem Tracks.deferred (reason' : DeferReason)
    (h : Tracks times tree peering peer now st (queue ++ args.deferred reason :: rest) pointer)
    (hfirst : headersOf args.connId queue = []) :
    Tracks times tree peering peer now st (queue ++ args.deferred reason' :: rest) pointer := by
  have hmem : args.deferred reason ∈ queue ++ args.deferred reason :: rest := by simp
  have hknown : peering.owner args.connId = args.peer ∧ peering.Knows args.header := h.known hmem
  refine ⟨h.valid, ?_, ?_, h.sent⟩
  · intro d hd
    rcases mem_append.1 hd with hd | hd
    · exact h.known (mem_append_left _ hd)
    rcases mem_cons.1 hd with rfl | hd
    · exact hknown
    · exact h.known (mem_append_right _ (mem_cons_of_mem _ hd))
  · intro connId howner
    have hline := h.line howner
    by_cases hne : args.connId = connId
    · subst hne
      generalize pointer args.connId = p at hline
      cases hline with
      | idle _ hnil => exact absurd ((headersOf_first _ _ hfirst).symm.trans hnil) (cons_ne_nil _ _)
      | established hcurrent hready hline =>
        rw [headersOf_first _ _ hfirst] at hline
        refine .established hcurrent hready ?_
        rw [headersOf_first _ _ hfirst]
        exact hline
    · refine hline.congr rfl id ?_
      rw [headersOf_append, headersOf_append, headersOf_cons_of_ne hne, headersOf_cons_of_ne hne]

/-- **The first header of a connection keeps it on its line.** -/
theorem Tracks.tryRollForward (args : RollForwardArgs) (hsound : r.Sound times tree)
    (h : Tracks times tree peering peer r.now st
      (st.peers.deferred ++ args.deferred reason :: rest) pointer)
    (hfirst : headersOf args.connId st.peers.deferred = [])
    (hstake : args.peer = peer → times.slotToEpoch args.header.slot - 2 ≤ st.peers.maxEpoch + 1) :
    Tracks times tree peering peer r.now (settle (st.tryRollForward times r args))
      ((settle (st.tryRollForward times r args)).peers.deferred ++ rest) pointer := by
  have hmem : args.deferred reason ∈ st.peers.deferred ++ args.deferred reason :: rest := by simp
  obtain ⟨howner, hknows⟩ : peering.owner args.connId = args.peer ∧ peering.Knows args.header := h.known hmem
  have hqueue := headersOf_first reason rest hfirst
  have hother : ∀ connId, connId ≠ args.connId →
      headersOf connId (st.peers.deferred ++ args.deferred reason :: rest)
        = headersOf connId st.peers.deferred ++ headersOf connId rest := by
    intro connId hne
    rw [headersOf_append, headersOf_cons_of_ne (Ne.symm hne)]
  have hsub := subset_append_cons st.peers.deferred (args.deferred reason) rest
  have hrolls := rolls_tryRollForward times r st args
  generalize st.tryRollForward times r args = result at hrolls
  cases hrolls with
  | deferred reason' =>
    rw [settle, defer, append_assoc]
    exact (h.deferred reason' hfirst).frame (fun _ ↦ rfl) rfl id
  | rejected hvalidate hstake' hclock =>
    -- it is not the header of the peer
    have hne : args.peer ≠ peer := by
      intro hpeer
      have hline := h.line (howner.trans hpeer)
      generalize pointer args.connId = p at hline
      cases hline with
      | idle _ hnil => exact absurd (hqueue.symm.trans hnil) (cons_ne_nil _ _)
      | established hcurrent hready hline =>
        rw [hqueue] at hline
        exact absurd (hstake hpeer)
          (not_le.2 (maxEpoch_lt_of_rejected hsound hcurrent hready hline.1 hvalidate hstake' hclock))
    refine h.other args.connId ?_ rfl ?_ (howner ▸ hne) ?_ ?_
    · exact fun connId hconnId ↦ established?_purgeConnection hconnId
    · intro connId hconnId
      rw [hother connId hconnId, headersOf_append, settle, headersOf_purgeConnection hconnId]
    · intro d hd
      refine hsub ?_
      rw [mem_append] at hd ⊢
      exact hd.imp_left mem_of_mem_purgeConnection
    · intro hadversarial
      rcases mem_append.1 hadversarial with hold | hnew
      · exact hold
      · cases mem_singleton.1 hnew
        exact absurd rfl hne
  | moved hstores heffects =>
    refine ⟨h.valid.stores hknows hstores, fun hd ↦ h.known (hsub hd), ?_, ?_⟩
    · intro connId hconnId
      by_cases hne : connId = args.connId
      · -- the connection has come to the header
        subst hne
        have hline := h.line hconnId
        generalize pointer args.connId = p at hline
        cases hline with
        | idle _ hnil => exact absurd (hqueue.symm.trans hnil) (cons_ne_nil _ _)
        | established hcurrent hready hline =>
          rw [hqueue] at hline
          refine .established (established?_moveTo_self hcurrent) (h.valid.ready_of_stores hknows hstores) ?_
          rw [headersOf_append]
          change Line _ _ _ _ (headersOf args.connId st.peers.deferred ++ _) _
          rw [hfirst]
          exact hline.2
      · refine (h.line hconnId).congr (established?_moveTo hne)
          (fun hready ↦ hready.stores h.valid hknows hstores) ?_
        rw [hother connId hne, headersOf_append]
        rfl
    · intro hadversarial
      rcases mem_append.1 hadversarial with hold | hnew
      · exact h.sent hold
      · exact heffects peer hnew

/-- The header that follows on all those that are deferred. -/
theorem Tracks.defer
    (h : Tracks times tree peering peer now st (st.peers.deferred ++ d :: rest) pointer) :
    Tracks times tree peering peer now { st with peers := st.peers.defer d }
      ((st.peers.defer d).deferred ++ rest) pointer := by
  rw [TrackPeers.defer, append_assoc]
  exact h.frame (fun _ ↦ rfl) rfl id

theorem ensureRecheckArmed_eq (peers : TrackPeers) (now : ℕ) : ∃ recheckTimer effects,
    peers.ensureRecheckArmed now = ({ peers with recheckTimer }, effects) ∧
    ∀ effect ∈ effects, effect = .cancelSchedule ∨ ∃ time, effect = .schedule time := by
  unfold TrackPeers.ensureRecheckArmed
  repeat' split
  all_goals exact ⟨_, _, rfl, by simp⟩

theorem Tracks.ensureRecheckArmed
    (h : Tracks times tree peering peer now st st.peers.deferred pointer) :
    Tracks times tree peering peer now (st.ensureRecheckArmed r)
      (st.ensureRecheckArmed r).peers.deferred pointer := by
  obtain ⟨recheckTimer, effects, heq, heffects⟩ := ensureRecheckArmed_eq st.peers r.now
  rw [TrackStage.ensureRecheckArmed, heq]
  refine h.frame (fun _ ↦ rfl) rfl fun hadversarial ↦ ?_
  refine (mem_append.1 hadversarial).resolve_right fun hmem ↦ ?_
  rcases heffects _ hmem with h | ⟨_, h⟩ <;> cases h

/-- What holds while deferred headers are tried again: only the connections that are blocked have deferred
headers. -/
structure Rechecks (times : EraTimes) (tree : HeaderTree) (peering : Peering) (peer : Peer) (now maxEpoch : ℕ)
    (rest : List DeferredHeader) (pointer : ConnectionId → Option Point)
    (progress : TrackStage Nonces × List ConnectionId) : Prop where
  tracks : Tracks times tree peering peer now progress.1 (progress.1.peers.deferred ++ rest) pointer
  blocked : ∀ {connId}, connId ∉ progress.2 → headersOf connId progress.1.peers.deferred = []
  maxEpoch : progress.1.peers.maxEpoch = maxEpoch

theorem maxEpoch_tryRollForward (times : EraTimes) (r : Reading Nonces) (st : TrackStage Nonces)
    (args : RollForwardArgs) :
    (st.tryRollForward times r args).1.peers.maxEpoch = st.peers.maxEpoch := by
  have hrolls := rolls_tryRollForward times r st args
  generalize st.tryRollForward times r args = result at hrolls
  cases hrolls <;> rfl

theorem headersOf_defer (h : headersOf connId peers.deferred = []) (hne : d.connId ≠ connId) :
    headersOf connId (peers.defer d).deferred = [] := by
  rw [defer, headersOf_append, h, headersOf_cons_of_ne hne]
  rfl

/-- Nothing is deferred for a connection but the header that is tried. -/
theorem headersOf_tryRollForward {out} (h : headersOf connId st.peers.deferred = [])
    (htry : st.tryRollForward times r args = (st', out)) (hne : out.isSome → args.connId ≠ connId)
    :
    headersOf connId (settle (st', out)).peers.deferred = [] := by
  have hrolls := rolls_tryRollForward times r st args
  rw [htry] at hrolls
  cases hrolls with
  | deferred => exact headersOf_defer h (hne rfl)
  | rejected =>
    rw [headersOf_eq_nil] at h ⊢
    exact fun d hd ↦ h d (mem_of_mem_purgeConnection hd)
  | moved => exact h

theorem Rechecks.recheckOne (hsound : r.Sound times tree)
    (h : Rechecks times tree peering peer r.now maxEpoch (d :: rest) pointer progress)
    (hstake : d.peer = peer → times.slotToEpoch d.header.slot - 2 ≤ maxEpoch + 1) :
    Rechecks times tree peering peer r.now maxEpoch rest pointer
      (recheckOne times r progress d) := by
  obtain ⟨st, blocked⟩ := progress
  obtain ⟨htracks, hblocked, hmaxEpoch⟩ := h
  rw [recheckOne]
  split_ifs with hgone hwaits
  · refine ⟨htracks.drop ?_, hblocked, hmaxEpoch⟩
    have hget : st.peers.upstream.get? d.connId = none := by simpa [SortedMap.contains] using hgone
    rw [established?, hget, bind_none]
  · refine ⟨htracks.defer, ?_, hmaxEpoch⟩
    intro connId hconnId
    rw [mem_cons, not_or] at hconnId
    exact headersOf_defer (hblocked hconnId.2) (Ne.symm hconnId.1)
  · have hfirst : headersOf d.connId st.peers.deferred = [] := by
      refine hblocked fun hmem ↦ hwaits ?_
      rw [contains_iff_mem.2 hmem, Bool.true_or]
    have htry := htracks.tryRollForward d.args hsound hfirst (hmaxEpoch ▸ hstake)
    have hepoch := maxEpoch_tryRollForward times r st d.args
    rcases hresult : st.tryRollForward times r d.args with ⟨st', out⟩
    rw [hresult] at htry hepoch
    rcases out with - | d'
    · refine ⟨htry, fun hconnId ↦ headersOf_tryRollForward (hblocked hconnId) hresult ?_,
        hepoch.trans hmaxEpoch⟩
      intro hsome
      cases hsome
    · refine ⟨htry, ?_, hepoch.trans hmaxEpoch⟩
      intro connId hconnId
      rw [mem_cons, not_or] at hconnId
      exact headersOf_tryRollForward (hblocked hconnId.2) hresult fun _ ↦ Ne.symm hconnId.1

theorem Rechecks.foldl (hsound : r.Sound times tree)
    (h : Rechecks times tree peering peer r.now maxEpoch queue pointer progress)
    (hstake : ∀ d ∈ queue, d.peer = peer → times.slotToEpoch d.header.slot - 2 ≤ maxEpoch + 1) :
    Rechecks times tree peering peer r.now maxEpoch [] pointer
      (queue.foldl (TrackStage.recheckOne times r) progress) := by
  induction queue generalizing progress with
  | nil => exact h
  | cons d queue ih =>
    exact ih (h.recheckOne hsound (hstake d mem_cons_self)) fun d' hd' ↦ hstake d' (mem_cons_of_mem _ hd')

/-- Trying all deferred headers again keeps the connections on their lines. -/
theorem Tracks.recheckDeferred (hsound : r.Sound times tree)
    (h : Tracks times tree peering peer r.now st st.peers.deferred pointer)
    (hstake : ∀ d ∈ st.peers.deferred, d.peer = peer →
      times.slotToEpoch d.header.slot - 2 ≤ st.peers.maxEpoch + 1) :
    Tracks times tree peering peer r.now (st.recheckDeferred times r)
      (st.recheckDeferred times r).peers.deferred pointer := by
  let peers := { st.peers with ledgerAppliedBlockHeight := r.ledgerHeight, deferred := [] }
  have hstart : Rechecks times tree peering peer r.now st.peers.maxEpoch st.peers.deferred pointer
      ({ st with peers }, []) :=
    ⟨h.frame (fun _ ↦ rfl) rfl id, fun _ ↦ rfl, rfl⟩
  have hrechecked := (hstart.foldl hsound hstake).tracks
  rw [append_nil] at hrechecked
  exact hrechecked.ensureRecheckArmed

theorem lookAtLedger_eq (r : Reading Nonces) (st : TrackStage Nonces) (limit : ℕ) :
    ∃ height checkedAt, st.lookAtLedger r limit =
      { st.peers with ledgerLastCheckedAt := checkedAt, ledgerAppliedBlockHeight := height } := by
  rw [lookAtLedger]
  split_ifs
  · exact ⟨_, _, rfl⟩
  · exact ⟨_, _, rfl⟩

theorem Tracks.handleRollForward {sender content tip} (hsound : r.Sound times tree)
    (hdecode : decodeHeader content = some header)
    (h : ∀ reason, Tracks times tree peering peer r.now st
      (st.peers.deferred ++ [⟨sender, connId, header, tip, content.variant, reason⟩]) pointer)
    (hstake : sender = peer → times.slotToEpoch header.slot - 2 ≤ st.peers.maxEpoch + 1) :
    Tracks times tree peering peer r.now
      (st.handleRollForward times r sender connId content tip)
      (st.handleRollForward times r sender connId content tip).peers.deferred pointer := by
  let args : RollForwardArgs := ⟨sender, connId, true, content.variant, header, tip⟩
  have hargs : ∀ reason, Tracks times tree peering peer r.now st
      (st.peers.deferred ++ args.deferred reason :: []) pointer := h
  rw [TrackStage.handleRollForward, hdecode]
  dsimp only
  split
  · simpa only [append_nil] using (hargs .followUp).defer
  rename_i hdeferred
  have hfirst : headersOf args.connId st.peers.deferred = [] :=
    isDeferred_eq_false.1 (Bool.eq_false_of_not_eq_true hdeferred)
  obtain ⟨height, checkedAt, hledger⟩ :=
    lookAtLedger_eq r st (header.blockHeight - st.peers.maxPeerLead)
  rw [hledger]
  split
  · have hdefer := (hargs (.ledgerHeight (header.blockHeight - st.peers.maxPeerLead))).defer
    rw [append_nil] at hdefer
    exact Tracks.ensureRecheckArmed (hdefer.frame (fun _ ↦ rfl) rfl id)
  -- the next header is asked for before this one is validated
  let st' : TrackStage Nonces := send { st with peers :=
    { st.peers with ledgerLastCheckedAt := checkedAt, ledgerAppliedBlockHeight := height } }
    (.requestNext connId)
  have hstage' : Tracks times tree peering peer r.now st'
      (st'.peers.deferred ++ args.deferred .followUp :: []) pointer := by
    refine (hargs .followUp).frame (fun _ ↦ rfl) rfl fun hadversarial ↦ ?_
    exact (mem_append.1 hadversarial).resolve_right (by simp)
  have htry := hstage'.tryRollForward args hsound hfirst hstake
  rw [append_nil] at htry
  rcases hresult : st'.tryRollForward times r args with ⟨stage'', out⟩
  rw [hresult] at htry
  rcases out with - | deferred
  · exact htry
  · exact htry.ensureRecheckArmed

theorem Tracks.purgeConnection (connId : ConnectionId) {sent}
    (h : Tracks times tree peering peer now st st.peers.deferred pointer)
    (hsent : .adversarial peer ∈ sent → .adversarial peer ∈ st.sent)
    (hp : peering.owner connId = peer → p = none) :
    Tracks times tree peering peer now { st with peers := st.peers.purgeConnection connId, sent }
      (st.peers.purgeConnection connId).deferred (Function.update pointer connId p) := by
  refine h.update connId (fun _ hne ↦ established?_purgeConnection hne) rfl
    (fun _ hne ↦ headersOf_purgeConnection hne) (fun hd ↦ h.known (mem_of_mem_purgeConnection hd)) hsent ?_
  intro howner
  rw [hp howner]
  exact .idle established?_purgeConnection_self headersOf_purgeConnection_self

theorem Tracks.push (h : Tracks times tree peering peer now st queue pointer)
    (hknown : peering.owner d.connId = d.peer ∧ peering.Knows d.header)
    (heligible : d.peer = peer → ∃ p, pointer d.connId = some p ∧
      Eligible times tree now p d.variant d.header) :
    Tracks times tree peering peer now st (queue ++ [d])
      (Function.update pointer d.connId (some d.header.point)) := by
  refine h.update d.connId (fun _ _ ↦ rfl) rfl ?_ ?_ id ?_
  · intro connId hne
    rw [headersOf_append, headersOf_cons_of_ne (Ne.symm hne)]
    exact append_nil _
  · intro d' hd'
    rcases mem_append.1 hd' with hd' | hd'
    · exact h.known hd'
    · cases mem_singleton.1 hd'
      exact hknown
  · intro howner
    obtain ⟨p, hp, heligible⟩ := heligible (hknown.1.symm.trans howner)
    have hline := h.line howner
    rw [hp] at hline
    cases hline with
    | established hcurrent hready hline =>
      refine .established hcurrent hready ?_
      rw [headersOf_append, headersOf_cons_self]
      exact hline.append heligible

end Tracks

section Steps

variable {times : EraTimes} {tree : HeaderTree} {peering : Peering} {peer : Peer}
  {tracking : Tracking Nonces} {r : Reading Nonces} {sender : Peer} {connId : ConnectionId}
  {msg : TrackPeersMsg} {tip : Point} {content : HeaderContent}

/-- What holds between messages. -/
def Tracking.Sane (times : EraTimes) (tree : HeaderTree) (peering : Peering) (peer : Peer)
    (tracking : Tracking Nonces) : Prop :=
  Tracks times tree peering peer tracking.clock tracking.stage tracking.stage.peers.deferred tracking.pointer

section

variable (h : tracking.Sane times tree peering peer)
  (hconforming : Conforming times tree peering peer tracking msg r) {current : Point}
include h hconforming

theorem sane_intersectFound (hmsg : msg = .fromUpstream sender connId (.intersectFound current tip)) :
    (tracking.step times msg r).Sane times tree peering peer := by
  subst hmsg
  have hstored : peering.owner connId = peer →
      tracking.pointer connId = none ∧ tracking.stage.store.loadPoint current.hash = some current := by
    intro howner
    obtain rfl : peer = sender := howner.symm.trans (hconforming.owner rfl)
    cases hconforming.conforms rfl with
    | intersectFound hpointer hstored => exact ⟨hpointer, hstored⟩
  have hnow := Tracks.mono h hconforming.clock_le
  rw [Tracking.Sane, Tracking.step, TrackStage.handle, handleFromUpstream]
  rcases hload : tracking.stage.store.loadPoint current.hash with - | currentTip
  · refine hnow.update connId (fun _ _ ↦ rfl) rfl (fun _ _ ↦ rfl) hnow.known ?_ ?_
    · exact fun hadversarial ↦ (mem_append.1 hadversarial).resolve_right (by simp)
    · exact fun howner ↦ absurd ((hstored howner).2.symm.trans hload) (some_ne_none _)
  refine hnow.update connId (fun _ hne ↦ established?_insert hne) rfl (fun _ _ ↦ rfl) hnow.known
    id fun howner ↦ ?_
  obtain ⟨hpointer, hstored⟩ := hstored howner
  obtain rfl : currentTip = current := some.inj (hload.symm.trans hstored)
  have hline := hnow.line howner
  rw [hpointer] at hline
  cases hline with
  | idle _ hnil =>
    refine .established established?_established_self (hnow.valid.ready hstored) ?_
    rw [hnil]
    rfl

theorem sane_rollForward (hcalm : Calm times peer tracking msg)
    (hmsg : msg = .fromUpstream sender connId (.rollForward content tip)) :
    (tracking.step times msg r).Sane times tree peering peer := by
  subst hmsg
  have howner : peering.owner connId = sender := hconforming.owner rfl
  have hnow := Tracks.mono h hconforming.clock_le
  rcases hdecode : decodeHeader content with - | header
  · -- the peer sends headers that can be decoded
    have hne : sender ≠ peer := by
      rintro rfl
      cases hconforming.conforms rfl with
      | rollForward => cases hdecode
    rw [Tracking.Sane, Tracking.step, TrackStage.handle, handleFromUpstream, handleRollForward, hdecode]
    exact hnow.purgeConnection connId (by simp [hne.symm]) fun howner' ↦
      absurd (howner.symm.trans howner') hne
  · have hheader : content.header? = some header := by
      rw [decodeHeader] at hdecode
      split_ifs at hdecode
      exact hdecode
    rw [Tracking.Sane, Tracking.step]
    dsimp only [InitiatorResult.pointer]
    rw [hheader, map_some]
    refine Tracks.handleRollForward hconforming.sound hdecode (fun reason ↦ ?_) ?_
    · refine hnow.push ⟨howner, hconforming.knows rfl hheader⟩ ?_
      -- a peer that follows the protocol sends headers that may come next
      rintro rfl
      cases hconforming.conforms rfl with
      | rollForward hpointer htree hfollows htimely =>
        cases hheader
        exact ⟨_, hpointer, rfl, htree, hfollows, htimely⟩
    · rintro rfl
      exact hcalm.stake (.inr ⟨connId, content, tip, rfl, hheader⟩)

theorem sane_rollBackward (hcalm : Calm times peer tracking msg)
    (hmsg : msg = .fromUpstream sender connId (.rollBackward current tip)) :
    (tracking.step times msg r).Sane times tree peering peer := by
  subst hmsg
  have howner : peering.owner connId = sender := hconforming.owner rfl
  have hnow := Tracks.mono h hconforming.clock_le
  have hstored : sender = peer → tracking.stage.store.loadPoint current.hash = some current ∧
      ∃ p, tracking.stage.peers.established? connId = some p := by
    rintro rfl
    cases hconforming.conforms rfl with
    | rollBackward hpointer _ hstored =>
      have hline := hnow.line howner
      rw [hpointer] at hline
      cases hline with
      | established hcurrent => exact ⟨hstored, _, hcurrent⟩
  rw [Tracking.Sane, Tracking.step, TrackStage.handle, handleFromUpstream, handleRollBackward, rollBackward]
  rcases hload : tracking.stage.store.loadPoint current.hash with - | currentTip
  · have hne : sender ≠ peer := fun hpeer ↦
      absurd ((hstored hpeer).1.symm.trans hload) (some_ne_none _)
    exact hnow.purgeConnection connId (by simp [send]) fun howner' ↦ absurd (howner.symm.trans howner') hne
  · rcases hestablished : (tracking.stage.peers.upstream.get? connId).bind PerPeer.established? with - | p
    · have hne : sender ≠ peer := by
        intro hpeer
        obtain ⟨p, hp⟩ := (hstored hpeer).2
        exact absurd (hestablished.symm.trans hp) (some_ne_none _).symm
      exact hnow.purgeConnection connId (by simp [send, hne.symm]) fun howner' ↦
        absurd (howner.symm.trans howner') hne
    · refine hnow.update connId (fun _ hne ↦ established?_moveTo hne) rfl (fun _ _ ↦ rfl) hnow.known ?_ ?_
      · exact fun hadversarial ↦ (mem_append.1 hadversarial).resolve_right (by simp)
      · intro howner'
        obtain rfl : sender = peer := howner.symm.trans howner'
        obtain rfl : currentTip = current := some.inj (hload.symm.trans (hstored rfl).1)
        refine .established (established?_moveTo_self hestablished) (hnow.valid.ready hload) ?_
        -- nothing of the old chain is left
        have hnil := isDeferred_eq_false.1 (hcalm.rollBackward rfl)
        change Line times tree r.now currentTip
          (headersOf connId tracking.stage.peers.deferred) currentTip
        rw [hnil]
        rfl

/-- **Every step keeps the connections of the peer on their lines.** -/
theorem Tracking.Sane.step (hcalm : Calm times peer tracking msg) :
    (tracking.step times msg r).Sane times tree peering peer := by
  have hnow := Tracks.mono h hconforming.clock_le
  cases msg with
  | stakeDistUpdated | recheckLedgerHeight =>
    refine Tracks.recheckDeferred hconforming.sound (hnow.frame (fun _ ↦ rfl) rfl id) ?_
    exact fun d hd hpeer ↦ hcalm.stake (.inl ⟨d, hd, hpeer, rfl⟩)
  | fromUpstream sender connId result =>
    cases result with
    | initialise =>
      refine (hnow.purgeConnection connId id fun _ ↦ rfl).frame (fun connId' ↦ ?_) rfl id
      by_cases hne : connId' = connId
      · subst hne
        rw [established?_purgeConnection_self]
        exact established?_connecting_self
      · exact established?_insert hne
    | terminated => exact hnow.purgeConnection connId id fun _ ↦ rfl
    | intersectNotFound tip => exact hnow.purgeConnection connId (by simp [send]) fun _ ↦ rfl
    | intersectFound current tip => exact sane_intersectFound h hconforming rfl
    | rollForward content tip => exact sane_rollForward h hconforming hcalm rfl
    | rollBackward current tip => exact sane_rollBackward h hconforming hcalm rfl

end

end Steps

/-! ### Runs -/

section Runs

variable {times : EraTimes} {tree : HeaderTree} {peering : Peering} {peer : Peer} {tracking : Tracking Nonces}

theorem Tracked.sane (h : Tracked times tree peering peer (Calm times peer) tracking) :
    tracking.Sane times tree peering peer := by
  induction h with
  | start maxPeerLead maxEpoch hstore =>
    exact ⟨hstore, nofun, fun _ ↦ .idle rfl rfl, not_mem_nil⟩
  | step _ hconforming hcalm ih => exact ih.step hconforming hcalm

/-- **A peer that follows the protocol is not taken for an adversary**, if it does not roll back while headers
are deferred and is not more than an epoch ahead of the stake distributions. -/
theorem conforming_is_not_adversarial (h : Tracked times tree peering peer (Calm times peer) tracking) :
    .adversarial peer ∉ tracking.stage.sent :=
  h.sane.sent

end Runs

/-! ### A peer that rolls back -/

section Example

open Pipeline (headerAt pointAt)

variable {tracking : Tracking Unit} {height : ℕ}

/-- One era, with a slot per second. -/
def slotPerSecond : EraTimes where
  slotToEraTag _ := some .conway
  slotToRelativeTime slot _ := some (1000 * slot)
  slotToEpoch _ := 0

/-- Two headers, one after the other. -/
def twoHeaders : SortedMap ℕ Header := .ofList [(1, headerAt 1 1 none), (2, headerAt 2 2 (some 1))]

def twoHeadersTree : HeaderTree := HeaderTree.ofMap twoHeaders (by decide +kernel)

/-- All connections are with one peer. -/
def onePeer : Peering where
  owner _ := 0
  headerOf hash := headerAt hash hash (if hash = 1 then none else some 1)

/-- The ledger takes every header. -/
def ledgerAt (ledgerHeight : ℕ) : Reading Unit where
  now := 10000
  ledgerHeight
  validateHeader _ _ := .ok ()

/-- The first header is stored. -/
def firstStored : HeaderStore Unit where
  headers := .ofList [(1, headerAt 1 1 none)]
  nonces := .ofList [(1, ())]

/-- The peer has sent the second header, which is too far ahead of the ledger. -/
def afterSecondHeader : Tracking Unit :=
  ((({ stage := { peers := .new 1 0, store := firstStored, sent := [] }, pointer := fun _ ↦ none, clock := 0 }
    : Tracking Unit).step slotPerSecond (.fromUpstream 0 0 .initialise) (ledgerAt 0)).step slotPerSecond
      (.fromUpstream 0 0 (.intersectFound (pointAt 1 1) (pointAt 2 2))) (ledgerAt 0)).step slotPerSecond
      (.fromUpstream 0 0 (.rollForward ⟨.conway, some (headerAt 2 2 (some 1))⟩ (pointAt 2 2))) (ledgerAt 0)

theorem valid_firstStored : firstStored.Valid onePeer := by
  have hheaders : ∀ {hash header}, firstStored.headers.get? hash = some header →
      hash = 1 ∧ header = headerAt 1 1 none := by
    intro hash header hget
    have hmem := mem_entries_iff.2 hget
    cases mem_singleton.1 hmem
    exact ⟨rfl, rfl⟩
  constructor
  · intro hash header hget
    obtain ⟨rfl, -⟩ := hheaders hget
    rfl
  · intro hash _ hget
    obtain ⟨nonces, hnonces⟩ := isSome_iff_exists.1 hget
    have hmem := mem_entries_iff.2 hnonces
    cases mem_singleton.1 hmem
    exact ⟨_, rfl⟩
  · intro hash header hget
    obtain ⟨rfl, rfl⟩ := hheaders hget
    exact ⟨rfl, rfl, nofun⟩

theorem conforming_onePeer {result} (hclock : tracking.clock ≤ 10000)
    (hknows : ∀ {content tip header}, result = .rollForward content tip → content.header? = some header
      → onePeer.Knows header) (h : Conforms slotPerSecond twoHeadersTree tracking 10000 0 result) :
    Conforming slotPerSecond twoHeadersTree onePeer 0 tracking (.fromUpstream 0 0 result)
      (ledgerAt height) where
  clock_le := hclock
  sound _ _ _ _ _ _ := .inl ⟨(), rfl⟩
  owner hmsg := by
    cases hmsg
    rfl
  knows hmsg hheader := by
    cases hmsg
    exact hknows rfl hheader
  conforms hmsg := by
    cases hmsg
    exact h

theorem calm_slotPerSecond {msg}
    (h : ∀ connId current tip, msg ≠ .fromUpstream 0 connId (.rollBackward current tip)) :
    Calm slotPerSecond 0 tracking msg where
  rollBackward hmsg := absurd hmsg (h _ _ _)
  stake _ := zero_le _

theorem tracked_afterSecondHeader {Allowed}
    (h : ∀ {tracking msg}, Calm slotPerSecond 0 tracking msg → Allowed tracking msg) :
    Tracked slotPerSecond twoHeadersTree onePeer 0 Allowed afterSecondHeader := by
  refine .step (.step (.step (.start 1 0 valid_firstStored) ?_ ?_) ?_ ?_) ?_ ?_
  · exact conforming_onePeer (zero_le _) nofun .initialise
  · exact h (calm_slotPerSecond nofun)
  · exact conforming_onePeer (le_refl _) nofun (.intersectFound rfl rfl)
  · exact h (calm_slotPerSecond nofun)
  · refine conforming_onePeer (le_refl _) ?_ ?_
    · intro content tip header hresult hheader
      cases hresult
      cases hheader
      exact ⟨rfl, nofun⟩
    · refine .rollForward (p := pointAt 1 1) rfl rfl ⟨rfl, rfl, by decide, rfl, rfl⟩ ?_
      intro onset honset
      cases honset
      decide
  · exact h (calm_slotPerSecond nofun)

theorem conforming_recheck (hclock : tracking.clock ≤ 10000) :
    Conforming slotPerSecond twoHeadersTree onePeer 0 tracking .recheckLedgerHeight (ledgerAt height) where
  clock_le := hclock
  sound _ _ _ _ _ _ := .inl ⟨(), rfl⟩
  owner := nofun
  knows := nofun
  conforms := nofun

/-- The peer waits until the ledger has come up. -/
theorem conforming_is_not_adversarial_twoHeaders :
    .adversarial 0 ∉ (afterSecondHeader.step slotPerSecond .recheckLedgerHeight (ledgerAt 1)).stage.sent :=
  conforming_is_not_adversarial
    ((tracked_afterSecondHeader id).step (conforming_recheck (le_refl _)) (calm_slotPerSecond nofun))

/-- **The peer rolls back while its header is deferred, and is taken for an adversary.** -/
theorem roll_back_is_taken_for_adversary :
    ∃ tracking : Tracking Unit, Tracked slotPerSecond twoHeadersTree onePeer 0 (fun _ _ ↦ True) tracking ∧
      .adversarial 0 ∈ tracking.stage.sent := by
  refine ⟨(afterSecondHeader.step slotPerSecond (.fromUpstream 0 0 (.rollBackward .origin (pointAt 2 2)))
    (ledgerAt 0)).step slotPerSecond .recheckLedgerHeight (ledgerAt 1), ?_, by decide +kernel⟩
  refine .step (.step (tracked_afterSecondHeader fun _ ↦ trivial) ?_ trivial)
    (conforming_recheck (le_refl _)) trivial
  exact conforming_onePeer (le_refl _) nofun (.rollBackward rfl (.inl rfl) rfl)

end Example

/-! ### Whatever peers send -/

/-- The header with a hash was validated. -/
def HeaderStore.Has (s : HeaderStore Nonces) (hash : ℕ) : Prop :=
  hash = originHash ∨ (s.getNonces hash).isSome

/-- Every header that is stored was validated, and so was its parent. -/
def HeaderStore.Rooted (s : HeaderStore Nonces) : Prop :=
  ∀ hash header, s.headers.get? hash = some header →
    header.hash = hash ∧ (s.getNonces hash).isSome ∧ s.Has (header.parent.getD originHash)

/-- What is stored is rooted, and connections have come to headers that were validated. -/
def Safe (st : TrackStage Nonces) : Prop :=
  st.store.Rooted ∧ ∀ connId current, st.peers.established? connId = some current →
    st.store.Has current.1.hash

section Safety

variable {times : EraTimes} {r : Reading Nonces} {s : HeaderStore Nonces} {hash : ℕ} {p : Point}
  {st : TrackStage Nonces} {sent : List TrackEffect}

section

variable (h : Safe st) (connId : ConnectionId)
include h

theorem Safe.update {connId peers perPeer}
    (hget : ∀ c, peers.upstream.get? c = if c = connId then perPeer else st.peers.upstream.get? c)
    (hself : ∀ current, perPeer.bind PerPeer.established? = some current → st.store.Has current.1.hash) :
    Safe { peers, store := st.store, sent } := by
  refine ⟨h.1, fun c current hc ↦ ?_⟩
  rw [established?, hget] at hc
  split_ifs at hc
  · exact hself current hc
  · exact h.2 c current hc

theorem Safe.purge : Safe { peers := st.peers.purgeConnection connId, store := st.store, sent } :=
  h.update (get?_erase _ connId) nofun

theorem Safe.moveTo (q : Point) (hp : st.store.Has p.hash) :
    Safe { peers := st.peers.moveTo connId p q, store := st.store, sent } := by
  refine h.update (get?_modify _ connId · _) ?_
  intro current hself
  rcases hget : st.peers.upstream.get? connId with _ | _ | _ <;> rw [hget] at hself <;> cases hself
  exact hp

theorem Safe.has_of_loadPoint (hload : st.store.loadPoint hash = some p) : st.store.Has p.hash := by
  rw [HeaderStore.loadPoint] at hload
  split_ifs at hload
  · cases hload
    exact .inl rfl
  · obtain ⟨header, hget, rfl⟩ := map_eq_some_iff.1 hload
    obtain ⟨rfl, hnonces, -⟩ := h.1 _ _ hget
    exact .inr hnonces

end

theorem isSome_of_storeValidatedHeader {nonces}
    (h : hash = header.hash ∨ (s.getNonces hash).isSome) :
    ((s.storeValidatedHeader header nonces).getNonces hash).isSome := by
  rw [HeaderStore.getNonces, HeaderStore.storeValidatedHeader, get?_insert]
  split_ifs with heq
  · rfl
  · exact h.resolve_left heq

theorem Safe.insert (nonces : Nonces) (h : Safe st)
    (hparent : st.store.Has (header.parent.getD originHash)) :
    Safe { st with store := st.store.storeValidatedHeader header nonces } := by
  have hkeeps {hash} (h : st.store.Has hash) : (st.store.storeValidatedHeader header nonces).Has hash :=
    h.imp_right fun h ↦ isSome_of_storeValidatedHeader (.inr h)
  refine ⟨fun hash header' hget ↦ ?_, fun c current hc ↦ hkeeps (h.2 c current hc)⟩
  rw [HeaderStore.storeValidatedHeader, get?_insert] at hget
  split_ifs at hget with heq
  · cases hget
    exact ⟨heq.symm, isSome_of_storeValidatedHeader (.inl heq), hkeeps hparent⟩
  · obtain ⟨hhash, hnonces, hparent⟩ := h.1 _ _ hget
    exact ⟨hhash, isSome_of_storeValidatedHeader (.inr hnonces), hkeeps hparent⟩

theorem exists_of_validateHeader {args validated}
    (h : st.validateHeader times r args = .ok validated) :
    ∃ current, st.peers.established? args.connId = some current ∧
      args.header.parent.getD originHash = current.1.hash := by
  unfold TrackStage.validateHeader at h
  repeat' split at h
  all_goals first | cases h; done | exact ⟨_, ‹_›, not_not.1 ‹_›⟩

theorem Safe.of_tryRollForward {args out} (htry : st.tryRollForward times r args = out)
    (h : Safe st) : Safe out.1 := by
  rw [← htry, tryRollForward]
  rcases hvalidate : st.validateHeader times r args with error | _ | ⟨parent, nonces⟩ <;> dsimp only
  · repeat' split
    · exact h
    · exact h
    · exact h.purge args.connId
  · split_ifs <;> exact h.moveTo (p := args.header.point) args.connId args.tip
      (.inr (isSome_of_validateHeader hvalidate))
  · obtain ⟨current, hcurrent, hparent⟩ := exists_of_validateHeader hvalidate
    have hstored := h.insert nonces (hparent ▸ h.2 _ current hcurrent)
    split_ifs <;> exact hstored.moveTo (p := args.header.point) args.connId args.tip
      (.inr (isSome_of_storeValidatedHeader (.inl rfl)))

theorem Safe.ensureRecheckArmed (h : Safe st) : Safe (st.ensureRecheckArmed r) := by
  obtain ⟨_, _, heq, -⟩ := ensureRecheckArmed_eq st.peers r.now
  rw [TrackStage.ensureRecheckArmed, heq]
  exact h

theorem Safe.recheckDeferred (h : Safe st) : Safe (st.recheckDeferred times r) := by
  refine Safe.ensureRecheckArmed (foldlRecOn (motive := fun progress : _ × _ ↦ Safe progress.1) _ _ h ?_)
  intro progress h d _
  rw [recheckOne]
  split_ifs
  · exact h
  · exact h
  · split <;> next htry => exact .of_tryRollForward htry h

theorem Safe.handle (msg : TrackPeersMsg) (h : Safe st) : Safe (st.handle times r msg) := by
  rcases msg with ⟨sender, connId, result⟩ | _ | _
  · rw [TrackStage.handle]
    cases result with
    | initialise =>
      have hpurged : Safe { st with peers := st.peers.purgeConnection connId } := h.purge connId
      exact hpurged.update (get?_insert _ _ · _) nofun
    | terminated | intersectNotFound => exact h.purge connId
    | intersectFound current tip =>
      rw [handleFromUpstream]
      rcases hload : st.store.loadPoint current.hash with - | currentTip
      · exact h
      · refine h.update (get?_insert _ _ · _) fun _ hself ↦ ?_
        cases hself
        exact h.has_of_loadPoint hload
    | rollForward content tip =>
      rw [handleFromUpstream, handleRollForward]
      split
      · exact h.purge connId
      next header _ =>
      obtain ⟨_, _, hledger⟩ := lookAtLedger_eq r st (header.blockHeight - st.peers.maxPeerLead)
      dsimp only
      rw [hledger]
      split_ifs
      · exact h
      · exact Safe.ensureRecheckArmed h
      · split
        · next htry => exact Safe.ensureRecheckArmed (Safe.of_tryRollForward htry h)
        · next htry => exact Safe.of_tryRollForward htry h
    | rollBackward current tip =>
      rw [handleFromUpstream, handleRollBackward, rollBackward]
      rcases hload : st.store.loadPoint current.hash with - | currentTip
      · exact h.purge connId
      · dsimp only
        rcases (st.peers.upstream.get? connId).bind PerPeer.established? with - | -
        · exact h.purge connId
        · exact h.moveTo connId tip (h.has_of_loadPoint hload)
  · exact Safe.recheckDeferred h
  · exact Safe.recheckDeferred h

/-- The stage handles messages, one after the other. -/
def TrackStage.handleAll (times : EraTimes) (st : TrackStage Nonces)
    (msgs : List (TrackPeersMsg × Reading Nonces)) : TrackStage Nonces :=
  msgs.foldl (fun st (msg, r) ↦ st.handle times r msg) st

/-- **Whatever peers send, in whatever order, a header is only stored once its parent was validated.** -/
theorem stored_headers_are_rooted (times : EraTimes) (maxPeerLead maxEpoch : ℕ) (h : s.Rooted)
    (msgs : List (TrackPeersMsg × Reading Nonces)) :
    (handleAll times { peers := .new maxPeerLead maxEpoch, store := s, sent := [] } msgs).store.Rooted := by
  have hstart : Safe { peers := .new maxPeerLead maxEpoch, store := s, sent := [] } := ⟨h, nofun⟩
  exact (foldlRecOn (motive := Safe) msgs _ hstart fun _ hsafe msg _ ↦ hsafe.handle msg.1).1

end Safety

open Pipeline (headerAt pointAt)

/-- The peer sends both headers, and both are stored. -/
def bothSent : List (TrackPeersMsg × Reading Unit) :=
  [.intersectFound .origin (pointAt 2 2), .rollForward ⟨.conway, some (headerAt 1 1 none)⟩ (pointAt 2 2),
    .rollForward ⟨.conway, some (headerAt 2 2 (some 1))⟩ (pointAt 2 2)].map fun result ↦
      (.fromUpstream 0 0 result, ledgerAt 0)

theorem stored_headers_are_rooted_twoHeaders :
    (handleAll slotPerSecond ⟨.new 5 0, ⟨∅, ∅⟩, []⟩ bothSent).store.headers.keys = [1, 2] ∧
      (handleAll slotPerSecond ⟨.new 5 0, ⟨∅, ∅⟩, []⟩ bothSent).store.Rooted :=
  ⟨by decide +kernel, stored_headers_are_rooted slotPerSecond 5 0 (by rintro _ _ ⟨⟩) bothSent⟩

end Amaru
