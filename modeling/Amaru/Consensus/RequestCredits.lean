import Amaru.Consensus.Conformance

/-!
# Requests for the next header

A connection sends a header, or rolls back, only when it is asked to, so the stage that tracks peers has to
ask **once for each answer**. Mostly it asks at once. When a header is deferred, it has asked already (the
stake distribution is missing, or the slot has not begun) or asks later (the header is too far ahead of the
ledger, or follows on another deferred header), and a header may be deferred again for another reason.

`Followed` is a connection that the stage keeps. What was asked for and what the deferred headers still owe
add up to the answers that came in (`requests_match_answers`).
-/

namespace Amaru

open TrackPeers TrackStage List RollForwardArgs Bool DeferredHeader Nat
open Pipeline (headerAt pointAt)

variable {Nonces : Type}

/-! ### What is owed -/

/-- The connection is asked for the next header only when this one is taken. -/
def RollForwardArgs.owes (args : RollForwardArgs) (connId : ConnectionId) : Bool :=
  args.connId = connId && !args.sentRequestNext

/-- How many of the deferred headers of a connection still owe a request. -/
def TrackPeers.owed (peers : TrackPeers) (connId : ConnectionId) : ℕ :=
  peers.deferred.countP fun d ↦ d.args.owes connId

/-- How many times a connection was asked for the next header. -/
def TrackStage.requested (st : TrackStage Nonces) (connId : ConnectionId) : ℕ :=
  st.sent.count (.requestNext connId)

/-- The message is an answer of the connection to a request. -/
def TrackPeersMsg.answers (connId : ConnectionId) : TrackPeersMsg → Bool
  | .fromUpstream _ sender (.rollForward _ _) | .fromUpstream _ sender (.rollBackward _ _) => sender = connId
  | _ => false

/-- The connection starts over. -/
def TrackPeersMsg.startsOver (connId : ConnectionId) : TrackPeersMsg → Bool
  | .fromUpstream _ sender .initialise => sender = connId
  | _ => false

/-- A connection that is kept since it was started, the number of requests before that, and the number of
answers since. -/
inductive Followed (times : EraTimes) (connId : ConnectionId) : ℕ → TrackStage Nonces → ℕ → Prop
  | initialise (st : TrackStage Nonces) (r : Reading Nonces) (peer : Peer) :
    Followed times connId (st.requested connId)
      (st.handle times r (.fromUpstream peer connId .initialise)) 0
  | step {before answers st} (msg : TrackPeersMsg) (r : Reading Nonces)
    (h : Followed times connId before st answers) (hmsg : msg.startsOver connId = false)
    (hkept : (st.handle times r msg).peers.upstream.contains connId) :
    Followed times connId before (st.handle times r msg) (answers + (msg.answers connId).toNat)

/-! ### What a step earns -/

section Earns

variable {times : EraTimes} {r : Reading Nonces} {st st' stage'' : TrackStage Nonces}
  {connId sender : ConnectionId} {args : RollForwardArgs} {error : TrackPeersError} {d : DeferredHeader}
  {peers : TrackPeers} {m n : ℕ} {peer : Peer}

/-- If the connection is kept, it is asked for that many more headers, now or when deferred headers are
taken. -/
def Earns (connId : ConnectionId) (n : ℕ) (st st' : TrackStage Nonces) : Prop :=
  st'.peers.upstream.contains connId → st.peers.upstream.contains connId ∧
    st'.requested connId + st'.peers.owed connId = st.requested connId + st.peers.owed connId + n

theorem Earns.refl : Earns connId 0 st st := fun h ↦ ⟨h, rfl⟩

theorem Earns.trans (h : Earns connId m st st') (h' : Earns connId n st' stage'') :
    Earns connId (m + n) st stage'' := by
  intro hkept
  obtain ⟨hkept', heq'⟩ := h' hkept
  obtain ⟨hkept'', heq⟩ := h hkept'
  exact ⟨hkept'', by rw [heq', heq, add_assoc]⟩

theorem Earns.send (effect : TrackEffect) :
    Earns connId ([effect].count (.requestNext connId)) st (st.send effect) := by
  intro hkept
  refine ⟨hkept, ?_⟩
  rw [requested, TrackStage.send, count_append, add_right_comm]
  rfl

theorem Earns.requestNext (sender : ConnectionId) :
    Earns connId (decide (sender = connId)).toNat st (st.send (.requestNext sender)) := by
  convert Earns.send _ using 1
  by_cases h : sender = connId <;> simp [h]

theorem Earns.defer (d : DeferredHeader) :
    Earns connId (d.args.owes connId).toNat st { st with peers := st.peers.defer d } := by
  intro hkept
  refine ⟨hkept, ?_⟩
  rw [owed, TrackPeers.defer, countP_append, countP_singleton, add_assoc]
  cases d.args.owes connId <;> rfl

theorem Earns.moveTo (sender : ConnectionId) (current highest : Point) :
    Earns connId 0 st { st with peers := st.peers.moveTo sender current highest } := by
  intro hkept
  refine ⟨?_, rfl⟩
  rw [SortedMap.contains, TrackPeers.moveTo, SortedMap.get?_modify] at hkept
  split_ifs at hkept with h
  · rwa [Option.isSome_map, ← h] at hkept
  · exact hkept

theorem owed_purgeConnection (hne : sender ≠ connId) :
    (peers.purgeConnection sender).owed connId = peers.owed connId := by
  rw [owed, purgeConnection, countP_filter]
  refine countP_congr fun d _ ↦ ?_
  by_cases hd : d.connId = sender <;> simp [owes, args, hd, hne]

theorem Earns.purge (hn : sender ≠ connId → n = 0) :
    Earns connId n st { st with peers := st.peers.purgeConnection sender } := by
  intro hkept
  have hne : sender ≠ connId := by
    rintro rfl
    simp [SortedMap.contains, purgeConnection] at hkept
  rw [SortedMap.contains, purgeConnection, SortedMap.get?_erase_of_ne _ (Ne.symm hne)] at hkept
  exact ⟨hkept, hn hne ▸ congrArg (st.requested connId + ·) (owed_purgeConnection hne)⟩

theorem Earns.deferred {reason} (h : reason.rnSent = args.sentRequestNext) :
    Earns connId (args.owes connId).toNat st
      { st with peers := st.peers.defer (args.deferred reason) } := by
  rw [owes, ← h]
  exact .defer _

/-- **A header that is tried earns what it owes**: it is asked for the next one, or is deferred and owes it
still. -/
theorem Earns.tryRollForward (times : EraTimes) (r : Reading Nonces) (args : RollForwardArgs) :
    Earns connId (args.owes connId).toNat st (settle (st.tryRollForward times r args)) := by
  rw [TrackStage.tryRollForward]
  rcases st.validateHeader times r args with error | validated
  · dsimp only
    rcases hstake : st.peers.tryDeferForStake args error with - | d
    · rcases hclock : st.peers.tryDeferForClockSkew times r.now args error with - | d
      · refine (Earns.purge fun hne ↦ ?_).trans (.send (.adversarial args.peer))
        simp [owes, hne]
      · obtain ⟨reason, hreason, rfl⟩ := exists_of_tryDeferForClockSkew hclock
        exact .deferred hreason
    · obtain ⟨reason, hreason, rfl⟩ := exists_of_tryDeferForStake hstake
      exact .deferred hreason
  · have hmoved : Earns connId 0 st _ := .moveTo args.connId args.header.point args.tip
    split_ifs with hsent
    · rw [owes, hsent, Bool.not_true, Bool.and_false]
      rcases validated with - | validated
      · exact hmoved
      · exact hmoved.trans (.send (.newTip args.header.point validated.1))
    · rw [owes, Bool.eq_false_of_not_eq_true hsent, Bool.not_false, Bool.and_true, ← zero_add (Bool.toNat _)]
      rcases validated with - | validated
      · exact hmoved.trans (.requestNext _)
      · exact (hmoved.trans (.send (.newTip args.header.point validated.1))).trans (.requestNext _)

theorem Earns.recheckOne (times : EraTimes) (r : Reading Nonces)
    (progress : TrackStage Nonces × List ConnectionId) (d : DeferredHeader) :
    Earns connId (d.args.owes connId).toNat progress.1
      (TrackStage.recheckOne times r progress d).1 := by
  obtain ⟨st, blocked⟩ := progress
  rw [TrackStage.recheckOne]
  split_ifs with hgone hwaits
  · -- the header is left out, and so is its connection
    intro hkept
    refine ⟨hkept, ?_⟩
    have hne : d.args.connId ≠ connId := by
      rintro rfl
      rw [not_eq_true', ← not_eq_true] at hgone
      exact hgone hkept
    simp [owes, hne]
  · exact .defer d
  · have htry : Earns connId _ st _ := .tryRollForward times r d.args
    rcases hresult : st.tryRollForward times r d.args with ⟨st', out⟩
    rw [hresult] at htry
    rcases out with - | d'
    · exact htry
    · exact htry

theorem Earns.foldl (times : EraTimes) (r : Reading Nonces) (queue : List DeferredHeader)
    (progress : TrackStage Nonces × List ConnectionId) :
    Earns connId (queue.countP fun d ↦ d.args.owes connId) progress.1
      (queue.foldl (TrackStage.recheckOne times r) progress).1 := by
  induction queue generalizing progress with
  | nil => exact .refl
  | cons d queue ih =>
    have hstep := (Earns.recheckOne times r progress d).trans (ih _)
    have hcount : (d :: queue).countP (fun d ↦ d.args.owes connId)
        = (d.args.owes connId).toNat + queue.countP fun d ↦ d.args.owes connId := by
      rw [countP_cons, add_comm]
      cases d.args.owes connId <;> rfl
    rw [hcount]
    exact hstep

theorem Earns.ensureRecheckArmed (r : Reading Nonces) :
    Earns connId 0 st (st.ensureRecheckArmed r) := by
  obtain ⟨recheckTimer, effects, heq, heffects⟩ := ensureRecheckArmed_eq st.peers r.now
  have hnone : .requestNext connId ∉ effects := by
    intro hmem
    rcases heffects _ hmem with h | ⟨_, h⟩ <;> cases h
  intro hkept
  rw [TrackStage.ensureRecheckArmed, heq] at hkept ⊢
  refine ⟨hkept, congrArg (· + st.peers.owed connId) ?_⟩
  rw [requested, count_append, count_eq_zero.2 hnone]
  rfl

theorem Earns.recheckDeferred : Earns connId 0 st (st.recheckDeferred times r) := by
  let peers := { st.peers with ledgerAppliedBlockHeight := r.ledgerHeight, deferred := [] }
  have hfold : Earns connId _ { st with peers } _ :=
    .foldl times r st.peers.deferred ({ st with peers }, [])
  intro hkept
  obtain ⟨hkept, harmed⟩ := Earns.ensureRecheckArmed r hkept
  obtain ⟨hkept, hfold⟩ := hfold hkept
  exact ⟨hkept, harmed.trans hfold⟩

theorem Earns.handleRollForward {content tip} :
    Earns connId (decide (sender = connId)).toNat st
      (st.handleRollForward times r peer sender content tip) := by
  rw [TrackStage.handleRollForward]
  rcases decodeHeader content with - | header
  · exact (Earns.purge fun hne ↦ by simp [hne]).trans (.send (.adversarial peer))
  let args : RollForwardArgs := ⟨peer, sender, true, content.variant, header, tip⟩
  have hdefer : ∀ (st : TrackStage Nonces) (reason : DeferReason), reason.rnSent = false →
      Earns connId (decide (sender = connId)).toNat st
        { st with peers := st.peers.defer (args.deferred reason) } := by
    intro st reason hreason
    have howes : (args.deferred reason).args.owes connId = decide (sender = connId) := by
      simp [RollForwardArgs.owes, DeferredHeader.args, RollForwardArgs.deferred, hreason, args]
    exact howes ▸ .defer _
  dsimp only
  split
  · exact hdefer _ .followUp rfl
  obtain ⟨height, checkedAt, hledger⟩ :=
    lookAtLedger_eq r st (header.blockHeight - st.peers.maxPeerLead)
  rw [hledger]
  let st' : TrackStage Nonces := { st with peers :=
    { st.peers with ledgerLastCheckedAt := checkedAt, ledgerAppliedBlockHeight := height } }
  split
  · exact (hdefer st' (.ledgerHeight _) rfl).trans (.ensureRecheckArmed r)
  -- the next header is asked for before this one is tried
  have hsent : Earns connId _ st' _ := .requestNext sender
  have htry := hsent.trans (.tryRollForward times r args)
  rw [show args.owes connId = false from and_false _] at htry
  cases hresult : (st'.send (.requestNext sender)).tryRollForward times r args with
  | mk stage'' out =>
    rw [hresult] at htry
    rcases out with - | d
    · exact htry
    · exact htry.trans (.ensureRecheckArmed r)

theorem Earns.handleRollBackward {current tip : Point} :
    Earns connId (decide (sender = connId)).toNat st
      (st.handleRollBackward peer sender current tip) := by
  rw [TrackStage.handleRollBackward, TrackStage.rollBackward]
  rcases st.store.loadPoint current.hash with - | currentTip
  · have hsent : Earns connId 0 st _ :=
      (Earns.send (.uninteresting peer sender true)).trans (.send (.done sender))
    rw [← zero_add (toNat _)]
    exact hsent.trans (.purge fun hne ↦ by simp [hne])
  · rcases (st.peers.upstream.get? sender).bind PerPeer.established? with - | established
    · exact ((Earns.requestNext sender).trans (.purge fun _ ↦ rfl)).trans (.send (.adversarial peer))
    · rw [← zero_add (toNat _)]
      exact (Earns.moveTo sender currentTip tip).trans (.requestNext sender)

/-- **Every answer earns one request**, and nothing else does. -/
theorem Earns.handle {msg} (hmsg : msg.startsOver connId = false)
    (hkept : (st.handle times r msg).peers.upstream.contains connId) :
    (st.handle times r msg).requested connId + (st.handle times r msg).peers.owed connId
      = st.requested connId + st.peers.owed connId + (msg.answers connId).toNat := by
  cases msg with
  | stakeDistUpdated | recheckLedgerHeight => exact (Earns.recheckDeferred hkept).2
  | fromUpstream peer sender msg =>
    cases msg with
    | initialise =>
      exact congrArg (st.requested connId + ·) (owed_purgeConnection (of_decide_eq_false hmsg))
    | intersectFound current tip =>
      rw [TrackStage.handle, handleFromUpstream] at hkept ⊢
      rcases hload : st.store.loadPoint current.hash with - | currentTip
      · rw [hload] at hkept
        exact (Earns.send (.done sender) hkept).2
      · rfl
    | intersectNotFound tip =>
      exact (((Earns.send (.uninteresting peer sender false)).trans (.send (.done sender))).trans
        (.purge fun _ ↦ rfl) hkept).2
    | rollForward content tip => exact (Earns.handleRollForward hkept).2
    | rollBackward current tip => exact (Earns.handleRollBackward hkept).2
    | terminated => exact (Earns.purge (fun _ ↦ rfl) hkept).2

end Earns

/-- **Requests match answers.** What a connection was asked for since it was started, and what its deferred
headers still owe, add up to the answers that came in. So no answer is asked for twice, and once no header
of the connection is deferred, it was asked as many times as it has answered. -/
theorem requests_match_answers {times : EraTimes} {connId : ConnectionId} {before answers : ℕ}
    {st : TrackStage Nonces} (h : Followed times connId before st answers) :
    st.requested connId + st.peers.owed connId = before + answers ∧
    st.requested connId ≤ before + answers ∧
    (st.peers.isDeferred connId = false → st.requested connId = before + answers) := by
  have hsum : st.requested connId + st.peers.owed connId = before + answers := by
    induction h with
    | initialise st r peer =>
      have howed : (st.peers.purgeConnection connId).owed connId = 0 := by
        refine countP_eq_zero.2 fun d hd ↦ ?_
        simp [owes, args, of_decide_eq_true (mem_filter.1 hd).2]
      exact congrArg (st.requested connId + ·) howed
    | step _ _ _ hmsg hkept ih => rw [Earns.handle hmsg hkept, ih, add_assoc]
  refine ⟨hsum, hsum ▸ le_add_right _ _, fun hdeferred ↦ ?_⟩
  have howed : st.peers.owed connId = 0 := by
    refine countP_eq_zero.2 fun d hd ↦ ?_
    have hne := headersOf_eq_nil.1 (isDeferred_eq_false.1 hdeferred) d hd
    simp [owes, args, hne]
  rw [← hsum, howed, add_zero]

/-- The header that was too far ahead of the ledger is taken once the ledger has come up, and only then the
next one is asked for. -/
theorem requests_match_answers_twoHeaders :
    afterSecondHeader.stage.requested 0 + afterSecondHeader.stage.peers.owed 0 = 1 ∧
    (afterSecondHeader.step slotPerSecond .recheckLedgerHeight (ledgerAt 1)).stage.requested 0 = 1 := by
  have hfound : Followed slotPerSecond 0 0 _ 0 :=
    .step (.fromUpstream 0 0 (.intersectFound (pointAt 1 1) (pointAt 2 2))) (ledgerAt 0)
      (.initialise ⟨.new 1 0, firstStored, []⟩ (ledgerAt 0) 0) rfl rfl
  have hfollowed : Followed slotPerSecond 0 0 afterSecondHeader.stage 1 :=
    hfound.step (.fromUpstream 0 0 (.rollForward ⟨.conway, some (headerAt 2 2 (some 1))⟩ (pointAt 2 2)))
      (ledgerAt 0) rfl rfl
  have hrechecked : Followed slotPerSecond 0 0
      (afterSecondHeader.step slotPerSecond .recheckLedgerHeight (ledgerAt 1)).stage 1 :=
    hfollowed.step .recheckLedgerHeight (ledgerAt 1) rfl (by decide +kernel)
  exact ⟨(requests_match_answers hfollowed).1, (requests_match_answers hrechecked).2.2 (by decide +kernel)⟩

end Amaru
