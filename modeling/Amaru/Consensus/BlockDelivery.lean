import Amaru.Consensus.FetchBlocks
import Amaru.Consensus.Pipeline

/-!
# Delivery of a batch

A batch is open: some peers were asked for blocks, and their replies come in any order, between other
messages. If one peer sends all the blocks in order, and no peer says that it is done before, then **the
batch is completed** and the peer is not recorded to have failed (`batch_completes`): what the others send
can only move the batch forward.

But the stage in between takes the end of one peer's replies for the end of the request, and drops what the
others still send (`done_drops_blocks_of_others`).
-/

namespace Amaru

open List Cleanup Option ChainStore

open ChainStore (MissingBlocks)
open Pipeline (headerAt pointAt bodyOf)

/-- The stages that take replies, while a batch is open. -/
structure Delivery (Body : Type) where
  store : ChainStore Body
  cleanup : Cleanup
  fetch : FetchBlocks
  /-- The messages that the stage that fetches blocks has not handled yet. -/
  inbox : List (FetchBlocksMsg Body)
  effects : List FetchEffect

/-- What happens while a batch is open. -/
inductive DeliveryEvent (Body : Type)
  /-- A reply is handled, and forwarded unless it is too late. -/
  | reply (blocks : Blocks Body)
  | timeoutFires (reqId : ℕ)
  | widenFires (reqId : ℕ)
  /-- The next message is handled. -/
  | handleNext (select : SelectPeers)

namespace Delivery

variable {Body : Type}

/-- The next message is handled. -/
def handleNext (select : SelectPeers) (d : Delivery Body) : Except Termination (Delivery Body) :=
  match d.inbox with
  | [] => .ok d
  | msg :: inbox => do
    let (s, fetch, effects) ← d.fetch.handle select d.store msg
    .ok { d with store := s, fetch, inbox, effects := d.effects ++ effects }

/-- An event happens. -/
def step (d : Delivery Body) : DeliveryEvent Body → Except Termination (Delivery Body)
  | .reply blocks =>
    let (cleanup, forwarded, effects) := d.cleanup.handle blocks
    .ok { d with
      cleanup
      inbox := d.inbox ++ forwarded
      effects := d.effects ++ effects }
  | .timeoutFires reqId => .ok { d with inbox := d.inbox ++ [.timeout reqId] }
  | .widenFires reqId => .ok { d with inbox := d.inbox ++ [.widen reqId] }
  | .handleNext select => d.handleNext select

theorem step_reply (d : Delivery Body) (blocks : Blocks Body) :
    d.step (.reply blocks) = .ok { d with
      cleanup := (d.cleanup.handle blocks).1
      inbox := d.inbox ++ (d.cleanup.handle blocks).2.1
      effects := d.effects ++ (d.cleanup.handle blocks).2.2 } := rfl

/-- Events happen one after the other. -/
def run (d : Delivery Body) (events : List (DeliveryEvent Body)) :
    Except Termination (Delivery Body) :=
  events.foldlM step d

end Delivery

namespace FetchBlocks

variable {Body : Type} {s s' : ChainStore Body} {st st' : FetchBlocks}
  {select : SelectPeers} {msg : FetchBlocksMsg Body} {effects : List FetchEffect}

/-- A message that comes while a batch is open: a reply, or a timer that is not the timeout. -/
def IsReply (st : FetchBlocks) : FetchBlocksMsg Body → Prop
  | .newTip _ _ | .recoverStoredBlocks _ _ => False
  | .timeout reqId => reqId ≠ st.reqId
  | .block _ _ | .widen _ | .peersAsked _ _ | .noBlocks _ _ | .noPeersAvailable _ => True

theorem IsReply.congr (h : st.IsReply msg) (hreqId : st'.reqId = st.reqId) : st'.IsReply msg := by
  cases msg <;> first | exact h | exact fun heq ↦ h (heq.trans hreqId)

/-- The block that comes next in a batch. -/
structure IsNext (missing : MissingBlocks) (nb : NetworkBlock Body)
    (decoded : DecodedBlock Body) : Prop where
  decodeBlock_eq : nb.decodeBlock = some decoded
  bodyMatches : decoded.bodyMatches = true
  parent_eq : decoded.header.parent = some missing.boundary.hash
  head?_eq : missing.missing.head? = some decoded.header.point

/-- What a reply does to a batch. -/
inductive Replied (s : ChainStore Body) (st : FetchBlocks) (msg : FetchBlocksMsg Body)
    (s' : ChainStore Body) (st' : FetchBlocks) (effects : List FetchEffect) : Prop
  | kept (hstore : s' = s) (hmissing : st'.missing = st.missing)
    (hreqId : st'.reqId = st.reqId)
    (hfailure : ∀ peers, .fetchFailure peers ∈ effects →
      ∃ peer, msg = .noBlocks st.reqId peer ∧ peers = [peer])
    (hnot : ∀ {missing peer nb decoded}, msg = .block peer nb →
      st.missing = some missing → ¬IsNext missing nb decoded)
    (hpeers : st.missing = none → st'.fetchPeers = st.fetchPeers)
  /-- The next block is there. -/
  | accepted {missing peer nb decoded} (hmsg : msg = .block peer nb)
    (hopen : st.missing = some missing) (hnext : IsNext missing nb decoded)
    (hstore : s' = s.storeBlock decoded.header.point.hash decoded.block)
    (hmissing : st'.missing = if missing.shiftOneBlock.missing = [] then none
      else some missing.shiftOneBlock)
    (hpeers : st'.missing = none → st'.fetchPeers = ∅)
    (hreqId : st'.reqId = st.reqId)
    (hdownloaded : .downloaded ⟨decoded.header.point, missing.boundary, st.blockHeight⟩ ∈ effects)
    (hfailure : ∀ peers, .fetchFailure peers ∉ effects)

/-- **What a block does to a batch.** -/
theorem replied_block (s : ChainStore Body) (st : FetchBlocks) (peer : Peer)
    (nb : NetworkBlock Body) :
    Replied s st (.block peer nb) (st.block s peer nb).1
      (st.block s peer nb).2.1 (st.block s peer nb).2.2 := by
  rw [block]
  rcases hdecode : nb.decodeBlock with - | decoded
  · refine .kept rfl rfl rfl (by simp) (fun hmsg _ hnext ↦ ?_) fun _ ↦ rfl
    cases hmsg
    rw [hnext.decodeBlock_eq] at hdecode
    cases hdecode
  · dsimp only
    split_ifs with hmatches
    · refine .kept rfl rfl rfl (by simp) (fun hmsg _ hnext ↦ ?_) fun _ ↦ rfl
      cases hmsg
      obtain rfl := some.inj (hdecode.symm.trans hnext.decodeBlock_eq)
      rw [hnext.bodyMatches] at hmatches
      cases hmatches
    rcases hmissing : st.missing with - | missing
    · exact .kept rfl rfl rfl (by simp) (fun _ hopen ↦ absurd (hmissing.symm.trans hopen) (by simp))
        fun _ ↦ rfl
    dsimp only
    split_ifs with hnext
    · have hfailure : ∀ peers, .fetchFailure peers ∉ (acceptBlock s st missing peer decoded).2.2 := by
        intro peers
        rw [acceptBlock]
        split_ifs
        · cases st.timeout <;> simp [completeBatch, cancelWiden, endAttempt]
        · simp
      refine .accepted rfl hmissing ⟨hdecode, by simpa using hmatches, hnext.1, hnext.2⟩ rfl ?_ ?_ ?_ ?_
        hfailure
      · rw [acceptBlock]
        by_cases hempty : missing.shiftOneBlock.missing = []
        · rw [if_pos hempty, if_pos (isEmpty_iff.2 hempty)]
          rfl
        · rw [if_neg hempty, if_neg (mt List.isEmpty_iff.1 hempty)]
      · rw [acceptBlock]
        split_ifs
        · exact fun _ ↦ rfl
        · exact fun hnone ↦ (nomatch hnone)
      · rw [acceptBlock]
        split_ifs <;> rfl
      · rw [acceptBlock]
        split_ifs <;> exact mem_cons_self ..
    · refine .kept rfl rfl rfl (by simp) (fun hmsg hopen hnext' ↦ ?_) fun _ ↦ rfl
      cases hmsg
      obtain rfl := some.inj (hdecode.symm.trans hnext'.decodeBlock_eq)
      obtain rfl := some.inj (hmissing.symm.trans hopen)
      exact hnext ⟨hnext'.parent_eq, hnext'.head?_eq⟩

/-- **What a reply does to a batch.** -/
theorem replied_of_isReply (select : SelectPeers) (s : ChainStore Body) (st : FetchBlocks)
    (h : st.IsReply msg) : ∃ s' st' effects,
      st.handle select s msg = .ok (s', st', effects) ∧
      Replied s st msg s' st' effects := by
  cases msg with
  | newTip | recoverStoredBlocks => exact h.elim
  | block peer nb => exact ⟨_, _, _, rfl, replied_block s st peer nb⟩
  | timeout reqId =>
    have heq : st.handleTimeout reqId = (st, []) := if_pos h
    exact ⟨s, st, [], by rw [handle, heq], .kept rfl rfl rfl (by simp) (by simp) fun _ ↦ rfl⟩
  | widen reqId =>
    obtain ⟨hmissing, hreqId, hpeers, -, hasks⟩ := handleWiden_keeps select st reqId
    exact ⟨_, _, _, rfl, .kept rfl hmissing hreqId (fun peers hmem ↦ (hasks _ hmem).elim) (by simp)
      fun _ ↦ hpeers⟩
  | peersAsked reqId peers =>
    refine ⟨_, _, _, rfl, .kept rfl ?_ ?_ (by simp) (by simp) fun hnone ↦ ?_⟩
    · rw [peersAsked]; split_ifs <;> rfl
    · rw [peersAsked]; split_ifs <;> rfl
    · rw [peersAsked, if_pos (.inr (hnone ▸ rfl))]
  | noBlocks reqId peer =>
    rw [handle, noBlocks]
    split_ifs with hstale hsettled
    · exact ⟨_, _, _, rfl, .kept rfl rfl rfl (by simp) (by simp) fun _ ↦ rfl⟩
    · exact ⟨_, _, _, rfl, .kept rfl rfl rfl (by simp) (by simp) fun _ ↦ rfl⟩
    · rw [not_or, not_not] at hstale
      refine ⟨_, _, _, rfl, .kept rfl rfl rfl (fun peers hmem ↦ ⟨peer, hstale.1 ▸ rfl, ?_⟩) (by simp)
        fun hnone ↦ absurd (hnone ▸ rfl) hstale.2⟩
      simpa using hmem
  | noPeersAvailable reqId =>
    refine ⟨_, _, _, rfl, .kept rfl ?_ ?_ (by simp) (by simp) fun hnone ↦ ?_⟩
    · rw [noPeersAvailable]; split_ifs <;> rfl
    · rw [noPeersAvailable]; split_ifs <;> rfl
    · rw [noPeersAvailable, if_pos (.inr (hnone ▸ rfl))]

/-- A timeout that comes after the batch is complete does nothing to others. -/
theorem handleTimeout_of_complete (reqId : ℕ) (hmissing : st.missing = none)
    (hpeers : st.fetchPeers = ∅) :
    (st.handleTimeout reqId).1.missing = none ∧ (st.handleTimeout reqId).1.fetchPeers = ∅ ∧
      (st.handleTimeout reqId).1.reqId = st.reqId ∧ (st.handleTimeout reqId).2 = [] := by
  have hfailed : st.failedPeers = [] := by
    rw [failedPeers, hpeers]
    rfl
  by_cases hreqId : reqId = st.reqId
  · simp [handleTimeout, hreqId, hmissing, hfailed]
  · simp [handleTimeout, hreqId, hmissing, hpeers]

end FetchBlocks

namespace Delivery

variable {Body : Type} {d : Delivery Body} {id : ℕ} {good : Peer} {points : List Point}
  {pending todo : List (NetworkBlock Body)} {event : DeliveryEvent Body} {boundary point : Point}
  {effects : List FetchEffect} {networkBlocks : List (NetworkBlock Body)} {nb : NetworkBlock Body}

/-! ### Blocks that fit a batch -/

/-- Blocks for the points after a boundary, in order. -/
def Delivers : Point → List Point → List (NetworkBlock Body) → Prop
  | _, [], [] => True
  | boundary, point :: points, nb :: networkBlocks =>
    (nb.decodeHeader.isSome = true ∧ ∃ decoded, nb.decodeBlock = some decoded ∧
      decoded.bodyMatches = true ∧ decoded.header.parent = some boundary.hash ∧
      decoded.header.point = point) ∧ Delivers point points networkBlocks
  | _, _, _ => False

/-- Blocks that end with those for the points after a boundary. -/
def Covers (boundary : Point) (points : List Point) (networkBlocks : List (NetworkBlock Body)) : Prop :=
  ∃ earlier later, networkBlocks = earlier ++ later ∧ Delivers boundary points later

theorem Delivers.exists_cons (h : Delivers boundary (point :: points) networkBlocks) :
    ∃ nb rest decoded, networkBlocks = nb :: rest ∧
      FetchBlocks.IsNext ⟨boundary, point :: points⟩ nb decoded ∧
      Delivers point points rest := by
  rcases networkBlocks with - | ⟨nb, rest⟩
  · exact h.elim
  · obtain ⟨⟨-, decoded, hdecode, hmatches, hparent, hpoint⟩, hrest⟩ := h
    exact ⟨nb, rest, decoded, rfl, ⟨hdecode, hmatches, hparent, hpoint ▸ rfl⟩, hrest⟩

/-- When the first point is there, the blocks still cover the others. -/
theorem Covers.shift
    (h : Covers boundary (point :: points) networkBlocks) : Covers point points networkBlocks := by
  obtain ⟨earlier, later, rfl, hlater⟩ := h
  obtain ⟨nb, rest, decoded, rfl, -, hrest⟩ := hlater.exists_cons
  exact ⟨earlier ++ [nb], rest, by simp, hrest⟩

/-- Without their first block, the others cover the same points, or this block is next and they cover the
points after the first. -/
theorem Covers.tail (h : Covers boundary (point :: points) (nb :: networkBlocks)) :
    Covers boundary (point :: points) networkBlocks ∨
      (∃ decoded, FetchBlocks.IsNext ⟨boundary, point :: points⟩ nb decoded) ∧
        Covers point points networkBlocks := by
  obtain ⟨earlier, later, heq, hlater⟩ := h
  rcases earlier with - | ⟨first, earlier⟩
  · subst heq
    obtain ⟨first, rest, decoded, heq, hnext, hrest⟩ := hlater.exists_cons
    obtain ⟨rfl, rfl⟩ := cons.inj heq
    exact .inr ⟨⟨decoded, hnext⟩, [], networkBlocks, rfl, hrest⟩
  · obtain ⟨-, rfl⟩ := cons.inj heq
    exact .inl ⟨earlier, later, rfl, hlater⟩

/-! ### Progress -/

/-- The blocks at some points are stored, and were handed over. -/
def Filled (d : Delivery Body) (points : List Point) : Prop :=
  ∀ point ∈ points, d.store.hasBlock point.hash = true ∧
    ∃ msg, .downloaded msg ∈ d.effects ∧ msg.tip = point

/-- A message that does not end the batch, and does not say that the peer has no blocks. -/
def Harmless (id : ℕ) (good : Peer) (d : Delivery Body) (msg : FetchBlocksMsg Body) : Prop :=
  d.fetch.IsReply msg ∧ msg ≠ .noBlocks id good

/-- Where a batch stands, while a peer sends its blocks: some of them wait to be handled, others have yet
to come. The timeout may wait already, but behind the blocks of the peer. -/
structure Progress (id : ℕ) (good : Peer) (points : List Point) (d : Delivery Body)
    (pending todo : List (NetworkBlock Body)) : Prop where
  reqId_eq : d.fetch.reqId = id
  inbox : ∃ front late, d.inbox = front ++ late ∧ (∀ msg ∈ front, Harmless id good d msg) ∧
    (∀ msg ∈ late, msg = .timeout id ∨ Harmless id good d msg) ∧
    (pending.map (.block good)).Sublist front ∧ (todo ≠ [] → late = [])
  failure : ∀ peers, .fetchFailure peers ∈ d.effects → good ∉ peers
  batch : (d.fetch.missing = none ∧ d.fetch.fetchPeers = ∅) ∧ d.Filled points ∨
    ∃ done last point rest, points = done ++ point :: rest ∧
      d.fetch.missing = some ⟨last, point :: rest⟩ ∧
      d.Filled done ∧ Covers last (point :: rest) (pending ++ todo)

/-- The peer does not say that it has no blocks. -/
def Fine (id : ℕ) (good : Peer) : DeliveryEvent Body → Prop
  | .reply (.noBlocks reqId peer) => ¬(reqId = id ∧ peer = good)
  | .reply (.noPeersAvailable _) | .reply (.peersAsked _ _) | .reply (.block _ _ _) | .reply (.done _)
  | .timeoutFires _ | .widenFires _ | .handleNext _ => True

/-- The batch is not given up, replies are to this request or an earlier one, and no peer is done with this
one. -/
def Early (id : ℕ) : DeliveryEvent Body → Prop
  | .timeoutFires reqId => reqId ≠ id
  | .reply (.done reqId) => reqId < id
  | .reply (.block reqId _ _) => reqId ≤ id
  | .reply (.noBlocks _ _) | .reply (.noPeersAvailable _) | .reply (.peersAsked _ _)
  | .widenFires _ | .handleNext _ => True

variable {blocks : Blocks Body} {d' : Delivery Body}

theorem harmless_of_forwarded (cleanup : Cleanup) (d : Delivery Body)
    (hfine : Fine id good (.reply blocks)) :
    ∀ msg ∈ (cleanup.handle blocks).2.1, Harmless id good d msg := by
  intro msg hmem
  cases blocks with
  | noBlocks reqId peer =>
    rw [handle, mem_ite_nil_right, mem_singleton] at hmem
    obtain ⟨-, rfl⟩ := hmem
    refine ⟨trivial, fun heq ↦ hfine ?_⟩
    injection heq with hreqId hpeer
    exact ⟨hreqId, hpeer⟩
  | noPeersAvailable reqId =>
    obtain rfl := mem_singleton.1 hmem
    exact ⟨trivial, by simp⟩
  | peersAsked reqId peers =>
    rw [handle, mem_ite_nil_right, mem_singleton] at hmem
    obtain ⟨-, rfl⟩ := hmem
    exact ⟨trivial, by simp⟩
  | block reqId peer nb =>
    rw [handle] at hmem
    rcases hdecode : nb.decodeHeader with - | header
    · simp [hdecode] at hmem
    · simp only [hdecode, mem_ite_nil_right, mem_singleton] at hmem
      obtain ⟨-, rfl⟩ := hmem
      exact ⟨trivial, by simp⟩
  | done reqId => simp [handle] at hmem

theorem fetchFailure_notMem_forwarded (cleanup : Cleanup) (blocks : Blocks Body) (peers : List Peer) :
    .fetchFailure peers ∉ (cleanup.handle blocks).2.2 := by
  cases blocks with
  | block reqId peer nb =>
    rw [handle]
    cases nb.decodeHeader <;> simp
  | noBlocks | noPeersAvailable | peersAsked | done => simp [handle]

/-- As long as no peer is done, the request is not taken for an earlier one. -/
theorem currId_le_of_early {cleanup : Cleanup} (hearly : Early id (.reply blocks))
    (h : cleanup.currId ≤ id) : (cleanup.handle blocks).1.currId ≤ id := by
  cases blocks with
  | block reqId peer nb =>
    rw [handle]
    rcases nb.decodeHeader with - | header
    · exact h
    · exact max_le hearly h
  | done reqId => exact max_le hearly h
  | noBlocks | noPeersAvailable | peersAsked => exact h

theorem hasBlock_storeBlock (s : ChainStore Body) (hash hash' : ℕ) (block : Block Body)
    (h : hash' = hash ∨ s.hasBlock hash' = true) :
    (s.storeBlock hash block).hasBlock hash' = true := by
  rw [hasBlock, storeBlock, SortedMap.contains, SortedMap.get?_insert]
  split_ifs with heq
  · rfl
  · exact h.resolve_left heq

theorem Filled.mono (h : d.Filled points)
    (hstore : ∀ hash, d.store.hasBlock hash = true → d'.store.hasBlock hash = true)
    (heffects : d'.effects = d.effects ++ effects) : d'.Filled points := by
  intro point hpoint
  obtain ⟨hstored, msg, hmsg, htip⟩ := h point hpoint
  exact ⟨hstore _ hstored, msg, heffects ▸ mem_append_left _ hmsg, htip⟩

theorem Harmless.congr {msg} (h : Harmless id good d msg)
    (hreqId : d'.fetch.reqId = d.fetch.reqId) :
    Harmless id good d' msg := ⟨h.1.congr hreqId, h.2⟩

/-- More messages wait, which do not end the batch before the peer has sent its blocks. -/
theorem Progress.enqueue {msgs} (h : Progress id good points d pending todo)
    (hstore : d'.store = d.store) (hfetch : d'.fetch = d.fetch)
    (hinbox : d'.inbox = d.inbox ++ msgs)
    (heffects : d'.effects = d.effects ++ effects)
    (hmsgs : ∀ msg ∈ msgs, msg = .timeout id ∧ todo = [] ∨ Harmless id good d msg)
    (hnone : ∀ peers, .fetchFailure peers ∉ effects) :
    Progress id good points d' pending todo := by
  have hfilled {points : List Point} (h : d.Filled points) : d'.Filled points :=
    h.mono (fun _ hstored ↦ hstore ▸ hstored) heffects
  have hcongr {msg : FetchBlocksMsg Body} (h : Harmless id good d msg) :
      Harmless id good d' msg := h.congr (by rw [hfetch])
  refine ⟨hfetch ▸ h.reqId_eq, ?_, fun peers hmem ↦ ?_, ?_⟩
  · obtain ⟨front, late, heq, hfront, hlate, hsublist, hnil⟩ := h.inbox
    rw [heq] at hinbox
    by_cases htodo : todo = []
    · refine ⟨front, late ++ msgs, by rw [hinbox, append_assoc], fun msg hmem ↦ hcongr (hfront msg hmem),
        fun msg hmem ↦ ?_, hsublist, fun hne ↦ absurd htodo hne⟩
      rcases mem_append.1 hmem with hmem | hmem
      · exact (hlate msg hmem).imp_right hcongr
      · exact (hmsgs msg hmem).imp And.left hcongr
    · rw [hnil htodo, append_nil] at hinbox
      refine ⟨front ++ msgs, [], by rw [hinbox, append_nil], fun msg hmem ↦ ?_, by simp,
        hsublist.trans (sublist_append_left _ _), fun _ ↦ rfl⟩
      rcases mem_append.1 hmem with hmem | hmem
      · exact hcongr (hfront msg hmem)
      · exact hcongr ((hmsgs msg hmem).resolve_left fun hlate ↦ htodo hlate.2)
  · rw [heffects] at hmem
    exact (mem_append.1 hmem).elim (h.failure peers) fun hmem ↦ absurd hmem (hnone peers)
  · rw [hfetch]
    rcases h.batch with ⟨hmissing, hbatch⟩ | ⟨done, last, point, rest, hpoints, hmissing, hdone, hcovers⟩
    · exact .inl ⟨hmissing, hfilled hbatch⟩
    · exact .inr ⟨done, last, point, rest, hpoints, hmissing, hfilled hdone, hcovers⟩

variable {msg : FetchBlocksMsg Body} {inbox : List (FetchBlocksMsg Body)} {events : List (DeliveryEvent Body)}

/-- A message is handled, and with it perhaps the first block that waits. -/
theorem exists_pending (h : (pending.map (.block good)).Sublist (msg :: inbox)) :
    (pending.map (.block good)).Sublist inbox ∨ ∃ nb rest, pending = nb :: rest ∧
      msg = .block good nb ∧ (rest.map (.block good)).Sublist inbox := by
  rcases pending with - | ⟨nb, rest⟩
  · exact .inl (nil_sublist _)
  · cases h with
    | cons _ h => exact .inl h
    | cons_cons _ h => exact .inr ⟨nb, rest, rfl, rfl, h⟩

/-- What covers the points after the boundary when a message is handled still does afterwards, unless the
message was the next block. -/
theorem Covers.handled {st : FetchBlocks} {last : Point} {rest : List Point}
    (hmissing : st.missing = some ⟨last, point :: rest⟩)
    (hcovers : Covers last (point :: rest) (pending ++ todo))
    (hsublist : (pending.map (.block good)).Sublist (msg :: inbox)) :
    ∃ pending', (pending'.map (.block good)).Sublist inbox ∧ Covers point rest (pending' ++ todo) ∧
      ((∀ {missing peer nb decoded}, msg = .block peer nb →
        st.missing = some missing → ¬FetchBlocks.IsNext missing nb decoded) →
        Covers last (point :: rest) (pending' ++ todo)) := by
  rcases exists_pending hsublist with hskip | ⟨nb, pending', rfl, hmsg, hsublist'⟩
  · exact ⟨pending, hskip, hcovers.shift, fun _ ↦ hcovers⟩
  refine ⟨pending', hsublist', ?_, fun hnot ↦ ?_⟩ <;> rw [cons_append] at hcovers
  · exact hcovers.tail.elim Covers.shift And.right
  · refine hcovers.tail.resolve_right ?_
    rintro ⟨⟨decoded, hnext⟩, -⟩
    exact hnot hmsg hmissing hnext

/-- A reply is handled: it can only move the batch forward. -/
theorem Progress.reply {front late : List (FetchBlocksMsg Body)}
    (h : Progress id good points d pending todo) (select : SelectPeers)
    (hharmless : Harmless id good d msg) (hfront : ∀ msg ∈ front, Harmless id good d msg)
    (hlate : ∀ msg ∈ late, msg = .timeout id ∨ Harmless id good d msg)
    (hsublist : (pending.map (.block good)).Sublist (msg :: front)) (hnil : todo ≠ [] → late = []) :
    ∃ s' st' effects pending',
      d.fetch.handle select d.store msg = .ok (s', st', effects) ∧
      Progress id good points { d with
        store := s'
        fetch := st'
        inbox := front ++ late
        effects := d.effects ++ effects } pending' todo := by
  obtain ⟨s', st', effects, heq, hreplied⟩ :=
    FetchBlocks.replied_of_isReply select d.store d.fetch hharmless.1
  have hfailures (hnone : ∀ peers, .fetchFailure peers ∈ effects → good ∉ peers) :
      ∀ peers, .fetchFailure peers ∈ d.effects ++ effects → good ∉ peers := fun peers hmem ↦
    (mem_append.1 hmem).elim (h.failure peers) (hnone peers)
  have hinbox {pending' : List (NetworkBlock Body)} (hreqId : st'.reqId = d.fetch.reqId)
      (hpending : (pending'.map (.block good)).Sublist front) :
      ∃ front' late', front ++ late = front' ++ late' ∧
        (∀ msg ∈ front', st'.IsReply msg ∧ msg ≠ .noBlocks id good) ∧
        (∀ msg ∈ late', msg = .timeout id ∨ st'.IsReply msg ∧ msg ≠ .noBlocks id good) ∧
        (pending'.map (.block good)).Sublist front' ∧ (todo ≠ [] → late' = []) :=
    ⟨front, late, rfl, fun msg hmem ↦ (hfront msg hmem).imp_left (·.congr hreqId),
      fun msg hmem ↦ (hlate msg hmem).imp_right (·.imp_left (·.congr hreqId)), hpending, hnil⟩
  cases hreplied with
  | kept hstore hmissing hreqId hfailure hnot hpeers =>
    subst hstore
    have hfailure' : ∀ peers, .fetchFailure peers ∈ effects → good ∉ peers := by
      rintro peers hmem hgood
      obtain ⟨peer, rfl, rfl⟩ := hfailure peers hmem
      obtain rfl := mem_singleton.1 hgood
      exact hharmless.2 (h.reqId_eq ▸ rfl)
    rcases h.batch with ⟨hnone, hfilled⟩ | ⟨done, last, point, rest, hpoints, hopen, hfilled, hcovers⟩
    · exact ⟨_, _, _, [], heq, hreqId.trans h.reqId_eq, hinbox hreqId (nil_sublist _),
        hfailures hfailure', .inl ⟨⟨hmissing.trans hnone.1, (hpeers hnone.1).trans hnone.2⟩,
          hfilled.mono (fun _ hstored ↦ hstored) rfl⟩⟩
    · obtain ⟨pending', hpending, -, hcovers'⟩ := hcovers.handled hopen hsublist
      exact ⟨_, _, _, pending', heq, hreqId.trans h.reqId_eq, hinbox hreqId hpending,
        hfailures hfailure', .inr ⟨done, last, point, rest, hpoints, hmissing.trans hopen,
          hfilled.mono (fun _ hstored ↦ hstored) rfl, hcovers' hnot⟩⟩
  | @accepted missing peer nb decoded hmsg hopen hnext hstore hmissing hpeers hreqId hdownloaded
      hfailure =>
    rcases h.batch with ⟨⟨hnone, -⟩, -⟩ | ⟨done, last, point, rest, hpoints, hopen', hfilled, hcovers⟩
    · cases hnone.symm.trans hopen
    obtain rfl := some.inj (hopen.symm.trans hopen')
    obtain rfl : point = decoded.header.point := some.inj hnext.head?_eq
    obtain ⟨pending', hpending, hcovers', -⟩ := hcovers.handled hopen hsublist
    have hfilled' : Filled { d with
        store := s', fetch := st', inbox := front ++ late, effects := d.effects ++ effects }
        (done ++ [decoded.header.point]) := by
      intro point hpoint
      rcases mem_append.1 hpoint with hpoint | hpoint
      · exact hfilled.mono (fun hash hstored ↦
          hstore ▸ hasBlock_storeBlock _ _ _ _ (.inr hstored)) rfl point hpoint
      · obtain rfl := mem_singleton.1 hpoint
        exact ⟨hstore ▸ hasBlock_storeBlock _ _ _ _ (.inl rfl), _, mem_append_right _ hdownloaded, rfl⟩
    refine ⟨_, _, _, pending', heq, hreqId.trans h.reqId_eq, hinbox hreqId hpending,
      hfailures fun peers hmem ↦ absurd hmem (hfailure peers), ?_⟩
    rcases rest with - | ⟨next, rest⟩
    · exact .inl ⟨⟨hmissing, hpeers hmissing⟩, hpoints ▸ hfilled'⟩
    · exact .inr ⟨done ++ [decoded.header.point], decoded.header.point, next, rest,
        by rw [hpoints, append_assoc, singleton_append], hmissing, hfilled', hcovers'⟩

/-- When all blocks of the peer are handled, the batch is complete. -/
theorem Progress.complete (h : Progress id good points d [] []) :
    (d.fetch.missing = none ∧ d.fetch.fetchPeers = ∅) ∧ d.Filled points := by
  rcases h.batch with hbatch | ⟨-, last, point, rest, -, -, -, earlier, later, heq, hlater⟩
  · exact hbatch
  · obtain ⟨-, rfl⟩ := append_eq_nil_iff.1 heq.symm
    exact hlater.elim

theorem handleNext_eq {select s fetch} (hinbox : d.inbox = msg :: inbox)
    (h : d.fetch.handle select d.store msg = .ok (s, fetch, effects)) :
    d.handleNext select =
      .ok { d with store := s, fetch, inbox, effects := d.effects ++ effects } := by
  simp only [Delivery.handleNext, hinbox, h]
  rfl

section

variable (h : Progress id good points d pending todo)
include h

/-- **The next message is handled.** -/
theorem Progress.handleNext (select : SelectPeers) :
    ∃ d' pending', d.handleNext select = .ok d' ∧
      d'.cleanup = d.cleanup ∧ Progress id good points d' pending' todo := by
  obtain ⟨front, late, hinbox, hfront, hlate, hsublist, hnil⟩ := h.inbox
  rcases front with - | ⟨msg, front⟩
  · rw [nil_append] at hinbox
    rcases late with - | ⟨msg, late⟩
    · exact ⟨d, pending, by simp only [Delivery.handleNext, hinbox], rfl, h⟩
    have hlate' : ∀ msg ∈ late, msg = .timeout id ∨ Harmless id good d msg := fun msg hmem ↦
      hlate msg (mem_cons_of_mem _ hmem)
    have htodo : todo = [] := by
      by_contra hne
      cases hnil hne
    rcases hlate msg (mem_cons_self ..) with rfl | hharmless
    · -- the timeout is handled after all blocks of the peer
      subst htodo
      obtain rfl : pending = [] := map_eq_nil_iff.1 (sublist_nil.1 hsublist)
      obtain ⟨⟨hmissing, hpeers⟩, hfilled⟩ := h.complete
      obtain ⟨hmissing', hpeers', hreqId, heffects⟩ :=
        FetchBlocks.handleTimeout_of_complete id hmissing hpeers
      have heq : d.fetch.handle select d.store (.timeout id) = .ok (d.store,
        (d.fetch.handleTimeout id).1, (d.fetch.handleTimeout id).2) := rfl
      refine ⟨_, [], handleNext_eq hinbox heq, rfl, hreqId.trans h.reqId_eq,
        ⟨[], late, rfl, by simp, fun msg hmem ↦ ?_, nil_sublist _, by simp⟩, fun peers hmem ↦ ?_, .inl
          ⟨⟨hmissing', hpeers'⟩, hfilled.mono (fun _ hstored ↦ hstored) rfl⟩⟩
      · exact (hlate' msg hmem).imp_right (·.congr hreqId)
      · rw [heffects, append_nil] at hmem
        exact h.failure peers hmem
    · have hnone : ∀ msg ∈ [], Harmless id good d msg := by simp
      obtain ⟨s', st', effects, pending', heq, h'⟩ := h.reply select hharmless hnone hlate'
        (hsublist.trans (nil_sublist _)) fun hne ↦ absurd htodo hne
      exact ⟨_, pending', handleNext_eq hinbox heq, rfl, h'⟩
  · obtain ⟨s', st', effects, pending', heq, h'⟩ := h.reply select
      (hfront msg (mem_cons_self ..)) (fun msg hmem ↦ hfront msg (mem_cons_of_mem _ hmem))
      hlate hsublist hnil
    exact ⟨_, pending', handleNext_eq hinbox heq, rfl, h'⟩

theorem Progress.forward (hfine : Fine id good (.reply blocks)) :
    Progress id good points { d with
      cleanup := (d.cleanup.handle blocks).1
      inbox := d.inbox ++ (d.cleanup.handle blocks).2.1
      effects := d.effects ++ (d.cleanup.handle blocks).2.2 } pending todo :=
  h.enqueue rfl rfl rfl rfl (fun msg hmem ↦ .inr (harmless_of_forwarded _ _ hfine msg hmem))
    (fetchFailure_notMem_forwarded _ _)

/-- **An event happens** while a batch is open. -/
theorem Progress.step (hfine : Fine id good event) (hearly : todo ≠ [] → Early id event) :
    ∃ d' pending', d.step event = .ok d' ∧
      (Early id event → d.cleanup.currId ≤ id → d'.cleanup.currId ≤ id) ∧
      Progress id good points d' pending' todo := by
  cases event with
  | handleNext select =>
    obtain ⟨d', pending', heq, hcleanup, h'⟩ := h.handleNext select
    exact ⟨d', pending', heq, fun _ hle ↦ hcleanup ▸ hle, h'⟩
  | timeoutFires reqId =>
    refine ⟨_, pending, rfl, fun _ hle ↦ hle, h.enqueue rfl rfl rfl (append_nil _).symm ?_ (by simp)⟩
    rintro msg hmem
    obtain rfl := mem_singleton.1 hmem
    by_cases hreqId : reqId = id
    · refine .inl ⟨hreqId ▸ rfl, ?_⟩
      by_contra hne
      exact hearly hne hreqId
    · exact .inr ⟨fun heq ↦ hreqId (heq.trans h.reqId_eq), by simp⟩
  | widenFires reqId =>
    refine ⟨_, pending, rfl, fun _ hle ↦ hle, h.enqueue rfl rfl rfl (append_nil _).symm ?_ (by simp)⟩
    rintro msg hmem
    obtain rfl := mem_singleton.1 hmem
    exact .inr ⟨trivial, by simp⟩
  | reply blocks =>
    exact ⟨_, pending, rfl, currId_le_of_early, h.forward hfine⟩

end

theorem Progress.deliver (h : Progress id good points d pending (nb :: todo))
    (hle : d.cleanup.currId ≤ id) (hdecode : nb.decodeHeader.isSome = true) :
    ∃ d', d.step (.reply (.block id good nb)) = .ok d' ∧
      d'.cleanup.currId ≤ id ∧
      Progress id good points d' (pending ++ [nb]) todo := by
  obtain ⟨header, hheader⟩ := isSome_iff_exists.1 hdecode
  have hforwarded : (d.cleanup.handle (.block id good nb)).2.1 =
      [.block good nb] := by
    rw [handle]
    simp only [hheader, if_pos hle]
  have hearly : Early id (.reply (.block id good nb)) := Nat.le_refl id
  have hfine : Fine id good (.reply (.block id good nb)) := trivial
  have h' := h.forward hfine
  refine ⟨_, step_reply _ _, currId_le_of_early hearly hle, h'.reqId_eq, ?_, h'.failure, ?_⟩
  · obtain ⟨front, late, hinbox, hfront, -, hsublist, hnil⟩ := h.inbox
    rw [hnil (by simp), append_nil] at hinbox
    refine ⟨front ++ [.block good nb], [], ?_, fun msg hmem ↦ ?_, by simp, ?_, fun _ ↦ rfl⟩
    · rw [hinbox, hforwarded, append_nil]
    · rcases mem_append.1 hmem with hmem | hmem
      · exact hfront msg hmem
      · obtain rfl := mem_singleton.1 hmem
        exact ⟨trivial, by simp⟩
    · rw [map_append]
      exact hsublist.append (.refl _)
  · rw [append_assoc]
    exact h'.batch

/-- **Events happen** while the peer sends its blocks. -/
theorem Progress.run_of_early
    (h : Progress id good points d pending todo) (hle : d.cleanup.currId ≤ id)
    (hdecode : ∀ nb ∈ todo, nb.decodeHeader.isSome = true)
    (htodo : (todo.map fun nb ↦ .reply (.block id good nb)).Sublist events)
    (hfine : ∀ event ∈ events, Fine id good event) (hearly : ∀ event ∈ events, Early id event) :
    ∃ d' pending', d.run events = .ok d' ∧
      Progress id good points d' pending' [] := by
  induction events generalizing d pending todo with
  | nil =>
    obtain rfl := map_eq_nil_iff.1 (sublist_nil.1 htodo)
    exact ⟨d, pending, rfl, h⟩
  | cons event events ih =>
    rw [forall_mem_cons] at hfine hearly
    rw [run, foldlM_cons]
    have hskip (hrest : (todo.map fun nb ↦ .reply (.block id good nb)).Sublist events) :
        ∃ d' pending', d.step event >>= (foldlM Delivery.step · events) = .ok d' ∧
          Progress id good points d' pending' [] := by
      obtain ⟨d', pending', heq, hle', h'⟩ := h.step hfine.1 fun _ ↦ hearly.1
      rw [heq]
      exact ih h' (hle' hearly.1 hle) hdecode hrest hfine.2 hearly.2
    rcases todo with - | ⟨nb, todo⟩
    · exact hskip (nil_sublist _)
    rw [forall_mem_cons] at hdecode
    cases htodo with
    | cons _ hrest => exact hskip hrest
    | cons_cons _ hrest =>
      obtain ⟨d', heq, hle', h'⟩ := h.deliver hle hdecode.1
      rw [heq]
      exact ih h' hle' hdecode.2 hrest hfine.2 hearly.2

theorem Progress.run (h : Progress id good points d pending [])
    (hfine : ∀ event ∈ events, Fine id good event) :
    ∃ d' pending', d.run events = .ok d' ∧
      Progress id good points d' pending' [] := by
  induction events generalizing d pending with
  | nil => exact ⟨d, pending, rfl, h⟩
  | cons event events ih =>
    obtain ⟨d', pending', heq, -, h'⟩ := h.step (hfine event (mem_cons_self ..)) (by simp)
    rw [Delivery.run, foldlM_cons, heq]
    exact ih h' fun event hmem ↦ hfine event (mem_cons_of_mem _ hmem)

theorem Delivers.decodeHeader (h : Delivers boundary points networkBlocks) :
    ∀ nb ∈ networkBlocks, nb.decodeHeader.isSome = true := by
  induction networkBlocks generalizing boundary points with
  | nil => simp
  | cons nb networkBlocks ih =>
    rcases points with - | ⟨point, points⟩
    · exact h.elim
    · exact forall_mem_cons.2 ⟨h.1.1, ih h.2⟩

/-- The state of the stages once a batch was asked for: replies may wait already. -/
structure Opened (id : ℕ) (good : Peer) (boundary : Point) (points : List Point)
    (d : Delivery Body) : Prop where
  reqId_eq : d.fetch.reqId = id
  missing_eq : d.fetch.missing = some ⟨boundary, points⟩
  points_ne : points ≠ []
  currId_le : d.cleanup.currId ≤ id
  inbox : ∀ msg ∈ d.inbox, Harmless id good d msg
  effects_eq : d.effects = []

/-- **One peer is enough.** A batch is open. A peer sends all its blocks in order, and until then the batch
is not given up and no peer is done; otherwise anything happens, in any order. Then once all messages are
handled the batch is complete, its blocks are stored and were handed over, and the peer is not recorded to
have failed. -/
theorem batch_completes {Body : Type} {d : Delivery Body}
    {networkBlocks : List (NetworkBlock Body)} {before after : List (DeliveryEvent Body)}
    (hopened : Opened id good boundary points d)
    (hdelivers : Delivers boundary points networkBlocks)
    (hsent : (networkBlocks.map fun nb ↦ .reply (.block id good nb)).Sublist before)
    (hfine : ∀ event ∈ before ++ after, Fine id good event) (hearly : ∀ event ∈ before, Early id event) :
    ∃ d', d.run (before ++ after) = .ok d' ∧
      (∀ peers, .fetchFailure peers ∈ d'.effects → good ∉ peers) ∧
      (d'.inbox = [] → d'.fetch.missing = none ∧ d'.Filled points) := by
  obtain ⟨point, rest, rfl⟩ := exists_cons_of_ne_nil hopened.points_ne
  have hstart : Progress id good (point :: rest) d [] networkBlocks :=
    ⟨hopened.reqId_eq, ⟨d.inbox, [], (append_nil _).symm, hopened.inbox, by simp,
      nil_sublist _, fun _ ↦ rfl⟩, by simp [hopened.effects_eq],
      .inr ⟨[], boundary, point, rest, rfl, hopened.missing_eq, by simp [Filled],
        [], networkBlocks, rfl, hdelivers⟩⟩
  rw [forall_mem_append] at hfine
  obtain ⟨delivery₁, pending₁, heq₁, h₁⟩ :=
    hstart.run_of_early hopened.currId_le hdelivers.decodeHeader hsent hfine.1 hearly
  obtain ⟨delivery₂, pending₂, heq₂, h₂⟩ := h₁.run hfine.2
  refine ⟨delivery₂, ?_, h₂.failure, fun hinbox ↦ ?_⟩
  · rw [Delivery.run, foldlM_append]
    exact Except.bind_eq_ok_iff.2 ⟨delivery₁, heq₁, heq₂⟩
  · obtain ⟨front, late, heq, -, -, hsublist, -⟩ := h₂.inbox
    obtain ⟨rfl, -⟩ := append_eq_nil_iff.1 (heq.symm.trans hinbox)
    obtain rfl : pending₂ = [] := map_eq_nil_iff.1 (sublist_nil.1 hsublist)
    obtain ⟨⟨hmissing, -⟩, hfilled⟩ := h₂.complete
    exact ⟨hmissing, hfilled⟩

/-! ### Two peers -/

/-- A block that a peer sent, as it should be. -/
def networkBlockOf (header : Header) : NetworkBlock Bool where
  decodeHeader := some header
  decodeBlock := some { header, block := bodyOf header true, bodyMatches := true, point_eq := rfl }

/-- Two peers are asked for the blocks at slots 11 and 12. -/
def twoPeers : Delivery Bool where
  store :=
    { headers := ∅, validity := ∅, blocks := ∅, anchor := pointAt 10 1, bestChain := ∅
      bestChainTip := pointAt 10 1 }
  cleanup := .new
  fetch := (FetchBlocks.new.startBatch (fun _ _ _ ↦ ⟨false, [1, 2]⟩)
    ⟨pointAt 10 1, [pointAt 11 2, pointAt 12 3]⟩ (pointAt 11 2) (pointAt 12 3)).1
  inbox := []
  effects := []

theorem opened_twoPeers : Opened 1 1 (pointAt 10 1) [pointAt 11 2, pointAt 12 3] twoPeers :=
  ⟨rfl, rfl, by simp, by decide, by simp [twoPeers], rfl⟩

/-- The blocks that the first peer sends. -/
def twoBlocks : List (NetworkBlock Bool) :=
  [networkBlockOf (headerAt 11 2 (some 10)), networkBlockOf (headerAt 12 3 (some 11))]

theorem delivers_twoBlocks : Delivers (pointAt 10 1) [pointAt 11 2, pointAt 12 3] twoBlocks :=
  ⟨⟨rfl, _, rfl, rfl, rfl, rfl⟩, ⟨rfl, _, rfl, rfl, rfl, rfl⟩, trivial⟩

/-- All messages are handled. -/
def handleAll (count : ℕ) : List (DeliveryEvent Bool) :=
  replicate count (.handleNext fun _ _ _ ↦ ⟨true, []⟩)

/-- Replies between which the second peer says that it has no blocks. -/
def othersHaveNone : List (DeliveryEvent Bool) :=
  [.reply (.peersAsked 1 [1, 2]), .reply (.block 1 1 (networkBlockOf (headerAt 11 2 (some 10)))),
    .reply (.noBlocks 1 2), .reply (.block 1 1 (networkBlockOf (headerAt 12 3 (some 11))))]

theorem batch_completes_of_othersHaveNone : ∃ d' : Delivery Bool,
    twoPeers.run (othersHaveNone ++ .timeoutFires 1 :: handleAll 5) = .ok d' ∧
    (∀ peers, .fetchFailure peers ∈ d'.effects → 1 ∉ peers) ∧
    d'.fetch.missing = none ∧ d'.Filled [pointAt 11 2, pointAt 12 3] := by
  have hsent : (twoBlocks.map fun nb ↦ .reply (.block 1 1 nb)).Sublist
      othersHaveNone := .cons _ (.cons_cons _ (.cons _ (.refl _)))
  have hfine : ∀ event ∈ othersHaveNone ++ .timeoutFires 1 :: handleAll 5, Fine 1 1 event := by
    simp [Fine, othersHaveNone, handleAll]
  obtain ⟨d', hrun, hfailure, hcomplete⟩ := batch_completes opened_twoPeers delivers_twoBlocks hsent
    hfine (by simp [Early, othersHaveNone])
  have hempty : (twoPeers.run (othersHaveNone ++ .timeoutFires 1 :: handleAll 5)).map inbox = .ok [] := rfl
  rw [hrun] at hempty
  exact ⟨d', hrun, hfailure, hcomplete (Except.ok.inj hempty)⟩

/-- **The end of one peer's replies ends the request.** The second peer ends its batch without a block; then
the blocks of the first, which come in time and in order, are dropped, none of them is stored, and once the
batch is given up the first peer is recorded to have failed. -/
theorem done_drops_blocks_of_others : ∃ (before after : List (DeliveryEvent Bool))
    (d' : Delivery Bool),
    (twoBlocks.map fun nb ↦ .reply (.block 1 1 nb)).Sublist before ∧
    (∀ event ∈ before ++ after, Fine 1 1 event) ∧ .timeoutFires 1 ∉ before ∧
    twoPeers.run (before ++ after) = .ok d' ∧ d'.inbox = [] ∧
    d'.store.hasBlock 11 = false ∧ d'.store.hasBlock 12 = false ∧
    .fetchFailure [1, 2] ∈ d'.effects := by
  refine ⟨.reply (.peersAsked 1 [1, 2]) :: .reply (.done 1) ::
    twoBlocks.map fun nb ↦ .reply (.block 1 1 nb),
    .timeoutFires 1 :: handleAll 2, _, .cons _ (.cons _ (.refl _)), by simp [Fine, handleAll, twoBlocks],
    by simp [twoBlocks], rfl, rfl, rfl, rfl, ?_⟩
  decide +kernel

end Delivery

end Amaru
