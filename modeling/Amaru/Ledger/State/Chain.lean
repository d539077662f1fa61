import Amaru.Ledger.State.ForkSwitch

/-!
# The chain of the ledger

What the ledger holds, seen from outside: the tip of the store, then the points of the volatile blocks.
Rolling forward with a valid block adds its point at the end and drops some from the front; rolling
back keeps a front; a switch does one and then the other.

How much is dropped from the front is what becomes stable. A block that finds the volatile window full
pushes the oldest one out. More is dropped only when a boundary is **forced** to the store, with blocks
of the closing epoch still draining, because the block is past the stability window of its epoch. A
list of blocks that does not do this is `Calm`, and **a calm fork writes nothing before its last
block**.
-/

namespace Amaru

open List VolatileSeries Block Except Nat

/-- The blocks that were discarded, newest first. -/
def VolatileDB.Recovery.discardedTipFirst : VolatileDB.Recovery → List AnchoredVolatileFragment
  | .inEpoch discarded _ => discarded.reverse
  | .acrossEpoch oldCurrent drained _ => (drained ++ oldCurrent).reverse

namespace State

variable {Body : Type*} {env : Environment Body} {st st' base : State} {appliedTip tip : Point}
  {failure : Option InvalidBlock}

/-- The tip of the store, then the volatile blocks. -/
def chain (st : State) : List Point := st.stable.tip :: st.volatile.series.map (·.point)

theorem length_chain (st : State) : st.chain.length = st.volatile.length + 1 := by
  rw [chain, length_cons, length_map, VolatileDB.series, length_append,
    VolatileDB.length, add_comm st.volatile.draining.length]

theorem length_of_chain_eq (h : st'.chain = st.chain) :
    st'.volatile.length = st.volatile.length := by
  have hlength := congrArg length h
  rw [length_chain, length_chain] at hlength
  exact succ.inj hlength

theorem getLast?_chain (st : State) : st.chain.getLast? = some st.tip := by
  rw [chain, getLast?_cons, getLast?_map, tip_eq, lastPoint_eq]

theorem chain_of_new {stable snapshots} (h : State.new env stable snapshots = .ok st) :
    st.chain = [stable.tip] := by
  obtain ⟨hstable, epoch, hvolatile⟩ := exists_of_new h
  rw [chain, hvolatile, hstable]
  rfl

/-! ### Rolling forward -/

theorem cons_lastPoint_eq_drop (tip : Point) (written series : VolatileSeries) :
    written.lastPoint tip :: series.map (·.point) =
      (tip :: (written ++ series).map (·.point)).drop written.length := by
  induction written generalizing tip with
  | nil => rfl
  | cons block written ih => exact ih block.point

/-- The chain, from the volatile blocks before and what was written of them. -/
theorem chain_eq_drop {block written}
    (hseries : written ++ st'.volatile.series = st.volatile.series ++ [block])
    (htip : st'.stable.tip = written.lastPoint st.stable.tip) :
    st'.chain = (st.chain ++ [block.point]).drop written.length := by
  rw [chain, htip, cons_lastPoint_eq_drop, hseries, map_append]
  rfl

variable {block : Block Body}

theorem chain_of_prepare (h : st.prepare env block = .ok st') : st'.chain = st.chain := by
  rw [chain, chain, series_of_prepare h, (exists_of_prepare h).1]

theorem chain_of_invalid {failure} (h : st.rollForward env block = .ok (st', .invalid failure)) :
    st'.chain = st.chain := by
  obtain ⟨prepared, hprepared, ⟨_, -, rfl, -⟩ | ⟨_, hvalid, -⟩⟩ := exists_of_rollForward h
  · exact chain_of_prepare hprepared
  · cases hvalid

/-- **A valid block** is added at the end of the chain, and some of the front is dropped. -/
theorem chain_of_valid (hstate : st.WellFormed) (hblock : st.Extends block)
    (h : st.rollForward env block = .ok (st', .valid)) :
    ∃ n, n ≤ st.chain.length ∧ st'.chain = (st.chain ++ [block.point]).drop n := by
  obtain ⟨prepared, _, hprepared, -, -, hadopted⟩ := hblock.exists_of_valid hstate h
  obtain ⟨written, hwritten, htip, -⟩ := hadopted.exists_written
  refine ⟨written.length, ?_, ?_⟩
  · have hlength := congrArg length hwritten
    rw [length_append, length_append] at hlength
    have hchain := congrArg length (chain_of_prepare hprepared)
    rw [chain, length_cons, length_map] at hchain
    simp only [length_singleton] at hlength
    omega
  · rw [chain_eq_drop hwritten htip, chain_of_prepare hprepared]
    rfl

/-! ### What is dropped from the front -/

section

variable {block : AnchoredVolatileFragment} (h : st.adopt env block = .ok st')
  (hfollows : (st.volatile.series ++ [block]).Follows st.stable.tip)
include h hfollows

/-- Without a forced boundary, a block pushes at most the oldest one out. -/
theorem chain_of_adopt
    (hcalm : env.stabilityWindow ≤ env.eraHistory.slotInEpochOrDefault block.point.slotOrDefault →
      st.volatile.draining = []) :
    st'.chain = (st.chain ++ [block.point]).drop
      (if env.consensusSecurityParam ≤ st.volatile.length then 1 else 0) := by
  obtain ⟨nowStable, volatile, stable, hpushed, htip, -, hdrained, h⟩ := exists_of_adopt h hfollows
  obtain ⟨_, heq, -, hlength, hseries, -, hdraining, kept, -, hcurrent⟩ := exists_of_pushFragment hpushed
  cases heq
  -- a boundary that is written finds nothing draining
  have hsame : st'.volatile.series = volatile.series ∧ st'.stable.tip = stable.tip := by
    rcases exists_of_applyTransition h hdrained with
      ⟨rfl, -⟩ | ⟨hforced, -, hdraining', hcurrent', -, htip'⟩
    · exact ⟨rfl, rfl⟩
    have hnil : volatile.draining = [] := by
      refine hforced.elim id fun hwindow ↦ ?_
      rw [hcurrent, getLast?_concat] at hwindow
      exact suffix_nil.1 (hcalm hwindow ▸ hdraining)
    rw [VolatileDB.series, hdraining', hcurrent', VolatileDB.series, hnil]
    exact ⟨rfl, htip'.trans (by rw [hnil]; rfl)⟩
  rw [← hlength]
  refine chain_eq_drop ?_ (hsame.2.trans htip)
  rw [hsame.1]
  exact hseries

/-- The volatile window does not grow beyond its size. -/
theorem length_of_adopt (hlength : st.volatile.length ≤ env.consensusSecurityParam) :
    st'.volatile.length ≤ env.consensusSecurityParam := by
  obtain ⟨nowStable, volatile, stable, hpushed, -, -, hdrained, h⟩ := exists_of_adopt h hfollows
  obtain ⟨_, heq, -, hnow, hseries, -⟩ := exists_of_pushFragment hpushed
  cases heq
  have hvolatile : volatile.length ≤ env.consensusSecurityParam := by
    have hlengths := congrArg length hseries
    rw [length_append, hnow, length_append, VolatileDB.series, VolatileDB.series,
      length_append, length_append, length_singleton] at hlengths
    rw [VolatileDB.length] at hlength hlengths ⊢
    split_ifs at hlengths <;> omega
  rcases exists_of_applyTransition h hdrained with ⟨rfl, -⟩ | ⟨-, -, hdraining, hcurrent, -⟩
  · exact hvolatile
  · rw [VolatileDB.length, hdraining, hcurrent]
    rw [VolatileDB.length] at hvolatile
    simp only [length_nil]
    omega

end

/-! ### Calm blocks -/

/-- No block of the list forces a boundary to the store: one that is past the stability window of its
epoch comes when nothing drains and no block crossed a boundary. -/
def Calm (env : Environment Body) (db : VolatileDB) (blocks : List (Block Body)) : Prop :=
  ∀ older block, older ++ [block] <+: blocks →
    env.stabilityWindow ≤ env.eraHistory.slotInEpochOrDefault block.slot →
      db.draining = [] ∧ ∀ crossing ∈ older ++ [block], ∀ epoch,
        env.epochOf crossing.slot = .ok epoch → epoch ≤ db.epoch

variable {blocks : List (Block Body)}

theorem Calm.of_front {db front} (h : Calm env db blocks) (hfront : front <+: blocks) : Calm env db front :=
  fun older block holder ↦ h older block (holder.trans hfront)

/-- When a block of a calm list is past the stability window, nothing drains. -/
theorem Calm.draining_of_prepare (hcalm : Calm env st.volatile (block :: blocks))
    (h : st.prepare env block = .ok st')
    (hwindow : env.stabilityWindow ≤ env.eraHistory.slotInEpochOrDefault block.slot) :
    st'.volatile.draining = [] := by
  obtain ⟨hdraining, hepochs⟩ := hcalm [] block (prefix_append [block] blocks) hwindow
  obtain ⟨-, -, epoch, hepoch, ⟨-, heq⟩ | ⟨hlater, -⟩⟩ := exists_of_prepare h
  · rw [heq, hdraining]
  · exact absurd hlater (not_lt.2 (hepochs block (mem_singleton_self _) epoch hepoch))

theorem length_of_prepare (h : st.prepare env block = .ok st') :
    st'.volatile.length = st.volatile.length :=
  length_of_chain_eq (chain_of_prepare h)

section

variable (hstate : st.WellFormed) (hblock : st.Extends block)
  (hcalm : Calm env st.volatile (block :: blocks))
  (h : st.rollForward env block = .ok (st', .valid))
include hstate hblock hcalm h

/-- A valid block of a calm list pushes at most the oldest one out. -/
theorem chain_of_calm : st'.chain = (st.chain ++ [block.point]).drop
      (if env.consensusSecurityParam ≤ st.volatile.length then 1 else 0) := by
  obtain ⟨prepared, _, hprepared, hfollows, hadopt, -⟩ := hblock.exists_of_valid hstate h
  rw [← chain_of_prepare hprepared, ← length_of_prepare hprepared]
  exact chain_of_adopt hadopt hfollows (hcalm.draining_of_prepare hprepared)

/-- The rest of a calm list is calm after its first block. -/
theorem Calm.tail : Calm env st'.volatile blocks := by
  intro older newest hprefix hwindow
  obtain ⟨hdraining, hepochs⟩ := hcalm (block :: older) newest (prefix_cons_inj _ |>.2 hprefix) hwindow
  obtain ⟨prepared, _, hprepared, -, -, hadopted⟩ := hblock.exists_of_valid hstate h
  obtain ⟨-, -, epoch, hepoch, ⟨-, heq⟩ | ⟨hlater, -⟩⟩ := exists_of_prepare hprepared
  swap
  · exact absurd hlater (not_lt.2 (hepochs block (mem_cons_self ..) epoch hepoch))
  refine ⟨suffix_nil.1 ?_, fun crossing hcrossing epoch' hepoch' ↦ ?_⟩
  · have := hadopted.draining_suffix
    rwa [heq, hdraining] at this
  · rw [hadopted.epoch_eq, heq]
    exact hepochs crossing (mem_cons_of_mem _ hcrossing) epoch' hepoch'

end

/-! ### The blocks of a fork -/

theorem length_of_valid (hstate : st.WellFormed) (hblock : st.Extends block)
    (hlength : st.volatile.length ≤ env.consensusSecurityParam)
    (h : st.rollForward env block = .ok (st', .valid)) :
    st'.volatile.length ≤ env.consensusSecurityParam := by
  obtain ⟨prepared, _, hprepared, hfollows, hadopt, -⟩ := hblock.exists_of_valid hstate h
  refine length_of_adopt hadopt hfollows ?_
  rwa [length_of_prepare hprepared]

theorem length_of_rollForward {verdict} (hstate : st.WellFormed) (hblock : st.Extends block)
    (hlength : st.volatile.length ≤ env.consensusSecurityParam)
    (h : st.rollForward env block = .ok (st', verdict)) :
    st'.volatile.length ≤ env.consensusSecurityParam := by
  cases verdict with
  | valid => exact length_of_valid hstate hblock hlength h
  | invalid => rwa [length_of_chain_eq (chain_of_invalid h)]

/-- What the blocks of a fork do, up to the first that is invalid. -/
structure ReplayedTo (st : State) (blocks : List (Block Body)) (tip : Point) (st' : State)
    (appliedTip : Point) (failure : Option InvalidBlock) (applied : List (Block Body)) : Prop where
  applied_prefix : applied <+: blocks
  applied_eq : failure = none → applied = blocks
  applied_ne : failure ≠ none → applied ≠ blocks
  appliedTip_eq : appliedTip = (applied.getLast?.map point).getD tip
  exists_chain : ∃ n, st'.chain = (st.chain ++ applied.map point).drop n
  chain_eq : applied = [] → st'.chain = st.chain

theorem tip_of_chain_eq_drop {points : List Point} {n : ℕ} (h : st'.chain = points.drop n) :
    points.getLast? = some st'.tip := by
  have hlast := getLast?_chain st'
  rw [h, getLast?_drop] at hlast
  split_ifs at hlast
  exact hlast

theorem ReplayedTo.tip_eq {applied : List (Block Body)}
    (h : ReplayedTo st blocks tip st' appliedTip failure applied) (hne : applied ≠ []) :
    st'.tip = appliedTip := by
  obtain ⟨n, hchain⟩ := h.exists_chain
  have hlast := tip_of_chain_eq_drop hchain
  obtain ⟨older, newest, rfl⟩ := (eq_nil_or_concat applied).resolve_left hne
  rw [h.appliedTip_eq, concat_eq_append, getLast?_concat]
  rw [concat_eq_append, map_append, ← append_assoc, map_singleton, getLast?_concat] at hlast
  exact (Option.some.inj hlast).symm

section

variable (hstate : st.WellFormed) (hblocks : Admits env Extends st blocks)
include hstate hblocks

/-- **Rolling forward with the blocks of a fork** adds those before the first invalid one. -/
theorem exists_replayedTo (h : st.replay env tip blocks = .ok (st', appliedTip, failure)) :
    ∃ applied, ReplayedTo st blocks tip st' appliedTip failure applied := by
  induction blocks generalizing st tip with
  | nil =>
    cases h
    exact ⟨[], prefix_rfl, fun _ ↦ rfl, fun h ↦ absurd rfl h, rfl, ⟨0, by simp⟩, fun _ ↦ rfl⟩
  | cons block blocks ih =>
    rcases exists_of_replay_cons h with ⟨next, hnext, h⟩ | ⟨invalid, rfl, rfl, hinvalid⟩
    · obtain ⟨n, hn, hchain⟩ := chain_of_valid hstate hblocks.1 hnext
      obtain ⟨applied, happlied⟩ := ih (hstate.rollForward hblocks.1 hnext).1 (hblocks.2 next hnext) h
      obtain ⟨m, hchain'⟩ := happlied.exists_chain
      refine ⟨block :: applied, (prefix_cons_inj _).2 happlied.applied_prefix,
        fun hnone ↦ by rw [happlied.applied_eq hnone],
        fun hsome heq ↦ happlied.applied_ne hsome (cons.inj heq).2, ?_, ⟨n + m, ?_⟩, ?_⟩
      · rw [happlied.appliedTip_eq, getLast?_cons]
        cases applied.getLast? <;> rfl
      · have hlength : n ≤ (st.chain ++ [block.point]).length := by
          rw [length_append]
          omega
        rw [hchain', hchain, ← drop_append_of_le_length hlength, drop_drop, append_assoc]
        rfl
      · rintro ⟨⟩
    · refine ⟨[], nil_prefix, ?_, ?_, rfl, ⟨0, ?_⟩, fun _ ↦ chain_of_invalid hinvalid⟩
      · rintro ⟨⟩
      · rintro - ⟨⟩
      · rw [chain_of_invalid hinvalid, map_nil, append_nil, drop_zero]

/-- **A calm fork writes nothing before its last block**, as long as the volatile window has room for
the others. -/
theorem chain_of_calm_replay {failure} (hcalm : Calm env st.volatile blocks.dropLast)
    (hlength : st.volatile.length + blocks.length ≤ env.consensusSecurityParam + 1)
    (h : st.replay env tip blocks = .ok (st', appliedTip, some failure)) :
    st'.stable.tip = st.stable.tip := by
  induction blocks generalizing st tip with
  | nil => cases h
  | cons block blocks ih =>
    rcases exists_of_replay_cons h with ⟨next, hnext, h⟩ | ⟨invalid, -, -, hinvalid⟩
    · rcases blocks with - | ⟨second, blocks⟩
      · cases h
      · rw [dropLast_cons_cons] at hcalm
        rw [length_cons, length_cons] at hlength
        have hchain := chain_of_calm hstate hblocks.1 hcalm hnext
        rw [if_neg (by omega), drop_zero] at hchain
        have htip : next.stable.tip = st.stable.tip := (cons.inj hchain).1
        refine (ih (hstate.rollForward hblocks.1 hnext).1 (hblocks.2 next hnext)
          (hcalm.tail hstate hblocks.1 hnext) ?_ h).trans htip
        have hlength' := congrArg length hchain
        rw [length_chain, length_append, length_chain, length_singleton] at hlength'
        rw [length_cons]
        omega
    · exact (cons.inj (chain_of_invalid hinvalid)).1

theorem length_of_replay (hlength : st.volatile.length ≤ env.consensusSecurityParam)
    (h : st.replay env tip blocks = .ok (st', appliedTip, failure)) :
    st'.volatile.length ≤ env.consensusSecurityParam := by
  refine (replay_invariant
    (P := fun s ↦ s.WellFormed ∧ s.volatile.length ≤ env.consensusSecurityParam) h hblocks
    ⟨hstate, hlength⟩ ?_).2
  intro current block next verdict hcurrent hblock h
  exact ⟨(hcurrent.1.rollForward hblock h).1, length_of_rollForward hcurrent.1 hblock hcurrent.2 h⟩

end

/-! ### Switching to a fork -/

def StateRecovery.discardedTipFirst : StateRecovery → List AnchoredVolatileFragment
  | .wholeVolatileDB volatile => (volatile.draining ++ volatile.current).reverse
  | .volatileDBPart _ recovery => recovery.discardedTipFirst

variable {fork : Point} {guard : RollbackGuard}

section

variable (h : st.rollbackTo fork = .ok (guard, base))
include h

theorem stable_of_rollbackTo : base.stable = st.stable := by
  have hbase := congrArg State.stable (exists_of_rollbackTo h).2.1
  exact hbase

theorem series_of_rollbackTo :
    st.volatile.series = base.volatile.series ++ guard.kind.discardedTipFirst.reverse ∧
      guard.kind.discardedTipFirst.length = guard.kind.rollbackLength := by
  obtain ⟨-, -, ⟨-, hkind, hclear⟩ | ⟨recovery, hroll, hkind⟩⟩ := exists_of_rollbackTo h
  · rw [hkind, hclear, StateRecovery.discardedTipFirst, reverse_reverse, StateRecovery.rollbackLength,
      VolatileDB.length, length_reverse, length_append, add_comm]
    exact ⟨rfl, rfl⟩
  rw [hkind, StateRecovery.discardedTipFirst, StateRecovery.rollbackLength]
  rcases VolatileDB.exists_of_rollbackTo hroll with
    ⟨kept, drained, hkept, rfl, hvolatile⟩ | ⟨-, kept, discarded, hkept, rfl, hvolatile⟩ <;>
  obtain ⟨_, -, -, hsplit⟩ := VolatileSeries.exists_of_rollbackTo hkept <;>
  rw [hvolatile, VolatileDB.series, VolatileDB.series, hsplit, VolatileDB.Recovery.discardedTipFirst,
    reverse_reverse, VolatileDB.Recovery.rollbackLength, length_reverse, append_assoc]
  · rw [length_append, add_comm, nil_append]
    exact ⟨rfl, rfl⟩
  · exact ⟨rfl, rfl⟩

theorem chain_of_rollbackTo :
    st.chain = base.chain ++ guard.kind.discardedTipFirst.reverse.map (·.point) := by
  rw [chain, chain, stable_of_rollbackTo h, (series_of_rollbackTo h).1, map_append, cons_append]

theorem prefix_of_rollbackTo : base.chain <+: st.chain := ⟨_, (chain_of_rollbackTo h).symm⟩

theorem length_of_rollbackTo : base.volatile.length + guard.kind.rollbackLength = st.volatile.length := by
  have hcount := congrArg length (chain_of_rollbackTo h)
  rw [length_append, length_map, length_reverse, (series_of_rollbackTo h).2, length_chain,
    length_chain] at hcount
  omega

end

section Switch

variable {outcome : ForkSwitchOutcome}

/-- A fork that is applied is at most one block longer than what it replaces. -/
theorem length_of_completed (hroll : st.rollbackTo fork = .ok (guard, base))
    (h : st.switchToFork env fork blocks = .ok (st', .completed)) :
    blocks.length ≤ guard.kind.rollbackLength + 1 := by
  obtain ⟨rollbackGuard', base', hrollback', ⟨hcontra, -⟩ | ⟨-, hlength, -⟩⟩ := switch_cases h
  · cases hcontra
  · rw [hroll] at hrollback'
    cases hrollback'
    exact hlength

section

variable (hstate : st.WellFormed) (hblocks : List.IsChain Point.Before (fork :: blocks.map point))
include hstate hblocks

/-- The blocks of a fork that follow the fork point come each in its turn. -/
theorem admits_of_rollbackTo (hroll : st.rollbackTo fork = .ok (guard, base)) :
    Admits env Extends base blocks := by
  refine admits_extends (hstate.rollbackTo hroll) ?_
  rw [tip_of_rollbackTo hroll]
  exact hblocks

/-- A switch that completes puts the fork in place of what was rolled back. -/
theorem chain_of_completed (h : st.switchToFork env fork blocks = .ok (st', .completed)) :
    ∃ guard base n, st.rollbackTo fork = .ok (guard, base) ∧
      st'.chain = (base.chain ++ blocks.map point).drop n := by
  obtain ⟨guard, base, hroll, ⟨hcontra, -⟩ | ⟨-, -, replayed, _, failure, hreplay, hend⟩⟩ :=
    switch_cases h
  · cases hcontra
  obtain ⟨rfl, -, rfl⟩ | ⟨_, -, ⟨-, hcontra, -⟩ | ⟨-, hcontra, -⟩⟩ := hend
  · obtain ⟨applied, happlied⟩ := exists_replayedTo (hstate.rollbackTo hroll)
      (admits_of_rollbackTo hstate hblocks hroll) hreplay
    obtain ⟨n, hchain⟩ := happlied.exists_chain
    rw [happlied.applied_eq rfl] at hchain
    exact ⟨guard, base, n, hroll, hchain⟩
  · cases hcontra
  · cases hcontra

theorem chain_of_failed (h : st.switchToFork env fork blocks = .ok (st', outcome))
    (hfailure : outcome.ReportsFailure) : st'.chain = st.chain := by
  obtain ⟨hvolatile, htip, -⟩ := hstate.failedSwitch
    (fun _ _ hroll ↦ admits_of_rollbackTo hstate hblocks hroll) h hfailure
  rw [chain, chain, hvolatile, htip]

/-- A switch that is applied in part leaves a front of the fork, at whose end is the tip. -/
theorem chain_of_partiallyApplied {failure}
    (h : st.switchToFork env fork blocks = .ok (st', .partiallyApplied appliedTip failure)) :
    ∃ guard base applied n, st.rollbackTo fork = .ok (guard, base) ∧
      applied <+: blocks ∧ applied ≠ [] ∧ st'.tip = appliedTip ∧
      st'.chain = (base.chain ++ applied.map point).drop n := by
  obtain ⟨guard, base, hroll, ⟨hcontra, -⟩ | ⟨-, -, replayed, tip, _, hreplay, hend⟩⟩ :=
    switch_cases h
  · cases hcontra
  obtain ⟨-, hcontra, -⟩ | ⟨invalid, rfl, ⟨-, hcontra, -⟩ | ⟨hmoved, heq, rfl⟩⟩ := hend
  · cases hcontra
  · cases hcontra
  obtain ⟨rfl, rfl⟩ := ForkSwitchOutcome.partiallyApplied.inj heq
  obtain ⟨applied, happlied⟩ := exists_replayedTo (hstate.rollbackTo hroll)
    (admits_of_rollbackTo hstate hblocks hroll) hreplay
  obtain ⟨n, hchain⟩ := happlied.exists_chain
  have hne : applied ≠ [] := by
    intro hnil
    obtain ⟨himmutable, hbase, -⟩ := exists_of_rollbackTo hroll
    refine hmoved ((cons.inj (happlied.chain_eq hnil)).1.trans ?_)
    rw [himmutable, hbase]
  exact ⟨guard, base, applied, n, hroll, happlied.applied_prefix, hne, happlied.tip_eq hne, hchain⟩

end

section

variable (hstate : st.WellFormed) (hlength : st.volatile.length ≤ env.consensusSecurityParam)
  (hblocks : List.IsChain Point.Before (fork :: blocks.map point))
include hstate hlength hblocks

/-- **A calm fork is not applied in part**. -/
theorem not_partiallyApplied_of_calm
    (hcalm : ∀ guard base, st.rollbackTo fork = .ok (guard, base) → Calm env
      base.volatile blocks.dropLast)
    (h : st.switchToFork env fork blocks = .ok (st', outcome)) (appliedTip : Point)
    (failure : InvalidBlock) : outcome ≠ .partiallyApplied appliedTip failure := by
  rintro rfl
  obtain ⟨guard, base, hroll, ⟨hcontra, -⟩ | ⟨-, hfork, replayed, tip, _, hreplay, hend⟩⟩ :=
    switch_cases h
  · cases hcontra
  obtain ⟨-, hcontra, -⟩ | ⟨invalid, rfl, ⟨-, hcontra, -⟩ | ⟨hmoved, -, -⟩⟩ := hend
  · cases hcontra
  · cases hcontra
  refine hmoved ?_
  obtain ⟨himmutable, hbase, -⟩ := exists_of_rollbackTo hroll
  have hcount := length_of_rollbackTo hroll
  rw [himmutable, chain_of_calm_replay (hstate.rollbackTo hroll)
    (admits_of_rollbackTo hstate hblocks hroll) (hcalm _ _ hroll) (by omega) hreplay, hbase]

theorem length_of_switchToFork (h : st.switchToFork env fork blocks = .ok (st', outcome)) :
    st'.volatile.length ≤ env.consensusSecurityParam := by
  by_cases hfailure : outcome.ReportsFailure
  · rwa [length_of_chain_eq (chain_of_failed hstate hblocks h hfailure)]
  obtain ⟨_, _, _, _, hroll, hreplay⟩ := exists_replay_of_switchToFork h hfailure
  have hcount := length_of_rollbackTo hroll
  exact length_of_replay (hstate.rollbackTo hroll) (admits_of_rollbackTo hstate hblocks hroll)
    (by omega) hreplay

end

/-! ### Whole runs -/

/-- **In every state of a run, in which each block comes after the tip, the points of the chain go up, and
at most as many blocks are volatile as the security parameter says.** -/
theorem chain_is_ordered_and_bounded (h : Reachable env Extends st) :
    st.chain.IsChain Point.Before ∧ st.volatile.length ≤ env.consensusSecurityParam := by
  refine ⟨h.wellFormed.chained, ?_⟩
  induction h with
  | start h =>
    obtain ⟨-, epoch, hvolatile⟩ := exists_of_new h
    rw [hvolatile]
    exact Nat.zero_le _
  | rollForward hstate hblock h ih => exact length_of_rollForward hstate.wellFormed hblock ih h
  | @switchToFork _ _ _ _ outcome hstate hblocks h ih =>
    by_cases hfailure : outcome.ReportsFailure
    · rw [(hstate.wellFormed.failedSwitch hblocks h hfailure).1]
      exact ih
    · obtain ⟨_, _, _, _, hroll, hreplay⟩ := exists_replay_of_switchToFork h hfailure
      have hcount := length_of_rollbackTo hroll
      exact length_of_replay (hstate.wellFormed.rollbackTo hroll) (hblocks _ _ hroll) (by omega)
        hreplay

theorem chain_is_ordered_and_bounded_oneBlock : ∃ ledger, Reachable tenSlots Extends ledger ∧
    ledger.chain = [.specific 32 32 32, .specific 35 35 35] ∧ ledger.chain.IsChain Point.Before := by
  have hreachable : Reachable tenSlots Extends _ :=
    .rollForward (.start (rfl : State.new tenSlots thirdEpoch thirdEpochSnapshots = _))
      (by decide : 32 < (blockAt 35 true).slot) rfl
  exact ⟨_, hreachable, rfl, (chain_is_ordered_and_bounded hreachable).1⟩

/-- **A switch ends as it reports, and what is stable is not undone.** A fork that is completed or applied in
part follows the chain up to the fork point; a switch that fails leaves the chain. -/
theorem switch_ends_as_reported (hstate : Reachable env Extends st)
    (hblocks : List.IsChain Point.Before (fork :: blocks.map point))
    (h : st.switchToFork env fork blocks = .ok (st', outcome)) :
    (st'.stable.tip = st.stable.tip ∨ st.stable.tip.Before st'.stable.tip) ∧
    (outcome.ReportsFailure → st'.chain = st.chain) ∧
    (outcome = .completed → ∃ guard base n, st.rollbackTo fork = .ok (guard, base) ∧
      st'.chain = (base.chain ++ blocks.map point).drop n) ∧
    ∀ appliedTip failure, outcome = .partiallyApplied appliedTip failure →
      ∃ guard base applied n, st.rollbackTo fork = .ok (guard, base) ∧
        applied <+: blocks ∧ applied ≠ [] ∧ st'.tip = appliedTip ∧
        st'.chain = (base.chain ++ applied.map point).drop n := by
  have hstate := hstate.wellFormed
  refine ⟨?_, chain_of_failed hstate hblocks h, ?_, ?_⟩
  · by_cases hfailure : outcome.ReportsFailure
    · exact .inl (cons.inj (chain_of_failed hstate hblocks h hfailure)).1
    · obtain ⟨_, _, _, _, hroll, hreplay⟩ := exists_replay_of_switchToFork h hfailure
      rw [← stable_of_rollbackTo hroll]
      exact ((hstate.rollbackTo hroll).replay (admits_of_rollbackTo hstate hblocks hroll) hreplay).2
  · rintro rfl
    exact chain_of_completed hstate hblocks h
  · rintro _ _ rfl
    exact chain_of_partiallyApplied hstate hblocks h

/-- A fork at slot 33 takes the place of the block at slot 35. -/
theorem switch_ends_as_reported_forkAt33 : ∃ rolled ledger, Reachable tenSlots Extends rolled ∧
    rolled.chain = [.specific 32 32 32, .specific 33 33 33, .specific 35 35 35] ∧
    rolled.switchToFork tenSlots (.specific 33 33 33) [blockAt 36 true] = .ok (ledger, .completed) ∧
    (ledger.stable.tip = rolled.stable.tip ∨ rolled.stable.tip.Before ledger.stable.tip) ∧
    (∃ guard base n, rolled.rollbackTo (.specific 33 33 33) = .ok (guard, base) ∧
      ledger.chain = (base.chain ++ [Point.specific 36 36 36]).drop n) ∧
    ledger.chain = [.specific 32 32 32, .specific 33 33 33, .specific 36 36 36] := by
  have hfork : List.IsChain Point.Before (.specific 33 33 33 :: [blockAt 36 true].map point) :=
    .cons_cons (by decide : 33 < 36) (.singleton _)
  have hrolled : Reachable tenSlots Extends _ := .rollForward (.rollForward
    (.start (rfl : State.new tenSlots thirdEpoch thirdEpochSnapshots = _))
    (by decide : 32 < (blockAt 33 true).slot) rfl) (by decide : 33 < (blockAt 35 true).slot) rfl
  obtain ⟨hstable, -, hcompleted, -⟩ := switch_ends_as_reported hrolled hfork rfl
  exact ⟨_, _, hrolled, rfl, rfl, hstable, hcompleted rfl, rfl⟩

end Switch

end State

end Amaru
