import Amaru.Ledger.State.State

/-!
# What a block does to the ledger

Rolling forward has two halves. The first, before the rules are asked, may cross a boundary: the
blocks of the current epoch start to drain, and nothing is written. The second, once the block is
valid, adds it and writes what is stable. Each half has one lemma that says all it does,
`exists_of_prepare` and `adopted_of_adopt`, and **the only way to write something without moving the
tip is to write a pending boundary that no block is draining before**.

`Reachable` are the states of a run, in which each block that is submitted meets a condition; for the
blocks of a fork, in the state its turn comes.
-/

namespace Amaru

open Except VolatileSeries VolatileDB List State

namespace VolatileDB

variable {db db' : VolatileDB}

/-- The volatile blocks, oldest first. -/
def series (db : VolatileDB) : VolatileSeries := db.draining ++ db.current

/-- A boundary is pending only behind blocks of the epoch it closes. -/
def Settled (db : VolatileDB) : Prop := db.overlay.isEmpty = true ∨ db.draining ≠ []

/-- The parameters of the store are the same. -/
structure SameBase (db db' : VolatileDB) : Prop where
  protocolParameters_eq : db'.baseProtocolParameters = db.baseProtocolParameters
  governanceActivity_eq : db'.baseGovernanceActivity = db.baseGovernanceActivity
  guardrailScript_eq : db'.baseGuardrailScript = db.baseGuardrailScript

theorem SameBase.refl (db : VolatileDB) : SameBase db db := ⟨rfl, rfl, rfl⟩

theorem SameBase.trans {db''} (h : SameBase db db') (h' : SameBase db' db'') :
    SameBase db db'' :=
  ⟨h'.1.trans h.1, h'.2.trans h.2, h'.3.trans h.3⟩

/-- What crossing a boundary does. -/
structure Crossed (db db' : VolatileDB) : Prop where
  sameBase : SameBase db db'
  draining_eq_nil : db.draining = []
  current_eq : db'.current = []
  draining_eq : db'.draining = db.current
  epoch_eq : db'.epoch = db.epoch + 1

theorem Crossed.series_eq (h : Crossed db db') : db'.series = db.series := by
  rw [series, series, h.draining_eq_nil, h.current_eq, h.draining_eq, append_nil, nil_append]

theorem Crossed.ne (h : Crossed db db') : db' ≠ db := by
  rintro rfl
  exact absurd h.epoch_eq (Nat.succ_ne_self _).symm

theorem exists_of_popFront {block} (h : db.popFront = some (block, db')) :
    db'.overlay = db.overlay ∧ SameBase db db' ∧ db.series = block :: db'.series ∧
      db'.draining <:+ db.draining ∧ db'.current <:+ db.current := by
  rw [popFront] at h
  rw [series, series]
  split at h <;> cases h
  · next hdraining =>
    rw [hdraining]
    exact ⟨rfl, ⟨rfl, rfl, rfl⟩, rfl, suffix_cons _ _, suffix_rfl⟩
  · next hdraining hcurrent =>
    rw [hdraining, hcurrent]
    exact ⟨rfl, ⟨rfl, rfl, rfl⟩, rfl, suffix_rfl, suffix_cons _ _⟩

theorem series_pushBack (db : VolatileDB) (block : AnchoredVolatileFragment) :
    (db.pushBack block).series = db.series ++ [block] := by
  rw [series, series, append_assoc]
  rfl

end VolatileDB

namespace State

variable {Body : Type*} {env : Environment Body} {st st' : State} {snapshots : SortedMap ℕ Store}

theorem tip_eq (st : State) : st.tip = st.volatile.series.lastPoint st.stable.tip := by
  rw [tip, viewBack, lastPoint_eq, series, getLast?_append]

/-! ### Before the rules -/

theorem exists_of_tryComputeRewards (h : st.tryComputeRewards env = .ok st') :
    ∃ rewardsJoinHandle, st' = { st with rewardsJoinHandle } := by
  obtain ⟨currentEpoch, -, h⟩ := bind_eq_ok_iff.1 h
  obtain ⟨due, -, h⟩ := bind_eq_ok_iff.1 h
  rcases due with - | -
  · exact ⟨st.rewardsJoinHandle, (ok.inj h).symm⟩
  · obtain ⟨_, -, h⟩ := bind_eq_ok_iff.1 h
    obtain ⟨_, -, h⟩ := bind_eq_ok_iff.1 h
    exact ⟨_, (ok.inj h).symm⟩

/-- Taking the rewards leaves everything else of the volatile database. -/
theorem exists_of_takeRewards {rewards} (h : st.takeRewards = .ok (rewards, st')) :
    st'.stable = st.stable ∧ st'.snapshots = st.snapshots ∧
      ∃ pending, st'.volatile =
        { st.volatile with overlay := { st.volatile.overlay with rewards := pending } } := by
  rw [takeRewards] at h
  split at h
  · obtain ⟨_, -, h⟩ := map_eq_ok_iff.1 h
    cases h
    exact ⟨rfl, rfl, st.volatile.overlay.rewards, rfl⟩
  · cases h
    refine ⟨rfl, rfl, ?_⟩
    rw [takeComputedRewards]
    split
    · exact ⟨.notReady, rfl⟩
    · exact ⟨st.volatile.overlay.rewards, rfl⟩

theorem crossed_of_epochTransition {nextEpoch : ℕ} (h : st.epochTransition env nextEpoch = .ok st') :
    st'.stable = st.stable ∧ st'.snapshots = st.snapshots ∧
      st.volatile.Crossed st'.volatile := by
  obtain ⟨⟨rewards, taken⟩, htaken, h⟩ := bind_eq_ok_iff.1 h
  obtain ⟨hstable, hsnapshots, pending, hvolatile⟩ := exists_of_takeRewards htaken
  obtain ⟨poolsUpdates, -, h⟩ := bind_eq_ok_iff.1 h
  obtain ⟨_, -, h⟩ := bind_eq_ok_iff.1 h
  obtain ⟨governanceUpdates, -, h⟩ := bind_eq_ok_iff.1 h
  obtain ⟨volatile, hcross, h⟩ := bind_eq_ok_iff.1 h
  cases h
  obtain ⟨effectiveRewards, -, hdraining, rfl⟩ := exists_of_crossBoundary hcross
  refine ⟨hstable, hsnapshots, ⟨⟨?_, ?_, ?_⟩, hdraining ▸ ?_, rfl, ?_, ?_⟩⟩ <;>
    simp only [hvolatile, epoch, StateOverlay.transition]

variable {block : Block Body} {verdict : BlockValidation} {stable : Store}

/-- **Before the rules**: a block of a later epoch crosses a boundary, and nothing is written. -/
theorem exists_of_prepare (h : st.prepare env block = .ok st') :
    st'.stable = st.stable ∧ st'.snapshots = st.snapshots ∧
      ∃ epoch, env.epochOf block.slot = .ok epoch ∧
        ((epoch ≤ st.volatile.epoch ∧ st'.volatile = st.volatile) ∨
          (st.volatile.epoch < epoch ∧ st.volatile.Crossed st'.volatile)) := by
  obtain ⟨computed, hcomputed, h⟩ := bind_eq_ok_iff.1 h
  obtain ⟨handle, rfl⟩ := exists_of_tryComputeRewards hcomputed
  obtain ⟨epoch, hepoch, h⟩ := bind_eq_ok_iff.1 h
  split_ifs at h with hlater
  · obtain ⟨hstable, hsnapshots, hcrossed⟩ := crossed_of_epochTransition h
    exact ⟨hstable, hsnapshots, epoch, hepoch, .inr ⟨hlater, hcrossed⟩⟩
  · cases h
    exact ⟨rfl, rfl, epoch, hepoch, .inl ⟨Nat.not_lt.1 hlater, rfl⟩⟩

theorem series_of_prepare (h : st.prepare env block = .ok st') :
    st'.volatile.series = st.volatile.series := by
  obtain ⟨-, -, _, -, ⟨-, heq⟩ | ⟨-, hcrossed⟩⟩ := exists_of_prepare h
  · rw [heq]
  · exact hcrossed.series_eq

/-! ### Once the block is valid -/

/-- The volatile blocks follow the tip of the store. -/
def Chained (st : State) : Prop := st.volatile.series.Follows st.stable.tip

theorem exists_of_applyBlock {block} (h : st.applyBlock env block = .ok st')
    (hnew : st.stable.tip.Before block.point) :
    ∃ stable, st' = { st with stable } ∧ stable.tip = block.point := by
  obtain ⟨epoch, -, h⟩ := bind_eq_ok_iff.1 h
  split at h
  · cases h
  · obtain ⟨stable, hstable, rfl⟩ := map_eq_ok_iff.1 (mapError_eq_ok_iff.1 h)
    exact ⟨stable, rfl, Store.tip_of_applyBlock hstable hnew.not_isStale⟩

theorem exists_of_foldlM_applyBlock : ∀ {series : VolatileSeries} {st st'},
    series.foldlM (applyBlock env) st = .ok st' → series.Follows st.stable.tip →
      ∃ stable, st' = { st with stable } ∧ stable.tip = series.lastPoint st.stable.tip
  | [], st, _, h, _ => ⟨st.stable, (ok.inj h).symm, rfl⟩
  | block :: series, st, st', h, hfollows => by
    obtain ⟨hbefore, hfollows⟩ := isChain_cons_cons.1 hfollows
    obtain ⟨next, hnext, h⟩ := bind_eq_ok_iff.1 h
    obtain ⟨stable, rfl, htip⟩ := exists_of_applyBlock hnext hbefore
    have hrest : VolatileSeries.Follows stable.tip series := by
      rw [htip]
      exact hfollows
    obtain ⟨stable', rfl, htip'⟩ := exists_of_foldlM_applyBlock h hrest
    refine ⟨stable', rfl, htip'.trans ?_⟩
    rw [htip]
    rfl

theorem exists_of_pushFragment {block nowStable} (h : st.pushFragment env block = .ok (nowStable, st'))
    :
    ∃ volatile, st' = { st with volatile } ∧ volatile.overlay = st.volatile.overlay ∧
      (nowStable.toList.length = if env.consensusSecurityParam ≤ st.volatile.length then 1 else 0) ∧
      nowStable.toList ++ volatile.series = st.volatile.series ++ [block] ∧
      (nowStable = none → volatile = st.volatile.pushBack block) ∧
      volatile.draining <:+ st.volatile.draining ∧
      ∃ kept, kept <:+ st.volatile.current ∧ volatile.current = kept ++ [block] := by
  rw [pushFragment] at h
  split_ifs at h ⊢
  · split at h <;> cases h
    next rest hpop =>
      obtain ⟨hoverlay, -, hseries, hdraining, hcurrent⟩ := exists_of_popFront hpop
      refine ⟨rest.pushBack block, rfl, hoverlay, rfl, ?_, nofun, hdraining, rest.current, hcurrent, rfl⟩
      rw [series_pushBack, hseries]
      rfl
  · cases h
    exact ⟨st.volatile.pushBack block, rfl, rfl, rfl, series_pushBack _ _, fun _ ↦ rfl,
      suffix_rfl, st.volatile.current, suffix_rfl, rfl⟩

theorem exists_of_writeTransition (h : st.writeTransition = .ok st') :
    st'.volatile = st.volatile.applied st'.stable ∧ st'.stable.tip = st.stable.tip := by
  obtain ⟨ended, hended, h⟩ := bind_eq_ok_iff.1 h
  obtain ⟨stable, hstable, h⟩ := bind_eq_ok_iff.1 h
  cases h
  exact ⟨rfl, StateOverlay.tip_of_apply (bind_eq_ok_iff.2 ⟨ended, hended, hstable⟩)⟩

/-- Writing the pending boundary, if it is stable. Otherwise blocks drain before it. With blocks draining
before it, a boundary that is written is forced by the newest block. -/
theorem exists_of_applyTransition (h : st.applyTransition env = .ok st')
    (hfollows : st.volatile.draining.Follows st.stable.tip) :
    (st' = st ∧ st.volatile.Settled) ∨
      ((st.volatile.draining = [] ∨ env.stabilityWindow ≤ env.eraHistory.slotInEpochOrDefault
          ((st.volatile.current.getLast?.map (·.point.slotOrDefault)).getD 0)) ∧
        st.volatile.overlay.isEmpty = false ∧ st'.volatile.draining = [] ∧
        st'.volatile.current = st.volatile.current ∧
        st'.volatile.overlay = st.volatile.overlay.applied ∧
        st'.stable.tip = st.volatile.draining.lastPoint st.stable.tip) := by
  rw [applyTransition] at h
  split_ifs at h with hstable
  · obtain ⟨drained, hdrained, h⟩ := bind_eq_ok_iff.1 h
    obtain ⟨stable, rfl, htip⟩ := exists_of_foldlM_applyBlock hdrained hfollows
    obtain ⟨written, hwritten, h⟩ := bind_eq_ok_iff.1 h
    obtain ⟨hvolatile, htip'⟩ := exists_of_writeTransition hwritten
    rw [pruneSnapshots] at h
    split_ifs at h
    cases h
    rw [isEpochTransitionStable, Bool.and_eq_true, Bool.not_eq_true', Bool.or_eq_true, List.isEmpty_iff,
      decide_eq_true_iff] at hstable
    refine .inr ⟨hstable.2, hstable.1, ?_⟩
    rw [hvolatile, htip', htip, applied]
    split <;> exact ⟨rfl, rfl, rfl, rfl⟩
  · refine .inl ⟨(ok.inj h).symm, ?_⟩
    by_contra hsettled
    obtain ⟨hpending, hdraining⟩ := not_or.1 hsettled
    rw [Bool.not_eq_true] at hpending
    rw [isEpochTransitionStable, not_not.1 hdraining, hpending] at hstable
    exact hstable rfl

/-- What recording a valid block does. -/
structure Adopted (st : State) (block : AnchoredVolatileFragment) (st' : State) : Prop where
  /-- The oldest blocks are written. If there is none, the store changes only when a boundary is
  pending that no block drains before. -/
  exists_written : ∃ written : VolatileSeries,
    written ++ st'.volatile.series = st.volatile.series ++ [block] ∧
    st'.stable.tip = written.lastPoint st.stable.tip ∧
    (written = [] → st.volatile.Settled →
      st'.stable = st.stable ∧ st'.volatile = st.volatile.pushBack block)
  draining_suffix : st'.volatile.draining <:+ st.volatile.draining
  exists_current : ∃ kept, kept <:+ st.volatile.current ∧ st'.volatile.current = kept ++ [block]
  epoch_eq : st'.volatile.epoch = st.volatile.epoch
  settled : st'.volatile.Settled

section

variable {block : AnchoredVolatileFragment} (h : st.adopt env block = .ok st')
  (hchained : (st.volatile.series ++ [block]).Follows st.stable.tip)
include h hchained

/-- Recording a valid block: the block that is pushed out, if any, is written, then a boundary. -/
theorem exists_of_adopt : ∃ nowStable volatile stable,
    st.pushFragment env block = .ok (nowStable, { st with volatile }) ∧
      stable.tip = lastPoint st.stable.tip nowStable.toList ∧
      (nowStable = none → stable = st.stable) ∧ volatile.draining.Follows stable.tip ∧
      { st with volatile, stable }.applyTransition env = .ok st' := by
  obtain ⟨⟨nowStable, pushed⟩, hpushed, h⟩ := bind_eq_ok_iff.1 h
  obtain ⟨volatile, rfl, -, -, hseries, -⟩ := exists_of_pushFragment hpushed
  obtain ⟨applied, happlied, h⟩ := bind_eq_ok_iff.1 h
  rw [← hseries, follows_append] at hchained
  have hfollows := (follows_append.1 hchained.2).1
  rcases nowStable with - | oldest
  · cases happlied
    exact ⟨none, volatile, st.stable, hpushed, rfl, fun _ ↦ rfl, hfollows, h⟩
  · obtain ⟨stable, rfl, htip⟩ := exists_of_applyBlock happlied (follows_singleton.1 hchained.1)
    exact ⟨some oldest, volatile, stable, hpushed, htip, nofun, htip ▸ hfollows, h⟩

/-- **Once the block is valid**, it is added, and what is stable with it is written. -/
theorem adopted_of_adopt : Adopted st block st' := by
  obtain ⟨nowStable, volatile, stable, hpushed, htip, hsame, hfollows, h⟩ := exists_of_adopt h hchained
  obtain ⟨_, heq, hoverlay, -, hseries, hnone, hdraining, kept, hkept, hcurrent⟩ :=
    exists_of_pushFragment hpushed
  cases heq
  rcases exists_of_applyTransition h hfollows with
    ⟨rfl, hsettled⟩ | ⟨-, hpending, hdraining', hcurrent', hoverlay', htip'⟩
  · refine ⟨⟨nowStable.toList, hseries, htip, fun hwritten _ ↦ ?_⟩, hdraining,
      ⟨kept, hkept, hcurrent⟩, congrArg StateOverlay.epoch hoverlay, hsettled⟩
    obtain rfl : nowStable = none := by cases nowStable <;> simp_all
    exact ⟨hsame rfl, hnone rfl⟩
  · refine ⟨⟨nowStable.toList ++ volatile.draining, ?_, ?_, fun hwritten hsettled ↦ ?_⟩, ?_,
      ⟨kept, hkept, hcurrent'.trans hcurrent⟩, ?_, ?_⟩
    · rw [← hseries, series, series, hdraining', hcurrent', append_assoc]
      rfl
    · rw [htip', htip, lastPoint_append]
    · -- nothing was pushed out and nothing drains, so no boundary was pending before
      exfalso
      obtain ⟨hnow, hdrained⟩ := append_eq_nil_iff.1 hwritten
      obtain rfl : nowStable = none := by cases nowStable <;> simp_all
      obtain rfl := hnone rfl
      rcases hsettled with hempty | hne
      · rw [← hoverlay, hpending] at hempty
        cases hempty
      · exact hne hdrained
    · rw [hdraining']
      exact List.nil_suffix
    · rw [epoch, hoverlay', StateOverlay.applied, hoverlay]
      rfl
    · left
      rw [hoverlay']
      rfl

end

theorem exists_of_rollForward (h : st.rollForward env block = .ok (st', verdict)) :
    ∃ prepared, st.prepare env block = .ok prepared ∧
      ((∃ failure, verdict = .invalid failure ∧ st' = prepared ∧
          env.validateBlock prepared.volatile prepared.stable block = .ok (.error failure)) ∨
        (∃ fragment, verdict = .valid ∧
          env.validateBlock prepared.volatile prepared.stable block = .ok (.ok fragment) ∧
          prepared.adopt env (block.anchor fragment) = .ok st')) := by
  obtain ⟨prepared, hprepared, h⟩ := bind_eq_ok_iff.1 h
  obtain ⟨outcome, houtcome, h⟩ := bind_eq_ok_iff.1 h
  refine ⟨prepared, hprepared, ?_⟩
  rcases outcome with failure | fragment
  · cases h
    exact .inl ⟨failure, rfl, rfl, houtcome⟩
  · obtain ⟨adopted, hadopted, heq⟩ := map_eq_ok_iff.1 h
    cases heq
    exact .inr ⟨fragment, rfl, houtcome, hadopted⟩

/-! ### Runs -/

/-- The block comes after the tip. -/
def Extends (st : State) (block : Block Body) : Prop := st.tip.Before block.point

/-- Each block of a fork meets a condition in the state its turn comes. -/
def Admits (env : Environment Body) (condition : State → Block Body → Prop) : State → List (Block Body) → Prop
  | _, [] => True
  | st, block :: blocks => condition st block ∧
    ∀ st', st.rollForward env block = .ok (st', .valid) → Admits env condition st' blocks

/-- The states of a run in which each block that is submitted meets a condition. -/
inductive Reachable (env : Environment Body) (condition : State → Block Body → Prop) : State → Prop
  | start {stable : Store} {snapshots st} (h : new env stable snapshots = .ok st) :
    Reachable env condition st
  | rollForward {st st' : State} {block verdict} (hstate : Reachable env condition st)
    (hblock : condition st block) (h : st.rollForward env block = .ok (st', verdict)) :
    Reachable env condition st'
  | switchToFork {st st' fork blocks outcome} (hstate : Reachable env condition st)
    (hblocks : ∀ guard rolledBack,
        st.rollbackTo fork = .ok (guard, rolledBack) → Admits env condition rolledBack blocks)
    (h : st.switchToFork env fork blocks = .ok (st', outcome)) : Reachable env condition st'

theorem Admits.mono {condition condition' blocks}
    (himp : ∀ st block, condition st block → condition' st block)
    (h : Admits env condition st blocks) : Admits env condition' st blocks := by
  induction blocks generalizing st with
  | nil => trivial
  | cons block blocks ih => exact ⟨himp _ _ h.1, fun next hnext ↦ ih (h.2 next hnext)⟩

theorem Reachable.mono {condition condition'}
    (himp : ∀ st block, condition st block → condition' st block) (h : Reachable env condition st) :
    Reachable env condition' st := by
  induction h with
  | start h => exact .start h
  | rollForward _ hblock h ih => exact .rollForward ih (himp _ _ hblock) h
  | switchToFork _ hblocks h ih =>
    exact .switchToFork ih (fun _ _ hroll ↦ (hblocks _ _ hroll).mono himp) h

/-- The volatile blocks follow the store, and a boundary that is pending is behind blocks of the epoch
it closes, unless no block was added since it was crossed. -/
structure WellFormed (st : State) : Prop where
  chained : st.Chained
  pending : st.volatile.Settled ∨ st.volatile.current = []

theorem exists_of_new (h : new env stable snapshots = .ok st) :
    st.stable = stable ∧ ∃ epoch, st.volatile = .new epoch stable.protocolParameters
      stable.governanceActivity stable.constitution.guardrailScript := by
  rw [new] at h
  split_ifs at h
  obtain ⟨epoch, -, h⟩ := bind_eq_ok_iff.1 h
  obtain ⟨distributions, -, h⟩ := bind_eq_ok_iff.1 h
  cases h
  exact ⟨rfl, epoch, rfl⟩

theorem wellFormed_new (h : new env stable snapshots = .ok st) :
    st.WellFormed := by
  obtain ⟨-, epoch, hvolatile⟩ := exists_of_new h
  refine ⟨?_, .inr (by rw [hvolatile]; rfl)⟩
  rw [Chained, hvolatile]
  exact List.IsChain.singleton _

theorem WellFormed.prepare (hstate : st.WellFormed) (h : st.prepare env block = .ok st') :
    st'.WellFormed := by
  obtain ⟨hstable, -, _, -, hvolatile⟩ := exists_of_prepare h
  refine ⟨?_, ?_⟩
  · rw [Chained, series_of_prepare h, hstable]
    exact hstate.chained
  · rcases hvolatile with ⟨-, heq⟩ | ⟨-, hcrossed⟩
    · rw [heq]
      exact hstate.pending
    · exact .inr hcrossed.current_eq

theorem Extends.prepare (hblock : st.Extends block) (h : st.prepare env block = .ok st') :
    st'.Extends block := by
  rw [Extends, tip_eq, series_of_prepare h, (exists_of_prepare h).1, ← tip_eq]
  exact hblock

theorem Extends.follows (hblock : st.Extends block) (hchained : st.Chained)
    (fragment : VolatileFragment) :
    (st.volatile.series ++ [block.anchor fragment]).Follows st.stable.tip := by
  refine follows_append.2 ⟨hchained, follows_singleton.2 ?_⟩
  rw [← tip_eq]
  exact hblock

/-- A valid block that comes after the tip is prepared for and recorded. -/
theorem Extends.exists_of_valid (hblock : st.Extends block) (hstate : st.WellFormed)
    (h : st.rollForward env block = .ok (st', .valid)) :
    ∃ prepared fragment, st.prepare env block = .ok prepared ∧
      (prepared.volatile.series ++ [block.anchor fragment]).Follows prepared.stable.tip ∧
      prepared.adopt env (block.anchor fragment) = .ok st' ∧
      Adopted prepared (block.anchor fragment) st' := by
  obtain ⟨prepared, hprepared, ⟨_, hinvalid, -⟩ | ⟨fragment, -, -, hadopt⟩⟩ := exists_of_rollForward h
  · cases hinvalid
  have hfollows := (hblock.prepare hprepared).follows (hstate.prepare hprepared).chained fragment
  exact ⟨prepared, fragment, hprepared, hfollows, hadopt, adopted_of_adopt hadopt hfollows⟩

section

variable {block : AnchoredVolatileFragment} (h : Adopted st block st')
  (hfollows : (st.volatile.series ++ [block]).Follows st.stable.tip)
include h hfollows

theorem Adopted.chained : st'.Chained := by
  obtain ⟨written, hwritten, htip, -⟩ := h.exists_written
  rw [← hwritten, follows_append, ← htip] at hfollows
  exact hfollows.2

theorem Adopted.tip_eq_or_before :
    st'.stable.tip = st.stable.tip ∨ st.stable.tip.Before st'.stable.tip := by
  obtain ⟨written, hwritten, htip, -⟩ := h.exists_written
  rw [← hwritten, follows_append] at hfollows
  rcases eq_or_ne written [] with rfl | hne
  · exact .inl htip
  · exact .inr (htip ▸ hfollows.1.before_lastPoint hne)

end

/-- **A block that comes after the tip keeps the state well formed**, and the store does not go
back. -/
theorem WellFormed.rollForward (hstate : st.WellFormed) (hblock : st.Extends block)
    (h : st.rollForward env block = .ok (st', verdict)) :
    st'.WellFormed ∧
      (st'.stable.tip = st.stable.tip ∨ st.stable.tip.Before st'.stable.tip) := by
  obtain ⟨prepared, hprepared, ⟨_, -, rfl, -⟩ | ⟨fragment, -, -, hadopt⟩⟩ := exists_of_rollForward h
  · exact ⟨hstate.prepare hprepared, .inl (congrArg _ (exists_of_prepare hprepared).1)⟩
  have hfollows := (hblock.prepare hprepared).follows (hstate.prepare hprepared).chained fragment
  have hadopted := adopted_of_adopt hadopt hfollows
  refine ⟨⟨hadopted.chained hfollows, .inl hadopted.settled⟩, ?_⟩
  rw [← (exists_of_prepare hprepared).1]
  exact hadopted.tip_eq_or_before hfollows

end State

end Amaru
