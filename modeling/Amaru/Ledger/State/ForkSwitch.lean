import Amaru.Ledger.ReadThrough.Flush
import Amaru.Ledger.State.Steps

/-!
# Switching to a fork that fails

A switch that fails goes back to where it was: it undoes the rollback, and the blocks that were
rolled forward since. For the volatile database this is **exact**, whichever of its series the fork
point is in before and after (`VolatileDB.undoRollback_eq`).

The store cannot be undone. A switch relies on the tip of the store to notice that something was
written, and rolling forward writes without moving the tip in one situation: the fork starts at the
tip of the store, so nothing volatile is left, and its first block crosses a boundary, so nothing
drains before it. The boundary is then written with the first block. **Outside that situation a failed
switch leaves the store alone** (`failed_switch_restores`).
-/

namespace Amaru

open VolatileSeries List VolatileDB Except
open Option hiding any_eq_true

/-! ### Undoing a rollback -/

namespace VolatileSeries

variable {series kept dropped other : VolatileSeries} {point : Point}

theorem hasPoint_mono (h : kept <+: other) (hpoint : kept.hasPoint point = true) :
    other.hasPoint point = true := by
  obtain ⟨newer, rfl⟩ := h
  rw [hasPoint, any_append, Bool.or_eq_true]
  exact .inl hpoint

section

variable (h : series.rollbackTo point = some (kept, dropped))
include h

/-- What a rollback keeps: the series up to the first block at the point. -/
theorem exists_of_rollbackTo :
    ∃ ix, List.findIdx? (·.point = point) kept = some ix ∧ kept.length = ix + 1 ∧
      series = kept ++ dropped := by
  obtain ⟨ix, hix, heq⟩ := map_eq_some_iff.1 h
  cases heq
  have hlt : ix < series.length := (findIdx?_eq_some_iff_getElem.1 hix).1
  refine ⟨ix, ?_, ?_, (take_append_drop _ _).symm⟩
  · rw [findIdx?_take, hix]
    simp
  · rw [length_take]
    omega

theorem ne_nil_of_rollbackTo : kept ≠ [] := by
  obtain ⟨ix, -, hlength, -⟩ := exists_of_rollbackTo h
  exact ne_nil_of_length_eq_add_one hlength

theorem hasPoint_of_rollbackTo : kept.hasPoint point = true := by
  obtain ⟨ix, hix, -, -⟩ := exists_of_rollbackTo h
  rw [hasPoint, any_eq_true]
  obtain ⟨hlt, hpoint, -⟩ := findIdx?_eq_some_iff_getElem.1 hix
  exact ⟨kept[ix], getElem_mem hlt, hpoint⟩

/-- Whatever was added since, undoing a rollback gives the series back. -/
theorem undoRollback_eq (hkeeps : kept <+: other) : other.undoRollback point dropped = some series := by
  obtain ⟨ix, hix, hlength, rfl⟩ := exists_of_rollbackTo h
  obtain ⟨newer, rfl⟩ := hkeeps
  rw [undoRollback, findIdx?_append, hix, some_or, map_some, take_left' hlength]

end

end VolatileSeries

namespace VolatileDB

/-- A volatile database that a rollback left, with blocks added and perhaps a boundary crossed. -/
structure Regrown (db db' : VolatileDB) : Prop where
  sameBase : SameBase db db'
  grown : (db'.draining = db.draining ∧ db.current <+: db'.current) ∨
    (db.draining = [] ∧ db.current <+: db'.draining)

theorem Regrown.refl (db : VolatileDB) : Regrown db db :=
  ⟨SameBase.refl db, .inl ⟨rfl, prefix_rfl⟩⟩

theorem Regrown.pushBack {db db'} (h : Regrown db db') (block : AnchoredVolatileFragment) :
    Regrown db (db'.pushBack block) := by
  refine ⟨⟨h.sameBase.1, h.sameBase.2, h.sameBase.3⟩, ?_⟩
  rcases h.grown with ⟨hdraining, hcurrent⟩ | ⟨hdraining, hcurrent⟩
  · exact .inl ⟨hdraining, hcurrent.trans (prefix_append _ _)⟩
  · exact .inr ⟨hdraining, hcurrent⟩

theorem Regrown.crossed {db db' db''} (h : Regrown db db') (hcrossed : Crossed db' db'') :
    Regrown db db'' := by
  refine ⟨h.sameBase.trans hcrossed.sameBase, .inr ?_⟩
  rw [hcrossed.draining_eq]
  rcases h.grown with ⟨hdraining, hcurrent⟩ | ⟨hdraining, hcurrent⟩
  · exact ⟨hdraining.symm.trans hcrossed.draining_eq_nil, hcurrent⟩
  · -- nothing drained any more, so nothing was kept
    rw [hcrossed.draining_eq_nil, prefix_nil] at hcurrent
    rw [hcurrent]
    exact ⟨hdraining, ⟨_, rfl⟩⟩

variable {recovery : Recovery} {point : Point}

theorem exists_of_rollbackTo {db base : VolatileDB} (h : db.rollbackTo point = some (recovery, base)) :
    (∃ kept drained, db.draining.rollbackTo point = some (kept, drained) ∧
      recovery = .acrossEpoch db.current drained db.overlay ∧
      base = { db with current := kept, draining := [], overlay := db.overlay.rollback }) ∨
    (db.draining.hasPoint point = false ∧
      ∃ kept discarded, db.current.rollbackTo point = some (kept, discarded) ∧
        recovery = .inEpoch discarded db.overlay ∧ base = { db with current := kept }) := by
  rw [rollbackTo] at h
  split_ifs at h with hpoint
  · obtain ⟨⟨kept, drained⟩, hkept, heq⟩ := map_eq_some_iff.1 h
    cases heq
    exact .inl ⟨kept, drained, hkept, rfl, rfl⟩
  · obtain ⟨⟨kept, discarded⟩, hkept, heq⟩ := map_eq_some_iff.1 h
    cases heq
    exact .inr ⟨Bool.not_eq_true _ ▸ hpoint, kept, discarded, hkept, rfl, rfl⟩

/-- **Undoing a rollback gives the volatile database back**, whatever was added since. -/
theorem undoRollback_eq {db base db' : VolatileDB}
    (h : db.rollbackTo point = some (recovery, base)) (hgrown : Regrown base db') :
    db'.undoRollback point recovery = some db := by
  obtain ⟨⟨hparameters, hactivity, hguardrail⟩, hgrown⟩ := hgrown
  rcases exists_of_rollbackTo h with
    ⟨kept, drained, hkept, rfl, rfl⟩ | ⟨hpoint, kept, discarded, hkept, rfl, rfl⟩
  · have hdraining : VolatileSeries.undoRollback
        (if db'.draining.hasPoint point then db'.draining else db'.current) point drained =
          some db.draining := by
      rcases hgrown with ⟨hdraining, hcurrent⟩ | ⟨-, hdraining⟩
      · rw [hdraining]
        exact undoRollback_eq hkept hcurrent
      · rw [if_pos (hasPoint_mono hdraining (hasPoint_of_rollbackTo hkept))]
        exact undoRollback_eq hkept hdraining
    rw [undoRollback, hdraining, map_some, hparameters, hactivity, hguardrail]
  · rw [undoRollback]
    rcases hgrown with ⟨hdraining, hcurrent⟩ | ⟨hdraining, hcurrent⟩
    · have hnot : ¬db'.draining.hasPoint point = true := by
        rw [hdraining]
        exact Bool.not_eq_true _ ▸ hpoint
      simp only [if_neg hnot]
      rw [undoRollback_eq hkept hcurrent, map_some, hparameters, hactivity,
        hguardrail, hdraining]
    · simp only [if_pos (hasPoint_mono hcurrent (hasPoint_of_rollbackTo hkept))]
      rw [undoRollback_eq hkept hcurrent, map_some, hparameters, hactivity, hguardrail]
      exact congrArg (fun draining ↦ some { db with draining }) hdraining.symm

end VolatileDB

namespace State

variable {Body : Type*} {env : Environment Body} {st st' base : State}
  {point fork appliedTip appliedTip' : Point} {outcome : ForkSwitchOutcome}
  {guard : RollbackGuard} {failure : Option InvalidBlock} {block : Block Body}

/-! ### Rolling back -/

theorem isEmpty_rollback (overlay : StateOverlay) : overlay.rollback.isEmpty = true := by
  cases hrewards : overlay.rewards <;> simp [StateOverlay.isEmpty, StateOverlay.rollback,
    RewardsState.rollback, hrewards]

/-- What a rollback within the volatile database leaves. -/
theorem WellFormed.volatileRollbackTo {recovery volatile} (hstate : st.WellFormed)
    (h : st.volatile.rollbackTo point = some (recovery, volatile)) :
    volatile.series.Follows st.stable.tip ∧ volatile.Settled ∧ volatile.current ≠ [] := by
  have hchained := hstate.chained
  rcases exists_of_rollbackTo h with
    ⟨kept, drained, hkept, -, rfl⟩ | ⟨-, kept, discarded, hkept, -, rfl⟩
  · obtain ⟨_, -, -, hdraining⟩ := exists_of_rollbackTo hkept
    rw [Chained, series, hdraining, append_assoc, follows_append] at hchained
    exact ⟨hchained.1, .inl (isEmpty_rollback _), ne_nil_of_rollbackTo hkept⟩
  obtain ⟨_, -, -, hcurrent⟩ := exists_of_rollbackTo hkept
  have hne := ne_nil_of_rollbackTo hkept
  rw [Chained, series, hcurrent, ← append_assoc, follows_append] at hchained
  refine ⟨hchained.1, hstate.pending.resolve_right fun hnil ↦ hne ?_, hne⟩
  rw [hcurrent] at hnil
  exact (append_eq_nil_iff.1 hnil).1

theorem exists_of_rollbackTo (h : st.rollbackTo point = .ok (guard, base)) :
    guard.immutableTip = st.stable.tip ∧ base = { st with volatile := base.volatile } ∧
      ((point = st.stable.tip ∧ guard.kind = .wholeVolatileDB st.volatile ∧
          base.volatile = st.volatile.clear) ∨
        ∃ recovery, st.volatile.rollbackTo point = some (recovery, base.volatile) ∧
          guard.kind = .volatileDBPart point recovery) := by
  rw [rollbackTo] at h
  split_ifs at h with htip
  · cases h
    exact ⟨rfl, rfl, .inl ⟨htip, rfl, rfl⟩⟩
  split at h <;> cases h
  next hroll => exact ⟨rfl, rfl, .inr ⟨_, hroll, rfl⟩⟩

theorem WellFormed.rollbackTo (hstate : st.WellFormed) (h : st.rollbackTo point = .ok (guard, base)) :
    base.WellFormed := by
  obtain ⟨-, hbase, ⟨-, -, hclear⟩ | ⟨_, hroll, -⟩⟩ := exists_of_rollbackTo h
  · refine ⟨?_, .inr (by rw [hclear]; rfl)⟩
    rw [Chained, hclear]
    exact List.IsChain.singleton _
  · obtain ⟨hfollows, hsettled, -⟩ := hstate.volatileRollbackTo hroll
    refine ⟨?_, .inl hsettled⟩
    rw [Chained, hbase]
    exact hfollows

/-! ### Rolling forward with the fork -/

/-- Nothing was written since the rollback. -/
structure Replayed (base st : State) : Prop where
  stable_eq : st.stable = base.stable
  regrown : base.volatile.Regrown st.volatile

theorem Replayed.prepare (hreplayed : Replayed base st)
    (h : st.prepare env block = .ok st') : Replayed base st' := by
  obtain ⟨hstable, -, _, -, hvolatile⟩ := exists_of_prepare h
  refine ⟨hstable.trans hreplayed.stable_eq, ?_⟩
  rcases hvolatile with ⟨-, heq⟩ | ⟨-, hcrossed⟩
  · rw [heq]
    exact hreplayed.regrown
  · exact hreplayed.regrown.crossed hcrossed

variable {blocks : List (Block Body)}

/-- Blocks are rolled forward one by one until one is invalid. -/
theorem exists_of_replay_cons
    (h : st.replay env appliedTip (block :: blocks) = .ok (st', appliedTip', failure)) :
    (∃ next, st.rollForward env block = .ok (next, .valid) ∧
      next.replay env block.point blocks = .ok (st', appliedTip', failure)) ∨
    (∃ invalid, failure = some invalid ∧ appliedTip' = appliedTip ∧
      st.rollForward env block = .ok (st', .invalid invalid)) := by
  obtain ⟨⟨next, verdict⟩, hnext, h⟩ := bind_eq_ok_iff.1 h
  cases verdict with
  | valid => exact .inl ⟨next, hnext, h⟩
  | invalid invalid =>
    obtain ⟨rfl, hrest⟩ := Prod.mk.inj (ok.inj h)
    exact .inr ⟨invalid, (Prod.mk.inj hrest).2.symm, (Prod.mk.inj hrest).1.symm, hnext⟩

/-- **The rule for replaying a fork.** What every block keeps that is rolled forward holds at the end. -/
@[elab_as_elim]
theorem replay_invariant {condition : State → Block Body → Prop} {P : State → Prop}
    (h : st.replay env appliedTip blocks = .ok (st', appliedTip', failure))
    (hblocks : Admits env condition st blocks) (hP : P st)
    (step : ∀ st block st' verdict, P st → condition st block →
      st.rollForward env block = .ok (st', verdict) → P st') : P st' := by
  induction blocks generalizing st appliedTip with
  | nil =>
    obtain rfl := (Prod.mk.inj (ok.inj h)).1
    exact hP
  | cons block blocks ih =>
    rcases exists_of_replay_cons h with ⟨next, hnext, h⟩ | ⟨_, -, -, h⟩
    · exact ih h (hblocks.2 next hnext) (step _ _ _ _ hP hblocks.1 hnext)
    · exact step _ _ _ _ hP hblocks.1 h

/-- The blocks of a fork keep the state well formed, and the store does not go back. -/
theorem WellFormed.replay (hstate : st.WellFormed) (hblocks : Admits env Extends st blocks)
    (h : st.replay env appliedTip blocks = .ok (st', appliedTip', failure)) :
    st'.WellFormed ∧
      (st'.stable.tip = st.stable.tip ∨ st.stable.tip.Before st'.stable.tip) := by
  refine replay_invariant h hblocks ⟨hstate, .inl rfl⟩ ?_
  rintro current block next _ ⟨hcurrent, htip⟩ hblock h
  obtain ⟨hnext, htip'⟩ := hcurrent.rollForward hblock h
  refine ⟨hnext, ?_⟩
  rcases htip with heq | hbefore <;> rcases htip' with heq' | hbefore'
  · exact .inl (heq'.trans heq)
  · exact .inr (heq ▸ hbefore')
  · exact .inr (heq'.symm ▸ hbefore)
  · exact .inr (hbefore.trans hbefore')

/-- The block does not cross a boundary that nothing drains before. -/
def DrainsFirst (env : Environment Body) (st : State) (block : Block Body) : Prop :=
  st.volatile.Settled ∧ (st.volatile.current ≠ [] ∨
    ∀ epoch, env.epochOf block.slot = .ok epoch → epoch ≤ st.volatile.epoch)

/-- **One valid block of the fork.** If the tip of the store stays, so does the store, and the next
block cannot make a difference either. -/
theorem Replayed.rollForward (hreplayed : Replayed base st)
    (hstate : st.WellFormed) (hblock : st.Extends block) (hdrains : DrainsFirst env st block)
    (h : st.rollForward env block = .ok (st', .valid))
    (htip : st'.stable.tip = st.stable.tip) :
    Replayed base st' ∧ st'.volatile.Settled ∧ st'.volatile.current ≠ [] := by
  obtain ⟨prepared, fragment, hprepared, hfollows, -, hadopted⟩ := hblock.exists_of_valid hstate h
  have hreplayed' := hreplayed.prepare hprepared
  obtain ⟨hstable, -, epoch, hepoch, hvolatile⟩ := exists_of_prepare hprepared
  have hsettled : prepared.volatile.Settled := by
    rcases hvolatile with ⟨-, heq⟩ | ⟨hlater, hcrossed⟩
    · rw [heq]
      exact hdrains.1
    · rcases hdrains.2 with hcurrent | hnever
      · exact .inr (hcrossed.draining_eq ▸ hcurrent)
      · exact absurd hlater (Nat.not_lt.2 (hnever epoch hepoch))
  obtain ⟨written, hwritten, htip', hunwritten⟩ := hadopted.exists_written
  obtain rfl : written = [] := by
    by_contra hne
    rw [← hwritten, follows_append] at hfollows
    refine (hfollows.1.before_lastPoint hne).ne ?_
    rw [← htip', htip, hstable]
  obtain ⟨hstable', hvolatile'⟩ := hunwritten rfl hsettled
  obtain ⟨kept, -, hcurrent⟩ := hadopted.exists_current
  refine ⟨⟨hstable'.trans hreplayed'.stable_eq, ?_⟩, hadopted.settled, ?_⟩
  · rw [hvolatile']
    exact hreplayed'.regrown.pushBack _
  · rw [hcurrent]
    exact append_ne_nil_of_right_ne_nil _ (cons_ne_nil _ _)

/-- **The blocks of a fork, up to the one that is invalid.** If the tip of the store stays, so does
the store. The invalid block is never recorded, so only a first block that is valid has to wait. -/
theorem Replayed.replay {failure} (hreplayed : Replayed base st) (hstate : st.WellFormed)
    (hblocks : Admits env Extends st blocks)
    (hdrains : ∀ block ∈ blocks.head?, ∀ next, st.rollForward env block = .ok (next, .valid) →
      DrainsFirst env st block)
    (h : st.replay env appliedTip blocks = .ok (st', appliedTip', some failure))
    (htip : st'.stable.tip = st.stable.tip) : Replayed base st' := by
  induction blocks generalizing st appliedTip with
  | nil => cases (Prod.mk.inj (Prod.mk.inj (ok.inj h)).2).2
  | cons block blocks ih =>
    rcases exists_of_replay_cons h with ⟨next, hnext, h⟩ | ⟨_, -, -, h⟩
    · obtain ⟨hwellFormed, hmoved⟩ := hstate.rollForward hblocks.1 hnext
      have hmoved' := (hwellFormed.replay (hblocks.2 next hnext) h).2
      have hstays : next.stable.tip = st.stable.tip := by
        refine hmoved.resolve_right fun hbefore ↦ ?_
        rcases hmoved' with heq | hbefore'
        · exact hbefore.ne (htip.symm.trans heq)
        · exact (hbefore.trans hbefore').ne htip.symm
      obtain ⟨hreplayed', hsettled, hcurrent⟩ :=
        hreplayed.rollForward hstate hblocks.1 (hdrains block rfl next hnext) hnext hstays
      exact ih hreplayed' hwellFormed (hblocks.2 next hnext)
        (fun _ _ _ _ ↦ ⟨hsettled, .inl hcurrent⟩) h (htip.trans hstays.symm)
    · obtain ⟨prepared, hprepared, ⟨_, -, rfl, -⟩ | ⟨_, hvalid, -⟩⟩ := exists_of_rollForward h
      · exact hreplayed.prepare hprepared
      · cases hvalid

/-! ### The blocks of a fork -/

theorem Adopted.tip_eq {block} (h : Adopted st block st') :
    st'.tip = block.point := by
  obtain ⟨kept, -, hcurrent⟩ := h.exists_current
  rw [tip, viewBack, hcurrent, getLast?_concat]
  rfl

/-- Blocks that follow one another come after the tip, each in its turn. -/
theorem admits_extends (hstate : st.WellFormed)
    (hblocks : List.IsChain Point.Before (st.tip :: blocks.map Block.point)) :
    Admits env Extends st blocks := by
  induction blocks generalizing st with
  | nil => trivial
  | cons block blocks ih =>
    obtain ⟨hblock, hblocks⟩ := isChain_cons_cons.1 hblocks
    refine ⟨hblock, fun next h ↦ ih (hstate.rollForward hblock h).1 ?_⟩
    obtain ⟨_, _, -, -, -, hadopted⟩ := Extends.exists_of_valid hblock hstate h
    rw [hadopted.tip_eq]
    exact hblocks

theorem tip_of_rollbackTo (h : st.rollbackTo point = .ok (guard, base)) : base.tip = point := by
  have hlast : ∀ {series kept dropped : VolatileSeries},
      series.rollbackTo point = some (kept, dropped) → ∃ init block, kept = init ++ [block] ∧
        block.point = point := by
    intro series kept dropped h
    obtain ⟨ix, hix, hlength, -⟩ := VolatileSeries.exists_of_rollbackTo h
    obtain ⟨hlt, hpoint, -⟩ := findIdx?_eq_some_iff_getElem.1 hix
    refine ⟨kept.take ix, kept[ix], ?_, of_decide_eq_true hpoint⟩
    rw [← take_succ_eq_append_getElem hlt, ← hlength, take_length]
  obtain ⟨-, hbase, ⟨htip, -, hclear⟩ | ⟨_, hroll, -⟩⟩ := exists_of_rollbackTo h
  · rw [tip, hclear, hbase, htip]
    rfl
  rw [tip]
  rcases VolatileDB.exists_of_rollbackTo hroll with
    ⟨kept, _, hkept, -, heq⟩ | ⟨-, kept, _, hkept, -, heq⟩ <;>
  · obtain ⟨init, block, rfl, hpoint⟩ := hlast hkept
    rw [VolatileDB.viewBack, heq, getLast?_concat]
    exact hpoint

/-! ### Failed switches -/

/-- The switch reports that it failed. -/
def ForkSwitchOutcome.ReportsFailure : ForkSwitchOutcome → Prop
  | failed _ | invalidForkLength _ _ => True
  | completed | partiallyApplied _ _ => False

/-- The fork starts at the tip of the store, and its length is accepted; its first block is valid and beyond
a boundary, and a later one is invalid. -/
def CrossesFirst (env : Environment Body) (st : State) (fork : Point)
    (blocks : List (Block Body)) : Prop :=
  fork = st.stable.tip ∧ st.volatile.length ≤ blocks.length ∧ blocks.length ≤ st.volatile.length + 1 ∧
    ∃ first rest epoch next, blocks = first :: rest ∧ env.epochOf first.slot = .ok epoch ∧
      st.volatile.clear.epoch < epoch ∧
      { st with volatile := st.volatile.clear }.rollForward env first = .ok (next, .valid) ∧
      ∃ replayed appliedTip invalid,
        next.replay env first.point rest = .ok (replayed, appliedTip, some invalid)

/-- Undoing a rollback after blocks that were not written. -/
theorem eq_of_recover {replayed : State} (hroll : st.rollbackTo point = .ok (guard, base))
    (hreplayed : point ≠ st.stable.tip → base.volatile.Regrown replayed.volatile)
    (h : replayed.recover guard = .ok st') :
    st' = { replayed with volatile := st.volatile } := by
  rw [recover] at h
  split_ifs at h
  obtain ⟨-, -, ⟨-, hkind, -⟩ | ⟨recovery, hpart, hkind⟩⟩ := exists_of_rollbackTo hroll
  · rw [hkind] at h
    exact (ok.inj h).symm
  have hpoint : point ≠ st.stable.tip := by
    rintro rfl
    rw [State.rollbackTo, if_pos rfl] at hroll
    cases hroll
    cases hkind
  simp only [hkind, undoRollback_eq hpart (hreplayed hpoint)] at h
  exact (ok.inj h).symm

/-- A state a rollback left is ready for the first block of the fork, unless that one crosses a
boundary with nothing draining before it. -/
theorem WellFormed.drainsFirst {first next replayed appliedTip invalid} (hstate : st.WellFormed)
    (hroll : st.rollbackTo point = .ok (guard, base))
    (hle : guard.kind.rollbackLength ≤ (first :: blocks).length)
    (hlength : (first :: blocks).length ≤ guard.kind.rollbackLength + 1)
    (hcrosses : ¬CrossesFirst env st point (first :: blocks))
    (hnext : base.rollForward env first = .ok (next, .valid))
    (hreplay : next.replay env first.point blocks = .ok (replayed, appliedTip, some invalid)) :
    DrainsFirst env base first := by
  obtain ⟨-, hbase, ⟨htip, hkind, hclear⟩ | ⟨recovery, hpart, -⟩⟩ := exists_of_rollbackTo hroll
  · rw [hkind, StateRecovery.rollbackLength] at hle hlength
    refine ⟨.inl ?_, .inr fun epoch hepoch ↦ ?_⟩
    · -- at least one block was rolled back, so no boundary was pending without draining blocks
      obtain - | ⟨second, rest⟩ := blocks
      · cases (Prod.mk.inj (Prod.mk.inj (ok.inj hreplay)).2).2
      rw [VolatileDB.length] at hlength
      rw [hclear, clear]
      split_ifs with hdraining
      · refine (hstate.pending.resolve_right fun hcurrent ↦ ?_).resolve_right (absurd hdraining)
        rw [hdraining, hcurrent] at hlength
        simp at hlength
      · exact isEmpty_rollback _
    · rw [hclear]
      rw [hbase, hclear] at hnext
      exact Nat.not_lt.1 fun hlater ↦ hcrosses
        ⟨htip, hle, hlength, first, blocks, epoch, next, rfl, hepoch, hlater, hnext, _, _, _, hreplay⟩
  · obtain ⟨-, hsettled, hcurrent⟩ := hstate.volatileRollbackTo hpart
    exact ⟨hsettled, .inl hcurrent⟩

theorem switch_cases (h : st.switchToFork env fork blocks = .ok (st', outcome)) :
    ∃ guard base, st.rollbackTo fork = .ok (guard, base) ∧
      ((outcome = .invalidForkLength guard.kind.rollbackLength blocks.length ∧
          base.recover guard = .ok st') ∨
        guard.kind.rollbackLength ≤ blocks.length ∧
        blocks.length ≤ guard.kind.rollbackLength + 1 ∧
        ∃ replayed appliedTip failure,
          base.replay env guard.immutableTip blocks = .ok (replayed, appliedTip, failure) ∧
          ((failure = none ∧ outcome = .completed ∧ st' = replayed) ∨
            ∃ invalid, failure = some invalid ∧
              ((replayed.stable.tip = guard.immutableTip ∧ outcome = .failed invalid ∧
                  replayed.recover guard = .ok st') ∨
                (replayed.stable.tip ≠ guard.immutableTip ∧
                  outcome = .partiallyApplied appliedTip invalid ∧ st' = replayed)))) := by
  obtain ⟨⟨guard, base⟩, hroll, h⟩ := bind_eq_ok_iff.1 h
  refine ⟨guard, base, hroll, ?_⟩
  dsimp only at h
  split_ifs at h with hlength
  · obtain ⟨recovered, hrecovered, heq⟩ := map_eq_ok_iff.1 h
    cases heq
    exact .inl ⟨rfl, hrecovered⟩
  obtain ⟨⟨replayed, appliedTip, failure⟩, hreplayed, h⟩ := bind_eq_ok_iff.1 h
  refine .inr ⟨by omega, by omega, replayed, appliedTip, failure, hreplayed, ?_⟩
  rcases failure with - | invalid
  · cases h
    exact .inl ⟨rfl, rfl, rfl⟩
  refine .inr ⟨invalid, rfl, ?_⟩
  dsimp only at h
  split_ifs at h with htip
  · obtain ⟨recovered, hrecovered, heq⟩ := map_eq_ok_iff.1 h
    cases heq
    exact .inl ⟨htip, rfl, hrecovered⟩
  · cases h
    exact .inr ⟨htip, rfl, rfl⟩

/-- Unless a switch fails, the blocks of the fork stay. -/
theorem exists_replay_of_switchToFork (h : st.switchToFork env fork blocks = .ok (st', outcome))
    (hfailure : ¬outcome.ReportsFailure) :
    ∃ guard base appliedTip failure, st.rollbackTo fork = .ok (guard, base) ∧
      base.replay env guard.immutableTip blocks = .ok (st', appliedTip, failure) := by
  obtain ⟨guard, base, hroll, ⟨rfl, -⟩ | ⟨-, -, replayed, appliedTip, failure, hreplay, hend⟩⟩ :=
    switch_cases h
  · exact absurd trivial hfailure
  rcases hend with ⟨-, -, rfl⟩ | ⟨_, -, ⟨-, rfl, -⟩ | ⟨-, -, rfl⟩⟩
  · exact ⟨_, _, _, _, hroll, hreplay⟩
  · exact absurd trivial hfailure
  · exact ⟨_, _, _, _, hroll, hreplay⟩

section

variable (hstate : st.WellFormed)
  (hblocks : ∀ guard base, st.rollbackTo fork = .ok (guard, base) → Admits env Extends base blocks)
  (h : st.switchToFork env fork blocks = .ok (st', outcome))
include hstate hblocks h

/-- **A failed switch**: the volatile database is back, the tip of the store has not moved, and if the
fork does not start with a valid block over a boundary at the tip of the store, neither has the store. -/
theorem WellFormed.failedSwitch (hfailure : outcome.ReportsFailure) :
    st'.volatile = st.volatile ∧ st'.stable.tip = st.stable.tip ∧
      (¬CrossesFirst env st fork blocks → st'.stable = st.stable) := by
  obtain ⟨guard, base, hroll, hend⟩ := switch_cases h
  obtain ⟨himmutable, hbase, -⟩ := exists_of_rollbackTo hroll
  have hstable : base.stable = st.stable := by rw [hbase]
  rcases hend with ⟨-, hrecover⟩ | ⟨hle, hlength, replayed, _, failure, hreplay, hend⟩
  · rw [eq_of_recover hroll (fun _ ↦ .refl _) hrecover]
    exact ⟨rfl, congrArg _ hstable, fun _ ↦ hstable⟩
  rcases hend with ⟨-, rfl, -⟩ | ⟨invalid, rfl, ⟨htip, -, hrecover⟩ | ⟨-, rfl, -⟩⟩
  · exact hfailure.elim
  swap
  · exact hfailure.elim
  have hreplayed : ¬CrossesFirst env st fork blocks → Replayed base replayed := by
    intro hcrosses
    refine Replayed.replay ⟨rfl, .refl _⟩ (hstate.rollbackTo hroll) (hblocks _ _ hroll)
      (fun first hfirst next hnext ↦ ?_) hreplay (by rw [htip, himmutable, hstable])
    obtain ⟨rest, rfl⟩ := head?_eq_some_iff.1 hfirst
    rcases exists_of_replay_cons hreplay with ⟨next', hnext', hrest⟩ | ⟨_, -, -, hinvalid⟩
    · exact hstate.drainsFirst hroll hle hlength hcrosses hnext' hrest
    · cases hnext.symm.trans hinvalid
  have hpart : fork ≠ st.stable.tip → base.volatile.Regrown replayed.volatile :=
    fun hpoint ↦ (hreplayed fun hcrosses ↦ hpoint hcrosses.1).regrown
  rw [eq_of_recover hroll hpart hrecover]
  exact ⟨rfl, htip.trans himmutable, fun hcrosses ↦ (hreplayed hcrosses).stable_eq.trans hstable⟩

theorem WellFormed.switchToFork : st'.WellFormed := by
  by_cases hfailure : outcome.ReportsFailure
  · obtain ⟨hvolatile, htip, -⟩ := hstate.failedSwitch hblocks h hfailure
    refine ⟨?_, ?_⟩
    · rw [Chained, hvolatile, htip]
      exact hstate.chained
    · rw [hvolatile]
      exact hstate.pending
  · obtain ⟨_, _, _, _, hroll, hreplay⟩ := exists_replay_of_switchToFork h hfailure
    exact ((hstate.rollbackTo hroll).replay (hblocks _ _ hroll) hreplay).1

end

/-- **Every state of a run is well formed**, if the blocks come after the tip. -/
theorem Reachable.wellFormed (h : Reachable env Extends st) : st.WellFormed := by
  induction h with
  | start h => exact wellFormed_new h
  | rollForward _ hblock h ih => exact (ih.rollForward hblock h).1
  | switchToFork _ hblocks h ih => exact ih.switchToFork hblocks h

/-- **A switch to a fork that fails leaves everything as it was**, in every state of a run, unless the
fork starts at the tip of the store, its first block is valid and crosses a boundary, and a later one is
invalid. -/
theorem failed_switch_restores (hstate : Reachable env Extends st)
    (hblocks : List.IsChain Point.Before (fork :: blocks.map Block.point))
    (hcrosses : ¬CrossesFirst env st fork blocks)
    (h : st.switchToFork env fork blocks = .ok (st', outcome))
    (hfailure : outcome.ReportsFailure) :
    st'.volatile = st.volatile ∧ st'.stable = st.stable := by
  have hadmits : ∀ guard base, st.rollbackTo fork = .ok (guard, base) →
      Admits env Extends base blocks := by
    intro guard base hroll
    refine admits_extends (hstate.wellFormed.rollbackTo hroll) ?_
    rw [tip_of_rollbackTo hroll]
    exact hblocks
  obtain ⟨hvolatile, -, hstable⟩ := hstate.wellFormed.failedSwitch hadmits h hfailure
  exact ⟨hvolatile, hstable hcrosses⟩

/-! ### A small ledger -/

/-- Rules that ask the body of a block whether it is valid, over epochs of ten slots; nobody earns
rewards, and a block is stable two blocks later. -/
def tenSlots : Environment Bool where
  eraHistory := ProposalsForest.tenSlotEpochs
  consensusSecurityParam := 2
  stabilityWindow := 0
  maxExtraLedgerSnapshots := 0
  validateBlock _ _ block :=
    .ok (if block.body then .ok {} else .error { tip := block.point, reason := "invalid" })
  computeStakeDistribution epoch _ :=
    .ok { epoch, poolsVotingStake := 0, pools := ∅, dreps := ∅, ccUpdate := none }
  computeRewards _ _ _ _ :=
    .ok { deltaReserves := 0
          deltaTreasury := 0
          totalRewards := 0
          accounts := ∅
          poolsOwners := ∅ }

/-- A block of the small ledger. -/
def blockAt (slot : ℕ) (valid : Bool) : Block Bool :=
  { slot, hash := slot, height := slot, issuer := 0, body := valid }

/-- A store in the third epoch, with some fees. -/
def thirdEpoch : Store :=
  { blankStore with
    tip := .specific 32 32 32
    protocolParameters := { (default : ProtocolParameters) with protocolVersion := ⟨10, 0⟩ }
    pots := { treasury := 0, reserves := 0, fees := 7, donations := 0 } }

/-- The snapshots of the epochs before. -/
def thirdEpochSnapshots : SortedMap ℕ Store :=
  .ofList [(0, blankStore), (1, blankStore), (2, blankStore)]

theorem failed_switch_restores_in_epoch : ∃ ledger ledger' failure,
    Reachable tenSlots Extends ledger ∧ ledger.volatile.current.length = 1 ∧
    ledger.switchToFork tenSlots (.specific 32 32 32) [blockAt 36 true, blockAt 37 false] =
      .ok (ledger', .failed failure) ∧
    ledger'.volatile = ledger.volatile ∧ ledger'.stable = ledger.stable := by
  have hreachable : Reachable tenSlots Extends _ :=
    .rollForward (.start (rfl : State.new tenSlots thirdEpoch thirdEpochSnapshots = _))
      (by decide : 32 < (blockAt 35 true).slot) rfl
  have hfork : List.IsChain Point.Before
      (.specific 32 32 32 :: [blockAt 36 true, blockAt 37 false].map Block.point) :=
    .cons_cons (by decide : 32 < 36) (.cons_cons (by decide : 36 < 37) (.singleton _))
  refine ⟨_, _, _, hreachable, rfl, rfl, failed_switch_restores hreachable hfork ?_ rfl ?_⟩
  · rintro ⟨-, -, -, first, rest, epoch, next, hblocks, hepoch, hlater, -⟩
    cases hblocks
    cases hepoch
    exact absurd hlater (by decide)
  · trivial

/-- **A failed switch writes a boundary.** The fork starts at the tip of the store, its first block is
valid and in the next epoch, and its second block is invalid. The switch reports that it failed; the
fees of the epoch are gone from the store. -/
theorem failed_switch_writes_boundary : ∃ started ledger ledger',
    State.new tenSlots thirdEpoch thirdEpochSnapshots = .ok started ∧
    started.rollForward tenSlots (blockAt 35 true) = .ok (ledger, .valid) ∧
    ledger.switchToFork tenSlots (.specific 32 32 32) [blockAt 41 true, blockAt 42 false] =
      .ok (ledger', .failed { tip := (blockAt 42 false).point, reason := "invalid" }) ∧
    ledger.stable.pots.fees = 7 ∧ ledger'.stable.pots.fees = 0 :=
  ⟨_, _, _, rfl, rfl, rfl, rfl, rfl⟩

end State

end Amaru
