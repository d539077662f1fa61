import Amaru.Ledger.State.Chain

/-!
# What the ledger writes

The store after each write that is made while a block is rolled forward: one for each block that becomes
stable, and those of a boundary. A crash leaves the store before the first of them, or after any one,
**also when the call fails later on**.

Without a forced boundary the tip of the store only moves to the block that is pushed out of the volatile
window, so that **the window behind it is full** (`tip_of_mem_replayWrites`).
-/

namespace Amaru

open List Except StateOverlay AnchoredVolatileFragment Option

namespace State

variable {Body : Type*} {env : Environment Body} {st st' : State} {stable : Store}
  {block : AnchoredVolatileFragment} {fork : Point} {guard : RollbackGuard}
  {writes : List Store}

/-- The store after each of the blocks, up to the first error. -/
def blocksWrites (env : Environment Body) : State → VolatileSeries → List Store
  | _, [] => []
  | st, block :: blocks => match st.applyBlock env block with
    | .error _ => []
    | .ok st => st.stable :: blocksWrites env st blocks

/-- The store after each write of a boundary: the end of the epoch, the snapshot, the beginning of the
next one. -/
def boundaryWrites (st : State) : List Store :=
  match st.volatile.overlay.endEpoch st.stable with
  | .error _ => []
  | .ok ended => ended :: (takeSnapshot ended).1 ::
    match st.volatile.overlay.beginEpoch (takeSnapshot ended).1 with
    | .error _ => []
    | .ok stable => [stable]

section

variable (env : Environment Body)

/-- The store after each write of `applyTransition`. -/
def transitionWrites (st : State) : List Store :=
  if st.volatile.isEpochTransitionStable env.eraHistory env.stabilityWindow then
    let drained := { st with volatile := { st.volatile with draining := [] } }
    blocksWrites env drained st.volatile.draining ++
      match st.volatile.draining.foldlM (applyBlock env) drained with
      | .error _ => []
      | .ok st => st.boundaryWrites
  else []

/-- The store after each write of `adopt`. -/
def adoptWrites (st : State) (block : AnchoredVolatileFragment) : List Store :=
  match st.pushFragment env block with
  | .error _ => []
  | .ok (nowStable, st) => blocksWrites env st nowStable.toList ++
    match nowStable.elim (.ok st) (st.applyBlock env) with
    | .error _ => []
    | .ok st => st.transitionWrites env

/-- The store after each write of `rollForward`. -/
def rollForwardWrites (st : State) (block : Block Body) : List Store :=
  match st.prepare env block with
  | .error _ => []
  | .ok st => match env.validateBlock st.volatile st.stable block with
    | .ok (.ok fragment) => st.adoptWrites env (block.anchor fragment)
    | _ => []

/-- The store after each write of `replay`. -/
def replayWrites (env : Environment Body) : State → List (Block Body) → List Store
  | _, [] => []
  | st, block :: blocks => st.rollForwardWrites env block ++ match st.rollForward env block with
    | .ok (st, .valid) => replayWrites env st blocks
    | _ => []

/-- The store after each write of `switchToFork`. -/
def switchToForkWrites (st : State) (fork : Point) (blocks : List (Block Body)) : List Store :=
  match st.rollbackTo fork with
  | .error _ => []
  | .ok (guard, rolledBack) =>
    if blocks.length < guard.kind.rollbackLength ∨ guard.kind.rollbackLength + 1 < blocks.length then []
    else rolledBack.replayWrites env blocks

end

/-! ### The last write -/

/-- One of the stores is the last one, or nothing was written. -/
def EndsAt (before : Store) (writes : List Store) (after : Store) : Prop :=
  (before :: writes).getLast? = some after

theorem EndsAt.append {before between after writes'} (h : EndsAt before writes between)
    (h' : EndsAt between writes' after) :
    EndsAt before (writes ++ writes') after := by
  rcases writes' with - | ⟨first, writes'⟩
  · rw [append_nil, ← some.inj h']
    exact h
  · rw [EndsAt, getLast?_cons_cons] at h'
    rw [EndsAt, ← cons_append, getLast?_append, h']
    rfl

theorem EndsAt.mem {before after : Store} (h : EndsAt before writes after) :
    after = before ∨ after ∈ writes :=
  mem_cons.1 (mem_of_getLast? h)

theorem endsAt_blocksWrites {blocks} (h : blocks.foldlM (applyBlock env) st = .ok st') :
    EndsAt st.stable (blocksWrites env st blocks) st'.stable := by
  induction blocks generalizing st with
  | nil => cases h; rfl
  | cons block blocks ih =>
    obtain ⟨next, hnext, h⟩ := bind_eq_ok_iff.1 h
    rw [blocksWrites, hnext]
    exact ih h

theorem endsAt_boundaryWrites (h : st.writeTransition = .ok st') :
    EndsAt st.stable st.boundaryWrites st'.stable := by
  obtain ⟨ended, hended, h⟩ := bind_eq_ok_iff.1 h
  obtain ⟨stable, hstable, h⟩ := bind_eq_ok_iff.1 h
  cases h
  simp only [boundaryWrites, hended, hstable]
  rfl

theorem endsAt_transitionWrites (h : st.applyTransition env = .ok st') :
    EndsAt st.stable (st.transitionWrites env) st'.stable := by
  rw [applyTransition] at h
  rw [transitionWrites]
  split_ifs at h ⊢
  · obtain ⟨drained, hdrained, h⟩ := bind_eq_ok_iff.1 h
    obtain ⟨written, hwritten, h⟩ := bind_eq_ok_iff.1 h
    simp only [hdrained]
    refine (endsAt_blocksWrites hdrained).append ?_
    rw [pruneSnapshots] at h
    split_ifs at h
    cases h
    exact (endsAt_boundaryWrites hwritten : EndsAt _ _ written.stable)
  · cases h
    rfl

theorem endsAt_adoptWrites (h : st.adopt env block = .ok st') :
    EndsAt st.stable (st.adoptWrites env block) st'.stable := by
  obtain ⟨⟨nowStable, pushed⟩, hpushed, h⟩ := bind_eq_ok_iff.1 h
  obtain ⟨volatile, rfl, -⟩ := exists_of_pushFragment hpushed
  obtain ⟨applied, happlied, h⟩ := bind_eq_ok_iff.1 h
  simp only [adoptWrites, hpushed, happlied]
  have hfold : nowStable.toList.foldlM (applyBlock env) { st with volatile } = .ok applied := by
    rcases nowStable with - | oldest
    · exact happlied
    · exact bind_eq_ok_iff.2 ⟨applied, happlied, rfl⟩
  exact (endsAt_blocksWrites hfold).append (endsAt_transitionWrites h)

/-- **The last write of rolling forward** leaves the store as the call returns it. -/
theorem endsAt_rollForwardWrites {block verdict} (h : st.rollForward env block = .ok (st', verdict)) :
    EndsAt st.stable (st.rollForwardWrites env block) st'.stable := by
  obtain ⟨prepared, hprepared, h⟩ := bind_eq_ok_iff.1 h
  obtain ⟨result, hresult, h⟩ := bind_eq_ok_iff.1 h
  rw [← (exists_of_prepare hprepared).1]
  simp only [rollForwardWrites, hprepared, hresult]
  rcases result with failure | fragment
  · cases h
    rfl
  · obtain ⟨adopted, hadopted, heq⟩ := map_eq_ok_iff.1 h
    cases heq
    exact endsAt_adoptWrites hadopted

variable {blocks : List (Block Body)}

theorem endsAt_replayWrites {tip appliedTip failure}
    (h : st.replay env tip blocks = .ok (st', appliedTip, failure)) :
    EndsAt st.stable (st.replayWrites env blocks) st'.stable := by
  induction blocks generalizing st tip with
  | nil => cases h; rfl
  | cons block blocks ih =>
    obtain ⟨⟨next, verdict⟩, hnext, h⟩ := bind_eq_ok_iff.1 h
    simp only [replayWrites, hnext]
    refine (endsAt_rollForwardWrites hnext).append ?_
    cases verdict with
    | valid => exact ih h
    | invalid failure =>
      cases h
      rfl

theorem stable_of_recover (h : st.recover guard = .ok st') : st'.stable = st.stable := by
  rw [recover] at h
  split_ifs at h
  split at h
  · cases h
    rfl
  · split at h <;> cases h
    rfl

/-- **The last write of a switch** leaves the store as the call returns it. -/
theorem endsAt_switchToForkWrites {outcome}
    (h : st.switchToFork env fork blocks = .ok (st', outcome)) :
    EndsAt st.stable (st.switchToForkWrites env fork blocks) st'.stable := by
  obtain ⟨⟨guard, base⟩, hroll, h⟩ := bind_eq_ok_iff.1 h
  simp only [switchToForkWrites, hroll]
  rw [← stable_of_rollbackTo hroll]
  dsimp only at h
  split_ifs at h ⊢
  · obtain ⟨recovered, hrecovered, heq⟩ := map_eq_ok_iff.1 h
    cases heq
    exact congrArg some (stable_of_recover hrecovered).symm
  obtain ⟨⟨replayed, appliedTip, failure⟩, hreplayed, h⟩ := bind_eq_ok_iff.1 h
  have hends := endsAt_replayWrites hreplayed
  rcases failure with - | invalid
  · cases h
    exact hends
  dsimp only at h
  split_ifs at h
  · obtain ⟨recovered, hrecovered, heq⟩ := map_eq_ok_iff.1 h
    cases heq
    rw [stable_of_recover hrecovered]
    exact hends
  · cases h
    exact hends

/-! ### Where the tip of the store moves -/

theorem tip_of_mem_boundaryWrites (h : stable ∈ st.boundaryWrites) : stable.tip = st.stable.tip := by
  rw [boundaryWrites] at h
  split at h
  · cases h
  rename_i ended hended
  have htip := tip_of_endEpoch hended
  simp only [mem_cons] at h
  rcases h with rfl | rfl | h
  · exact htip
  · rw [takeSnapshot]
    split_ifs <;> exact htip
  split at h
  · cases h
  · next hbegun =>
    rw [mem_singleton.1 h]
    exact tip_of_apply (bind_eq_ok_iff.2 ⟨ended, hended, hbegun⟩)

/-- A boundary that is written with nothing draining leaves the tip. -/
theorem tip_of_mem_transitionWrites (hcalm : st.volatile.draining = [] ∨
      ¬env.stabilityWindow ≤ env.eraHistory.slotInEpochOrDefault
        ((st.volatile.current.getLast?.map (·.point.slotOrDefault)).getD 0))
    (h : stable ∈ st.transitionWrites env) : stable.tip = st.stable.tip := by
  rw [transitionWrites] at h
  split_ifs at h with hstable
  · rw [VolatileDB.isEpochTransitionStable, Bool.and_eq_true, Bool.or_eq_true, List.isEmpty_iff,
      decide_eq_true_iff] at hstable
    have hnil : st.volatile.draining = [] := hcalm.elim id fun hnot ↦ hstable.2.resolve_right hnot
    simp only [hnil, blocksWrites, nil_append, foldlM_nil] at h
    exact tip_of_mem_boundaryWrites h
  · cases h

/-- Without a forced boundary, the tip moves to the block that is pushed out. -/
theorem tip_of_mem_adoptWrites (hfollows : (st.volatile.series ++ [block]).Follows st.stable.tip)
    (hcalm : env.stabilityWindow ≤ env.eraHistory.slotInEpochOrDefault block.point.slotOrDefault →
      st.volatile.draining = []) (h : stable ∈ st.adoptWrites env block) :
    (st.chain ++ [block.point])[
      if env.consensusSecurityParam ≤ st.volatile.length then 1 else 0]? = some stable.tip := by
  rw [adoptWrites] at h
  split at h
  · cases h
  rename_i nowStable _ hpushed
  obtain ⟨volatile, rfl, -, hlength, hseries, -, hdraining, kept, -, hcurrent⟩ :=
    exists_of_pushFragment hpushed
  have hsettled : volatile.draining = [] ∨ ¬env.stabilityWindow ≤
      env.eraHistory.slotInEpochOrDefault
        ((volatile.current.getLast?.map (·.point.slotOrDefault)).getD 0) := by
    rw [hcurrent, getLast?_concat]
    by_cases hwindow : env.stabilityWindow ≤ env.eraHistory.slotInEpochOrDefault block.point.slotOrDefault
    · exact .inl (suffix_nil.1 (hcalm hwindow ▸ hdraining))
    · exact .inr hwindow
  rw [← hlength]
  rcases nowStable with - | oldest
  · exact congrArg some (tip_of_mem_transitionWrites hsettled h).symm
  have hpoint : (st.chain ++ [block.point])[1]? = some oldest.point := by
    have hmap := congrArg (map point) hseries
    rw [map_append, map_append] at hmap
    rw [chain, cons_append, getElem?_cons_succ]
    change (_ ++ map point [block])[0]? = _
    rw [← hmap]
    rfl
  refine hpoint.trans (congrArg some ?_)
  rw [← hseries] at hfollows
  simp only [toList_some, elim_some, blocksWrites] at h
  rcases happlied : applyBlock env { st with volatile } oldest with failure | applied
  · rw [happlied] at h; cases h
  simp only [happlied, singleton_append, mem_cons] at h
  obtain ⟨written, rfl, htip⟩ := exists_of_applyBlock happlied (List.IsChain.rel hfollows)
  rcases h with rfl | h
  · exact htip.symm
  · exact ((tip_of_mem_transitionWrites hsettled h).trans htip).symm

theorem tip_of_mem_rollForwardWrites {block} (hstate : st.WellFormed) (hblock : st.Extends block)
    (hcalm : Calm env st.volatile (block :: blocks)) (h : stable ∈ st.rollForwardWrites env block) :
    (st.chain ++ [block.point])[
      if env.consensusSecurityParam ≤ st.volatile.length then 1 else 0]? = some stable.tip := by
  rw [rollForwardWrites] at h
  split at h
  · cases h
  rename_i prepared hprepared
  rw [← chain_of_prepare hprepared, ← length_of_prepare hprepared]
  split at h
  · exact tip_of_mem_adoptWrites ((hblock.prepare hprepared).follows
      (hstate.prepare hprepared).chained _) (hcalm.draining_of_prepare hprepared) h
  · cases h

/-- A point of a chain, with a number of points after it. -/
def HasAfter (points : List Point) (count : ℕ) (point : Point) : Prop :=
  ∃ older newer, points = older ++ point :: newer ∧ newer.length = count

/-- The tip once a block is in the chain: the one before, or else the window is full. -/
theorem eq_or_hasAfter {tip point : Point} (hlength : st.volatile.length ≤ env.consensusSecurityParam)
    (h : (st.chain ++ [point])[
      if env.consensusSecurityParam ≤ st.volatile.length then 1 else 0]? = some tip) :
    tip = st.stable.tip ∨ HasAfter (st.chain ++ [point]) env.consensusSecurityParam tip := by
  split_ifs at h with hfull
  · obtain ⟨hlt, hget⟩ := List.getElem?_eq_some_iff.1 h
    refine .inr ⟨(st.chain ++ [point]).take 1, (st.chain ++ [point]).drop 2, ?_, ?_⟩
    · rw [← hget, getElem_cons_drop, take_append_drop]
    · rw [length_drop, length_append, length_chain, length_singleton]
      omega
  · exact .inl (some.inj h).symm

/-- **Where the tip of the store moves** while a calm fork is rolled forward: nowhere, or to a point with
the whole volatile window after it. -/
theorem tip_of_mem_replayWrites (hstate : st.WellFormed) (hblocks : Admits env Extends st blocks)
    (hcalm : Calm env st.volatile blocks)
    (hlength : st.volatile.length ≤ env.consensusSecurityParam)
    (h : stable ∈ st.replayWrites env blocks) :
    stable.tip = st.stable.tip ∨ ∃ applied, applied <+: blocks ∧
      HasAfter (st.chain ++ applied.map Block.point) env.consensusSecurityParam stable.tip := by
  induction blocks generalizing st with
  | nil => cases h
  | cons block blocks ih =>
    rcases mem_append.1 h with h | h
    · exact (eq_or_hasAfter hlength (tip_of_mem_rollForwardWrites hstate hblocks.1 hcalm h)).imp_right
        fun hafter ↦ ⟨[block], prefix_append [block] blocks, hafter⟩
    split at h
    · next next hnext =>
      have hchain := chain_of_calm hstate hblocks.1 hcalm hnext
      rcases ih (hstate.rollForward hblocks.1 hnext).1 (hblocks.2 next hnext)
        (hcalm.tail hstate hblocks.1 hnext) (length_of_valid hstate hblocks.1 hlength hnext) h with
        htip | ⟨applied, happlied, older, newer, hsplit, hnewer⟩
      · refine (eq_or_hasAfter hlength ?_).imp_right
          fun hafter ↦ ⟨[block], prefix_append [block] blocks, hafter⟩
        have hhead : next.chain[0]? = some stable.tip := congrArg some htip.symm
        rw [hchain, getElem?_drop] at hhead
        exact hhead
      · refine .inr ⟨block :: applied, (prefix_cons_inj _).2 happlied,
          (st.chain ++ [block.point]).take
            (if env.consensusSecurityParam ≤ st.volatile.length then 1 else 0) ++ older,
          newer, ?_, hnewer⟩
        rw [append_assoc, ← hsplit, hchain, ← append_assoc, take_append_drop, append_assoc]
        rfl
    · cases h

theorem tip_of_mem_switchToForkWrites (hstate : st.WellFormed)
    (hlength : st.volatile.length ≤ env.consensusSecurityParam)
    (hblocks : List.IsChain Point.Before (fork :: blocks.map Block.point))
    (hcalm : ∀ guard base, st.rollbackTo fork = .ok (guard, base) → Calm env
      base.volatile blocks) (h : stable ∈ st.switchToForkWrites env fork blocks) :
    stable.tip = st.stable.tip ∨ ∃ guard base applied, st.rollbackTo fork = .ok (guard, base) ∧
      guard.kind.rollbackLength ≤ blocks.length ∧
      blocks.length ≤ guard.kind.rollbackLength + 1 ∧ applied <+: blocks ∧
      HasAfter (base.chain ++ applied.map Block.point) env.consensusSecurityParam stable.tip := by
  rw [switchToForkWrites] at h
  split at h
  · cases h
  rename_i guard base hroll
  split_ifs at h
  · cases h
  have hbase := length_of_rollbackTo hroll
  rw [← stable_of_rollbackTo hroll]
  refine (tip_of_mem_replayWrites (hstate.rollbackTo hroll)
    (admits_of_rollbackTo hstate hblocks hroll) (hcalm _ _ hroll) (by omega) h).imp_right ?_
  rintro ⟨applied, happlied, hafter⟩
  exact ⟨guard, base, applied, hroll, by omega, by omega, happlied, hafter⟩

end State

end Amaru
