import Amaru.Ledger.State.ForkSwitch

/-!
# Blocks that are rejected

A block is validated in the ledger it comes to, so a block of a later epoch makes the ledger cross the
boundary before the rules are asked. If they refuse the block, **the boundary stays crossed**: what is
volatile drains, the parameters in force are those of the new epoch, and the next block, even one of
the epoch that is not over, is validated with them and recorded as a block of the new epoch.

A rejected block leaves no trace exactly when it is not beyond the epoch of the ledger
(`volatile_eq_iff_of_rejected`). So **as long as a block of another epoch is one of the next epoch and
valid** (`InTurn`), rejections leave no trace, and the volatile blocks of the current series are all
of the epoch of the ledger.
-/

namespace Amaru

open Except

namespace State

variable {Body : Type*} {env : Environment Body} {st st' : State} {failure : InvalidBlock}

/-! ### Rewards are asked for once -/

theorem tryComputeRewards_idem (h : st.tryComputeRewards env = .ok st') :
    st'.tryComputeRewards env = .ok st' := by
  have hcopy := h
  obtain ⟨currentEpoch, hepoch, h⟩ := bind_eq_ok_iff.1 h
  obtain ⟨due, -, h⟩ := bind_eq_ok_iff.1 h
  rcases due with - | -
  · cases h
    exact hcopy
  obtain ⟨_, -, h⟩ := bind_eq_ok_iff.1 h
  obtain ⟨_, -, h⟩ := bind_eq_ok_iff.1 h
  cases h
  -- the task is running, so it is not due
  refine bind_eq_ok_iff.2 ⟨currentEpoch, hepoch, bind_eq_ok_iff.2 ⟨false, ?_, rfl⟩⟩
  rw [rewardsAreDue, if_neg]
  simp

/-- What happens to a state once its rewards are asked for is what would have happened before. -/
theorem rollForward_of_tryComputeRewards (h : st.tryComputeRewards env = .ok st')
    (block : Block Body) : st'.rollForward env block = st.rollForward env block := by
  have hprepare : st'.prepare env block = st.prepare env block := by
    rw [prepare, prepare, tryComputeRewards_idem h, h]
  rw [rollForward, rollForward, hprepare]

/-! ### A rejected block -/

variable {block : Block Body}

/-- **A rejected block leaves the volatile database alone exactly when it is not beyond the epoch of
the ledger.** It never changes the store. -/
theorem volatile_eq_iff_of_rejected (h : st.rollForward env block = .ok (st', .invalid failure)) :
    st'.stable = st.stable ∧ (st'.volatile = st.volatile ↔
      ∀ epoch, env.epochOf block.slot = .ok epoch → epoch ≤ st.volatile.epoch) := by
  obtain ⟨prepared, hprepared, ⟨_, -, rfl, -⟩ | ⟨_, hvalid, -⟩⟩ := exists_of_rollForward h
  · obtain ⟨hstable, -, epoch, hepoch, ⟨hle, heq⟩ | ⟨hlater, hcrossed⟩⟩ :=
      exists_of_prepare hprepared
    · refine ⟨hstable, iff_of_true heq fun epoch' hepoch' ↦ ?_⟩
      obtain rfl := ok.inj (hepoch.symm.trans hepoch')
      exact hle
    · exact ⟨hstable, iff_of_false hcrossed.ne fun hle ↦ Nat.not_lt.2 (hle epoch hepoch) hlater⟩
  · cases hvalid

/-- After a rejected block that is not beyond the epoch of the ledger, every block is treated as if
the rejected one had never come. -/
theorem rollForward_eq_of_rejected (h : st.rollForward env block = .ok (st', .invalid failure))
    (hepoch : ∀ epoch, env.epochOf block.slot = .ok epoch → epoch ≤ st.volatile.epoch)
    (other : Block Body) : st'.rollForward env other = st.rollForward env other := by
  obtain ⟨prepared, hprepared, ⟨_, -, rfl, -⟩ | ⟨_, hvalid, -⟩⟩ := exists_of_rollForward h
  · obtain ⟨computed, hcomputed, hprepared⟩ := bind_eq_ok_iff.1 hprepared
    obtain ⟨handle, rfl⟩ := exists_of_tryComputeRewards hcomputed
    obtain ⟨epoch, hblock, hprepared⟩ := bind_eq_ok_iff.1 hprepared
    rw [if_neg (Nat.not_lt.2 (hepoch epoch hblock))] at hprepared
    cases hprepared
    exact rollForward_of_tryComputeRewards hcomputed other
  · cases hvalid

/-! ### Series of one epoch -/

/-- The block is of the epoch of the ledger; or it is of the next one, and valid in the ledger that has
crossed the boundary. -/
def InTurn (env : Environment Body) (st : State) (block : Block Body) : Prop :=
  st.Extends block ∧ ∃ epoch, env.epochOf block.slot = .ok epoch ∧
    (epoch = st.volatile.epoch ∨ (epoch = st.volatile.epoch + 1 ∧
      ∀ prepared, st.prepare env block = .ok prepared →
        ∃ fragment, env.validateBlock prepared.volatile prepared.stable block = .ok (.ok fragment)))

/-- The blocks of the current series are of the epoch of the ledger, and those that drain are of the
one before. -/
structure Homogeneous (env : Environment Body) (db : VolatileDB) : Prop where
  current : ∀ block ∈ db.current, env.epochOf block.point.slotOrDefault = .ok db.epoch
  draining : ∀ block ∈ db.draining, ∃ epoch,
    env.epochOf block.point.slotOrDefault = .ok epoch ∧ epoch + 1 = db.epoch

theorem Homogeneous.crossed {db db'} (h : Homogeneous env db) (hcrossed : db.Crossed db') :
    Homogeneous env db' where
  current block hblock := by
    rw [hcrossed.current_eq] at hblock
    cases hblock
  draining block hblock := by
    rw [hcrossed.draining_eq] at hblock
    exact ⟨db.epoch, h.current block hblock, hcrossed.epoch_eq.symm⟩

/-- Crossing a boundary, or not, for a block in its turn. -/
theorem Homogeneous.prepare {prepared : State} (h : Homogeneous env st.volatile)
    (hblock : InTurn env st block) (hprepared : st.prepare env block = .ok prepared) :
    Homogeneous env prepared.volatile ∧ env.epochOf block.slot = .ok prepared.volatile.epoch := by
  obtain ⟨-, epoch, hepoch, hturn⟩ := hblock
  obtain ⟨-, -, epoch', hepoch', hvolatile⟩ := exists_of_prepare hprepared
  obtain rfl := ok.inj (hepoch.symm.trans hepoch')
  rcases hvolatile with ⟨hle, heq⟩ | ⟨hlater, hcrossed⟩
  · rw [heq]
    refine ⟨h, hepoch.trans (congrArg _ ?_)⟩
    rcases hturn with heq | ⟨heq, -⟩ <;> omega
  · refine ⟨h.crossed hcrossed, hepoch.trans (congrArg _ ?_)⟩
    rw [hcrossed.epoch_eq]
    rcases hturn with heq | ⟨heq, -⟩ <;> omega

/-- **One block in its turn** keeps the series of one epoch each. -/
theorem Homogeneous.rollForward {verdict} (h : Homogeneous env st.volatile) (hstate : st.WellFormed)
    (hblock : InTurn env st block) (hforward : st.rollForward env block = .ok (st', verdict)) :
    Homogeneous env st'.volatile := by
  obtain ⟨prepared, hprepared, ⟨_, -, rfl, -⟩ | ⟨fragment, -, -, hadopt⟩⟩ :=
    exists_of_rollForward hforward
  · exact (h.prepare hblock hprepared).1
  obtain ⟨hprep, hepoch⟩ := h.prepare hblock hprepared
  have hadopted := adopted_of_adopt hadopt
    ((hblock.1.prepare hprepared).follows (hstate.prepare hprepared).chained fragment)
  obtain ⟨kept, hkept, hcurrent⟩ := hadopted.exists_current
  refine ⟨fun other hother ↦ ?_, fun other hother ↦ ?_⟩
  · rw [hadopted.epoch_eq]
    rw [hcurrent, List.mem_append, List.mem_singleton] at hother
    rcases hother with hother | rfl
    · exact hprep.current other (hkept.subset hother)
    · exact hepoch
  · rw [hadopted.epoch_eq]
    exact hprep.draining other (hadopted.draining_suffix.subset hother)

/-! ### Runs of blocks in their turn -/

theorem Homogeneous.rollbackTo {point guard base} (h : Homogeneous env st.volatile)
    (hroll : st.rollbackTo point = .ok (guard, base)) :
    Homogeneous env base.volatile := by
  obtain ⟨-, -, ⟨-, -, hclear⟩ | ⟨_, hpart, -⟩⟩ := exists_of_rollbackTo hroll
  · rw [hclear]
    exact ⟨nofun, nofun⟩
  rcases VolatileDB.exists_of_rollbackTo hpart with
    ⟨kept, drained, hkept, -, heq⟩ | ⟨-, kept, discarded, hkept, -, heq⟩ <;>
    obtain ⟨_, -, -, hseries⟩ := VolatileSeries.exists_of_rollbackTo hkept <;> rw [heq]
  · -- the blocks that drained are current again, and so is their epoch
    refine ⟨fun block hblock ↦ ?_, nofun⟩
    have hmem : block ∈ st.volatile.draining := by
      rw [hseries]
      exact List.mem_append_left _ hblock
    obtain ⟨epoch, hepoch, hnext⟩ := h.draining block hmem
    rw [hepoch]
    exact congrArg ok (Nat.eq_sub_of_add_eq hnext)
  · refine ⟨fun block hblock ↦ h.current block ?_, h.draining⟩
    rw [hseries]
    exact List.mem_append_left _ hblock

theorem Reachable.wellFormed_of_inTurn (h : Reachable env (InTurn env) st) : st.WellFormed :=
  (h.mono fun _ _ hblock ↦ hblock.1).wellFormed

/-- **In a run of blocks in their turn, each series is of one epoch.** -/
theorem Reachable.homogeneous (h : Reachable env (InTurn env) st) : Homogeneous env st.volatile := by
  induction h with
  | start h =>
    obtain ⟨-, epoch, hvolatile⟩ := exists_of_new h
    rw [hvolatile]
    exact ⟨nofun, nofun⟩
  | rollForward hstate hblock h ih => exact ih.rollForward hstate.wellFormed_of_inTurn hblock h
  | switchToFork hstate hblocks h ih =>
    rename_i outcome
    have hwellFormed := hstate.wellFormed_of_inTurn
    by_cases hfailure : outcome.ReportsFailure
    · rw [(hwellFormed.failedSwitch (fun _ _ hroll ↦
        (hblocks _ _ hroll).mono fun _ _ hblock ↦ hblock.1) h hfailure).1]
      exact ih
    obtain ⟨_, _, _, _, hroll, hreplay⟩ := exists_replay_of_switchToFork h hfailure
    exact (replay_invariant (P := fun s ↦ s.WellFormed ∧ Homogeneous env s.volatile) hreplay
      (hblocks _ _ hroll) ⟨hwellFormed.rollbackTo hroll, ih.rollbackTo hroll⟩
      fun _ _ _ _ hs hblock h ↦ ⟨(hs.1.rollForward hblock.1 h).1, hs.2.rollForward hs.1 hblock h⟩).2

/-- **A rejected block leaves no trace**, in every run of blocks in their turn: the volatile database
and the store are the same, every other block is treated as if the rejected one had never come, and
the blocks of the current series are of the epoch of the ledger. -/
theorem rejected_block_leaves_no_trace (hstate : Reachable env (InTurn env) st) :
    (∀ block failure rejected, InTurn env st block →
      st.rollForward env block = .ok (rejected, .invalid failure) → rejected.volatile = st.volatile ∧
        rejected.volatile.protocolParameters = st.volatile.protocolParameters ∧
        rejected.stable = st.stable ∧
        ∀ other, rejected.rollForward env other = st.rollForward env other) ∧
      ∀ block ∈ st.volatile.current, env.epochOf block.point.slotOrDefault = .ok st.volatile.epoch := by
  refine ⟨fun block failure rejected hblock h ↦ ?_, hstate.homogeneous.current⟩
  obtain ⟨-, epoch, hepoch, hturn⟩ := hblock
  have hle : ∀ epoch', env.epochOf block.slot = .ok epoch' → epoch' ≤ st.volatile.epoch := by
    intro epoch' hepoch'
    obtain rfl := ok.inj (hepoch.symm.trans hepoch')
    rcases hturn with heq | ⟨-, hvalid⟩
    · exact heq.le
    -- a block of the next epoch is valid, so it is not the one that was rejected
    obtain ⟨prepared, hprepared, ⟨_, -, -, hinvalid⟩ | ⟨_, hvalid, -⟩⟩ := exists_of_rollForward h
    · obtain ⟨fragment, hfragment⟩ := hvalid prepared hprepared
      cases ok.inj (hfragment.symm.trans hinvalid)
    · cases hvalid
  obtain ⟨hstable, hvolatile⟩ := volatile_eq_iff_of_rejected h
  have heq := hvolatile.2 hle
  exact ⟨heq, congrArg _ heq, hstable, rollForward_eq_of_rejected h hle⟩

theorem rejected_block_leaves_no_trace_in_epoch : ∃ ledger rejected failure,
    Reachable tenSlots (InTurn tenSlots) ledger ∧ ledger.volatile.current.length = 1 ∧
    ledger.rollForward tenSlots (blockAt 36 false) = .ok (rejected, .invalid failure) ∧
    rejected.volatile = ledger.volatile ∧
    rejected.rollForward tenSlots (blockAt 37 true) = ledger.rollForward tenSlots (blockAt 37 true) := by
  have hreachable : Reachable tenSlots (InTurn tenSlots) _ :=
    .rollForward (.start (rfl : State.new tenSlots thirdEpoch thirdEpochSnapshots = _))
      ⟨(by decide : 32 < (blockAt 35 true).slot), 3, rfl, .inl rfl⟩ rfl
  obtain ⟨hvolatile, -, -, hother⟩ := (rejected_block_leaves_no_trace hreachable).1 (blockAt 36 false) _ _
    ⟨(by decide : 35 < 36), 3, rfl, .inl rfl⟩ rfl
  exact ⟨_, _, _, hreachable, rfl, rfl, hvolatile, hother _⟩

/-- **A rejected block of the next epoch leaves its boundary.** The ledger is in the third epoch. A
block of the fourth is rejected, and the ledger is in the fourth epoch. The block of the third epoch
that comes next extends the same tip as before; it is recorded as a block of the fourth. -/
theorem rejected_block_crosses_boundary : ∃ started ledger rejected forward failure,
    State.new tenSlots thirdEpoch thirdEpochSnapshots = .ok started ∧
    started.rollForward tenSlots (blockAt 35 true) = .ok (ledger, .valid) ∧
    ledger.rollForward tenSlots (blockAt 41 false) = .ok (rejected, .invalid failure) ∧
    ledger.volatile.epoch = 3 ∧ rejected.volatile.epoch = 4 ∧ rejected.tip = ledger.tip ∧
    rejected.rollForward tenSlots (blockAt 36 true) = .ok (forward, .valid) ∧
    forward.volatile.current.map (·.point) = [.specific 36 36 36] ∧
    tenSlots.epochOf 36 = .ok 3 ∧ forward.volatile.epoch = 4 :=
  ⟨_, _, _, _, _, rfl, rfl, rfl, rfl, rfl, rfl, rfl, rfl, rfl, rfl⟩

end State

end Amaru
