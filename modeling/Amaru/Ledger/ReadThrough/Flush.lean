import Amaru.Ledger.Volatile.VolatileDB

/-!
# Flushing the volatile database

A block is validated against the ledger as it would be if everything volatile were already in the
store. `VolatileDB.flush` puts it there: it saves the draining fragments, writes the overlay, and
saves the current fragments. So the store after a flush is **what reading through the layers has to
agree with**.

`Flushed` names the stores in between, and `Crosses` says what crossing the boundary makes of each
table, whether or not a transition is pending.
-/

namespace Amaru

open StateOverlay SortedMap Store Option

variable {s s' : Store} {eras : EraHistory} {ov : StateOverlay} {db : VolatileDB}

namespace VolatileDB

/-- What the blocks of the new epoch are saved with, once the overlay is written. -/
def openingParameters (db : VolatileDB) (s : Store) : ProtocolParameters × GovernanceActivity :=
  match db.overlay.governanceUpdates with
  | some updates => (updates.protocolParameters, s.governanceActivity)
  | none => (db.baseProtocolParameters, db.baseGovernanceActivity)

/-- Write the overlay, if there is something to write. -/
def applyPending (db : VolatileDB) (s : Store) : Except StateError Store :=
  if db.overlay.isEmpty then .ok s else db.overlay.apply s

/-- Write everything volatile to the store. -/
def flush (db : VolatileDB) (eras : EraHistory) (s : Store) : Except StateError Store := do
  let drained ← (s.applyBlocks eras db.baseProtocolParameters db.baseGovernanceActivity
    db.draining).mapError .storage
  let opened ← db.applyPending drained
  (opened.applyBlocks eras (db.openingParameters opened).1 (db.openingParameters opened).2
    db.current).mapError .storage

end VolatileDB

/-! ### Crossing the boundary -/

/-- What the tables hold once the boundary is crossed. -/
structure Crosses (ov : StateOverlay) (s s' : Store) : Prop where
  tip_eq : s'.tip = s.tip
  utxo_eq : s'.utxo = s.utxo
  dreps_eq : s'.dreps = s.dreps
  get?_accounts : ∀ cred, s'.accounts.get? cred =
    (s.accounts.get? cred).map (·.pay (ov.pendingRewardCredit cred))
  get?_pools : ∀ pool, s'.pools.get? pool = if ov.isPoolRetired pool then none
    else (s.pools.get? pool).map fun row ↦
      ((ov.poolsUpdates.bind (·.updated.get? pool)).getD row)
  ccMembers_eq : s'.ccMembers = match ov.governanceUpdates with
    | some updates => updateCCMembers s.ccMembers updates.constitutionalCommittee
    | none => s.ccMembers
  get?_proposals : ∀ id, s'.proposals.get? id =
    if ov.hasPrunedProposal id then none else s.proposals.get? id

/-- Crossing a pending boundary. A store that has paid the rewards of the boundary before has to come
with an overlay that does not hold them any more. -/
theorem crosses_of_apply (h : ov.apply s = .ok s')
    (hrewards : s.epochTransitionProgress ≠ none → ∀ rewards, ov.rewards ≠ .effective rewards) :
    Crosses ov s s' := by
  obtain ⟨ended, hended, hopen⟩ := exists_of_apply h
  obtain ⟨htip, hutxo, hdreps, -, haccounts, hpools, hcc, hproposals, -⟩ :=
    opens_of_openEpoch hopen
  rcases exists_of_endEpoch hended with ⟨-, rewards, _, heffective, rfl⟩ | ⟨hprogress, rfl⟩
  · refine ⟨htip, hutxo, hdreps, fun cred ↦ ?_, hpools, hcc, hproposals⟩
    rw [haccounts, pendingRewardCredit_eq, heffective]
    rw [get?_map, map_map]
    congr 1
    funext row
    simp [AccountRow.pay, Nat.add_assoc]
  · refine ⟨htip, hutxo, hdreps, fun cred ↦ ?_, hpools, hcc, hproposals⟩
    rw [haccounts, pendingRewardCredit_eq]
    cases hstate : ov.rewards with
    | effective rewards => exact absurd hstate (hrewards hprogress rewards)
    | notReady | computed => simp

theorem crosses_of_isEmpty (hempty : ov.isEmpty) (s : Store) : Crosses ov s s := by
  rw [isEmpty, Bool.and_eq_true, Bool.and_eq_true, isNone_iff_eq_none, isNone_iff_eq_none] at hempty
  obtain ⟨⟨hrewards, hpools⟩, hgovernance⟩ := hempty
  refine ⟨rfl, rfl, rfl, fun cred ↦ ?_, fun pool ↦ ?_, ?_, fun id ↦ ?_⟩
  · have hcredit : ov.pendingRewardCredit cred = 0 := by
      rw [pendingRewardCredit, hpools, hgovernance]
      cases hstate : ov.rewards with
      | effective _ => rw [hstate] at hrewards; cases hrewards
      | notReady | computed => rfl
    rw [hcredit]
    exact map_id'.symm
  · simp [isPoolRetired, hpools]
  · rw [hgovernance]
  · simp [hasPrunedProposal, hgovernance]

theorem crosses_of_applyPending (h : db.applyPending s = .ok s')
    (hrewards : s.epochTransitionProgress ≠ none → ∀ rewards, db.overlay.rewards ≠ .effective
      rewards) : Crosses db.overlay s s' := by
  rw [VolatileDB.applyPending] at h
  split_ifs at h with hempty
  · cases h
    exact crosses_of_isEmpty hempty s
  · exact crosses_of_apply h hrewards

/-! ### The stores of a flush -/

/-- The volatile database over a store that it can be flushed to: the volatile blocks are newer than
the tip of the store, and a store that has paid the rewards of the boundary comes with an overlay
that does not hold them any more. -/
structure Layered (db : VolatileDB) (s : Store) : Prop where
  newer : Store.Newer s.tip (db.draining ++ db.current)
  rewards_paid : s.epochTransitionProgress ≠ none → ∀ rewards, db.overlay.rewards ≠ .effective rewards

/-- The stores that a flush goes through. -/
structure Flushed (db : VolatileDB) (eras : EraHistory)
    (s drained opened s' : Store) : Prop where
  newer_draining : Store.Newer s.tip db.draining
  drained_eq : s.applyBlocks eras db.baseProtocolParameters db.baseGovernanceActivity
    db.draining = .ok drained
  crosses : Crosses db.overlay drained opened
  newer_current : Store.Newer opened.tip db.current
  flushed_eq : opened.applyBlocks eras (db.openingParameters opened).1
    (db.openingParameters opened).2 db.current = .ok s'

theorem exists_flushed (hlayered : Layered db s) (h : db.flush eras s = .ok s') :
    ∃ drained opened, Flushed db eras s drained opened s' := by
  obtain ⟨drained, hdrained, h⟩ := Except.bind_eq_ok_iff.1 h
  obtain ⟨opened, hopened, h⟩ := Except.bind_eq_ok_iff.1 h
  rw [Except.mapError_eq_ok_iff] at hdrained h
  have hcrosses : Crosses db.overlay drained opened := by
    refine crosses_of_applyPending hopened fun hprogress ↦ ?_
    rcases epochTransitionProgress_of_applyBlocks hdrained with rfl | hnone
    · exact hlayered.rewards_paid hprogress
    · exact absurd hnone hprogress
  refine ⟨drained, opened, hlayered.newer.of_append, hdrained, hcrosses, ?_, h⟩
  rw [hcrosses.tip_eq]
  exact newer_of_applyBlocks hlayered.newer hdrained

theorem get?_proposals_of_applyBlocks {pp activity series} (hnewer : Store.Newer s.tip series)
    (h : s.applyBlocks eras pp activity series = .ok s')
    (id : ProposalId) : s'.proposals.get? id =
      (series.aggregate.proposals.get? id).or (s.proposals.get? id) :=
  applyBlocks_invariant hnewer h rfl fun done before after block hdone hnew h ↦ by
    obtain ⟨_, _, _, -, -, -, rfl⟩ := exists_of_applyBlock h hnew
    rw [VolatileSeries.aggregate_concat]
    change (before.proposals.insertAll _).get? id = (get? (insertAll _ _) id).or _
    rw [get?_insertAll, get?_insertAll, hdone, Option.or_assoc]

theorem Flushed.get?_proposals {drained opened : Store} (h : Flushed db eras s drained opened s')
    (id : ProposalId) : s'.proposals.get? id =
      (db.current.aggregate.proposals.get? id).or (if db.overlay.hasPrunedProposal id then none
        else (db.draining.aggregate.proposals.get? id).or (s.proposals.get? id)) := by
  rw [get?_proposals_of_applyBlocks h.newer_current h.flushed_eq, h.crosses.get?_proposals,
    get?_proposals_of_applyBlocks h.newer_draining h.drained_eq]

/-! ### A small ledger -/

/-- An empty store, at the end of the first epoch of ten slots. -/
def blankStore : Store where
  tip := .specific 9 0 0
  epochTransitionProgress := none
  protocolParameters := default
  constitutionalCommittee := .noConfidence
  constitution := default
  governanceActivity := ⟨0⟩
  proposalsRoots := {}
  utxo := ∅
  accounts := ∅
  recentlyUnregisteredAccounts := ∅
  pools := ∅
  dreps := ∅
  ccMembers := ∅
  proposals := ∅
  recentlyPrunedProposals := ∅
  votes := ∅
  slots := ∅
  pots := ⟨0, 0, 0, 0⟩

/-- A boundary at which no proposal ends. -/
def quietBoundary : GovernanceUpdates where
  roots := {}
  protocolParameters := default
  prunedProposals := ∅
  depositRefunds := ∅
  treasuryWithdrawals := ∅
  isDormantEpoch := false
  constitutionalCommittee := none
  newConstitution := none

/-- A volatile database that has just crossed a boundary, with these updates and then one block of
the new epoch. -/
def crossing (poolsUpdates : PoolsEpochTransitionUpdates) (governanceUpdates : GovernanceUpdates)
    (fragment : VolatileFragment) : VolatileDB where
  current := [{ point := .specific 10 1 1, issuer := 0, fragment }]
  draining := []
  overlay :=
    { epoch := 1
      rewards := .effective
        { deltaReserves := 0
          deltaTreasury := 0
          totalRewards := 0
          accounts := ∅
          poolsOwners := ∅
          unclaimed := ∅ }
      poolsUpdates := some poolsUpdates
      governanceUpdates := some governanceUpdates }
  baseProtocolParameters := default
  baseGovernanceActivity := ⟨0⟩
  baseGuardrailScript := none

theorem layered_crossing (poolsUpdates : PoolsEpochTransitionUpdates)
    (governanceUpdates : GovernanceUpdates) (fragment : VolatileFragment)
    (htip : s.tip = .specific 9 0 0) (hprogress : s.epochTransitionProgress = none) :
    Layered (crossing poolsUpdates governanceUpdates fragment) s where
  newer := by
    rw [htip]
    exact List.isChain_cons_cons.2 ⟨rfl, List.isChain_singleton _⟩
  rewards_paid h := absurd hprogress h

end Amaru
