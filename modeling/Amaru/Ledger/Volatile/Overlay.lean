import Amaru.Ledger.Store.EpochTransition

/-!
# The overlay

The boundary between two epochs while it is not stable: what crossing it computed, kept between the
fragments of the closing epoch and those of the new one until it can be written.

Writing it takes three transactions, and the store remembers how many are done. The first pays the
rewards, the second takes a snapshot, the third starts the new epoch; a store that stopped in between
resumes with the next. What a transaction that is not due would have written is **dropped**, rewards
included.
-/

namespace Amaru

open Store Option Except SortedMap

/-- Why the ledger does not go on. Where the source panics, so does the model. -/
inductive StateError
  | noEffectiveRewards
  | rewardsSummaryNotReady
  | drainingNotEmpty
  | storage (error : StoreError)
  | eraHistory (error : EraHistoryError)
  | epochTransition (error : EpochTransitionError)
  | noSnapshot (epoch : ℕ)
  | emptySnapshots
  | epochUnderflow
  | noSuitableStakeDistribution (epoch : ℕ)
  | protocolVersionTooOld (version : ProtocolVersion)
  | unreachableEpoch (epoch : ℕ)
  | emptyVolatile
  | unknownRollbackPoint
  | beyondMaxRollback
  | rollbackInTheFuture
  | forkPointGone
  | immutableTipMoved

/-- The overlay. -/
structure StateOverlay where
  epoch : ℕ
  rewards : RewardsState := .notReady
  poolsUpdates : Option PoolsEpochTransitionUpdates := none
  governanceUpdates : Option GovernanceUpdates := none
  /-- The change of the treasury once the overlay is written. -/
  treasuryDelta : TreasuryDelta := .zero

namespace StateOverlay

variable {overlay : StateOverlay} {store store' : Store}

/-! ### Crossing a boundary and back -/

/-- The payments of a boundary that are not rewards, in the order they are made. -/
def payouts (poolsUpdates : PoolsEpochTransitionUpdates) (governanceUpdates : GovernanceUpdates) :
    List (Credential × ℕ) :=
  poolsUpdates.refunds.entries ++ governanceUpdates.depositRefunds.entries ++
    governanceUpdates.treasuryWithdrawals.entries

section

variable (overlay : StateOverlay)

/-- Record the transition into a new epoch. -/
def transition (effectiveRewards : Option EffectiveRewards)
    (poolsUpdates : PoolsEpochTransitionUpdates) (governanceUpdates : GovernanceUpdates)
    (donations : ℕ) (accountExists : Credential → Bool) : StateOverlay :=
  let unpayable := (payouts poolsUpdates governanceUpdates).foldl
    (fun unpayable payout ↦ if accountExists payout.1 then unpayable else unpayable + payout.2) 0
  let totalWithdrawn := governanceUpdates.treasuryWithdrawals.values.sum
  let rewardsTax := (effectiveRewards.map (·.deltaTreasuryWithUnclaimed)).getD 0
  { epoch := overlay.epoch + 1
    treasuryDelta := (((TreasuryDelta.debit totalWithdrawn).add rewardsTax).add donations).add unpayable
    rewards := (effectiveRewards.map .effective).getD .notReady
    poolsUpdates := some poolsUpdates
    governanceUpdates := some governanceUpdates }

/-- Throw away what crossing the boundary computed. -/
def rollback : StateOverlay where
  epoch := overlay.epoch - 1
  rewards := overlay.rewards.rollback

/-- Whether nothing waits to be written. -/
def isEmpty : Bool :=
  (match overlay.rewards with
    | .effective _ => false
    | _ => true) && overlay.poolsUpdates.isNone && overlay.governanceUpdates.isNone

/-! ### Writing the overlay -/

/-- The proposals that leave the ledger at the boundary. -/
def prunedProposals : SortedMap ProposalId RatificationStatus :=
  (overlay.governanceUpdates.map (·.prunedProposals)).getD ∅

/-- The end of the closing epoch. -/
def endEpoch (store : Store) : Except StateError Store :=
  if store.epochTransitionProgress = none then
    match overlay.rewards with
    | .effective rewards =>
      ((store.payRewards rewards).map fun store ↦ { store with
        epochTransitionProgress := some .epochEnded
        recentlyPrunedProposals := overlay.prunedProposals }).mapError .storage
    | _ => .error .noEffectiveRewards
  else .ok store

/-- The snapshot of the closing epoch, if it is due. -/
def takeSnapshot (store : Store) : Store × Option Store :=
  if store.epochTransitionProgress = some .epochEnded then
    ({ store with epochTransitionProgress := some .snapshotTaken }, some store)
  else (store, none)

/-- The updates of the pools, and their refunds. -/
def applyPoolsUpdates (store : Store) : Store :=
  match overlay.poolsUpdates with
  | some updates => (store.updateOrRetirePools updates.updated updates.retired).payOrRefundAccounts
      updates.refunds.entries
  | none => store

/-- The updates of governance. -/
def applyGovernanceUpdates (store : Store) : Except StoreError Store :=
  match overlay.governanceUpdates with
  | some updates => store.applyGovernanceUpdates updates
  | none => .ok store

/-- What the start of the new epoch writes. -/
def openEpoch (store : Store) : Except StoreError Store :=
  overlay.applyGovernanceUpdates (overlay.applyPoolsUpdates
    (((store.pruneRecentlyUnregisteredAccounts overlay.epoch).resetBlocksCount).resetFeesAndDonations))

/-- The start of the new epoch. -/
def beginEpoch (store : Store) : Except StateError Store :=
  if store.epochTransitionProgress = some .snapshotTaken then
    (overlay.openEpoch { store with epochTransitionProgress := none }).mapError .storage
  else .ok store

/-- Write the overlay to the store. -/
def apply (store : Store) : Except StateError Store := do
  let store ← overlay.endEpoch store
  overlay.beginEpoch (takeSnapshot store).1

/-- The overlay once it is written. -/
def applied : StateOverlay := { epoch := overlay.epoch }

/-! ### Reading through the overlay -/

/-- Whether a pool retires at the boundary. -/
def isPoolRetired (pool : PoolId) : Bool :=
  overlay.poolsUpdates.any fun updates ↦ decide (pool ∈ updates.retired)

/-- Whether a proposal leaves the ledger at the boundary. -/
def hasPrunedProposal (id : ProposalId) : Bool :=
  overlay.governanceUpdates.any fun updates ↦ updates.prunedProposals.contains id

/-- The committee update of the boundary. -/
def committeeUpdate : Option ConstitutionalCommitteeUpdate :=
  overlay.governanceUpdates.bind (·.constitutionalCommittee)

/-- What the boundary makes of the committee members it names. -/
def ccMembers : List (Credential × Existence CommitteeMemberBind) :=
  match overlay.committeeUpdate with
  | some (.changeMembers removed added _) =>
    added.entries.map (fun (cold, validUntil) ↦ (cold, .exists_ { right := .set validUntil })) ++
      removed.keys.map (fun cold ↦ (cold, .gone))
  | some .noConfidence | none => []

/-- What the boundary pays to an account. -/
def pendingRewardCredit (cred : Credential) : ℕ :=
  (match overlay.rewards with
    | .effective rewards => rewards.rewardOf cred
    | _ => 0) +
  (overlay.poolsUpdates.map (·.refund cred)).getD 0 +
  (overlay.governanceUpdates.map (·.payout cred)).getD 0

/-! ### What a written overlay did -/

/-- The payments of the boundary that are not rewards. -/
def pendingPayouts : List (Credential × ℕ) :=
  ((overlay.poolsUpdates.map (·.refunds.entries)).getD []) ++
    (overlay.governanceUpdates.map fun updates ↦
      updates.depositRefunds.entries ++ updates.treasuryWithdrawals.entries).getD []

theorem pendingRewardCredit_eq (cred : Credential) :
    overlay.pendingRewardCredit cred =
      (match overlay.rewards with
        | .effective rewards => rewards.rewardOf cred
        | _ => 0) + owed overlay.pendingPayouts cred := by
  rw [pendingRewardCredit, pendingPayouts, owed_append]
  cases overlay.poolsUpdates <;> cases overlay.governanceUpdates <;>
    simp [owed_append, owed_entries, PoolsEpochTransitionUpdates.refund,
      GovernanceUpdates.payout, Nat.add_assoc] <;> simp [owed]

end

/-- The end of an epoch pays the rewards, unless that was done before. -/
theorem exists_of_endEpoch (h : overlay.endEpoch store = .ok store') :
    (store.epochTransitionProgress = none ∧ ∃ rewards reserves, overlay.rewards = .effective rewards ∧
        store' = { store with
          accounts := store.accounts.map fun cred row ↦ row.pay (rewards.rewardOf cred)
          pots := { store.pots with
            treasury := store.pots.treasury + rewards.deltaTreasuryWithUnclaimed
            reserves }
          epochTransitionProgress := some .epochEnded
          recentlyPrunedProposals := overlay.prunedProposals }) ∨
      (store.epochTransitionProgress ≠ none ∧ store' = store) := by
  rw [endEpoch] at h
  split_ifs at h with hprogress
  · split at h
    · obtain ⟨paid, hpaid, rfl⟩ := map_eq_ok_iff.1 (mapError_eq_ok_iff.1 h)
      obtain ⟨_, rfl⟩ := exists_of_payRewards hpaid
      exact .inl ⟨hprogress, _, _, ‹_›, rfl⟩
    · cases h
  · exact .inr ⟨hprogress, (ok.inj h).symm⟩

theorem tip_of_endEpoch (h : overlay.endEpoch store = .ok store') : store'.tip = store.tip := by
  rcases exists_of_endEpoch h with ⟨-, _, _, -, rfl⟩ | ⟨-, rfl⟩ <;> rfl

theorem exists_of_apply (h : overlay.apply store = .ok store') :
    ∃ ended, overlay.endEpoch store = .ok ended ∧
      overlay.openEpoch { ended with epochTransitionProgress := none } = .ok store' := by
  obtain ⟨ended, hended, h⟩ := bind_eq_ok_iff.1 h
  refine ⟨ended, hended, (mapError_eq_ok_iff (f := .storage)).1 (.trans ?_ h)⟩
  have hstage : ended.epochTransitionProgress ≠ none := by
    rcases exists_of_endEpoch hended with ⟨-, _, _, -, rfl⟩ | ⟨hprogress, rfl⟩
    · exact some_ne_none _
    · exact hprogress
  obtain ⟨stage, hstage⟩ := ne_none_iff_exists'.1 hstage
  cases stage <;> simp [takeSnapshot, beginEpoch, hstage]

/-- What the pending withdrawals take out of the treasury. -/
def totalWithdrawn (overlay : StateOverlay) : ℕ :=
  (overlay.governanceUpdates.map (·.treasuryWithdrawals.values.sum)).getD 0

/-- What the tables hold once a new epoch is open. -/
structure Opens (overlay : StateOverlay) (store store' : Store) : Prop where
  tip_eq : store'.tip = store.tip
  utxo_eq : store'.utxo = store.utxo
  dreps_eq : store'.dreps = store.dreps
  recentlyUnregistered_eq : store'.recentlyUnregisteredAccounts =
    (store.pruneRecentlyUnregisteredAccounts overlay.epoch).recentlyUnregisteredAccounts
  get?_accounts : ∀ cred, store'.accounts.get? cred =
    (store.accounts.get? cred).map (·.pay (owed overlay.pendingPayouts cred))
  get?_pools : ∀ pool, store'.pools.get? pool = if overlay.isPoolRetired pool then none
    else (store.pools.get? pool).map fun row ↦
      ((overlay.poolsUpdates.bind (·.updated.get? pool)).getD row)
  ccMembers_eq : store'.ccMembers = match overlay.governanceUpdates with
    | some updates => updateCCMembers store.ccMembers updates.constitutionalCommittee
    | none => store.ccMembers
  get?_proposals : ∀ id, store'.proposals.get? id =
    if overlay.hasPrunedProposal id then none else store.proposals.get? id
  treasury_eq : store'.pots.treasury + overlay.totalWithdrawn = store.pots.treasury +
    store.pots.donations + unpayable store.accounts.contains overlay.pendingPayouts

/-- What the tables hold once the pools are updated. -/
structure UpdatesPools (overlay : StateOverlay) (store store' : Store) : Prop where
  tip_eq : store'.tip = store.tip
  utxo_eq : store'.utxo = store.utxo
  dreps_eq : store'.dreps = store.dreps
  ccMembers_eq : store'.ccMembers = store.ccMembers
  proposals_eq : store'.proposals = store.proposals
  recentlyUnregistered_eq : store'.recentlyUnregisteredAccounts = store.recentlyUnregisteredAccounts
  get?_accounts : ∀ cred, store'.accounts.get? cred = (store.accounts.get? cred).map (·.pay (owed
      ((overlay.poolsUpdates.map (·.refunds.entries)).getD []) cred))
  get?_pools : ∀ pool, store'.pools.get? pool = if overlay.isPoolRetired pool then none
    else (store.pools.get? pool).map fun row ↦
      ((overlay.poolsUpdates.bind (·.updated.get? pool)).getD row)
  treasury_eq : store'.pots.treasury = store.pots.treasury +
    unpayable store.accounts.contains ((overlay.poolsUpdates.map (·.refunds.entries)).getD [])

theorem updatesPools_applyPoolsUpdates (overlay : StateOverlay) (store : Store) :
    UpdatesPools overlay store (overlay.applyPoolsUpdates store) := by
  rcases hupdates : overlay.poolsUpdates with - | updates
  · have heq : overlay.applyPoolsUpdates store = store := by rw [applyPoolsUpdates, hupdates]
    rw [heq]
    refine ⟨rfl, rfl, rfl, rfl, rfl, rfl, fun cred ↦ ?_, fun pool ↦ ?_, ?_⟩
    · simp [hupdates, owed, AccountRow.pay]
    · simp [hupdates, isPoolRetired]
    · simp [hupdates, unpayable]
  · have heq : overlay.applyPoolsUpdates store =
        (store.updateOrRetirePools updates.updated updates.retired).payOrRefundAccounts
          updates.refunds.entries := by rw [applyPoolsUpdates, hupdates]
    rw [heq]
    refine ⟨rfl, rfl, rfl, rfl, rfl, rfl, fun cred ↦ ?_, fun pool ↦ ?_, ?_⟩
    · rw [hupdates]
      exact get?_refundAll cred _ _
    · rw [isPoolRetired, hupdates]
      change (store.pools.filterMap _).get? pool = _
      rw [get?_filterMap]
      by_cases hpool : pool ∈ updates.retired <;> cases store.pools.get? pool <;> simp [hpool]
    · rw [hupdates, map_some, getD_some, ← leftovers_refundAll]
      rfl

/-- **What the start of a new epoch writes.** -/
theorem opens_of_openEpoch (h : overlay.openEpoch store = .ok store') : Opens overlay store store' := by
  obtain ⟨htip, hutxo, hdreps, hcc, hproposals, hrecent, haccounts, hpools, htreasury⟩ :=
    updatesPools_applyPoolsUpdates overlay
      (((store.pruneRecentlyUnregisteredAccounts overlay.epoch).resetBlocksCount).resetFeesAndDonations)
  rw [openEpoch] at h
  generalize overlay.applyPoolsUpdates _ = updated at *
  have hcontains : updated.accounts.contains = store.accounts.contains := by
    funext cred
    rw [contains, haccounts, isSome_map]
    rfl
  rw [applyGovernanceUpdates] at h
  rcases hupdates : overlay.governanceUpdates with - | updates <;> rw [hupdates] at h
  · cases h
    refine ⟨htip, hutxo, hdreps, hrecent, fun cred ↦ ?_, hpools, ?_, fun id ↦ ?_, ?_⟩
    · rw [haccounts, pendingPayouts, hupdates, map_none, getD_none, List.append_nil]
      rfl
    · rw [hcc, hupdates]
      rfl
    · simp [hproposals, hasPrunedProposal, hupdates, resetFeesAndDonations,
        resetBlocksCount, pruneRecentlyUnregisteredAccounts]
    · rw [htreasury, totalWithdrawn, pendingPayouts, hupdates]
      simp only [map_none, getD_none, List.append_nil, Nat.add_zero]
      rfl
  · obtain ⟨htip', hutxo', hdreps', hpools', hrecent', haccounts', hcc', hproposals', htreasury'⟩ :=
      enacts_of_applyGovernanceUpdates h
    have hpayouts : overlay.pendingPayouts =
        ((overlay.poolsUpdates.map (·.refunds.entries)).getD []) ++
          (updates.depositRefunds.entries ++ updates.treasuryWithdrawals.entries) := by
      rw [pendingPayouts, hupdates]
      rfl
    refine ⟨htip'.trans htip, hutxo'.trans hutxo, hdreps'.trans hdreps, hrecent'.trans hrecent,
      fun cred ↦ ?_, fun pool ↦ ?_, ?_, fun id ↦ ?_, ?_⟩
    · rw [haccounts', haccounts, hpayouts, owed_append _ (_ ++ _), map_map]
      congr 1
      funext row
      simp [AccountRow.pay, Nat.add_assoc]
    · rw [hpools', hpools]
      rfl
    · rw [hcc', hcc, hupdates]
      rfl
    · rw [hproposals', hproposals, hasPrunedProposal, hupdates, get?_filter]
      change (store.proposals.get? id).filter _ = _
      by_cases hpruned : updates.prunedProposals.contains id <;>
        cases store.proposals.get? id <;> simp [hpruned]
    · rw [totalWithdrawn, hupdates, map_some, getD_some, htreasury', htreasury,
        hcontains, hpayouts, unpayable, unpayable, unpayable, List.filter_append _ (_ ++ _),
        List.map_append, List.sum_append, ← Nat.add_assoc]
      rfl

theorem tip_of_apply (h : overlay.apply store = .ok store') : store'.tip = store.tip := by
  obtain ⟨ended, hended, hopen⟩ := exists_of_apply h
  have htip := tip_of_endEpoch hended
  rwa [← (opens_of_openEpoch hopen).tip_eq] at htip

end StateOverlay

end Amaru
