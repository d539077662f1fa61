import Amaru.Ledger.Governance.Ratification

/-!
# What an epoch boundary changes

The three outcomes of a boundary, each computed once when it is crossed: the rewards of the closing
epoch, the updates of the pools and those of governance. They stay in memory until the boundary is
stable, so everything that reads the ledger in between must take them into account.

Rewards are **computed** during an epoch and become **effective** at its end, when the accounts that
cannot be paid any more are known. Going back is forgetting who they are.
-/

namespace Amaru

/-! ### Rewards -/

/-- The rewards of an epoch. -/
structure Rewards where
  deltaReserves : ℕ
  deltaTreasury : ℕ
  /-- The total over all accounts, including those that cannot be paid. -/
  totalRewards : ℕ
  accounts : SortedMap Credential ℕ
  poolsOwners : SortedSet Credential

namespace Rewards

/-- The accounts with a reward that cannot be paid. -/
def unclaimedRewards (rewards : Rewards) (unreachable : List Credential) : SortedSet Credential :=
  (unreachable.filter fun cred ↦ (rewards.accounts.get? cred).any (0 < ·)).foldl SortedSet.add ∅

end Rewards

/-- The rewards of an epoch that ended. -/
structure EffectiveRewards extends Rewards where
  unclaimed : SortedSet Credential

namespace EffectiveRewards

variable (rewards : EffectiveRewards)

/-- The reward to pay to an account. -/
def rewardOf (account : Credential) : ℕ :=
  if account ∈ rewards.unclaimed then 0 else (rewards.accounts.get? account).getD 0

/-- The rewards that cannot be paid. -/
def totalUnclaimedRewards : ℕ :=
  (rewards.unclaimed.keys.filterMap rewards.accounts.get?).sum

/-- What goes to the treasury, with the rewards that cannot be paid. -/
def deltaTreasuryWithUnclaimed : ℕ :=
  rewards.deltaTreasury + rewards.totalUnclaimedRewards

end EffectiveRewards

/-- Where the rewards are. -/
inductive RewardsState
  | notReady
  | computed (rewards : Rewards)
  | effective (rewards : EffectiveRewards)

namespace RewardsState

/-- The rewards when the end of their epoch is rolled back. -/
def rollback : RewardsState → RewardsState
  | effective rewards => computed rewards.toRewards
  | state => state

end RewardsState

/-! ### Pools -/

/-- Why a boundary cannot be computed. -/
inductive EpochTransitionError
  | retiredAtAnotherEpoch (pool : PoolId)
  | expiredProposalNotPruned (id : ProposalId)
  | ratification (error : RatificationInternalError)

/-- What the certificates of a pool come to at an epoch. -/
structure PendingPoolCertificates where
  certificate : Option PoolCertificate := none
  nextCertificates : List PoolCertificate := []

namespace PendingPoolCertificates

/-- Take one more certificate into account. -/
def fold (currentEpoch : ℕ) (folded : PendingPoolCertificates) : PoolCertificate → PendingPoolCertificates
  -- a registration cancels the retirements before it, later ones included
  | .registration params => { certificate := some (.registration params), nextCertificates := [] }
  | .retirement effectiveIn =>
    if effectiveIn ≤ currentEpoch then
      { certificate := some (.retirement effectiveIn), nextCertificates := [] }
    else
      { certificate := match folded.certificate with
          | some (.retirement _) => none
          | certificate => certificate
        nextCertificates := folded.nextCertificates ++ [.retirement effectiveIn] }

end PendingPoolCertificates

/-- The certificates that take effect at an epoch, and those that remain. -/
def pendingAfter (certificates : List PoolCertificate) (currentEpoch : ℕ) : PendingPoolCertificates :=
  certificates.foldl (PendingPoolCertificates.fold currentEpoch) {}

/-- The updates of the pools at a boundary. -/
structure PoolsEpochTransitionUpdates where
  retired : SortedSet PoolId := ∅
  updated : SortedMap PoolId PoolRow := ∅
  refunds : SortedMap Credential ℕ := ∅

namespace PoolsEpochTransitionUpdates

variable (updates : PoolsEpochTransitionUpdates)

/-- The deposit refunded to an account. -/
def refund (account : Credential) : ℕ :=
  (updates.refunds.get? account).getD 0

/-- Retire a pool. -/
def retirePool (pool : PoolRow) : PoolsEpochTransitionUpdates :=
  { updates with
    retired := updates.retired.add pool.currentParams.id
    refunds := updates.refunds.alter pool.currentParams.rewardAccount.credential fun refunded ↦
      some (refunded.getD 0 + pool.deposit) }

/-- Update a pool. -/
def updatePool (pool : PoolRow) : PoolsEpochTransitionUpdates :=
  { updates with updated := updates.updated.insert pool.currentParams.id pool }

/-- What becomes of a pool at an epoch. -/
def tickPool (epoch : ℕ) (updates : PoolsEpochTransitionUpdates) (pool : PoolRow) :
    Except EpochTransitionError PoolsEpochTransitionUpdates :=
  let pending := pendingAfter pool.pendingCertificates epoch
  match pending.certificate with
  | some (.retirement effectiveIn) =>
    if effectiveIn = epoch then .ok (updates.retirePool pool)
    else .error (.retiredAtAnotherEpoch pool.currentParams.id)
  | some (.registration params) =>
    .ok (updates.updatePool { pool with
      currentParams := { params with id := pool.currentParams.id }
      pendingCertificates := pending.nextCertificates })
  | none =>
    if pending.nextCertificates.length < pool.pendingCertificates.length then
      .ok (updates.updatePool { pool with pendingCertificates := pending.nextCertificates })
    else .ok updates

/-- The updates of all the pools at an epoch. -/
def new (pools : SortedMap PoolId PoolRow) (epoch : ℕ) :
    Except EpochTransitionError PoolsEpochTransitionUpdates :=
  pools.values.foldlM (tickPool epoch) {}

end PoolsEpochTransitionUpdates

/-! ### Governance -/

/-- The outcome of a round of ratification. -/
structure GovernanceUpdates where
  roots : ProposalsRoots
  protocolParameters : ProtocolParameters
  prunedProposals : SortedMap ProposalId RatificationStatus
  depositRefunds : SortedMap Credential ℕ
  treasuryWithdrawals : SortedMap Credential ℕ
  isDormantEpoch : Bool
  constitutionalCommittee : Option ConstitutionalCommitteeUpdate
  newConstitution : Option Constitution

namespace GovernanceUpdates

/-- What governance pays to an account. -/
def payout (updates : GovernanceUpdates) (account : Credential) : ℕ :=
  (updates.depositRefunds.get? account).getD 0 + (updates.treasuryWithdrawals.get? account).getD 0

/-- Take one proposal into account, once ratification is over: its refund if it leaves the ledger,
and otherwise whether it keeps governance from being dormant. -/
def settle (epoch : ℕ) (pruned : SortedMap ProposalId RatificationStatus)
    (acc : Bool × SortedMap Credential ℕ) (e : ProposalId × ProposalState) :
    Except EpochTransitionError (Bool × SortedMap Credential ℕ) :=
  if pruned.contains e.1 then
    .ok (acc.1, acc.2.alter e.2.proposal.rewardAccount.credential fun balance ↦
      some (balance.getD 0 + e.2.proposal.deposit))
  else if epoch = e.2.validUntil then .error (.expiredProposalNotPruned e.1)
  else .ok (acc.1 && decide (e.2.validUntil < epoch + 2), acc.2)

/-- Ratify the proposals. -/
def new (roots : ProposalsRoots) (proposals : SortedMap ProposalId ProposalState)
    (eras : EraHistory) (ctx : RatificationContext) :
    Except EpochTransitionError GovernanceUpdates := do
  let candidates : List (ProposalId × CandidateProposal) := proposals.entries.map fun (id, row) ↦
    (id, { validUntil := row.validUntil, proposedIn := row.proposedIn,
           governanceAction := row.proposal.govAction })
  let (ctx', roots, prunedProposals) ← (ctx.ratifyProposals eras candidates roots).mapError .ratification
  let (isDormantEpoch, depositRefunds) ←
    proposals.entries.foldlM (settle ctx.epoch prunedProposals) (true, ∅)
  return {
    roots, prunedProposals, depositRefunds, isDormantEpoch
    protocolParameters := ctx'.protocolParameters
    treasuryWithdrawals := ctx'.withdrawals
    constitutionalCommittee := ctx'.constitutionalCommitteeUpdate
    newConstitution := ctx'.newConstitution }

end GovernanceUpdates

end Amaru
