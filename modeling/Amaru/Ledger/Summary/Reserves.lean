import Amaru.Ledger.Summary.Rewards

/-!
# What the rewards take out of the reserves

The incentives come out of the reserves and what is not given out goes back: the difference is what the
boundary takes, `deltaReserves`. The source computes it as an unsigned integer, and it is **negative when
the fees are more than the tax and the rewards together**: then nothing comes out, and the rest of the
fees would have to go in.

Where it is not negative, the fees and what comes out of the reserves are the tax and the rewards, and
paying the rewards moves lovelace without making or losing any.
-/

namespace Amaru

open SortedMap

/-! ### Paying -/

namespace Store

/-- What the accounts have. -/
def accountsRewards (s : Store) : ℕ := s.accounts.sumBy fun _ row ↦ row.rewards

/-- **Paying the rewards moves them** from the reserves, with the fees they were computed from. -/
theorem conserves_of_payRewards {s s' : Store} {rewards : EffectiveRewards}
    (h : s.payRewards rewards = .ok s') :
    s'.pots.reserves + s'.pots.treasury + s'.accountsRewards + rewards.deltaReserves =
      s.pots.reserves + s.pots.treasury + s.accountsRewards + rewards.deltaTreasury +
        rewards.totalRewards := by
  rw [payRewards] at h
  split_ifs at h with hpaid hreserves
  cases h
  have haccounts : (s.accounts.map fun cred row ↦
      row.pay (rewards.rewardOf cred)).sumBy (fun _ row ↦ row.rewards) =
      s.accountsRewards + s.accounts.sumBy fun cred _ ↦ rewards.rewardOf cred := by
    rw [sumBy_map, accountsRewards, ← sumBy_add]
    rfl
  rw [accountsRewards]
  dsimp only
  rw [haccounts, EffectiveRewards.deltaTreasuryWithUnclaimed]
  omega

end Store

namespace Summary

namespace RewardsSummary

variable {rewards : RewardsSummary}

/-! ### What the pools give out -/

section

variable (summary : StakeSummary)

/-- What a pool earns, by the stakes of the distribution. -/
def potOf (budget : Budget) (pp : ProtocolParameters) (pool : PoolState) : Except ArithmeticError ℕ :=
  pool.poolRewards (((budget.blocksPerPool.get? pool.parameters.id).getD 0 : ℕ) / budget.blocksCount)
    budget.availableRewards budget.activeStake budget.totalStake (pool.ownerStake summary.accounts)
    pp

/-- What the leader of a pool gets. -/
def leaderShare (budget : Budget) (pp : ProtocolParameters) (pool : PoolState) : ℕ :=
  match potOf summary budget pp pool >>= fun pot ↦
    pool.leaderRewards pot (pool.ownerStake summary.accounts) budget.totalStake with
  | .ok leader => leader
  | .error _ => 0

/-- What a member of a pool gets. -/
def memberShare (budget : Budget) (pp : ProtocolParameters)
    (pool : PoolState) (cred : Credential) (account : AccountState) : ℕ :=
  match potOf summary budget pp pool >>= fun pot ↦
    pool.memberRewards cred pot account.balance budget.totalStake with
  | .ok reward => reward
  | .error _ => 0

/-- What the pools give out to their leaders and to those who delegate to them. -/
def distributed (budget : Budget) (pp : ProtocolParameters) : ℕ :=
  summary.stakeDistribution.pools.sumBy fun id pool ↦
    leaderShare summary budget pp pool +
      summary.accounts.sumBy fun cred account ↦ if account.pool = some id then
        memberShare summary budget pp pool cred account else 0

end

section

variable {summary : StakeSummary} {budget : Budget} {pp : ProtocolParameters}
  {leaders : Leaders} {id : PoolId} {pool : PoolState} {rewards : PoolRewards}

theorem Earns.leaderShare_eq (hearns : Earns summary budget pp pool rewards) :
    leaderShare summary budget pp pool = rewards.leader := by
  rw [leaderShare, potOf, hearns.pot_eq]
  change (match pool.leaderRewards rewards.pot _ _ with
    | .ok leader => leader
    | .error _ => 0) = _
  rw [hearns.leader_eq]

section

variable (hrewarded : Rewarded summary budget pp summary.stakeDistribution.pools.entries
  leaders) (hsummary : summary.Coherent) (hpool : summary.stakeDistribution.pools.get? id = some pool)
include hrewarded hsummary hpool

/-- What an account gets as a member of its pool, by the stakes of the distribution. -/
theorem Rewarded.memberReward_eq (cred : Credential) {account} (haccount : account.pool = some id) :
    memberReward summary.stakeDistribution.pools leaders.pools budget.totalStake (cred, account) =
      memberShare summary budget pp pool cred account := by
  obtain ⟨rewards, hget, hearns⟩ := hrewarded.earns (id, pool) (mem_entries_iff.2 hpool)
  rw [memberReward, memberRewards, haccount, Option.bind_some, hpool]
  dsimp only
  rw [hsummary.named id pool hpool, hget, memberShare, potOf, hearns.pot_eq]
  rfl

/-- The sums over the members of a pool agree: crediting the leaders changed no stake. -/
theorem Rewarded.sumBy_memberReward :
    leaders.memberRewards summary budget id = summary.accounts.sumBy fun cred account ↦
      if account.pool = some id then
        memberShare summary budget pp pool cred account else 0 := by
  refine Eq.trans ?_ (hrewarded.sameStakes.sumBy_eq (fun cred stake ↦
    if stake.2 = some id then memberShare summary budget pp pool cred
      { balance := stake.1, pool := stake.2 } else 0) fun _ ↦ rfl)
  refine sumBy_congr fun cred account _ ↦ ?_
  split_ifs with haccount
  · rw [hrewarded.memberReward_eq hsummary hpool cred haccount]
    rfl
  · rfl

end

/-- **All rewards together are what the pools give out.** -/
theorem effectiveRewards_eq_distributed {members} (hsummary : summary.Coherent)
    (hrewarded : Rewarded summary budget pp summary.stakeDistribution.pools.entries leaders)
    (hshared : Shared summary.stakeDistribution.pools budget.totalStake leaders
      (memberReward summary.stakeDistribution.pools leaders.pools budget.totalStake)
      leaders.accounts.entries members) :
    members.effectiveRewards = distributed summary budget pp := by
  rw [effectiveRewards_eq_sum hrewarded hshared, distributed, sumBy_eq_sum]
  refine Finset.sum_congr rfl fun id hid ↦ ?_
  obtain ⟨pool, hpool⟩ := Option.isSome_iff_exists.1 (mem_toFinset_keys.1 hid)
  obtain ⟨rewards, hget, hearns⟩ := hrewarded.earns (id, pool) (mem_entries_iff.2 hpool)
  rw [hget, hpool]
  change rewards.leader + _ = leaderShare summary budget pp pool + _
  rw [hearns.leaderShare_eq, hrewarded.sumBy_memberReward hsummary hpool]

end

/-! ### Exact -/

/-- The reserves are taken what is given out and no fees paid for, and paying conserves lovelace: the
fees that the rewards were computed from end up in the treasury or in accounts. -/
structure ReservesExact (pots : Pots) (rewards : RewardsSummary) : Prop where
  exists_delta : ∃ delta, rewards.deltaReserves = .ok delta ∧ delta ≤ pots.reserves ∧
    delta + pots.fees = rewards.treasuryTax + rewards.effectiveRewards
  conserves : ∀ computed unclaimed (s s' : Store), rewards.toRewards = .ok computed →
    s.payRewards { computed with unclaimed } = .ok s' →
    s'.pots.reserves + s'.pots.treasury + s'.accountsRewards =
      s.pots.reserves + s.pots.treasury + s.accountsRewards + pots.fees

theorem toRewards_eq_ok {computed : Rewards} (h : rewards.toRewards = .ok computed) :
    rewards.deltaReserves = .ok computed.deltaReserves ∧ computed.deltaTreasury = rewards.treasuryTax ∧
      computed.totalRewards = rewards.effectiveRewards ∧
      computed.accounts = rewards.accounts.map (fun _ account ↦ account.rewards) ∧
      computed.poolsOwners = rewards.leaderRecipients := by
  obtain ⟨delta, hdelta, h⟩ := Except.bind_eq_ok_iff.1 h
  cases h
  exact ⟨hdelta, rfl, rfl, rfl, rfl⟩

theorem reservesExact_iff {pots : Pots}
    (havailable : rewards.availableRewards + rewards.treasuryTax = rewards.incentives + pots.fees) :
    ReservesExact pots rewards ↔ pots.fees ≤ rewards.treasuryTax + rewards.effectiveRewards ∧
      rewards.treasuryTax + rewards.effectiveRewards ≤ pots.fees + pots.reserves := by
  constructor
  · rintro ⟨⟨delta, -, hdelta, heq⟩, -⟩
    omega
  · intro hfees
    have hcovered : rewards.availableRewards ≤ rewards.incentives + rewards.effectiveRewards := by
      omega
    refine ⟨⟨_, checkedSub_eq_ok hcovered, by omega, by omega⟩, ?_⟩
    intro computed unclaimed s s' hcomputed hpay
    obtain ⟨hdelta, htreasury, htotal, -, -⟩ := toRewards_eq_ok hcomputed
    have hsub := checkedSub_eq_ok_iff.1 hdelta
    have hconserves := Store.conserves_of_payRewards hpay
    dsimp only at hconserves
    omega

/-- **The reserves are exact when the fees are not more than the tax and what the pools give out, and
the reserves cover what is more than the fees**, and only then. -/
theorem reserves_exact_iff (epoch : ℕ) {db : Store} (governance : GovernanceSummary)
    {globals : GlobalParameters} {pp : ProtocolParameters} (issuers : List PoolId)
    {pots : Pots} (hpools : StakeSummary.PoolsValid db.pools) (hrates : RatesValid pp)
    (hepoch : globals.epochLength ≠ 0)
    (h : new (StakeSummary.new epoch db governance) globals pp issuers pots = .ok rewards) :
    let summary := StakeSummary.new epoch db governance
    let budget := plannedBudget globals pp issuers pots summary.stakeDistribution.activeStake
    ReservesExact pots rewards ↔
      pots.fees ≤ budget.treasuryTax + distributed summary budget pp ∧
      budget.treasuryTax + distributed summary budget pp ≤ pots.fees + pots.reserves := by
  have hsummary := StakeSummary.coherent_new epoch hpools governance
  obtain ⟨budget, leaders, members, hplanned, hbudgeted, -, -, hrewarded, hshared, rfl⟩ :=
    exists_computed hsummary hrates hepoch h
  dsimp only
  rw [← hplanned, ← effectiveRewards_eq_distributed hsummary hrewarded hshared]
  exact reservesExact_iff hbudgeted.availableRewards_eq

/-- Fees of 10 and 753 lovelace of the reserves are a tax of 182 and rewards of 581. -/
theorem reserves_exact_twoDelegators : ReservesExact (twoDelegators 10).pots sharedRewards :=
  (reserves_exact_iff 0 noGovernance tenBlocks (poolsValid_twoDelegators 10) ratesValid_fullExpansion
    (by decide) new_twoDelegators).2 (by decide +kernel)

/-- **Fees without blocks are more than is given out.** There is no pool, ten lovelace of fees were
collected in the epoch and nothing of them is given out; the unsigned difference underflows. -/
theorem reserves_underflow_of_fees : ∃ rewards,
    new (StakeSummary.new 0 blankStore noGovernance) thousandLovelace twoPools [] ⟨0, 900, 10, 0⟩ =
      .ok rewards ∧ rewards.deltaReserves = .error .underflow :=
  ⟨{ epoch := 0
     incentives := 0
     treasuryTax := 0
     availableRewards := 10
     effectiveRewards := 0
     accounts := ∅
     leaderRecipients := ∅ }, by decide +kernel⟩

end RewardsSummary

end Summary

end Amaru
