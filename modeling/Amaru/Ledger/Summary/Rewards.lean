import Amaru.Data.FiniteSums
import Amaru.Kernel.SafeRatio
import Amaru.Ledger.ReadThrough.Pools
import Amaru.Ledger.Summary.StakeDistribution
import Mathlib.Algebra.BigOperators.Field
import Mathlib.Tactic.FieldSimp
import Mathlib.Tactic.Linarith

/-!
# The rewards of an epoch

What the pools of a stake distribution earn from the pot of an epoch, and how each pool's share is
split between its leader and its members. Every subtraction and every division is one of the source, so
that a summary that is computed has met no underflow.

The share of a pool is at most the part of the pot that its blocks stand for; the leader and the members
of a pool share at most what it earned. Both are inequalities between ratios, and **integer parts only
lose**.
-/

namespace Amaru

open SortedMap SafeRatio Except Nat Finset Option Prod

/-- What the rewards need to know of the network. -/
structure GlobalParameters where
  consensusSecurityParam : ℕ
  epochLengthScaleFactor : ℕ
  activeSlotCoeffInverse : ℕ
  maxLovelaceSupply : ℕ
deriving DecidableEq, Repr

/-- The number of slots of an epoch. -/
def GlobalParameters.epochLength (globals : GlobalParameters) : ℕ :=
  globals.activeSlotCoeffInverse * globals.epochLengthScaleFactor * globals.consensusSecurityParam

namespace Summary

/-! ### The share of a pool -/

namespace PoolState

variable (pool : PoolState)

/-- The stake of the pool, as part of all. -/
def relativeStake (totalStake : ℕ) : Except ArithmeticError ℚ := safeRatio pool.stake totalStake

/-- What the owners of the pool delegate to it. -/
def ownerStake (accounts : SortedMap Credential AccountState) : ℕ :=
  ∑ owner ∈ pool.parameters.owners, match accounts.get? (.keyHash owner) with
    | some account => if account.pool = some pool.parameters.id then account.balance else 0
    | none => 0

/-- The blocks of the pool, against those expected of its stake. -/
def apparentPerformances (blocksRatio : ℚ) (activeStake : ℕ) : Except ArithmeticError ℚ :=
  if pool.stake = 0 then .ok 0 else div (blocksRatio * activeStake) pool.stake

/-- What the pool earns if it makes all the blocks expected of it. -/
def optimalRewards (availableRewards totalStake : ℕ) (pp : ProtocolParameters) :
    Except ArithmeticError ℕ := do
  let a0 := pp.pledgeInfluence
  let z0 ← safeRatio 1 pp.optimalStakePoolsCount
  let relativePledge ← safeRatio pool.parameters.pledge totalStake
  let relativeStake ← pool.relativeStake totalStake
  let p := min z0 relativePledge
  let s := min z0 relativeStake
  let left ← div availableRewards (1 + a0)
  let room ← sub z0 s
  let unsaturated ← div (p * room) z0
  let saturated ← sub s unsaturated
  let z0Factor ← div saturated z0
  return floorToLovelace (left * (s + p * a0 * z0Factor))

/-- What the pool earns. A pool that does not meet its pledge earns nothing. -/
def poolRewards (blocksRatio : ℚ) (availableRewards activeStake totalStake ownerStake : ℕ)
    (pp : ProtocolParameters) : Except ArithmeticError ℕ :=
  if pool.parameters.pledge ≤ ownerStake then do
    let performances ← pool.apparentPerformances blocksRatio activeStake
    let optimal ← pool.optimalRewards availableRewards totalStake pp
    return floorToLovelace (performances * optimal)
  else .ok 0

/-- The stake of the owners, as part of all. -/
def ownerStakeRatio (ownerStake totalStake : ℕ) : Except ArithmeticError ℚ :=
  if totalStake = 0 then .ok 0 else safeRatio ownerStake totalStake

/-- What goes to the leader of the pool: its cost, its margin, and what its owners would get as
members. -/
def leaderRewards (poolRewards ownerStake totalStake : ℕ) : Except ArithmeticError ℕ :=
  let cost := pool.parameters.cost
  if poolRewards ≤ cost then .ok poolRewards
  else do
    let relativeStake ← pool.relativeStake totalStake
    let ownerRelativeStake ← ownerStakeRatio ownerStake totalStake
    let remainder ← sub 1 pool.margin
    let ownerShare ← div (remainder * ownerRelativeStake) relativeStake
    let beyondCost ← checkedSub poolRewards cost
    return cost + floorToLovelace ((pool.margin + ownerShare) * beyondCost)

/-- Whether a credential is an owner of the pool. -/
def isOwner (member : Credential) : Bool :=
  match member with
  | .scriptHash _ => false
  | .keyHash key => decide (key ∈ pool.parameters.owners)

/-- What goes to a member of the pool. -/
def memberRewards (member : Credential) (poolRewards memberStake totalStake : ℕ) : Except ArithmeticError ℕ :=
  if pool.isOwner member then .ok 0
  else
    let cost := pool.parameters.cost
    if poolRewards ≤ cost then .ok 0
    else do
      let memberRelativeStake ← safeRatio memberStake totalStake
      let remainder ← sub 1 pool.margin
      let beyondCost ← checkedSub poolRewards cost
      let relativeStake ← pool.relativeStake totalStake
      let share ← div (remainder * beyondCost * memberRelativeStake) relativeStake
      return floorToLovelace share

end PoolState

/-! ### The rewards of all -/

/-- What a pool earned, and what its leader gets of it. -/
structure PoolRewards where
  pot : ℕ
  leader : ℕ
deriving DecidableEq, Repr

/-- The rewards of an epoch. -/
structure RewardsSummary where
  epoch : ℕ
  incentives : ℕ
  treasuryTax : ℕ
  availableRewards : ℕ
  effectiveRewards : ℕ
  accounts : SortedMap Credential AccountState
  leaderRecipients : SortedSet Credential
deriving DecidableEq

namespace RewardsSummary

/-- The number of blocks, and that of each issuer. -/
def countBlocks (issuers : List PoolId) : ℕ × SortedMap PoolId ℕ :=
  issuers.foldl (fun (total, perPool) issuer ↦
    (total + 1, perPool.alter issuer fun n ↦ some ((n.map (· + 1)).getD 1))) (0, ∅)

/-- What there is to share, and among how many. -/
structure Budget where
  incentives : ℕ
  treasuryTax : ℕ
  availableRewards : ℕ
  totalStake : ℕ
  activeStake : ℕ
  /-- The number of blocks, or one if there are none. -/
  blocksCount : ℕ
  blocksPerPool : SortedMap PoolId ℕ

/-- What there is to share. -/
def budget (globals : GlobalParameters) (pp : ProtocolParameters)
    (issuers : List PoolId) (pots : Pots) (activeStake : ℕ) : Except ArithmeticError Budget := do
  let (blocksCount, blocksPerPool) := countBlocks issuers
  let efficiency ← safeRatio (blocksCount * globals.activeSlotCoeffInverse) globals.epochLength
  let incentives := floorToLovelace (min 1 efficiency * pp.monetaryExpansionRate * pots.reserves)
  let totalRewards := incentives + pots.fees
  let treasuryTax := floorToLovelace (pp.treasuryExpansionRate * totalRewards)
  let availableRewards ← checkedSub totalRewards treasuryTax
  let totalStake ← checkedSub globals.maxLovelaceSupply pots.reserves
  return { incentives, treasuryTax, availableRewards, totalStake, activeStake
           blocksCount := max blocksCount 1, blocksPerPool }

/-- What is collected pool by pool. -/
structure Leaders where
  accounts : SortedMap Credential AccountState
  leaderRecipients : SortedSet Credential := ∅
  blocksPerPool : SortedMap PoolId ℕ
  pools : SortedMap PoolId PoolRewards := ∅
  effectiveRewards : ℕ := 0

/-- Credit the leader of a pool. Its reward account need not be an account. -/
def creditLeader (accounts : SortedMap Credential AccountState) (cred : Credential)
    (reward : ℕ) : SortedMap Credential AccountState :=
  accounts.alter cred fun account ↦ some (match account with
    | some account => { account with rewards := account.rewards + reward }
    | none => { rewards := reward })

/-- Reward the leader of a pool. -/
def applyLeaderRewards (budget : Budget) (pp : ProtocolParameters) (leaders : Leaders)
    (pool : PoolState) : Except ArithmeticError (PoolRewards × Leaders) := do
  let ownerStake := pool.ownerStake leaders.accounts
  let blocksRatio ← safeRatio ((leaders.blocksPerPool.get? pool.parameters.id).getD 0) budget.blocksCount
  let pot ← pool.poolRewards blocksRatio budget.availableRewards budget.activeStake
    budget.totalStake ownerStake pp
  let leader ← pool.leaderRewards pot ownerStake budget.totalStake
  let cred := pool.parameters.rewardAccount.credential
  return ({ pot, leader }, { leaders with
    blocksPerPool := leaders.blocksPerPool.erase pool.parameters.id
    leaderRecipients := if 0 < leader then leaders.leaderRecipients.add cred
      else leaders.leaderRecipients
    accounts := if 0 < leader then creditLeader leaders.accounts cred leader
      else leaders.accounts })

/-- One pool of the first pass. -/
def addLeader (budget : Budget) (pp : ProtocolParameters) (leaders : Leaders)
    (entry : PoolId × PoolState) : Except ArithmeticError Leaders := do
  let (rewards, leaders) ← applyLeaderRewards budget pp leaders entry.2
  return { leaders with
    pools := leaders.pools.insert entry.1 rewards
    effectiveRewards := leaders.effectiveRewards + rewards.leader }

/-- The first pass: the leaders, pool by pool. -/
def leaders (summary : StakeSummary) (budget : Budget) (pp : ProtocolParameters) :
    Except ArithmeticError Leaders :=
  summary.stakeDistribution.pools.entries.foldlM (addLeader budget pp)
    { accounts := summary.accounts, blocksPerPool := budget.blocksPerPool }

section

variable (pools : SortedMap PoolId PoolState)

/-- What an account gets as a member of its pool. -/
def memberRewards (rewards : SortedMap PoolId PoolRewards)
    (totalStake : ℕ) (entry : Credential × AccountState) : Except ArithmeticError ℕ :=
  match entry.2.pool.bind pools.get? with
  | some pool => match rewards.get? pool.parameters.id with
    | some rewards => pool.memberRewards entry.1 rewards.pot entry.2.balance totalStake
    | none => .ok 0
  | none => .ok 0

/-- What is collected account by account. -/
structure Members where
  accounts : SortedMap Credential AccountState
  effectiveRewards : ℕ

/-- One account of the second pass. -/
def addMember (rewards : SortedMap PoolId PoolRewards)
    (totalStake : ℕ) (members : Members) (entry : Credential × AccountState) :
    Except ArithmeticError Members := do
  let reward ← memberRewards pools rewards totalStake entry
  return {
    accounts := if 0 < reward then
      members.accounts.insert entry.1 { entry.2 with rewards := entry.2.rewards + reward }
      else members.accounts
    effectiveRewards := members.effectiveRewards + reward }

/-- The second pass: the members, account by account. -/
def members (totalStake : ℕ) (leaders : Leaders) : Except ArithmeticError Members :=
  leaders.accounts.entries.foldlM (addMember pools leaders.pools totalStake)
    { accounts := leaders.accounts, effectiveRewards := leaders.effectiveRewards }

end

/-- The rewards of an epoch, from the stake distribution its leaders were drawn from. -/
def new (summary : StakeSummary) (globals : GlobalParameters)
    (pp : ProtocolParameters) (issuers : List PoolId) (pots : Pots) :
    Except ArithmeticError RewardsSummary := do
  let budget ← budget globals pp issuers pots summary.stakeDistribution.activeStake
  let leaders ← leaders summary budget pp
  let members ← members summary.stakeDistribution.pools budget.totalStake leaders
  return {
    epoch := summary.stakeDistribution.epoch
    incentives := budget.incentives
    treasuryTax := budget.treasuryTax
    availableRewards := budget.availableRewards
    effectiveRewards := members.effectiveRewards
    accounts := members.accounts
    leaderRecipients := leaders.leaderRecipients }

/-- What comes out of the reserves. -/
def deltaReserves (summary : RewardsSummary) : Except ArithmeticError ℕ :=
  checkedSub (summary.incentives + summary.effectiveRewards) summary.availableRewards

/-- What goes to the treasury. -/
def deltaTreasury (summary : RewardsSummary) : ℕ := summary.treasuryTax

/-- The rewards to cross the boundary with. -/
def toRewards (summary : RewardsSummary) : Except ArithmeticError Rewards := do
  let deltaReserves ← summary.deltaReserves
  return {
    deltaReserves
    deltaTreasury := summary.deltaTreasury
    totalRewards := summary.effectiveRewards
    accounts := summary.accounts.map fun _ account ↦ account.rewards
    poolsOwners := summary.leaderRecipients }

end RewardsSummary

/-! ### The share of a pool, bounded -/

/-- What is taken off for the pledge that is missing to saturation is within the stake. -/
theorem unsaturated_le {p s z : ℚ} (hp : 0 ≤ p) (hps : p ≤ s) (hz : 0 < z) : p * (z - s) / z ≤ s := by
  have hroom : (z - s) / z ≤ 1 := (div_le_one hz).2 (by linarith)
  calc p * (z - s) / z = p * ((z - s) / z) := mul_div_assoc _ _ _
    _ ≤ p * 1 := mul_le_mul_of_nonneg_left hroom hp
    _ ≤ s := by rwa [mul_one]

/-- **The formula of the optimal rewards is at most the part of the stake**, whatever the influence of
the pledge. -/
theorem optimal_le {r a p s z : ℚ} (hr : 0 ≤ r) (ha : 0 ≤ a) (hp : 0 ≤ p) (hps : p ≤ s)
    (hsz : s ≤ z) (hz : 0 < z) :
    r / (1 + a) * (s + p * a * ((s - p * (z - s) / z) / z)) ≤ r * s := by
  have hunsaturated : 0 ≤ p * (z - s) / z :=
    div_nonneg (mul_nonneg hp (by linarith)) hz.le
  have hfactor : p * ((s - p * (z - s) / z) / z) ≤ s := by
    calc p * ((s - p * (z - s) / z) / z) ≤ z * (s / z) := by
          refine mul_le_mul (hps.trans hsz) (div_le_div_of_nonneg_right (by linarith) hz.le) ?_ hz.le
          exact div_nonneg (by linarith [unsaturated_le hp hps hz]) hz.le
      _ = s := mul_div_cancel₀ s hz.ne'
  have hsum : s + p * a * ((s - p * (z - s) / z) / z) ≤ s * (1 + a) := by
    have := mul_le_mul_of_nonneg_left hfactor ha
    linarith
  calc r / (1 + a) * (s + p * a * ((s - p * (z - s) / z) / z))
      ≤ r / (1 + a) * (s * (1 + a)) :=
        mul_le_mul_of_nonneg_left hsum (div_nonneg hr (by linarith))
    _ = r * s := by
        field_simp

namespace PoolState

variable {pool : PoolState} {pp : ProtocolParameters} {availableRewards : ℕ}
  {member : Credential} {totalStake activeStake ownerStake : ℕ}

/-- A pool whose pledge is within its stake earns at most the part of its stake. -/
theorem exists_optimalRewards (availableRewards : ℕ) (htotal : totalStake ≠ 0)
    (hcount : pp.optimalStakePoolsCount ≠ 0)
    (hinfluence : 0 ≤ pp.pledgeInfluence)
    (hpledge : pool.parameters.pledge ≤ pool.stake) :
    ∃ optimal, pool.optimalRewards availableRewards totalStake pp = .ok optimal ∧
      (optimal : ℚ) ≤ availableRewards * (pool.stake / totalStake) := by
  set z : ℚ := ((1 : ℕ) : ℚ) / pp.optimalStakePoolsCount with hz
  set p : ℚ := min z (pool.parameters.pledge / totalStake) with hp
  set s : ℚ := min z (pool.stake / totalStake) with hs
  have hzpos : 0 < z := by
    positivity
  have hp0 : 0 ≤ p := le_min hzpos.le (by positivity)
  have hps : p ≤ s := by
    refine min_le_min_left z (div_le_div_of_nonneg_right ?_ (cast_nonneg _))
    exact_mod_cast hpledge
  have hsz : s ≤ z := min_le_left _ _
  have hunsaturated := unsaturated_le hp0 hps hzpos
  have hinfluence' : (1 : ℚ) + pp.pledgeInfluence ≠ 0 := by linarith
  refine ⟨floorToLovelace (availableRewards / (1 + pp.pledgeInfluence) *
    (s + p * pp.pledgeInfluence * ((s - p * (z - s) / z) / z))), ?_, ?_⟩
  · rw [optimalRewards, relativeStake, safeRatio_eq_ok _ hcount, safeRatio_eq_ok _ htotal,
      safeRatio_eq_ok _ htotal]
    change (div _ _ >>= fun left ↦ sub z s >>= fun room ↦
      div (p * room) z >>= fun unsaturated ↦ sub s unsaturated >>=
        fun saturated ↦ div saturated z >>= fun z0Factor ↦ pure (floorToLovelace
          (left * (s + p * pp.pledgeInfluence * z0Factor)))) = _
    rw [div_eq_ok _ hinfluence', sub_eq_ok hsz]
    change (div (p * (z - s)) z >>= _) = _
    rw [div_eq_ok _ hzpos.ne']
    change (sub s (p * (z - s) / z) >>= _) = _
    rw [sub_eq_ok hunsaturated]
    change (div _ z >>= _) = _
    rw [div_eq_ok _ hzpos.ne']
    rfl
  · have hbound := optimal_le (cast_nonneg availableRewards) hinfluence hp0 hps hsz hzpos
    refine (floorToLovelace_le ?_).trans (hbound.trans ?_)
    · have : 0 ≤ (s - p * (z - s) / z) / z := div_nonneg (by linarith) hzpos.le
      positivity
    · exact mul_le_mul_of_nonneg_left (min_le_right _ _) (cast_nonneg _)

/-- **A pool earns at most the part of the pot that its blocks stand for** if the active stake is in
circulation, and nothing without stake. -/
theorem exists_poolRewards {blocks blocksCount : ℕ}
    (hinfluence : 0 ≤ pp.pledgeInfluence) (howner : ownerStake ≤ pool.stake)
    (hpledge : pool.parameters.pledge ≤ ownerStake → totalStake ≠ 0 ∧ pp.optimalStakePoolsCount ≠ 0) :
    ∃ pot, pool.poolRewards (blocks / blocksCount) availableRewards activeStake totalStake ownerStake
        pp = .ok pot ∧
      (activeStake ≤ totalStake → (pot : ℚ) ≤ availableRewards * (blocks / blocksCount)) ∧
      (pot ≠ 0 → pool.stake ≠ 0 ∧ totalStake ≠ 0) := by
  by_cases hmeets : pool.parameters.pledge ≤ ownerStake
  · obtain ⟨htotal, hcount⟩ := hpledge hmeets
    obtain ⟨optimal, hoptimal, hbound⟩ := exists_optimalRewards availableRewards htotal hcount
      hinfluence (hmeets.trans howner)
    by_cases hstake : pool.stake = 0
    · refine ⟨floorToLovelace (0 * optimal), ?_, fun _ ↦ ?_, ?_⟩
      · rw [poolRewards, if_pos hmeets, apparentPerformances, if_pos hstake, hoptimal]
        rfl
      · simp only [zero_mul, floorToLovelace, floor_zero, cast_zero]
        positivity
      · simp [floorToLovelace]
    · have hstake' : (pool.stake : ℚ) ≠ 0 := cast_ne_zero.2 hstake
      refine ⟨floorToLovelace (blocks / blocksCount * activeStake / pool.stake * optimal), ?_,
        fun hactive ↦ ?_, fun _ ↦ ⟨hstake, htotal⟩⟩
      · rw [poolRewards, if_pos hmeets, apparentPerformances, if_neg hstake, div_eq_ok _ hstake', hoptimal]
        rfl
      · refine (floorToLovelace_le (by positivity)).trans ?_
        have hpart : (activeStake : ℚ) / totalStake ≤ 1 := by
          refine (div_le_one (by positivity)).2 ?_
          exact_mod_cast hactive
        calc (blocks : ℚ) / blocksCount * activeStake / pool.stake * optimal
            ≤ blocks / blocksCount * activeStake / pool.stake *
                (availableRewards * (pool.stake / totalStake)) :=
              mul_le_mul_of_nonneg_left hbound (by positivity)
          _ = availableRewards * (blocks / blocksCount) * (activeStake / totalStake) := by
              field_simp
          _ ≤ availableRewards * (blocks / blocksCount) * 1 :=
              mul_le_mul_of_nonneg_left hpart (by positivity)
          _ = availableRewards * (blocks / blocksCount) := mul_one _
  · refine ⟨0, if_neg hmeets, fun _ ↦ ?_, fun h ↦ absurd rfl h⟩
    positivity

/-- A pool that meets its pledge is divided by the stake and by the number of pools, whatever they
are. -/
theorem poolRewards_eq_error {blocksRatio : ℚ} (hpledge : pool.parameters.pledge ≤ ownerStake)
    (hzero : totalStake = 0 ∨ pp.optimalStakePoolsCount = 0) :
    pool.poolRewards blocksRatio availableRewards activeStake totalStake ownerStake
      pp = .error .divisionByZero := by
  have hoptimal : pool.optimalRewards availableRewards totalStake pp = .error .divisionByZero := by
    rw [optimalRewards]
    by_cases hcount : pp.optimalStakePoolsCount = 0
    · rw [hcount]
      rfl
    · rw [safeRatio_eq_ok _ hcount, hzero.resolve_right hcount]
      rfl
  rw [poolRewards, if_pos hpledge, hoptimal, apparentPerformances]
  by_cases hstake : pool.stake = 0
  · rw [if_pos hstake]
    rfl
  · rw [if_neg hstake, div_eq_ok _ (cast_ne_zero.2 hstake)]
    rfl

/-! ### The split of a pool -/

variable {pot : ℕ}

section

variable (hcost : pool.parameters.cost < pot) (hstake : pool.stake ≠ 0) (htotal : totalStake ≠ 0)
  (hmargin : pool.margin ≤ 1)
include hcost hstake htotal hmargin

/-- What the leader gets, where the pool has earned more than its cost. -/
theorem leaderRewards_eq :
    pool.leaderRewards pot ownerStake totalStake = .ok (pool.parameters.cost + floorToLovelace
      ((pool.margin + (1 - pool.margin) * (ownerStake / pool.stake)) *
        (pot - pool.parameters.cost : ℕ))) := by
  have htotal' : (totalStake : ℚ) ≠ 0 := cast_ne_zero.2 htotal
  have hratio : (pool.stake : ℚ) / totalStake ≠ 0 := div_ne_zero (cast_ne_zero.2 hstake) htotal'
  rw [leaderRewards, if_neg (not_le.2 hcost), relativeStake, safeRatio_eq_ok _ htotal,
    ownerStakeRatio, if_neg htotal, safeRatio_eq_ok _ htotal, sub_eq_ok hmargin]
  change (div _ _ >>= _) = _
  rw [div_eq_ok _ hratio, mul_div_assoc, div_div_div_cancel_right₀ htotal', checkedSub_eq_ok hcost.le]
  rfl

/-- What a member gets, where the pool has earned more than its cost. -/
theorem memberRewards_eq (hmember : pool.isOwner member = false) (memberStake : ℕ) :
    pool.memberRewards member pot memberStake totalStake = .ok (floorToLovelace
      ((1 - pool.margin) * (pot - pool.parameters.cost : ℕ) * (memberStake / pool.stake))) := by
  have htotal' : (totalStake : ℚ) ≠ 0 := cast_ne_zero.2 htotal
  have hratio : (pool.stake : ℚ) / totalStake ≠ 0 := div_ne_zero (cast_ne_zero.2 hstake) htotal'
  rw [memberRewards, hmember, if_neg Bool.false_ne_true, if_neg (not_le.2 hcost),
    safeRatio_eq_ok _ htotal, sub_eq_ok hmargin, checkedSub_eq_ok hcost.le, relativeStake,
    safeRatio_eq_ok _ htotal]
  change (div _ _ >>= _) = _
  rw [div_eq_ok _ hratio, mul_div_assoc, div_div_div_cancel_right₀ htotal']
  rfl

end

theorem leaderRewards_of_le (h : pot ≤ pool.parameters.cost) :
    pool.leaderRewards pot ownerStake totalStake = .ok pot :=
  if_pos h

theorem memberRewards_of_le (h : pot ≤ pool.parameters.cost) (member : Credential)
    (memberStake : ℕ) : pool.memberRewards member pot memberStake totalStake = .ok 0 := by
  rw [memberRewards]
  split_ifs
  · rfl
  · exact if_pos h

theorem memberRewards_of_isOwner (h : pool.isOwner member = true) (memberStake : ℕ) :
    pool.memberRewards member pot memberStake totalStake = .ok 0 := by
  rw [memberRewards, h, if_pos rfl]

theorem exists_leaderRewards (hpot : pot ≠ 0 → pool.stake ≠ 0 ∧ totalStake ≠ 0)
    (hmargin : pool.margin ≤ 1) : ∃ leader, pool.leaderRewards pot ownerStake totalStake = .ok leader := by
  rcases lt_or_ge pool.parameters.cost pot with hcost | hcost
  · obtain ⟨hstake, htotal⟩ := hpot (ne_zero_of_lt hcost)
    exact ⟨_, leaderRewards_eq hcost hstake htotal hmargin⟩
  · exact ⟨_, leaderRewards_of_le hcost⟩

theorem exists_memberRewards (hpot : pot ≠ 0 → pool.stake ≠ 0 ∧ totalStake ≠ 0)
    (hmargin : pool.margin ≤ 1) (member : Credential) (memberStake : ℕ) :
    ∃ reward, pool.memberRewards member pot memberStake totalStake = .ok reward := by
  rcases hmember : pool.isOwner member with - | -
  · rcases lt_or_ge pool.parameters.cost pot with hcost | hcost
    · obtain ⟨hstake, htotal⟩ := hpot (ne_zero_of_lt hcost)
      exact ⟨_, memberRewards_eq hcost hstake htotal hmargin hmember memberStake⟩
    · exact ⟨_, memberRewards_of_le hcost member memberStake⟩
  · exact ⟨_, memberRewards_of_isOwner hmember memberStake⟩

/-- What an account delegates to the pool of this name. -/
def delegated (id : PoolId) (account : AccountState) : ℕ :=
  if account.pool = some id then account.balance else 0

theorem ownerStake_eq (accounts : SortedMap Credential AccountState) :
    pool.ownerStake accounts = accounts.sumBy fun cred account ↦
      if pool.isOwner cred then delegated pool.parameters.id account else 0 := by
  have howner : ∀ cred, pool.isOwner cred = true ↔ cred ∈ pool.parameters.owners.image .keyHash := by
    rintro (hash | hash) <;> simp [isOwner]
  have hsum := accounts.sum_get?_eq_sumBy (fun _ account ↦ delegated pool.parameters.id account)
    (pool.parameters.owners.image .keyHash)
  rw [sum_image fun _ _ _ _ h ↦ Credential.keyHash.inj h] at hsum
  rw [sumBy_congr fun cred account _ ↦ if_congr (howner cred) rfl rfl, ← hsum]
  refine sum_congr rfl fun owner _ ↦ ?_
  cases accounts.get? (.keyHash owner) <;> rfl

theorem ownerStake_add (accounts : SortedMap Credential AccountState) :
    (pool.ownerStake accounts + accounts.sumBy fun cred account ↦
        if pool.isOwner cred then 0 else delegated pool.parameters.id account) =
      accounts.sumBy fun _ account ↦ delegated pool.parameters.id account := by
  rw [ownerStake_eq, ← sumBy_add]
  refine sumBy_congr fun cred account _ ↦ ?_
  split_ifs <;> simp

/-- **The leader and the members of a pool share at most what it earned.** -/
theorem split_le {accounts : SortedMap Credential AccountState} {leader : ℕ}
    {members : Credential → AccountState → ℕ}
    (hstake : pool.stake = accounts.sumBy fun _ account ↦ delegated pool.parameters.id account)
    (hmargin : 0 ≤ pool.margin ∧ pool.margin ≤ 1)
    (hpot : pot ≠ 0 → pool.stake ≠ 0 ∧ totalStake ≠ 0)
    (hleader : pool.leaderRewards pot (pool.ownerStake accounts) totalStake = .ok leader)
    (hmembers : ∀ cred account, accounts.get? cred = some account → account.pool = some pool.parameters.id →
      pool.memberRewards cred pot account.balance totalStake = .ok (members cred account)) :
    (leader + accounts.sumBy fun cred account ↦
      if account.pool = some pool.parameters.id then members cred account else 0) ≤ pot := by
  obtain ⟨hmargin0, hmargin1⟩ := hmargin
  set shared : ℕ := accounts.sumBy fun cred account ↦
    if account.pool = some pool.parameters.id then members cred account else 0 with hshared
  rcases lt_or_ge pool.parameters.cost pot with hcost | hcost
  · obtain ⟨hstake0, htotal0⟩ := hpot (ne_zero_of_lt hcost)
    have hstakePos : (0 : ℚ) < pool.stake := by exact_mod_cast pos_of_ne_zero hstake0
    set beyond : ℚ := ((pot - pool.parameters.cost : ℕ) : ℚ) with hbeyond
    set others : ℕ := accounts.sumBy fun cred account ↦
      if pool.isOwner cred then 0 else delegated pool.parameters.id account with hothers
    set owner : ℕ := pool.ownerStake accounts with howner
    have hparts : (owner : ℚ) + others = pool.stake := by
      rw [hstake, howner, hothers]
      exact_mod_cast ownerStake_add accounts
    -- the leader gets at most its formula, and so does each member
    have hleader' : (leader : ℚ) ≤ pool.parameters.cost +
        (pool.margin + (1 - pool.margin) * (owner / pool.stake)) * beyond := by
      rw [leaderRewards_eq hcost hstake0 htotal0 hmargin1] at hleader
      cases hleader
      rw [cast_add]
      exact add_le_add_right (floorToLovelace_le (by positivity)) _
    have hmembers' : (shared : ℚ) ≤ (1 - pool.margin) * beyond / pool.stake * others := by
      rw [hshared, hothers, cast_sumBy, cast_sumBy, ← sumBy_mul_left]
      refine sumBy_le_sumBy fun cred account haccount ↦ ?_
      by_cases hpool : account.pool = some pool.parameters.id
      · have hreward := hmembers cred account haccount hpool
        rw [if_pos hpool]
        rcases hisOwner : pool.isOwner cred with - | -
        · rw [memberRewards_eq hcost hstake0 htotal0 hmargin1 hisOwner] at hreward
          rw [← ok.inj hreward, if_neg Bool.false_ne_true, delegated, if_pos hpool]
          refine (floorToLovelace_le (by positivity)).trans (le_of_eq ?_)
          ring
        · rw [memberRewards_of_isOwner hisOwner] at hreward
          rw [← ok.inj hreward]
          simp
      · rw [if_neg hpool, cast_zero]
        exact mul_nonneg (by positivity) (cast_nonneg _)
    have hcostle : ((pot : ℕ) : ℚ) = pool.parameters.cost + beyond := by
      rw [hbeyond, cast_sub hcost.le]
      ring
    have htotal : (leader : ℚ) + shared ≤ pot := by
      calc _ ≤ pool.parameters.cost +
            (pool.margin + (1 - pool.margin) * (owner / pool.stake)) * beyond +
            (1 - pool.margin) * beyond / pool.stake * others := add_le_add hleader' hmembers'
        _ = pool.parameters.cost + (pool.margin + (1 - pool.margin) *
            ((owner + others) / pool.stake)) * beyond := by ring
        _ = pot := by
            rw [hparts, div_self hstakePos.ne', hcostle]
            ring
    exact_mod_cast htotal
  · rw [leaderRewards_of_le hcost] at hleader
    cases hleader
    have hzero : shared = accounts.sumBy fun _ _ ↦ 0 := by
      refine sumBy_congr fun cred account haccount ↦ ?_
      split_ifs with hpool
      · have hreward := hmembers cred account haccount hpool
        rw [memberRewards_of_le hcost] at hreward
        exact (ok.inj hreward).symm
      · rfl
    rw [hzero]
    simp [sumBy]

end PoolState

/-! ### The first pass -/

/-- What an account holds, and the pool it delegates to. -/
def stakeOf (account : Option AccountState) : ℕ × Option PoolId :=
  account.elim (0, none) fun account ↦ (account.balance, account.pool)

/-- Accounts with the same stakes. -/
def SameStakes (accounts accounts' : SortedMap Credential AccountState) : Prop :=
  ∀ cred, stakeOf (accounts.get? cred) = stakeOf (accounts'.get? cred)

namespace SameStakes

variable {accounts accounts' : SortedMap Credential AccountState}

theorem sumBy_eq (h : SameStakes accounts accounts') (f : Credential → ℕ × Option PoolId → ℕ)
    (hf : ∀ cred, f cred (0, none) = 0) :
    (accounts.sumBy fun cred account ↦ f cred (account.balance, account.pool)) =
      accounts'.sumBy fun cred account ↦ f cred (account.balance, account.pool) := by
  have helim : ∀ cred (account : Option AccountState),
      account.elim 0 (fun account ↦ f cred (account.balance, account.pool)) = f cred (stakeOf account) := by
    intro cred account
    rcases account with - | account
    · exact (hf cred).symm
    · rfl
  rw [accounts.sumBy_eq_sum_of_subset _ (s := accounts.keys.toFinset ∪ accounts'.keys.toFinset)
      fun k hk ↦ mem_union_left _ (mem_toFinset_keys.2 hk),
    accounts'.sumBy_eq_sum_of_subset _ (s := accounts.keys.toFinset ∪ accounts'.keys.toFinset)
      fun k hk ↦ mem_union_right _ (mem_toFinset_keys.2 hk)]
  refine sum_congr rfl fun cred _ ↦ ?_
  rw [helim, helim, h cred]

theorem ownerStake_eq (h : SameStakes accounts accounts') (pool : PoolState) :
    pool.ownerStake accounts = pool.ownerStake accounts' := by
  rw [PoolState.ownerStake_eq, PoolState.ownerStake_eq]
  exact h.sumBy_eq (fun cred stake ↦ if pool.isOwner cred then
    if stake.2 = some pool.parameters.id then stake.1 else 0 else 0) fun _ ↦ ite_self _

end SameStakes

namespace RewardsSummary

variable {globals : GlobalParameters} {pots : Pots} {pp : ProtocolParameters}

section

variable (accounts : SortedMap Credential AccountState)

theorem sameStakes_creditLeader (cred : Credential) (reward : ℕ) :
    SameStakes (creditLeader accounts cred reward) accounts := by
  intro cred'
  rw [creditLeader, get?_alter]
  split_ifs with h
  · subst h
    cases accounts.get? cred' <;> rfl
  · rfl

theorem sumBy_creditLeader (cred : Credential)
    (reward : ℕ) : (creditLeader accounts cred reward).sumBy (fun _ account ↦ account.rewards) =
      accounts.sumBy (fun _ account ↦ account.rewards) + reward := by
  rw [creditLeader, alter]
  rcases haccount : accounts.get? cred with - | account
  · rw [sumBy_insert_of_none _ _ haccount]
    exact add_comm _ _
  · rw [sumBy_insert, sumBy_erase _ haccount]
    dsimp only
    omega

theorem contains_creditLeader (cred cred' : Credential) (reward : ℕ) :
    (creditLeader accounts cred reward).contains cred' = true ↔
      cred' = cred ∨ accounts.contains cred' = true := by
  rw [contains, creditLeader, get?_alter]
  split_ifs with h
  · simp [h]
  · simp [h, contains]

end

section Passes

variable {summary : StakeSummary} {budget : Budget}
  {entry : PoolId × PoolState} {leaders' : Leaders} {members' : Members} {leaders : Leaders}
  {pool : PoolState} {id : PoolId}

/-- What a pool earns and what its leader gets, by the stakes of the distribution. -/
structure Earns (summary : StakeSummary) (budget : Budget) (pp : ProtocolParameters)
    (pool : PoolState) (rewards : PoolRewards) : Prop where
  pot_eq : pool.poolRewards (((budget.blocksPerPool.get? pool.parameters.id).getD 0 : ℕ) / budget.blocksCount)
    budget.availableRewards budget.activeStake budget.totalStake (pool.ownerStake summary.accounts)
    pp = .ok rewards.pot
  leader_eq : pool.leaderRewards rewards.pot (pool.ownerStake summary.accounts) budget.totalStake =
    .ok rewards.leader

/-- Where the first pass is, once these pools are done. -/
structure Rewarded (summary : StakeSummary) (budget : Budget) (pp : ProtocolParameters)
    (done : List (PoolId × PoolState)) (leaders : Leaders) : Prop where
  sameStakes : SameStakes leaders.accounts summary.accounts
  /-- Only recipients get an account. -/
  contains : ∀ cred, leaders.accounts.contains cred = true →
    summary.accounts.contains cred = true ∨ cred ∈ leaders.leaderRecipients
  rewards_eq : leaders.accounts.sumBy (fun _ account ↦ account.rewards) = leaders.effectiveRewards
  effective_eq : leaders.effectiveRewards = leaders.pools.sumBy fun _ rewards ↦ rewards.leader
  blocks_eq : ∀ id ∉ done.map fst, leaders.blocksPerPool.get? id = budget.blocksPerPool.get? id
  none_of_notMem : ∀ id ∉ done.map fst, leaders.pools.get? id = none
  earns : ∀ entry ∈ done, ∃ rewards, leaders.pools.get? entry.1 = some rewards ∧
    Earns summary budget pp entry.2 rewards

theorem Rewarded.addLeader {done} (hdone : Rewarded summary budget pp done leaders)
    (hcount : budget.blocksCount ≠ 0) (hnamed : entry.2.parameters.id = entry.1)
    (hfresh : entry.1 ∉ done.map fst) (h : addLeader budget pp leaders entry = .ok leaders') :
    Rewarded summary budget pp (done ++ [entry]) leaders' := by
  obtain ⟨⟨rewards, credited⟩, happly, h⟩ := bind_eq_ok_iff.1 h
  cases h
  obtain ⟨blocksRatio, hratio, happly⟩ := bind_eq_ok_iff.1 happly
  obtain ⟨pot, hpot, happly⟩ := bind_eq_ok_iff.1 happly
  obtain ⟨leader, hleader, happly⟩ := bind_eq_ok_iff.1 happly
  cases happly
  have hblocks : leaders.blocksPerPool.get? entry.2.parameters.id =
      budget.blocksPerPool.get? entry.2.parameters.id := by
    rw [hnamed]
    exact hdone.blocks_eq _ hfresh
  rw [hblocks, safeRatio_eq_ok _ hcount] at hratio
  cases hratio
  rw [hdone.sameStakes.ownerStake_eq] at hpot hleader
  have hnone : leaders.pools.get? entry.1 = none := hdone.none_of_notMem _ hfresh
  refine ⟨?_, fun cred hcred ↦ ?_, ?_, ?_, fun id hid ↦ ?_, fun id hid ↦ ?_, fun other hother ↦ ?_⟩
  · dsimp only
    split_ifs
    · exact fun cred ↦
        (sameStakes_creditLeader _ _ _ cred).trans (hdone.sameStakes cred)
    · exact hdone.sameStakes
  · dsimp only at hcred ⊢
    split_ifs at hcred ⊢ with hpositive
    · rw [SortedSet.mem_add]
      rcases (contains_creditLeader _ _ _ _).1 hcred with heq | hcontains
      · exact .inr (.inl heq)
      · exact (hdone.contains cred hcontains).imp_right .inr
    · exact hdone.contains cred hcred
  · dsimp only
    split_ifs with hpositive
    · rw [sumBy_creditLeader, hdone.rewards_eq]
    · rw [hdone.rewards_eq, Nat.eq_zero_of_not_pos hpositive, Nat.add_zero]
  · dsimp only
    rw [sumBy_insert_of_none _ _ hnone, hdone.effective_eq, add_comm]
  · rw [List.map_append, List.mem_append, not_or] at hid
    rw [hnamed, get?_erase_of_ne _ (by simpa using hid.2)]
    exact hdone.blocks_eq id hid.1
  · rw [List.map_append, List.mem_append, not_or] at hid
    rw [get?_insert_of_ne _ _ (by simpa using hid.2)]
    exact hdone.none_of_notMem id hid.1
  · dsimp only
    rcases List.mem_append.1 hother with hother | hother
    · have hne : other.1 ≠ entry.1 := fun heq ↦ hfresh (heq ▸ List.mem_map_of_mem hother)
      rw [get?_insert_of_ne _ _ hne]
      exact hdone.earns other hother
    · obtain rfl := List.mem_singleton.1 hother
      exact ⟨⟨pot, leader⟩, get?_insert_self _ _ _, hpot, hleader⟩

theorem rewarded_nil (hsummary : summary.Coherent) : Rewarded summary budget pp []
    { accounts := summary.accounts, blocksPerPool := budget.blocksPerPool } := by
  refine ⟨fun _ ↦ rfl, fun _ h ↦ .inl h, ?_, rfl, fun _ _ ↦ rfl, fun _ _ ↦ rfl, by simp⟩
  have hzero : summary.accounts.sumBy (fun _ account ↦ account.rewards) =
      summary.accounts.sumBy fun _ _ ↦ 0 :=
    sumBy_congr fun cred account h ↦ hsummary.rewards_eq cred account h
  rw [hzero]
  simp [sumBy]

/-- **What the first pass comes to.** -/
theorem rewarded_of_leaders (hsummary : summary.Coherent) (hcount : budget.blocksCount ≠ 0)
    (h : RewardsSummary.leaders summary budget pp = .ok leaders) :
    Rewarded summary budget pp summary.stakeDistribution.pools.entries leaders := by
  have hnodup := nodup_keys summary.stakeDistribution.pools
  have hnamed : ∀ entry ∈ summary.stakeDistribution.pools.entries, entry.2.parameters.id = entry.1 :=
    fun entry hentry ↦ hsummary.named _ _ (mem_entries_iff.1 hentry)
  rw [keys] at hnodup
  revert hnodup hnamed
  refine foldlM_invariant h (fun _ _ ↦ rewarded_nil hsummary) ?_
  intro done entry leaders leaders' hdone hstep hnodup hnamed
  rw [List.map_append, List.nodup_append] at hnodup
  obtain ⟨hnodup, -, hdisjoint⟩ := hnodup
  refine (hdone hnodup fun e he ↦ hnamed e (List.mem_append_left _ he)).addLeader hcount
    (hnamed entry (by simp)) (fun hmem ↦ ?_) hstep
  exact hdisjoint _ hmem _ (List.mem_singleton_self _) rfl

theorem ownerStake_le (hsummary : summary.Coherent)
    (hpool : summary.stakeDistribution.pools.get? id = some pool) :
    pool.ownerStake summary.accounts ≤ pool.stake := by
  have hadd := pool.ownerStake_add summary.accounts
  rw [hsummary.named id pool hpool] at hadd
  have hstake := hsummary.stake_eq id pool hpool
  change pool.stake = summary.accounts.sumBy fun _ account ↦ PoolState.delegated id account at hstake
  omega

/-- No pool that meets its pledge is divided by zero. -/
def Divisible (summary : StakeSummary) (totalStake : ℕ) (pp : ProtocolParameters) : Prop :=
  ∀ id pool, summary.stakeDistribution.pools.get? id = some pool →
    pool.parameters.pledge ≤ pool.ownerStake summary.accounts →
    totalStake ≠ 0 ∧ pp.optimalStakePoolsCount ≠ 0

theorem exists_leaders (hsummary : summary.Coherent) (hcount : budget.blocksCount ≠ 0)
    (hinfluence : 0 ≤ pp.pledgeInfluence) (hdivisible : Divisible summary budget.totalStake pp) :
    ∃ leaders, RewardsSummary.leaders summary budget pp = .ok leaders := by
  refine (exists_foldlM_entries (Rewarded summary budget pp)
    (rewarded_nil hsummary) fun before entry leaders hentry hfresh hbefore ↦ ?_).imp fun _ ↦ And.left
  have howner : entry.2.ownerStake leaders.accounts ≤ entry.2.stake := by
    rw [hbefore.sameStakes.ownerStake_eq]
    exact ownerStake_le hsummary hentry
  have hpledge := hdivisible _ _ hentry
  rw [← hbefore.sameStakes.ownerStake_eq] at hpledge
  obtain ⟨pot, hpot, -, hstake⟩ := PoolState.exists_poolRewards hinfluence howner hpledge
  obtain ⟨leader, hleader⟩ := PoolState.exists_leaderRewards hstake (hsummary.margin_mem _ _ hentry).2
  obtain ⟨leaders', hleaders'⟩ : ∃ leaders', addLeader budget pp leaders entry = .ok leaders' :=
    ⟨_, bind_eq_ok_iff.2 ⟨_, bind_eq_ok_iff.2 ⟨_, safeRatio_eq_ok _ hcount, bind_eq_ok_iff.2
      ⟨pot, hpot, bind_eq_ok_iff.2 ⟨leader, hleader, rfl⟩⟩⟩, rfl⟩⟩
  exact ⟨leaders', hleaders', hbefore.addLeader hcount (hsummary.named _ _ hentry) hfresh hleaders'⟩

/-! ### The second pass -/

variable {pools : SortedMap PoolId PoolState} {totalStake : ℕ} {members : Members} {rewards : PoolRewards}

/-- Where the second pass is, once these accounts are done. -/
structure Shared (pools : SortedMap PoolId PoolState) (totalStake : ℕ) (leaders : Leaders)
    (reward : Credential × AccountState → ℕ) (done : List (Credential × AccountState))
    (members : Members) : Prop where
  rewards_eq : members.accounts.sumBy (fun _ account ↦ account.rewards) = members.effectiveRewards
  get?_eq : ∀ cred ∉ done.map fst, members.accounts.get? cred = leaders.accounts.get? cred
  contains_eq : ∀ cred, members.accounts.contains cred = leaders.accounts.contains cred
  effective_eq : members.effectiveRewards = leaders.effectiveRewards + (done.map reward).sum

theorem Shared.addMember {reward : Credential × AccountState → ℕ}
    {done : List (Credential × AccountState)} {entry : Credential × AccountState}
    (hdone : Shared pools totalStake leaders reward done members)
    (hreward : memberRewards pools leaders.pools totalStake entry = .ok (reward entry))
    (hentry : leaders.accounts.get? entry.1 = some entry.2) (hfresh : entry.1 ∉ done.map fst)
    (h : addMember pools leaders.pools totalStake members entry = .ok members') :
    Shared pools totalStake leaders reward (done ++ [entry]) members' := by
  obtain ⟨amount, hamount, h⟩ := bind_eq_ok_iff.1 h
  obtain rfl := ok.inj (hamount.symm.trans hreward)
  cases h
  have hget : members.accounts.get? entry.1 = some entry.2 := (hdone.get?_eq _ hfresh).trans hentry
  refine ⟨?_, fun cred hcred ↦ ?_, fun cred ↦ ?_, ?_⟩
  · dsimp only
    rw [← hdone.rewards_eq]
    split_ifs with hpositive
    · rw [sumBy_insert, sumBy_erase _ hget]
      dsimp only
      omega
    · omega
  · rw [List.map_append, List.mem_append, not_or] at hcred
    split_ifs
    · rw [get?_insert_of_ne _ _ (by simpa using hcred.2)]
      exact hdone.get?_eq _ hcred.1
    · exact hdone.get?_eq _ hcred.1
  · dsimp only
    rw [← hdone.contains_eq]
    split_ifs
    · rw [contains, get?_insert]
      split_ifs with heq
      · rw [heq, contains, hget]
        rfl
      · rfl
    · rfl
  · rw [List.map_append, List.sum_append, ← add_assoc, ← hdone.effective_eq]
    rfl

theorem divisible_of_leaders (hsummary : summary.Coherent) (hcount : budget.blocksCount ≠ 0)
    (h : RewardsSummary.leaders summary budget pp = .ok leaders) :
    Divisible summary budget.totalStake pp := by
  intro id pool hpool hpledge
  have hrewarded := rewarded_of_leaders hsummary hcount h
  obtain ⟨rewards, -, hearns⟩ := hrewarded.earns (id, pool) (mem_entries_iff.2 hpool)
  by_contra hzero
  have herror := hearns.pot_eq
  rw [PoolState.poolRewards_eq_error hpledge (by tauto)] at herror
  cases herror

theorem Earns.pot_le (hearns : Earns summary budget pp pool rewards) (hsummary : summary.Coherent)
    (hinfluence : 0 ≤ pp.pledgeInfluence) (hdivisible : Divisible summary budget.totalStake pp)
    (hpool : summary.stakeDistribution.pools.get? id = some pool) :
    (budget.activeStake ≤ budget.totalStake → (rewards.pot : ℚ) ≤ budget.availableRewards *
        (((budget.blocksPerPool.get? id).getD 0 : ℕ) / budget.blocksCount)) ∧
      (rewards.pot ≠ 0 → pool.stake ≠ 0 ∧ budget.totalStake ≠ 0) := by
  obtain ⟨pot, hpot, hbound, hstake⟩ := PoolState.exists_poolRewards hinfluence
    (ownerStake_le hsummary hpool) (hdivisible _ _ hpool)
  obtain rfl := ok.inj (hpot.symm.trans hearns.pot_eq)
  rw [hsummary.named id pool hpool] at hbound
  exact ⟨hbound, hstake⟩

/-- What an account gets as a member, where it gets something. -/
def memberReward (pools : SortedMap PoolId PoolState) (rewards : SortedMap PoolId PoolRewards)
    (totalStake : ℕ) (entry : Credential × AccountState) : ℕ :=
  match memberRewards pools rewards totalStake entry with
  | .ok reward => reward
  | .error _ => 0

/-- What the accounts that delegate to a pool get as its members. -/
def Leaders.memberRewards (leaders : Leaders) (summary : StakeSummary) (budget : Budget) (id : PoolId) : ℕ :=
  leaders.accounts.sumBy fun cred account ↦ if account.pool = some id then memberReward
    summary.stakeDistribution.pools leaders.pools budget.totalStake (cred, account) else 0

/-- An account that delegates to no pool of the distribution gets nothing as a member. -/
theorem memberReward_eq_sum (entry : Credential × AccountState) :
    memberReward pools leaders.pools totalStake entry =
      ∑ id ∈ pools.keys.toFinset, if entry.2.pool = some id then
        memberReward pools leaders.pools totalStake entry else 0 := by
  by_cases hzero : memberReward pools leaders.pools totalStake entry = 0
  · simp [hzero]
  rcases hpool : entry.2.pool with - | id
  · exact absurd (by rw [memberReward, memberRewards, hpool]; rfl) hzero
  have hid : id ∈ pools.keys.toFinset := by
    by_contra hid
    rw [mem_toFinset_keys, not_isSome_iff_eq_none] at hid
    exact hzero (by rw [memberReward, memberRewards, hpool, bind_some, hid])
  simp only [some.injEq, sum_ite_eq, if_pos hid]

theorem effectiveRewards_eq_sum
    (hrewarded : Rewarded summary budget pp summary.stakeDistribution.pools.entries leaders)
    (hshared : Shared summary.stakeDistribution.pools budget.totalStake leaders
      (memberReward summary.stakeDistribution.pools leaders.pools budget.totalStake)
      leaders.accounts.entries members) :
    members.effectiveRewards = ∑ id ∈ summary.stakeDistribution.pools.keys.toFinset,
      ((leaders.pools.get? id).elim 0 PoolRewards.leader + leaders.memberRewards summary budget id) := by
  have hleaders : leaders.effectiveRewards = ∑ id ∈ summary.stakeDistribution.pools.keys.toFinset,
      (leaders.pools.get? id).elim 0 PoolRewards.leader := by
    rw [hrewarded.effective_eq]
    refine sumBy_eq_sum_of_subset _ _ fun id hid ↦ ?_
    rw [List.mem_toFinset]
    by_contra hnot
    rw [hrewarded.none_of_notMem id hnot] at hid
    cases hid
  have hmembers : (leaders.accounts.entries.map (memberReward summary.stakeDistribution.pools
      leaders.pools budget.totalStake)).sum =
      ∑ id ∈ summary.stakeDistribution.pools.keys.toFinset, leaders.memberRewards summary budget id := by
    simp only [Leaders.memberRewards]
    rw [← sumBy_sum]
    exact congrArg List.sum (List.map_congr_left fun entry _ ↦ memberReward_eq_sum entry)
  rw [hshared.effective_eq, hleaders, hmembers, ← sum_add_distrib]

section

variable (hsummary : summary.Coherent) (hinfluence : 0 ≤ pp.pledgeInfluence)
  (hdivisible : Divisible summary budget.totalStake pp)
  (hrewarded : Rewarded summary budget pp summary.stakeDistribution.pools.entries leaders)
include hsummary hinfluence hdivisible hrewarded

theorem memberRewards_eq_ok (entry : Credential × AccountState) :
    memberRewards summary.stakeDistribution.pools leaders.pools budget.totalStake entry =
      .ok (memberReward summary.stakeDistribution.pools leaders.pools budget.totalStake entry) := by
  suffices h : ∃ reward, memberRewards summary.stakeDistribution.pools leaders.pools
      budget.totalStake entry = .ok reward by
    obtain ⟨reward, h⟩ := h
    rw [memberReward, h]
  rw [memberRewards]
  rcases hpool : entry.2.pool.bind summary.stakeDistribution.pools.get? with - | pool
  · exact ⟨0, rfl⟩
  obtain ⟨id, -, hpool⟩ := bind_eq_some_iff.1 hpool
  obtain ⟨rewards, hget, hearns⟩ :=
    hrewarded.earns (id, pool) (mem_entries_iff.2 hpool)
  obtain ⟨-, hstake⟩ := hearns.pot_le hsummary hinfluence hdivisible hpool
  dsimp only
  rw [hsummary.named id pool hpool, hget]
  exact PoolState.exists_memberRewards hstake (hsummary.margin_mem id pool hpool).2 _ _

/-- **The second pass succeeds, and what it comes to.** -/
theorem exists_members :
    ∃ members, RewardsSummary.members summary.stakeDistribution.pools budget.totalStake leaders =
        .ok members ∧
      Shared summary.stakeDistribution.pools budget.totalStake leaders
        (memberReward summary.stakeDistribution.pools leaders.pools budget.totalStake)
        leaders.accounts.entries members := by
  refine exists_foldlM_entries _ ⟨hrewarded.rewards_eq, fun _ _ ↦ rfl, fun _ ↦ rfl, rfl⟩
    fun before entry members hentry hfresh hbefore ↦ ?_
  have hreward := memberRewards_eq_ok hsummary hinfluence hdivisible hrewarded entry
  obtain ⟨members', hmembers'⟩ : ∃ members', RewardsSummary.addMember
      summary.stakeDistribution.pools leaders.pools budget.totalStake members entry = .ok members' :=
    ⟨_, bind_eq_ok_iff.2 ⟨_, hreward, rfl⟩⟩
  exact ⟨members', hmembers', hbefore.addMember hreward hentry hfresh hmembers'⟩

/-- What the leader and the members of a pool get is within what it earned. -/
theorem Rewarded.split_le (hpool : summary.stakeDistribution.pools.get? id = some pool)
    (hget : leaders.pools.get? id = some rewards) :
    rewards.leader + leaders.memberRewards summary budget id ≤ rewards.pot := by
  obtain ⟨rewards', hget', hearns⟩ :=
    hrewarded.earns (id, pool) (mem_entries_iff.2 hpool)
  obtain rfl := some.inj (hget.symm.trans hget')
  obtain ⟨-, hpot⟩ := hearns.pot_le hsummary hinfluence hdivisible hpool
  have hnamed := hsummary.named id pool hpool
  have hleader := hearns.leader_eq
  rw [← hrewarded.sameStakes.ownerStake_eq] at hleader
  have hsplit : rewards.leader + leaders.memberRewards summary budget pool.parameters.id ≤ rewards.pot := by
    refine PoolState.split_le ?_ (hsummary.margin_mem id pool hpool) hpot hleader ?_
    · rw [hnamed]
      exact (hsummary.stake_eq id pool hpool).trans (hrewarded.sameStakes.sumBy_eq
        (fun _ stake ↦ if stake.2 = some id then stake.1 else 0) fun _ ↦ rfl).symm
    · intro cred account _ haccount
      rw [← memberRewards_eq_ok hsummary hinfluence hdivisible hrewarded, memberRewards]
      rw [haccount, hnamed, bind_some, hpool]
      dsimp only
      rw [hnamed, hget]
  rwa [hnamed] at hsplit

/-- **All rewards together are within what is available.** -/
theorem effectiveRewards_le (hactive : budget.activeStake ≤ budget.totalStake)
    (hcount : budget.blocksCount ≠ 0)
    (hblocks : ∀ ids : Finset PoolId, ∑ id ∈ ids, (budget.blocksPerPool.get? id).getD 0 ≤ budget.blocksCount)
    (hshared : Shared summary.stakeDistribution.pools budget.totalStake leaders
      (memberReward summary.stakeDistribution.pools leaders.pools budget.totalStake)
      leaders.accounts.entries members) :
    members.effectiveRewards ≤ budget.availableRewards := by
  set ids := summary.stakeDistribution.pools.keys.toFinset
  rw [effectiveRewards_eq_sum hrewarded hshared]
  have hbound : ((∑ id ∈ ids, ((leaders.pools.get? id).elim 0 PoolRewards.leader +
      leaders.memberRewards summary budget id) : ℕ) : ℚ) ≤ budget.availableRewards := by
    have hcountPos : (0 : ℚ) < budget.blocksCount := by
      exact_mod_cast pos_of_ne_zero hcount
    rw [cast_sum]
    calc _ ≤ ∑ id ∈ ids, (budget.availableRewards : ℚ) *
          (((budget.blocksPerPool.get? id).getD 0 : ℕ) / budget.blocksCount) := by
          refine sum_le_sum fun id hid ↦ ?_
          obtain ⟨pool, hpool⟩ := isSome_iff_exists.1 (mem_toFinset_keys.1 hid)
          obtain ⟨rewards, hget, hearns⟩ := hrewarded.earns (id, pool) (mem_entries_iff.2 hpool)
          rw [hget]
          refine le_trans ?_ ((hearns.pot_le hsummary hinfluence hdivisible hpool).1 hactive)
          exact_mod_cast hrewarded.split_le hsummary hinfluence hdivisible hpool hget
      _ = budget.availableRewards *
          ((∑ id ∈ ids, (budget.blocksPerPool.get? id).getD 0 : ℕ) / budget.blocksCount) := by
          rw [← mul_sum, ← sum_div, cast_sum]
      _ ≤ budget.availableRewards * 1 := by
          refine mul_le_mul_of_nonneg_left ((div_le_one hcountPos).2 ?_) (cast_nonneg _)
          exact_mod_cast hblocks ids
      _ = budget.availableRewards := mul_one _
  exact_mod_cast hbound

end

end Passes

/-! ### What there is to share -/

theorem countBlocks_append (issuers : List PoolId) (issuer : PoolId) :
    countBlocks (issuers ++ [issuer]) = ((countBlocks issuers).1 + 1,
      (countBlocks issuers).2.alter issuer fun n ↦ some ((n.map (· + 1)).getD 1)) := by
  rw [countBlocks, List.foldl_append]
  rfl

theorem countBlocks_fst (issuers : List PoolId) : (countBlocks issuers).1 = issuers.length := by
  induction issuers using List.reverseRecOn with
  | nil => rfl
  | append_singleton issuers issuer ih => rw [countBlocks_append, ih, List.length_append]; rfl

theorem getD_countBlocks (issuers : List PoolId) (id : PoolId) :
    ((countBlocks issuers).2.get? id).getD 0 = issuers.count id := by
  induction issuers using List.reverseRecOn with
  | nil => rfl
  | append_singleton issuers issuer ih =>
    rw [countBlocks_append, get?_alter, List.count_append, ← ih, List.count_singleton]
    by_cases hid : id = issuer
    · subst hid
      cases (countBlocks issuers).2.get? id <;> simp
    · simp [hid, Ne.symm hid]

/-- Each block has one issuer. -/
theorem sum_count_le (ids : Finset PoolId) (issuers : List PoolId) :
    ∑ id ∈ ids, issuers.count id ≤ issuers.length := by
  have hall := Multiset.sum_count_eq_card (s := ids ∪ issuers.toFinset) (m := issuers) (by simp +contextual)
  rw [Multiset.coe_card] at hall
  simp only [← hall, Multiset.coe_count]
  exact sum_le_sum_of_subset subset_union_left

/-- The rates of the protocol, with the bounds of the types that the source has for them. -/
structure RatesValid (pp : ProtocolParameters) : Prop where
  expansion_mem : 0 ≤ pp.monetaryExpansionRate ∧ pp.monetaryExpansionRate ≤ 1
  treasury_mem : 0 ≤ pp.treasuryExpansionRate ∧ pp.treasuryExpansionRate ≤ 1
  influence_nonneg : 0 ≤ pp.pledgeInfluence

/-- What there is to share, and where it comes from. -/
structure Budgeted (globals : GlobalParameters) (pots : Pots) (activeStake : ℕ) (budget : Budget) : Prop where
  availableRewards_eq : budget.availableRewards + budget.treasuryTax = budget.incentives + pots.fees
  incentives_le : budget.incentives ≤ pots.reserves
  totalStake_eq : budget.totalStake + pots.reserves = globals.maxLovelaceSupply
  activeStake_eq : budget.activeStake = activeStake
  blocksCount_ne_zero : budget.blocksCount ≠ 0
  blocks_le : ∀ ids : Finset PoolId, ∑ id ∈ ids, (budget.blocksPerPool.get? id).getD 0 ≤ budget.blocksCount

/-- What there is to share when nothing goes wrong. -/
def plannedBudget (globals : GlobalParameters) (pp : ProtocolParameters)
    (issuers : List PoolId) (pots : Pots) (activeStake : ℕ) : Budget :=
  let efficiency : ℚ :=
    ((issuers.length * globals.activeSlotCoeffInverse : ℕ) : ℚ) / globals.epochLength
  let incentives := floorToLovelace (min 1 efficiency * pp.monetaryExpansionRate * pots.reserves)
  let treasuryTax := floorToLovelace (pp.treasuryExpansionRate * (incentives + pots.fees : ℕ))
  { incentives, treasuryTax, activeStake
    availableRewards := incentives + pots.fees - treasuryTax
    totalStake := globals.maxLovelaceSupply - pots.reserves
    blocksCount := max issuers.length 1
    blocksPerPool := (countBlocks issuers).2 }

section

variable (issuers : List PoolId) (activeStake : ℕ) (hrates : RatesValid pp)
include hrates

theorem incentives_plannedBudget_le : (plannedBudget globals pp issuers pots activeStake).incentives ≤
      pots.reserves := by
  obtain ⟨hexpansion0, hexpansion1⟩ := hrates.expansion_mem
  refine floorToLovelace_le_of_le ?_
  set efficiency : ℚ :=
    ((issuers.length * globals.activeSlotCoeffInverse : ℕ) : ℚ) / globals.epochLength
  have hrate : min 1 efficiency * pp.monetaryExpansionRate ≤ 1 :=
    mul_le_one₀ (min_le_left _ _) hexpansion0 hexpansion1
  calc _ ≤ 1 * (pots.reserves : ℚ) := mul_le_mul_of_nonneg_right hrate (cast_nonneg _)
    _ = pots.reserves := one_mul _

theorem treasuryTax_plannedBudget_le : (plannedBudget globals pp issuers pots activeStake).treasuryTax ≤
      (plannedBudget globals pp issuers pots activeStake).incentives + pots.fees := by
  refine floorToLovelace_le_of_le ?_
  calc _ ≤ 1 * _ := mul_le_mul_of_nonneg_right hrates.treasury_mem.2 (cast_nonneg _)
    _ = _ := one_mul _

theorem budgeted_plannedBudget (hreserves : pots.reserves ≤ globals.maxLovelaceSupply) :
    Budgeted globals pots activeStake (plannedBudget globals pp issuers pots activeStake) := by
  refine ⟨Nat.sub_add_cancel (treasuryTax_plannedBudget_le issuers activeStake hrates),
    incentives_plannedBudget_le issuers activeStake hrates, Nat.sub_add_cancel hreserves, rfl, ?_,
    fun ids ↦ ?_⟩
  · exact ne_of_gt (lt_of_lt_of_le one_pos (le_max_right _ _))
  · calc _ = ∑ id ∈ ids, issuers.count id :=
          sum_congr rfl fun id _ ↦ getD_countBlocks issuers id
      _ ≤ issuers.length := sum_count_le ids issuers
      _ ≤ max issuers.length 1 := le_max_left _ _

omit hrates in
/-- There is something to share only if the reserves are part of the supply. -/
theorem reserves_le_of_budget {issuers activeStake budget}
    (h : RewardsSummary.budget globals pp issuers pots activeStake = .ok budget) :
    pots.reserves ≤ globals.maxLovelaceSupply := by
  obtain ⟨_, -, h⟩ := bind_eq_ok_iff.1 h
  obtain ⟨_, -, h⟩ := bind_eq_ok_iff.1 h
  obtain ⟨_, htotal, -⟩ := bind_eq_ok_iff.1 h
  exact (Nat.le_add_left _ _).trans_eq (checkedSub_eq_ok_iff.1 htotal)

/-- **Computing what there is to share goes as planned.** -/
theorem budget_eq_ok (hepoch : globals.epochLength ≠ 0)
    (hreserves : pots.reserves ≤ globals.maxLovelaceSupply) :
    budget globals pp issuers pots activeStake = .ok (plannedBudget globals pp issuers pots activeStake) := by
  rw [budget]
  dsimp only
  rw [countBlocks_fst, safeRatio_eq_ok _ hepoch]
  change (checkedSub ((plannedBudget globals pp issuers pots activeStake).incentives + pots.fees)
    (plannedBudget globals pp issuers pots activeStake).treasuryTax >>= _) = _
  rw [checkedSub_eq_ok (treasuryTax_plannedBudget_le issuers activeStake hrates)]
  rw [checkedSub_eq_ok hreserves]
  rfl

end

/-! ### Within the pot -/

/-- What the rewards of an epoch stay within: each pool in what it earned, all of them in what is
available; and they are the rewards of the accounts. -/
structure WithinPot (summary : StakeSummary) (globals : GlobalParameters)
    (pp : ProtocolParameters) (issuers : List PoolId) (pots : Pots)
    (rewards : RewardsSummary) : Prop where
  pool_le : ∃ budget leaders,
    RewardsSummary.budget globals pp issuers pots summary.stakeDistribution.activeStake = .ok budget ∧
    RewardsSummary.leaders summary budget pp = .ok leaders ∧
    ∀ id pool, summary.stakeDistribution.pools.get? id = some pool →
      ∃ earned, leaders.pools.get? id = some earned ∧
      ∃ members : Credential → AccountState → ℕ, (∀ cred account, leaders.accounts.get? cred = some account →
          account.pool = some id → pool.memberRewards cred earned.pot account.balance
            budget.totalStake = .ok (members cred account)) ∧
        (earned.leader + leaders.accounts.sumBy fun cred account ↦
          if account.pool = some id then members cred account else 0) ≤ earned.pot
  effective_le : rewards.effectiveRewards ≤ rewards.availableRewards
  effective_eq : rewards.effectiveRewards = rewards.accounts.sumBy fun _ account ↦ account.rewards

section

variable {summary : StakeSummary} {issuers : List PoolId} {rewards : RewardsSummary}

/-- How rewards were computed: what there was to share, and what the two passes came to. -/
structure Computed (summary : StakeSummary) (globals : GlobalParameters)
    (pp : ProtocolParameters) (issuers : List PoolId) (pots : Pots)
    (rewards : RewardsSummary) (budget : Budget) (leaders : Leaders) (members : Members) : Prop where
  budget_eq : budget = plannedBudget globals pp issuers pots summary.stakeDistribution.activeStake
  budgeted : Budgeted globals pots summary.stakeDistribution.activeStake budget
  divisible : Divisible summary budget.totalStake pp
  leaders_eq : RewardsSummary.leaders summary budget pp = .ok leaders
  rewarded : Rewarded summary budget pp summary.stakeDistribution.pools.entries leaders
  shared : Shared summary.stakeDistribution.pools budget.totalStake leaders
    (memberReward summary.stakeDistribution.pools leaders.pools budget.totalStake)
    leaders.accounts.entries members
  rewards_eq : rewards = {
    epoch := summary.stakeDistribution.epoch
    incentives := budget.incentives
    treasuryTax := budget.treasuryTax
    availableRewards := budget.availableRewards
    effectiveRewards := members.effectiveRewards
    accounts := members.accounts
    leaderRecipients := leaders.leaderRecipients }

section

variable (hsummary : summary.Coherent) (hrates : RatesValid pp)
  (hepoch : globals.epochLength ≠ 0) (h : new summary globals pp issuers pots = .ok rewards)
include hsummary hrates hepoch h

theorem exists_computed :
    ∃ budget leaders members, Computed summary globals pp issuers pots rewards budget leaders members := by
  obtain ⟨budget, hbudget, h⟩ := bind_eq_ok_iff.1 h
  obtain ⟨leaders, hleaders, h⟩ := bind_eq_ok_iff.1 h
  obtain ⟨members, hmembers, h⟩ := bind_eq_ok_iff.1 h
  have hreserves := reserves_le_of_budget hbudget
  rw [budget_eq_ok issuers _ hrates hepoch hreserves] at hbudget
  have hplanned := (ok.inj hbudget).symm
  have hbudgeted : Budgeted globals pots summary.stakeDistribution.activeStake budget := by
    rw [hplanned]
    exact budgeted_plannedBudget issuers _ hrates hreserves
  have hcount := hbudgeted.blocksCount_ne_zero
  have hdivisible := divisible_of_leaders hsummary hcount hleaders
  have hrewarded := rewarded_of_leaders hsummary hcount hleaders
  obtain ⟨members', hmembers', hshared⟩ :=
    exists_members hsummary hrates.influence_nonneg hdivisible hrewarded
  obtain rfl := ok.inj (hmembers'.symm.trans hmembers)
  exact ⟨budget, leaders, members', hplanned, hbudgeted, hdivisible, hleaders, hrewarded, hshared,
    (ok.inj h).symm⟩

theorem withinPot_of_new (hsupply : summary.stakeDistribution.activeStake + pots.reserves ≤
    globals.maxLovelaceSupply) : WithinPot summary globals pp issuers pots rewards := by
  obtain ⟨budget, leaders, members, hcomputed⟩ := exists_computed hsummary hrates hepoch h
  obtain ⟨hplanned, hbudgeted, hdivisible, hleaders, hrewarded, hshared, rfl⟩ := hcomputed
  have hinfluence := hrates.influence_nonneg
  have hactive : budget.activeStake ≤ budget.totalStake := by
    have := hbudgeted.totalStake_eq
    rw [hbudgeted.activeStake_eq]
    omega
  have hbudget : RewardsSummary.budget globals pp issuers pots
      summary.stakeDistribution.activeStake = .ok budget := by
    rw [hplanned]
    exact budget_eq_ok issuers _ hrates hepoch (by omega)
  refine ⟨⟨budget, leaders, hbudget, hleaders, fun id pool hpool ↦ ?_⟩,
    effectiveRewards_le hsummary hinfluence hdivisible hrewarded hactive hbudgeted.blocksCount_ne_zero
      hbudgeted.blocks_le hshared, hshared.rewards_eq.symm⟩
  obtain ⟨earned, hget, -⟩ := hrewarded.earns (id, pool) (mem_entries_iff.2 hpool)
  refine ⟨earned, hget, fun cred account ↦ memberReward summary.stakeDistribution.pools
    leaders.pools budget.totalStake (cred, account), ?_,
    hrewarded.split_le hsummary hinfluence hdivisible hpool hget⟩
  intro cred account _ haccount
  rw [← memberRewards_eq_ok hsummary hinfluence hdivisible hrewarded, memberRewards]
  rw [haccount, bind_some, hpool]
  dsimp only
  rw [hsummary.named id pool hpool, hget]

end

/-- The rewards are computed as long as no pool that meets its pledge is divided by zero. -/
theorem exists_new_iff (issuers : List PoolId) (hsummary : summary.Coherent)
    (hrates : RatesValid pp) (hepoch : globals.epochLength ≠ 0)
    (hreserves : pots.reserves ≤ globals.maxLovelaceSupply) :
    (∃ rewards, new summary globals pp issuers pots = .ok rewards) ↔
      Divisible summary (globals.maxLovelaceSupply - pots.reserves) pp := by
  have hbudget := budget_eq_ok issuers summary.stakeDistribution.activeStake hrates hepoch hreserves
  have hbudgeted := budgeted_plannedBudget issuers summary.stakeDistribution.activeStake hrates hreserves
  generalize plannedBudget globals pp issuers pots _ = budget at hbudget hbudgeted
  have htotal : globals.maxLovelaceSupply - pots.reserves = budget.totalStake := by
    have := hbudgeted.totalStake_eq
    omega
  have hcount := hbudgeted.blocksCount_ne_zero
  rw [htotal]
  constructor
  · rintro ⟨rewards, h⟩
    obtain ⟨budget', hbudget', h⟩ := bind_eq_ok_iff.1 h
    obtain ⟨leaders, hleaders, -⟩ := bind_eq_ok_iff.1 h
    obtain rfl := ok.inj (hbudget'.symm.trans hbudget)
    exact divisible_of_leaders hsummary hcount hleaders
  · intro hdivisible
    obtain ⟨leaders, hleaders⟩ := exists_leaders hsummary hcount hrates.influence_nonneg hdivisible
    obtain ⟨members, hmembers, -⟩ := exists_members hsummary hrates.influence_nonneg hdivisible
      (rewarded_of_leaders hsummary hcount hleaders)
    exact ⟨_, bind_eq_ok_iff.2 ⟨budget, hbudget, bind_eq_ok_iff.2 ⟨leaders, hleaders,
      bind_eq_ok_iff.2 ⟨members, hmembers, rfl⟩⟩⟩⟩

end

/-- **The rewards are computed and stay within the pot exactly when no pool that meets its pledge is
divided by zero**: when lovelace circulates and the protocol wants some pools, or no pool meets its
pledge. -/
theorem rewards_within_pot_iff (epoch : ℕ) {db : Store} (governance : GovernanceSummary)
    (issuers : List PoolId) (hpools : StakeSummary.PoolsValid db.pools)
    (hrates : RatesValid pp) (hepoch : globals.epochLength ≠ 0)
    (hsupply : (StakeSummary.new epoch db governance).stakeDistribution.activeStake + pots.reserves ≤
      globals.maxLovelaceSupply) :
    (∃ rewards, new (StakeSummary.new epoch db governance) globals pp issuers pots = .ok rewards ∧
      WithinPot (StakeSummary.new epoch db governance) globals pp issuers pots rewards) ↔
      Divisible (StakeSummary.new epoch db governance) (globals.maxLovelaceSupply - pots.reserves) pp := by
  have hsummary := StakeSummary.coherent_new epoch hpools governance
  rw [← exists_new_iff issuers hsummary hrates hepoch (by omega)]
  constructor
  · rintro ⟨rewards, h, -⟩
    exact ⟨rewards, h⟩
  · rintro ⟨rewards, h⟩
    exact ⟨rewards, h, withinPot_of_new hsummary hrates hepoch h hsupply⟩

/-! ### A small network -/

/-- A network of a thousand lovelace, with epochs of ten slots. -/
def thousandLovelace : GlobalParameters where
  consensusSecurityParam := 1
  epochLengthScaleFactor := 10
  activeSlotCoeffInverse := 1
  maxLovelaceSupply := 1000

/-- Parameters that expand nothing, and want two pools. -/
def twoPools : ProtocolParameters := { (default : ProtocolParameters) with optimalStakePoolsCount := 2 }

/-- Governance that adds nothing. -/
def noGovernance : GovernanceSummary where
  dreps := ∅
  drepsDeposits := ∅
  poolsDeposits := ∅
  ccUpdate := none

/-- A store with one pool, and two accounts that delegate to it. -/
def twoDelegators (fees : ℕ) : Store :=
  { onePool with
    accounts := .ofList [(.keyHash 2, { pool := some (1, default), deposit := 2, rewards := 50 }),
      (.keyHash 3, { pool := some (1, default), deposit := 2, rewards := 30 })]
    pots := ⟨0, 900, fees, 0⟩ }

theorem poolsValid_twoDelegators (fees : ℕ) : StakeSummary.PoolsValid (twoDelegators fees).pools := by
  refine ⟨poolsNamed_onePool, fun pool row h ↦ ?_⟩
  obtain ⟨rfl, rfl⟩ := Prod.mk.inj (List.mem_singleton.1 (mem_entries_iff.2 h))
  exact ⟨le_refl (0 : ℚ), zero_le_one⟩

/-- Parameters that expand by all the reserves, tax a fifth, and want one pool. -/
def fullExpansion : ProtocolParameters :=
  { (default : ProtocolParameters) with
    optimalStakePoolsCount := 1, monetaryExpansionRate := 1, treasuryExpansionRate := 1 / 5 }

theorem ratesValid_fullExpansion : RatesValid fullExpansion :=
  ⟨⟨zero_le_one, le_refl (1 : ℚ)⟩, by decide +kernel, le_refl (0 : ℚ)⟩

/-- The ten blocks of an epoch, all by the pool. -/
def tenBlocks : List PoolId := List.replicate 10 1

/-- The pool earns 582 lovelace: its leader gets the cost, and the delegators share the rest by stake. -/
def sharedRewards : RewardsSummary where
  epoch := 0
  incentives := 900
  treasuryTax := 182
  availableRewards := 728
  effectiveRewards := 581
  accounts := .ofList [(.keyHash 0, { rewards := 10 }),
    (.keyHash 2, { balance := 50, rewards := 357, pool := some 1 }),
    (.keyHash 3, { balance := 30, rewards := 214, pool := some 1 })]
  leaderRecipients := .ofList [(.keyHash 0, ())]

theorem new_twoDelegators : new (StakeSummary.new 0 (twoDelegators 10) noGovernance) thousandLovelace
    fullExpansion tenBlocks (twoDelegators 10).pots = .ok sharedRewards := by
  decide +kernel

/-- A leader and two delegators stay within what their pool earned. -/
theorem rewards_within_pot_onePool : WithinPot (StakeSummary.new 0 (twoDelegators 10) noGovernance)
    thousandLovelace fullExpansion tenBlocks (twoDelegators 10).pots sharedRewards := by
  have hsupply : (StakeSummary.new 0 (twoDelegators 10) noGovernance).stakeDistribution.activeStake +
    (twoDelegators 10).pots.reserves ≤ thousandLovelace.maxLovelaceSupply := by decide +kernel
  obtain ⟨rewards, h, hwithin⟩ := (rewards_within_pot_iff 0 noGovernance tenBlocks
    (poolsValid_twoDelegators 10) ratesValid_fullExpansion (by decide) hsupply).2
    fun _ _ _ _ ↦ ⟨by decide, by decide⟩
  obtain rfl := ok.inj (h.symm.trans new_twoDelegators)
  exact hwithin

/-- **The rewards are divided by zero when no lovelace circulates.** All of it is in the reserves, and a
pool of no pledge is registered. -/
theorem rewards_divided_by_no_stake :
    (StakeSummary.new 0 onePool noGovernance).stakeDistribution.activeStake + 1000 ≤
      thousandLovelace.maxLovelaceSupply ∧
    new (StakeSummary.new 0 onePool noGovernance) thousandLovelace twoPools [1] ⟨0, 1000, 0, 0⟩ =
      .error .divisionByZero := by
  decide +kernel

end RewardsSummary

end Summary

end Amaru
