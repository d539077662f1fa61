import Amaru.Ledger.EpochTransition.Updates
import Amaru.Ledger.Store.Store

/-!
# Writing an epoch boundary

What the store does when a boundary is stable: at the end of the closing epoch it pays the rewards;
at the start of the new one it moves fees and donations, updates or retires pools, and enacts
governance.

A payment goes to an account that exists, and to the treasury otherwise. **Payments never create or
remove an account**, so who is paid does not depend on the order of the payments.
-/

namespace Amaru.Store

open SortedMap

/-! ### End of the epoch -/

variable (store : Store)

/-- Pay the rewards. They add up to what was computed, or the source panics. -/
def payRewards (rewards : EffectiveRewards) : Except StoreError Store :=
  let paid := store.accounts.sumBy fun cred _ ↦ rewards.rewardOf cred
  if paid + rewards.totalUnclaimedRewards = rewards.totalRewards then
    if rewards.deltaReserves ≤ store.pots.reserves then
      .ok { store with
        accounts := store.accounts.map fun cred row ↦ row.pay (rewards.rewardOf cred)
        pots := { store.pots with
          treasury := store.pots.treasury + rewards.deltaTreasuryWithUnclaimed
          reserves := store.pots.reserves - rewards.deltaReserves } }
    else .error .potUnderflow
  else .error .rewardsDiscrepancy

theorem exists_of_payRewards {store store' : Store} {rewards : EffectiveRewards}
    (h : store.payRewards rewards = .ok store') : ∃ reserves, store' = { store with
      accounts := store.accounts.map fun cred row ↦ row.pay (rewards.rewardOf cred)
      pots := { store.pots with
        treasury := store.pots.treasury + rewards.deltaTreasuryWithUnclaimed
        reserves } } := by
  rw [payRewards] at h
  split_ifs at h
  exact ⟨_, (Except.ok.inj h).symm⟩

/-! ### Start of the epoch -/

/-- Forget the accounts that unregistered too long ago to be owed rewards. -/
def pruneRecentlyUnregisteredAccounts (epoch : ℕ) : Store :=
  { store with
    recentlyUnregisteredAccounts := store.recentlyUnregisteredAccounts.filter
      fun _ unregisteredAt ↦ decide (epoch < unregisteredAt + 3) }

/-- Forget who issued the blocks of the epoch. -/
def resetBlocksCount : Store := { store with slots := ∅ }

/-- Start with no fees, and move donations to the treasury. -/
def resetFeesAndDonations : Store :=
  { store with
    pots := { store.pots with
      fees := 0
      treasury := store.pots.treasury + store.pots.donations
      donations := 0 } }

section

variable (accounts : SortedMap Credential AccountRow)

/-- Pay an account, or return what cannot be paid. -/
def refund (cred : Credential) (amount : ℕ) : SortedMap Credential AccountRow × ℕ :=
  match accounts.get? cred with
  | some row => (accounts.insert cred (row.pay amount), 0)
  | none => (accounts, amount)

/-- Pay many accounts, with what could not be paid. -/
def refundAll (accounts : SortedMap Credential AccountRow) :
    List (Credential × ℕ) → SortedMap Credential AccountRow × ℕ
  | [] => (accounts, 0)
  | (cred, amount) :: payouts =>
    let (accounts, leftover) := refund accounts cred amount
    let (accounts, leftovers) := refundAll accounts payouts
    (accounts, leftover + leftovers)

/-- The sum of the payments to an account. -/
def owed (payouts : List (Credential × ℕ)) (cred : Credential) : ℕ :=
  ((payouts.filter (·.1 = cred)).map Prod.snd).sum

/-- The sum of the payments to accounts that do not exist. -/
def unpayable (accountExists : Credential → Bool) (payouts : List (Credential × ℕ)) : ℕ :=
  ((payouts.filter fun payout ↦ !accountExists payout.1).map Prod.snd).sum

/-- Pay accounts. What cannot be paid goes to the treasury. -/
def payOrRefundAccounts (payouts : List (Credential × ℕ)) : Store :=
  let (accounts, leftovers) := refundAll store.accounts payouts
  { store with accounts, pots := { store.pots with treasury := store.pots.treasury + leftovers } }

/-- Update pools, and retire those that reached their retirement. -/
def updateOrRetirePools (updates : SortedMap PoolId PoolRow) (retirements : SortedSet PoolId) : Store :=
  { store with
    pools := store.pools.filterMap fun id row ↦
      if id ∈ retirements then none else some ((updates.get? id).getD row) }

/-- Remove and add committee members. -/
def changeCommitteeMembers (members : SortedMap Credential CCMemberRow)
    (removed : SortedSet Credential) (added : SortedMap Credential ℕ) :
    SortedMap Credential CCMemberRow :=
  ccMembersUpsert (ccMembersUpsert members (removed.map fun _ _ ↦ { right := .reset }))
    (added.map fun _ validUntil ↦ { right := .set validUntil })

/-- The committee members after an update. Everyone who was not elected is forgotten. -/
def updateCCMembers (members : SortedMap Credential CCMemberRow)
    (update : Option ConstitutionalCommitteeUpdate) : SortedMap Credential CCMemberRow :=
  (match update with
    | some .noConfidence => ∅
    | some (.changeMembers removed added _) => changeCommitteeMembers members removed added
    | none => members).filter fun _ row ↦ row.validUntil.isSome

/-- Update the committee. -/
def updateConstitutionalCommittee (update : Option ConstitutionalCommitteeUpdate) : Store :=
  { store with
    constitutionalCommittee := match update with
      | some .noConfidence => .noConfidence
      | some (.changeMembers _ _ threshold) => .trusted threshold
      | none => store.constitutionalCommittee
    ccMembers := updateCCMembers store.ccMembers update }

/-- Take the withdrawals out of the treasury. -/
def withdrawFromTreasury (withdrawals : SortedMap Credential ℕ) : Except StoreError Store :=
  if withdrawals.values.sum ≤ store.pots.treasury then
    .ok { store with
      pots := { store.pots with treasury := store.pots.treasury - withdrawals.values.sum } }
  else .error .potUnderflow

/-- Enact what was ratified. -/
def applyGovernanceUpdates (updates : GovernanceUpdates) : Except StoreError Store := do
  let store := { store with
    proposalsRoots := updates.roots
    constitution := updates.newConstitution.getD store.constitution }
  let store := store.updateConstitutionalCommittee updates.constitutionalCommittee
  let store := { store with protocolParameters := updates.protocolParameters }
  let store := store.payOrRefundAccounts
    (updates.depositRefunds.entries ++ updates.treasuryWithdrawals.entries)
  let store ← store.withdrawFromTreasury updates.treasuryWithdrawals
  let dormantEpochs := store.governanceActivity.consecutiveDormantEpochs
  return { store with
    governanceActivity := if updates.isDormantEpoch then
      { consecutiveDormantEpochs := dormantEpochs + 1 } else store.governanceActivity
    proposals := store.proposals.filter fun id _ ↦ !updates.prunedProposals.contains id
    votes := store.votes.filter fun ballot _ ↦ !updates.prunedProposals.contains ballot.proposal }

/-! ### Payments -/

theorem get?_refund (cred other : Credential) (amount : ℕ) : (refund accounts cred amount).1.get? other =
      (accounts.get? other).map fun row ↦ if cred = other then row.pay amount else row := by
  rw [refund]
  rcases hrow : accounts.get? cred with - | row
  · by_cases h : cred = other
    · simp [← h, hrow]
    · simp [h]
  · by_cases h : cred = other
    · simp [← h, hrow]
    · simp [h, get?_insert_of_ne _ _ (Ne.symm h)]

theorem contains_refund (cred : Credential)
    (amount : ℕ) : (refund accounts cred amount).1.contains = accounts.contains := by
  funext other
  rw [contains, get?_refund, Option.isSome_map]
  rfl

end

theorem get?_refundAll (cred : Credential) : ∀ (payouts : List (Credential × ℕ))
    (accounts : SortedMap Credential AccountRow),
    (refundAll accounts payouts).1.get? cred = (accounts.get? cred).map (·.pay (owed payouts cred))
  | [], accounts => by simp [refundAll, owed, AccountRow.pay]
  | (target, amount) :: payouts, accounts => by
    change (refundAll (refund accounts target amount).1 payouts).1.get? cred = _
    rw [get?_refundAll cred payouts, get?_refund, Option.map_map]
    congr 1
    funext row
    by_cases h : target = cred
    · simp [h, owed, AccountRow.pay, Nat.add_assoc]
    · simp [h, owed]

/-- What is left over is what accounts that do not exist are owed. -/
theorem leftovers_refundAll : ∀ (payouts : List (Credential × ℕ))
    (accounts : SortedMap Credential AccountRow),
    (refundAll accounts payouts).2 = unpayable accounts.contains payouts
  | [], _ => rfl
  | (target, amount) :: payouts, accounts => by
    change (refund accounts target amount).2 + (refundAll (refund accounts target amount).1 payouts).2 = _
    rw [leftovers_refundAll payouts, contains_refund, refund, unpayable, unpayable]
    cases h : accounts.get? target <;> simp [h, contains]

theorem owed_entries (payouts : SortedMap Credential ℕ) (cred : Credential) :
    owed payouts.entries cred = (payouts.get? cred).getD 0 := by
  rw [owed, map_snd_filter_entries]
  cases payouts.get? cred <;> simp

theorem owed_append (payouts payouts' : List (Credential × ℕ)) (cred : Credential) :
    owed (payouts ++ payouts') cred = owed payouts cred + owed payouts' cred := by
  simp [owed]

theorem unpayable_cons (accountExists : Credential → Bool) (payout : Credential × ℕ)
    (payouts : List (Credential × ℕ)) : unpayable accountExists (payout :: payouts) =
      (if accountExists payout.1 then 0 else payout.2) + unpayable accountExists payouts := by
  by_cases h : accountExists payout.1 <;> simp [unpayable, h]

/-! ### What enacting did -/

/-- What the tables hold once governance is enacted. -/
structure Enacts (updates : GovernanceUpdates) (store store' : Store) : Prop where
  tip_eq : store'.tip = store.tip
  utxo_eq : store'.utxo = store.utxo
  dreps_eq : store'.dreps = store.dreps
  pools_eq : store'.pools = store.pools
  recentlyUnregistered_eq : store'.recentlyUnregisteredAccounts = store.recentlyUnregisteredAccounts
  get?_accounts : ∀ cred, store'.accounts.get? cred = (store.accounts.get? cred).map (·.pay (owed
      (updates.depositRefunds.entries ++ updates.treasuryWithdrawals.entries) cred))
  ccMembers_eq : store'.ccMembers = updateCCMembers store.ccMembers updates.constitutionalCommittee
  proposals_eq : store'.proposals = store.proposals.filter fun id _ ↦ !updates.prunedProposals.contains id
  treasury_eq : store'.pots.treasury + updates.treasuryWithdrawals.values.sum =
    store.pots.treasury + unpayable store.accounts.contains
      (updates.depositRefunds.entries ++ updates.treasuryWithdrawals.entries)

theorem enacts_of_applyGovernanceUpdates {store store' updates}
    (h : store.applyGovernanceUpdates updates = .ok store') : Enacts updates store store' := by
  obtain ⟨withdrawn, hwithdrawn, h⟩ := Except.bind_eq_ok_iff.1 h
  cases h
  rw [withdrawFromTreasury] at hwithdrawn
  split_ifs at hwithdrawn with htreasury
  cases hwithdrawn
  refine ⟨rfl, rfl, rfl, rfl, rfl, fun cred ↦ get?_refundAll cred _ _, rfl, rfl, ?_⟩
  rw [← leftovers_refundAll]
  exact Nat.sub_add_cancel htreasury

end Amaru.Store
