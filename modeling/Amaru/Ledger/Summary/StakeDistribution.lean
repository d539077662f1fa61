import Amaru.Ledger.EpochTransition.Updates
import Amaru.Ledger.Store.Store

/-!
# The stake distribution of an epoch

From a snapshot taken at the end of an epoch: what each account holds, and what each pool and each
representative it delegates to gets from it. `StakeSummary.new` goes through the tables of the
snapshot one after the other, as the source does.

What the rewards rest on is `Coherent`: **the stake of a pool is the sum of the balances delegated to
it**, and no account has a reward yet.
-/

namespace Amaru

open SortedMap Option

/-- An account of a stake distribution. -/
structure AccountState where
  balance : ℕ := 0
  rewards : ℕ := 0
  pool : Option PoolId := none
  drep : Option DRep := none
deriving DecidableEq

/-- The credential that the stake of an address belongs to. -/
def Address.stakeCredential : Address → Option Credential
  | shelley _ _ (some (.credential cred)) => some cred
  | _ => none

namespace Summary

/-- A pool of a stake distribution, with what its vote counts. -/
structure PoolState extends Amaru.PoolState where
  registeredAt : CertificatePointer
  blocksCount : ℕ
  stake : ℕ
  margin : ℚ
  parameters : PoolParams

/-- A representative of a stake distribution, with what its vote counts. -/
structure DRepState extends Amaru.DRepState where
  registeredAt : CertificatePointer

/-- What governance adds to the stake of accounts. -/
structure GovernanceSummary where
  dreps : SortedMap DRep DRepState
  drepsDeposits : SortedMap Credential ℕ
  poolsDeposits : SortedMap Credential ℕ
  ccUpdate : Option ConstitutionalCommitteeUpdate

/-- The stake distribution of an epoch. -/
structure StakeDistribution where
  epoch : ℕ
  treasury : ℕ
  reserves : ℕ
  activeStake : ℕ
  poolsVotingStake : ℕ
  drepsVotingStake : ℕ
  pools : SortedMap PoolId PoolState
  dreps : SortedMap DRep DRepState
  ccUpdate : Option ConstitutionalCommitteeUpdate

/-- The stake distribution of an epoch, with the accounts. -/
structure StakeSummary where
  stakeDistribution : StakeDistribution
  accounts : SortedMap Credential AccountState

namespace StakeSummary

/-! ### From the tables of a snapshot -/

/-- A pool before its stake is counted. -/
def poolState (row : PoolRow) : PoolState where
  votingStake := 0
  fallbackDrep := none
  registeredAt := row.registeredAt
  blocksCount := 0
  stake := 0
  margin := row.currentParams.margin
  parameters := row.currentParams

/-- Whether a pool retires at an epoch. -/
def isRetiring (epoch : ℕ) (row : PoolRow) : Bool :=
  match (pendingAfter row.pendingCertificates epoch).certificate with
  | some (.retirement _) => true
  | _ => false

/-- The deposits that pools about to retire give back. -/
def poolsDeregistrationRefunds (epoch stakePoolDeposit : ℕ) (pools : SortedMap PoolId PoolRow) :
    SortedMap Credential ℕ :=
  pools.values.foldl (fun refunds row ↦
    if isRetiring (epoch + 1) row then
      refunds.alter row.currentParams.rewardAccount.credential fun refund ↦
        some (refund.getD 0 + stakePoolDeposit)
    else refunds) ∅

/-- An account before the outputs are counted. A delegation counts if the delegatee has not registered
since. -/
def accountState (pools : SortedMap PoolId PoolState) (dreps : SortedMap DRep DRepState)
    (row : AccountRow) : AccountState where
  balance := row.rewards
  rewards := 0
  pool := row.pool.bind fun (pool, since) ↦ (pools.get? pool).bind fun state ↦
    if state.registeredAt ≤ since then some pool else none
  drep := row.drep.bind fun (drep, since) ↦ match drep with
    | .abstain | .noConfidence => some drep
    | .key _ | .script _ => (dreps.get? drep).bind fun state ↦
      if state.registeredAt ≤ since then some drep else none

/-- Count an output. -/
def addOutput (accounts : SortedMap Credential AccountState) (output : MemoizedTransactionOutput) :
    SortedMap Credential AccountState :=
  match output.address.stakeCredential with
  | some cred => accounts.modify cred fun account ↦
      { account with balance := account.balance + output.value.lovelace }
  | none => accounts

/-! ### Counting the accounts -/

/-- What is counted account by account. -/
structure Tally where
  pools : SortedMap PoolId PoolState
  dreps : SortedMap DRep DRepState
  activeStake : ℕ := 0
  poolsVotingStake : ℕ := 0
  drepsVotingStake : ℕ := 0

/-- Count an account for its representative. -/
def Tally.addToDRep (tally : Tally) (account : AccountState) (deposits refunds : ℕ) : Tally :=
  match account.drep.filter tally.dreps.contains with
  | some drep =>
    let votingStake := account.balance + deposits + refunds
    { tally with
      drepsVotingStake := tally.drepsVotingStake + votingStake
      dreps := tally.dreps.modify drep fun state ↦
        { state with votingStake := state.votingStake + votingStake } }
  | none => tally

/-- Count an account for its pool. -/
def Tally.addToPool (tally : Tally) (account : AccountState) (deposits : ℕ) : Tally :=
  match account.pool.filter tally.pools.contains with
  | some pool =>
    let votingStake := account.balance + deposits
    { tally with
      activeStake := tally.activeStake + account.balance
      poolsVotingStake := tally.poolsVotingStake + votingStake
      pools := tally.pools.modify pool fun state ↦ { state with
        stake := state.stake + account.balance
        votingStake := state.votingStake + votingStake } }
  | none => tally

/-- Count an account. -/
def Tally.add (refunds : SortedMap Credential ℕ) (governance : GovernanceSummary) (tally : Tally)
    (account : Credential × AccountState) : Tally :=
  (tally.addToDRep account.2 ((governance.drepsDeposits.get? account.1).getD 0)
    ((refunds.get? account.1).getD 0)).addToPool account.2 ((governance.poolsDeposits.get? account.1).getD 0)

/-- The representative a pool falls back to is that of its reward account. -/
def withFallbackDReps (accounts : SortedMap Credential AccountState)
    (pools : SortedMap PoolId PoolState) : SortedMap PoolId PoolState :=
  pools.map fun _ pool ↦ { pool with
    fallbackDrep := (accounts.get? pool.parameters.rewardAccount.credential).bind (·.drep) }

/-- Count the blocks of the pools. -/
def withBlocksCount (issuers : List PoolId) (pools : SortedMap PoolId PoolState) :
    SortedMap PoolId PoolState :=
  issuers.foldl (fun pools issuer ↦ pools.modify issuer fun pool ↦
    { pool with blocksCount := pool.blocksCount + 1 }) pools

/-- The stake distribution of a snapshot. -/
def new (epoch : ℕ) (db : Store) (governance : GovernanceSummary) : StakeSummary :=
  let refunds := poolsDeregistrationRefunds epoch db.protocolParameters.stakePoolDeposit db.pools
  let pools := db.pools.map fun _ row ↦ poolState row
  let accounts := db.utxo.values.foldl addOutput
    (db.accounts.map fun _ row ↦ accountState pools governance.dreps row)
  let tally := accounts.entries.foldl (Tally.add refunds governance) { pools, dreps := governance.dreps }
  { stakeDistribution :=
      { epoch
        treasury := db.pots.treasury
        reserves := db.pots.reserves
        activeStake := tally.activeStake
        poolsVotingStake := tally.poolsVotingStake
        drepsVotingStake := tally.drepsVotingStake
        pools := withBlocksCount db.slots.values (withFallbackDReps accounts tally.pools)
        dreps := tally.dreps
        ccUpdate := governance.ccUpdate }
    accounts }

/-! ### What it comes to -/

/-- What of a pool the rewards depend on, and only the stake changes. -/
def core (pool : PoolState) : ℕ × ℚ × PoolParams := (pool.stake, pool.margin, pool.parameters)

theorem core_eq : core = fun pool ↦ (pool.stake, pool.margin, pool.parameters) := rfl

theorem core_of_add (refunds : SortedMap Credential ℕ) (governance : GovernanceSummary)
    (tally : Tally) (account : Credential × AccountState) (id : PoolId) :
    ((tally.add refunds governance account).pools.get? id).map core =
      (tally.pools.get? id).map fun pool ↦
        (pool.stake + (if account.2.pool = some id then account.2.balance else 0), pool.margin,
          pool.parameters) := by
  have hdrep : ∀ deposits refund,
      (tally.addToDRep account.2 deposits refund).pools = tally.pools := fun deposits refund ↦ by
    rw [Tally.addToDRep]
    split <;> rfl
  rw [Tally.add, Tally.addToPool, hdrep, core_eq]
  rcases hpool : account.2.pool with - | pool
  · simp [hdrep]
  by_cases hcontains : tally.pools.contains pool
  · rw [filter_some, if_pos hcontains]
    rw [get?_modify]
    by_cases hid : id = pool
    · subst hid
      simp [Function.comp_def]
    · simp [hid, Ne.symm hid]
  · rw [filter_some, if_neg hcontains]
    rw [hdrep]
    by_cases hid : pool = id
    · subst hid
      rw [contains, not_isSome_iff_eq_none] at hcontains
      simp [hcontains]
    · simp [hid]

theorem core_foldl_add (refunds : SortedMap Credential ℕ) (governance : GovernanceSummary)
    (id : PoolId) : ∀ (accounts : List (Credential × AccountState)) (tally : Tally),
      ((accounts.foldl (Tally.add refunds governance) tally).pools.get? id).map core =
        (tally.pools.get? id).map fun pool ↦
          (pool.stake + (accounts.map fun account ↦
            if account.2.pool = some id then account.2.balance else 0).sum, pool.margin,
            pool.parameters)
  | [], tally => by simp [core_eq]
  | account :: accounts, tally => by
    rw [List.foldl_cons, core_foldl_add refunds governance id accounts]
    have hstep := core_of_add refunds governance tally account id
    rcases htally : tally.pools.get? id with - | pool
    · rw [htally] at hstep
      rw [map_eq_none_iff.1 hstep]
      rfl
    rw [htally] at hstep
    obtain ⟨pool', hpool', hcore⟩ := map_eq_some_iff.1 hstep
    obtain ⟨hstake, hmargin, hparameters⟩ : pool'.stake = _ ∧ pool'.margin = _ ∧
      pool'.parameters = _ := by simpa [core] using hcore
    simp [hpool', hstake, hmargin, hparameters, Nat.add_assoc]

theorem core_withFallbackDReps (accounts : SortedMap Credential AccountState)
    (pools : SortedMap PoolId PoolState) (id : PoolId) :
    ((withFallbackDReps accounts pools).get? id).map core = (pools.get? id).map core := by
  rw [withFallbackDReps, get?_map, map_map]
  rfl

theorem core_withBlocksCount (issuers : List PoolId) (pools : SortedMap PoolId PoolState)
    (id : PoolId) : ((withBlocksCount issuers pools).get? id).map core = (pools.get? id).map core := by
  rw [withBlocksCount, get?_foldl_modify (fun issuer ↦ issuer)
    (fun _ (pool : PoolState) ↦ { pool with blocksCount := pool.blocksCount + 1 }), map_map]
  congr 1
  funext pool
  induction issuers.filter fun issuer ↦ issuer = id generalizing pool with
  | nil => rfl
  | cons issuer issuers ih => exact ih _

theorem rewards_foldl_addOutput (outputs : List MemoizedTransactionOutput) :
    ∀ (accounts : SortedMap Credential AccountState),
      (∀ cred account, accounts.get? cred = some account → account.rewards = 0) →
      ∀ cred account, (outputs.foldl addOutput accounts).get? cred = some account → account.rewards = 0 := by
  induction outputs with
  | nil => exact fun _ h ↦ h
  | cons output outputs ih =>
    refine fun accounts h ↦ ih _ fun cred account haccount ↦ ?_
    rw [addOutput] at haccount
    split at haccount
    · next owner _ =>
      rw [get?_modify] at haccount
      split_ifs at haccount with howner
      · obtain ⟨before, hbefore, rfl⟩ := map_eq_some_iff.1 haccount
        exact h owner before hbefore
      · exact h cred account haccount
    · exact h cred account haccount

theorem contains_foldl_addOutput (outputs : List MemoizedTransactionOutput) (cred : Credential) :
    ∀ accounts : SortedMap Credential AccountState,
      (outputs.foldl addOutput accounts).contains cred = accounts.contains cred := by
  induction outputs with
  | nil => exact fun _ ↦ rfl
  | cons output outputs ih =>
    intro accounts
    rw [List.foldl_cons, ih, addOutput]
    split
    · next owner _ =>
      rw [contains, contains, get?_modify]
      split_ifs with howner
      · rw [isSome_map, howner]
      · rfl
    · rfl

/-- What the rewards rest on. -/
structure Coherent (summary : StakeSummary) : Prop where
  /-- A pool is held under its own name. -/
  named : ∀ id pool, summary.stakeDistribution.pools.get? id = some pool → pool.parameters.id = id
  margin_mem : ∀ id pool, summary.stakeDistribution.pools.get? id = some pool →
    0 ≤ pool.margin ∧ pool.margin ≤ 1
  /-- The stake of a pool is what is delegated to it. -/
  stake_eq : ∀ id pool, summary.stakeDistribution.pools.get? id = some pool →
    pool.stake = summary.accounts.sumBy fun _ account ↦
      if account.pool = some id then account.balance else 0
  rewards_eq : ∀ cred account, summary.accounts.get? cred = some account → account.rewards = 0

/-- The pools of a snapshot: under their own names, with margins of the type that the source has for
them. -/
structure PoolsValid (pools : SortedMap PoolId PoolRow) : Prop where
  named : ∀ id row, pools.get? id = some row → row.currentParams.id = id
  margin_mem : ∀ id row, pools.get? id = some row →
    0 ≤ row.currentParams.margin ∧ row.currentParams.margin ≤ 1

/-- **The stake of a pool is what is delegated to it.** -/
theorem coherent_new (epoch : ℕ) {db : Store} (hpools : PoolsValid db.pools)
    (governance : GovernanceSummary) : Coherent (new epoch db governance) := by
  have hcore : ∀ id, ((new epoch db governance).stakeDistribution.pools.get? id).map core =
      (db.pools.get? id).map fun row ↦ ((new epoch db governance).accounts.sumBy fun _ account ↦
        if account.pool = some id then account.balance else 0, row.currentParams.margin,
        row.currentParams) := fun id ↦ by
    change ((withBlocksCount _ _).get? id).map core = _
    rw [core_withBlocksCount, core_withFallbackDReps, core_foldl_add, get?_map, map_map]
    simp [Function.comp_def, poolState, sumBy, new]
  have hrow : ∀ id pool, (new epoch db governance).stakeDistribution.pools.get? id = some pool →
      ∃ row, db.pools.get? id = some row ∧ pool.stake = (new epoch db governance).accounts.sumBy
        (fun _ account ↦ if account.pool = some id then account.balance else 0) ∧
        pool.margin = row.currentParams.margin ∧ pool.parameters = row.currentParams := by
    intro id pool hpool
    have h := hcore id
    rw [hpool] at h
    obtain ⟨row, hrow, heq⟩ := map_eq_some_iff.1 h.symm
    refine ⟨row, hrow, ?_⟩
    simpa [core, eq_comm] using heq
  refine ⟨fun id pool hpool ↦ ?_, fun id pool hpool ↦ ?_, fun id pool hpool ↦ ?_, ?_⟩
  · obtain ⟨row, hrow, -, -, hparameters⟩ := hrow id pool hpool
    rw [hparameters, hpools.named id row hrow]
  · obtain ⟨row, hrow, -, hmargin, -⟩ := hrow id pool hpool
    rw [hmargin]
    exact hpools.margin_mem id row hrow
  · obtain ⟨-, -, hstake, -⟩ := hrow id pool hpool
    exact hstake
  · refine rewards_foldl_addOutput _ _ fun cred account haccount ↦ ?_
    rw [get?_map] at haccount
    obtain ⟨row, -, rfl⟩ := map_eq_some_iff.1 haccount
    rfl

theorem contains_accounts_new (epoch : ℕ) (db : Store) (governance : GovernanceSummary) (cred : Credential) :
    (new epoch db governance).accounts.contains cred = db.accounts.contains cred := by
  refine (contains_foldl_addOutput _ _ _).trans ?_
  rw [contains, get?_map, isSome_map]
  rfl

end StakeSummary

end Summary

end Amaru
