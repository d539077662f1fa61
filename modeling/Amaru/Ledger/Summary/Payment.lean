import Amaru.Ledger.State.Restart
import Amaru.Ledger.Summary.Reserves

/-!
# Paying the rewards

The rewards of an epoch are computed from a snapshot taken three boundaries before they are paid, and
who can be paid is decided when the epoch closes, from the blocks that are not saved yet and from what
the store remembers. The payment itself comes later, and goes through the accounts that are then there.

**Every reward is either paid or unclaimed.** An account of the snapshot that is gone was unregistered
since, and the store remembers that for three epochs: `History.remembers` follows it from the snapshot on,
block by block and boundary by boundary. Everyone else who is rewarded is the reward account of a pool,
and these are looked up one by one.
-/

namespace Amaru

open StateOverlay SortedMap Summary.RewardsSummary Summary.StakeSummary Option VolatileView ProposalsForest
  Except Store.RecentlyUnregisteredGone Store

variable {s : Store} {db : VolatileDB} {computed : Rewards} {eras : EraHistory}
  {activity : GovernanceActivity} {governanceUpdates : GovernanceUpdates}
  {poolsUpdates : PoolsEpochTransitionUpdates} {pp : ProtocolParameters}
  {cred : Credential} {epoch : ℕ}

/-! ### From the snapshot on -/

/-- The stores that come after a snapshot, with the epoch they are in: blocks of the epoch are saved,
and at its end the boundary is written, in as many parts as it takes. -/
inductive History (eras : EraHistory) (epoch : ℕ) (snapshot : Store) : ℕ → Store → Prop
  /-- The new epoch starts once the snapshot is taken. -/
  | opened {ov : StateOverlay} {s} (hended : snapshot.epochTransitionProgress = some .epochEnded)
    (hepoch : ov.epoch = epoch + 1) (h : ov.beginEpoch (takeSnapshot snapshot).1 = .ok s) :
    History eras epoch snapshot (epoch + 1) s
  /-- A block of the epoch is saved. -/
  | saved {current s s' pp activity block} (before : History eras epoch snapshot current s)
    (hprogress : s.epochTransitionProgress = none) (hnew : block.point.isStale s.tip = false)
    (hepoch : eras.slotToEpoch block.point.slotOrDefault block.point.slotOrDefault = .ok current)
    (h : s.applyBlock eras pp activity block = .ok s') :
    History eras epoch snapshot current s'
  /-- The epoch ends: its rewards are paid. -/
  | ended {current} {ov : StateOverlay} {s s'}
    (before : History eras epoch snapshot current s) (h : ov.endEpoch s = .ok s') :
    History eras epoch snapshot current s'
  /-- Its snapshot is taken. -/
  | snapshotted {current s} (before : History eras epoch snapshot current s) :
    History eras epoch snapshot current (takeSnapshot s).1
  /-- The next one starts. -/
  | begun {current} {ov : StateOverlay} {s s'}
    (before : History eras epoch snapshot current s)
    (hprogress : s.epochTransitionProgress = some .snapshotTaken) (hepoch : ov.epoch = current + 1)
    (h : ov.beginEpoch s = .ok s') :
    History eras epoch snapshot (current + 1) s'

/-- An account is there, or was unregistered after an epoch and the store says so. -/
def Store.Remembers (s : Store) (epoch : ℕ) (cred : Credential) : Prop :=
  s.accounts.contains cred = true ∨
    ∃ unregisteredAt, s.recentlyUnregisteredAccounts.get? cred = some unregisteredAt ∧
      epoch < unregisteredAt

/-! ### What each step keeps -/

section

variable {ov : StateOverlay} {s' : Store}

theorem StateOverlay.openEpoch_of_beginEpoch (hprogress : s.epochTransitionProgress = some .snapshotTaken)
    (h : ov.beginEpoch s = .ok s') :
    ov.openEpoch { s with epochTransitionProgress := none } = .ok s' := by
  rw [beginEpoch, if_pos hprogress] at h
  exact mapError_eq_ok_iff.1 h

theorem StateOverlay.takeSnapshot_fst (s : Store) :
    (takeSnapshot s).1 = s ∨
      (takeSnapshot s).1 = { s with epochTransitionProgress := some .snapshotTaken } := by
  rw [takeSnapshot]
  split_ifs
  · exact .inr rfl
  · exact .inl rfl

theorem StateOverlay.openEpoch_of_ended (hended : s.epochTransitionProgress = some .epochEnded)
    (h : ov.beginEpoch (takeSnapshot s).1 = .ok s') :
    ov.openEpoch { s with epochTransitionProgress := none } = .ok s' := by
  rw [takeSnapshot, if_pos hended, beginEpoch, if_pos rfl] at h
  exact mapError_eq_ok_iff.1 h

theorem Store.Remembers.applyBlock {current block} (hremembers : s.Remembers epoch cred)
    (hlater : epoch < current) (hnew : block.point.isStale s.tip = false)
    (hepoch : eras.slotToEpoch block.point.slotOrDefault block.point.slotOrDefault = .ok current)
    (h : s.applyBlock eras pp activity block = .ok s') :
    s'.Remembers epoch cred := by
  obtain ⟨row, hrow, hget⟩ := get?_accounts_of_applyBlock h hnew cred
  have hcontains : s'.accounts.contains cred = row.isSome := by
    rw [contains, hget, isSome_map]
  have hrecent : s'.recentlyUnregisteredAccounts.get? cred =
      ((block.fragment.accounts.unregistered.get? cred).map fun _ ↦ current).or
        ((s.recentlyUnregisteredAccounts.get? cred).filter fun _ ↦
          !(block.fragment.accounts.registered.get? cred).any (·.value.isSome)) := by
    obtain ⟨epoch', _, _, hepoch', -, -, rfl⟩ := exists_of_applyBlock h hnew
    obtain rfl := ok.inj (hepoch'.symm.trans hepoch)
    change (recentlyUnregistered _ _ _ epoch').get? cred = _
    rw [recentlyUnregistered, get?_insertAll, get?_map, get?_filter]
  rw [Remembers, hcontains, hrecent]
  cases hverdict : block.fragment.accounts.get cred with
  | gone =>
    rw [SortedSet.mem_iff.1 (DiffBind.get_eq_gone_iff.1 hverdict)]
    exact .inr ⟨current, rfl, hlater⟩
  | unknown =>
    obtain ⟨hreg, hun⟩ := DiffBind.get_eq_unknown_iff.1 hverdict
    rw [hverdict] at hrow
    rw [show row = _ from hrow, SortedSet.notMem_iff.1 hun, hreg]
    rcases hremembers with hexists | ⟨unregisteredAt, hat, hafter⟩
    · exact .inl hexists
    · exact .inr ⟨unregisteredAt, by simp [hat], hafter⟩
  | exists_ bind =>
    rw [hverdict] at hrow
    obtain ⟨hmissing, happly, -⟩ := of_accountsAddRow hrow
    -- a binding creates the account, or the account was there
    have hbound : row.isSome = (bind.apply ((s.accounts.get? cred).map (·.bound))).isSome := by
      rw [← happly, isSome_map]
    left
    rw [hbound, Bind.apply]
    rcases hvalue : bind.value with - | deposit
    · simpa using hmissing hvalue
    · rfl

theorem Store.Remembers.openEpoch (hremembers : s.Remembers epoch cred)
    (hsoon : ov.epoch ≤ epoch + 3) (h : ov.openEpoch s = .ok s') :
    s'.Remembers epoch cred := by
  rw [Remembers, contains, (opens_of_openEpoch h).get?_accounts, isSome_map,
    (opens_of_openEpoch h).recentlyUnregistered_eq]
  refine hremembers.imp_right fun ⟨unregisteredAt, hat, hafter⟩ ↦ ⟨unregisteredAt, ?_, hafter⟩
  change (s.recentlyUnregisteredAccounts.filter _).get? cred = _
  rw [get?_filter, hat]
  simp only [filter_some, ite_eq_left_iff, Bool.not_eq_true, decide_eq_false_iff_not]
  omega

theorem Store.RecentlyUnregisteredGone.openEpoch (hstore : s.RecentlyUnregisteredGone)
    (h : ov.openEpoch s = .ok s') : s'.RecentlyUnregisteredGone := by
  intro cred hrecent
  rw [(opens_of_openEpoch h).recentlyUnregistered_eq] at hrecent
  rw [(opens_of_openEpoch h).get?_accounts, map_eq_none_iff]
  change ((s.recentlyUnregisteredAccounts.filter _).get? cred).isSome at hrecent
  rw [get?_filter] at hrecent
  exact hstore cred (isSome_of_isSome_filter _ _ hrecent)

end

namespace History

variable {current : ℕ} {snapshot : Store}

section

variable (h : History eras epoch snapshot current s)
include h

theorem lt_epoch : epoch < current := by
  induction h with
  | opened _ _ _ => omega
  | saved _ _ _ _ _ ih | ended _ _ ih | snapshotted _ ih => exact ih
  | begun _ _ _ _ ih => omega

/-- **Three epochs on, the store knows what became of the accounts of the snapshot.** -/
theorem remembers (hsoon : current ≤ epoch + 3)
    (haccount : snapshot.accounts.contains cred = true) : s.Remembers epoch cred := by
  induction h with
  | opened hended hepoch h =>
    refine Store.Remembers.openEpoch ?_ (by omega) (openEpoch_of_ended hended h)
    exact .inl haccount
  | saved before _ hnew hepoch h ih => exact (ih hsoon).applyBlock before.lt_epoch hnew hepoch h
  | ended _ h ih =>
    rcases exists_of_endEpoch h with ⟨-, _, _, -, rfl⟩ | ⟨-, rfl⟩
    · rw [Store.Remembers, contains, get?_map, isSome_map]
      exact ih hsoon
    · exact ih hsoon
  | @snapshotted _ s _ ih =>
    rcases takeSnapshot_fst s with heq | heq <;> rw [heq] <;> exact ih hsoon
  | begun _ hprogress hepoch h ih =>
    refine Store.Remembers.openEpoch ?_ (by omega) (openEpoch_of_beginEpoch hprogress h)
    exact ih (by omega)

/-- The reserves stay as they are from a snapshot to the end of the next epoch. -/
theorem reserves_eq (hnext : current = epoch + 1) (hprogress : s.epochTransitionProgress = none) :
    s.pots.reserves = snapshot.pots.reserves := by
  induction h with
  | opened hended _ h =>
    exact (pots_of_openEpoch (openEpoch_of_ended hended h)).1
  | saved _ hbefore hnew _ h ih =>
    obtain ⟨_, _, _, -, -, -, rfl⟩ := exists_of_applyBlock h hnew
    exact ih hnext hbefore
  | ended _ h ih =>
    rcases exists_of_endEpoch h with ⟨-, _, _, -, rfl⟩ | ⟨hsome, rfl⟩
    · cases hprogress
    · exact absurd hprogress hsome
  | @snapshotted _ s _ ih =>
    rcases takeSnapshot_fst s with heq | heq <;> rw [heq] at hprogress ⊢
    · exact ih hnext hprogress
    · cases hprogress
  | begun before _ _ _ _ =>
    have := before.lt_epoch
    omega

theorem recentlyUnregisteredGone (hsnapshot : snapshot.RecentlyUnregisteredGone) :
    s.RecentlyUnregisteredGone := by
  induction h with
  | opened hended _ h =>
    refine openEpoch ?_ (openEpoch_of_ended hended h)
    exact hsnapshot
  | saved _ _ hnew _ h ih => exact ih.applyBlock hnew h
  | ended _ h ih =>
    rcases exists_of_endEpoch h with ⟨-, _, _, -, rfl⟩ | ⟨-, rfl⟩
    · exact fun cred hgone ↦ by rw [get?_map, ih cred hgone, map_none]
    · exact ih
  | @snapshotted _ s _ ih =>
    rcases takeSnapshot_fst s with heq | heq <;> rw [heq] <;> exact ih
  | begun _ hprogress _ h ih =>
    refine openEpoch ?_ (openEpoch_of_beginEpoch hprogress h)
    exact ih

end

end History

/-! ### Who is rewarded -/

namespace Summary.RewardsSummary

section

variable {summary : StakeSummary} {globals : GlobalParameters}
  {issuers : List PoolId} {pots : Pots}
  {rewards : RewardsSummary} {budget : Budget} {leaders : Leaders} {members : Members}
  (hcomputed : Computed summary globals pp issuers pots rewards budget leaders members)
include hcomputed

/-- What is given out is what the accounts get. -/
theorem Computed.effective_eq :
    rewards.effectiveRewards = rewards.accounts.sumBy fun _ account ↦ account.rewards := by
  obtain ⟨-, -, -, -, -, hshared, rfl⟩ := hcomputed
  exact hshared.rewards_eq.symm

theorem Computed.deltaReserves_le (hwithin : WithinPot summary globals pp issuers pots rewards) {delta : ℕ}
    (hdelta : rewards.deltaReserves = .ok delta) : delta ≤ pots.reserves := by
  have heffective := hwithin.effective_le
  obtain ⟨-, hbudgeted, -, -, -, -, rfl⟩ := hcomputed
  have hsub := checkedSub_eq_ok_iff.1 hdelta
  have hincentives := hbudgeted.incentives_le
  dsimp only at hsub heffective
  omega

end

end Summary.RewardsSummary

/-! ### Paying -/

/-- The rewards that were marked go to the treasury, once each. -/
theorem EffectiveRewards.totalUnclaimedRewards_eq (rewards : EffectiveRewards) :
    rewards.totalUnclaimedRewards =
      rewards.unclaimed.sumBy fun cred _ ↦ (rewards.accounts.get? cred).getD 0 := by
  have hsum : ∀ l : List Credential, (l.filterMap rewards.accounts.get?).sum =
      (l.map fun cred ↦ (rewards.accounts.get? cred).getD 0).sum := by
    intro l
    induction l with
    | nil => rfl
    | cons cred l ih =>
      rw [List.map_cons, List.sum_cons, ← ih]
      cases h : rewards.accounts.get? cred <;> simp [h]
  rw [totalUnclaimedRewards, hsum, sumBy, keys, List.map_map]
  rfl

/-- How rewards are paid from a store. -/
structure PaysAll (rewards : EffectiveRewards) (s : Store) : Prop where
  /-- What is paid and what is unclaimed is all there is. -/
  total_eq : (s.accounts.sumBy fun cred _ ↦ rewards.rewardOf cred) +
    rewards.totalUnclaimedRewards = rewards.totalRewards
  /-- A reward goes to the account that is there, or else to the treasury. -/
  paid_or_unclaimed : ∀ cred reward, rewards.accounts.get? cred = some reward → 0 < reward →
    (s.accounts.contains cred = true ∧ cred ∉ rewards.unclaimed ∧ rewards.rewardOf cred = reward) ∨
    (s.accounts.contains cred = false ∧ cred ∈ rewards.unclaimed ∧ rewards.rewardOf cred = 0)
  /-- The payment goes through, if the reserves cover it. -/
  exists_payRewards : rewards.deltaReserves ≤ s.pots.reserves → ∃ paid, s.payRewards rewards = .ok paid

/-- A partition of who is rewarded is all that a payment needs. -/
theorem paysAll_of_partition {rewards}
    (htotal : rewards.totalRewards = rewards.accounts.sumBy fun _ reward ↦ reward)
    (hpartition : ∀ cred reward, rewards.accounts.get? cred = some reward → 0 < reward →
      (s.accounts.contains cred = true ↔ cred ∉ rewards.unclaimed)) :
    PaysAll rewards s := by
  have hsum : (s.accounts.sumBy fun cred _ ↦ rewards.rewardOf cred) +
      rewards.totalUnclaimedRewards = rewards.totalRewards := by
    rw [htotal, rewards.totalUnclaimedRewards_eq]
    exact sumBy_add_sumBy_of_partition hpartition
  refine ⟨hsum, fun cred reward hget hpos ↦ ?_,
    fun hreserves ↦ ⟨_, by rw [payRewards, if_pos hsum, if_pos hreserves]⟩⟩
  have hiff := hpartition cred reward hget hpos
  rw [EffectiveRewards.rewardOf, hget]
  by_cases hmem : cred ∈ rewards.unclaimed
  · rw [if_pos hmem]
    exact .inr ⟨Bool.eq_false_iff.2 fun hcontains ↦ hiff.1 hcontains hmem, hmem, rfl⟩
  · rw [if_neg hmem]
    exact .inl ⟨hiff.2 hmem, hmem, rfl⟩

theorem reserves_of_applyBlocks {drained series} (hnewer : Store.Newer s.tip series)
    (h : s.applyBlocks eras pp activity series = .ok drained) :
    drained.pots.reserves = s.pots.reserves :=
  applyBlocks_invariant hnewer h rfl fun _ _ _ _ hsaved hnew h ↦ by
    obtain ⟨_, _, _, -, -, -, rfl⟩ := exists_of_applyBlock h hnew
    exact hsaved

/-- No account that the store remembers is overlooked when the epoch closes. -/
theorem not_unlisted_of_remembers (h : s.Remembers epoch cred) (owners : SortedSet Credential) :
    ¬ Unlisted db s owners cred := by
  rintro ⟨hnone, hun, hrecent, -⟩
  rw [hasAccount_of_notMem hun, Bool.or_eq_false_iff] at hnone
  rcases h with hcontains | ⟨unregisteredAt, hat, -⟩
  · rw [hcontains] at hnone
    cases hnone.2
  · rw [hrecent] at hat
    cases hat

/-- The store at the end of an epoch. -/
def twoDelegatorsEnded (fees : ℕ) : Store :=
  { twoDelegators fees with epochTransitionProgress := some .epochEnded }

/-- Nothing but the fees changes over any number of epochs without blocks and rewards. -/
theorem history_twoDelegators (eras : EraHistory) (epoch fees : ℕ) : ∀ n,
    History eras epoch (twoDelegatorsEnded fees) (epoch + n + 1) (twoDelegators 0)
  | 0 => by
    have hopen : beginEpoch { epoch := epoch + 1 } (takeSnapshot (twoDelegatorsEnded fees)).1 =
      .ok (twoDelegators 0) := rfl
    exact .opened rfl rfl hopen
  | n + 1 => by
    have hend : endEpoch { epoch := epoch + n + 2, rewards := .effective { noRewards with unclaimed := ∅ } }
      (twoDelegators 0) = .ok (twoDelegatorsEnded 0) := rfl
    have hopen : beginEpoch { epoch := epoch + n + 2 } (takeSnapshot (twoDelegatorsEnded 0)).1 =
      .ok (twoDelegators 0) := rfl
    exact ((history_twoDelegators eras epoch fees n).ended hend).snapshotted.begun rfl rfl hopen

/-- The rewards of the pool, to cross the boundary with. -/
def sharedPayment : Rewards where
  deltaReserves := 753
  deltaTreasury := 182
  totalRewards := 581
  accounts := .ofList [(.keyHash 0, 10), (.keyHash 2, 357), (.keyHash 3, 214)]
  poolsOwners := .ofList [(.keyHash 0, ())]

end Amaru
