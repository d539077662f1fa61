import Amaru.Ledger.ReadThrough.Accounts
import Amaru.Ledger.Volatile.View

/-!
# The treasury read through the volatile database

While a boundary is pending, the treasury is read as that of the store plus a change that was computed
when the boundary was crossed. Part of that change is what the boundary would pay to accounts that do
not exist: it goes to the treasury instead.

Who does not exist is answered twice. Crossing the boundary looks into a **list of accounts that
cannot be reached**; writing it looks for each account in the store. The list only knows accounts that
were there not long ago, and owners of rewarded pools. A payment to anyone else that has no account is
counted as paid, and then it is not.
-/

namespace Amaru

open VolatileView SortedMap StateOverlay Option Store TreasuryDelta
open List hiding any_eq_true contains
open ProposalsForest hiding new

variable {store store' : Store} {eras : EraHistory} {activity : GovernanceActivity}
  {pp : ProtocolParameters} {cred : Credential} {series : VolatileSeries}
  {view : VolatileView} {block : AnchoredVolatileFragment} {ov : StateOverlay}

/-! ### Who has an account at the boundary -/

/-- Whether an account exists, from what the volatile blocks say of it and the store. -/
def VolatileView.hasAccount (view : VolatileView) (store : Store) (cred : Credential) : Bool :=
  match view.accounts.get cred with
  | .exists_ bind => bind.value.isSome || store.accounts.contains cred
  | .gone => false
  | .unknown => store.accounts.contains cred

theorem VolatileView.hasAccount_extend {base : Store} (hnew : block.point.isStale store.tip = false)
    (h : store.applyBlock eras pp activity block = .ok store')
    (hview : store.accounts.contains cred = view.hasAccount base cred) :
    store'.accounts.contains cred = (view.extend block).hasAccount base cred := by
  obtain ⟨row, hrow, hget⟩ := get?_accounts_of_applyBlock h hnew cred
  have hsome : store'.accounts.contains cred = row.isSome := by
    rw [contains, hget, isSome_map]
  have hextend : (view.extend block).accounts.get cred =
      (view.accounts.extend block.fragment.accounts).get cred := rfl
  rw [hsome, hasAccount, hextend, DiffBind.get_extend]
  cases hverdict : block.fragment.accounts.get cred with
  | gone =>
    rw [hverdict] at hrow
    rw [show row = none from hrow]
    rfl
  | unknown =>
    rw [hverdict] at hrow
    rw [show row = _ from hrow]
    exact hview
  | exists_ bind =>
    rw [hverdict] at hrow
    obtain ⟨hmissing, happly, -⟩ := of_accountsAddRow hrow
    rw [← isSome_map (f := AccountRow.bound), happly, Bind.apply]
    rcases hvalue : bind.value with - | deposit
    · -- the account was there before the block, so the older verdicts say so
      have hexists := hmissing hvalue
      rw [isSome_map, isSome_map, hexists]
      rw [← contains, hview, hasAccount, DiffBind.get] at hexists
      rcases hreg : view.accounts.registered.get? cred with - | older <;> rw [hreg] at hexists
      · by_cases hun : cred ∈ view.accounts.unregistered
        · simp [hun] at hexists
        · simpa [hun, hvalue] using hexists
      · simpa [Bind.andThen, hvalue] using hexists
    · cases view.accounts.registered.get? cred <;> simp [Bind.andThen, hvalue]

theorem contains_accounts_of_applyBlocks (hnewer : Store.Newer store.tip series)
    (h : store.applyBlocks eras pp activity series = .ok store')
    (cred : Credential) : store'.accounts.contains cred = (ofSeries series).hasAccount store cred :=
  applyBlocks_invariant hnewer h rfl fun done _ _ block hview hnew h ↦ by
    rw [ofSeries_concat]
    exact hasAccount_extend hnew h hview

/-! ### Who is listed as having none -/

/-- The store remembers no account as gone that is there. -/
def Store.RecentlyUnregisteredGone (store : Store) : Prop :=
  ∀ cred, (store.recentlyUnregisteredAccounts.get? cred).isSome → store.accounts.get? cred = none

namespace Store

theorem RecentlyUnregisteredGone.applyBlock
    (hstore : store.RecentlyUnregisteredGone) (hnew : block.point.isStale store.tip = false)
    (h : store.applyBlock eras pp activity block = .ok store') :
    store'.RecentlyUnregisteredGone := by
  intro cred hrecent
  obtain ⟨row, hrow, hget⟩ := get?_accounts_of_applyBlock h hnew cred
  obtain ⟨epoch, _, _, -, -, -, rfl⟩ := exists_of_applyBlock h hnew
  change ((recentlyUnregistered _ _ _ epoch).get? cred).isSome at hrecent
  rw [hget, map_eq_none_iff]
  rw [recentlyUnregistered, get?_insertAll, get?_map, get?_filter] at hrecent
  by_cases hremoved : cred ∈ block.fragment.accounts.unregistered
  · rw [DiffBind.get_eq_gone_iff.2 hremoved] at hrow
    exact hrow
  rw [SortedSet.notMem_iff.1 hremoved, map_none, none_or, isSome_filter, any_eq_true] at hrecent
  obtain ⟨since, hsince, hkept⟩ := hrecent
  have hgone := hstore cred (by rw [hsince]; rfl)
  rw [DiffBind.get, hgone] at hrow
  -- a fragment cannot change the delegations of an account that is not there
  rcases hbind : block.fragment.accounts.registered.get? cred with - | bind
  · simpa [hbind, hremoved] using hrow
  · rw [hbind] at hrow hkept
    have hvalue : bind.value = none := by simpa using hkept
    have hmissing := (of_accountsAddRow hrow).1 hvalue
    cases hmissing

/-- **The accounts that the store remembers as gone are gone**: saving blocks keeps that. -/
theorem RecentlyUnregisteredGone.applyBlocks
    (hstore : store.RecentlyUnregisteredGone) (hnewer : Newer store.tip series)
    (h : store.applyBlocks eras pp activity series = .ok store') :
    store'.RecentlyUnregisteredGone :=
  applyBlocks_invariant hnewer h hstore fun _ _ _ _ hstore hnew h ↦ hstore.applyBlock hnew h

theorem RecentlyUnregisteredGone.apply
    (hstore : store.RecentlyUnregisteredGone) (h : ov.apply store = .ok store') :
    store'.RecentlyUnregisteredGone := by
  intro cred hrecent
  obtain ⟨closed, hclosed, hopen⟩ := exists_of_apply h
  have hopens := opens_of_openEpoch hopen
  rw [hopens.recentlyUnregistered_eq] at hrecent
  rw [hopens.get?_accounts, map_eq_none_iff]
  have hrecent : (closed.recentlyUnregisteredAccounts.get? cred).isSome := by
    change ((closed.recentlyUnregisteredAccounts.filter _).get? cred).isSome at hrecent
    rw [get?_filter] at hrecent
    exact isSome_of_isSome_filter _ _ hrecent
  rcases exists_of_endEpoch hclosed with ⟨-, _, _, -, rfl⟩ | ⟨-, rfl⟩
  · rw [get?_map, hstore cred hrecent]
    rfl
  · exact hstore cred hrecent

end Store

/-- A credential without an account that crossing a boundary takes to have one: it is in neither of
the places that are looked at. -/
def Unlisted (db : VolatileDB) (store : Store) (poolsOwners : SortedSet Credential)
    (cred : Credential) : Prop :=
  (new db).hasAccount store cred = false ∧ cred ∉ (new db).accounts.unregistered ∧
    store.recentlyUnregisteredAccounts.get? cred = none ∧ cred ∉ poolsOwners

instance (db : VolatileDB) (store : Store) (poolsOwners : SortedSet Credential)
    (cred : Credential) : Decidable (Unlisted db store poolsOwners cred) :=
  inferInstanceAs (Decidable (_ ∧ _ ∧ _ ∧ _))

theorem VolatileView.hasAccount_of_notMem (h : cred ∉ view.accounts.unregistered) :
    view.hasAccount store cred = (view.isRegistered cred || store.accounts.contains cred) := by
  rw [hasAccount, isRegistered, DiffBind.get]
  cases view.accounts.registered.get? cred <;> simp [h]

/-- **The list of accounts that cannot be reached** is those without an account, less the
unlisted. -/
theorem mem_iterUnreachableAccounts {db} (hstore : store.RecentlyUnregisteredGone)
    (poolsOwners : SortedSet Credential) (cred : Credential) :
    cred ∈ (new db).iterUnreachableAccounts store poolsOwners ↔
      (new db).hasAccount store cred = false ∧ ¬ Unlisted db store poolsOwners cred := by
  rw [Unlisted]
  generalize new db = view
  have hkeys : ∀ s : SortedSet Credential, cred ∈ s.keys ↔ cred ∈ s :=
    fun s ↦ mem_keys_iff
  simp only [iterUnreachableAccounts, mem_append, mem_filter, hkeys, mem_keys_iff]
  by_cases hun : cred ∈ view.accounts.unregistered
  · have hnone : view.hasAccount store cred = false := by
      rw [hasAccount, DiffBind.get_eq_gone_iff.2 hun]
    simp [hun, hnone]
  rw [hasAccount_of_notMem hun]
  by_cases hrecent : (store.recentlyUnregisteredAccounts.get? cred).isSome
  · have hgone : store.accounts.contains cred = false := by
      rw [contains, hstore cred hrecent]
      rfl
    have hne := isSome_iff_ne_none.1 hrecent
    simp [hun, hrecent, hne, hgone]
  · have heq : store.recentlyUnregisteredAccounts.get? cred = none := by simpa using hrecent
    by_cases howner : cred ∈ poolsOwners <;> simp [hun, heq, howner, SortedSet.notMem_iff.1 hun]

/-- Some block of the series unregisters the account. -/
def VolatileSeries.Unregisters (series : VolatileSeries) (cred : Credential) : Prop :=
  ∃ block ∈ series, cred ∈ block.fragment.accounts.unregistered

instance (series : VolatileSeries) (cred : Credential) : Decidable (series.Unregisters cred) :=
  inferInstanceAs (Decidable (∃ block ∈ series, _))

/-- An account that blocks leave without a row is unregistered by one of them exactly when it is by all
of them together: no block after that can register it. -/
theorem mem_unregistered_iff_of_applyBlocks (hnewer : Store.Newer store.tip series)
    (h : store.applyBlocks eras pp activity series = .ok store')
    (hnone : store'.accounts.get? cred = none) :
    cred ∈ (ofSeries series).accounts.unregistered ↔ series.Unregisters cred := by
  revert hnone
  refine applyBlocks_invariant hnewer h ?_ fun done before after block ih hnew h hnone ↦ ?_
  · exact fun _ ↦ iff_of_false Bool.false_ne_true (by simp [VolatileSeries.Unregisters])
  · obtain ⟨row, hrow, hget⟩ := get?_accounts_of_applyBlock h hnew cred
    rw [hget, map_eq_none_iff] at hnone
    have hlater : VolatileSeries.Unregisters (done ++ [block]) cred ↔
        VolatileSeries.Unregisters done cred ∨ cred ∈ block.fragment.accounts.unregistered := by
      simp [VolatileSeries.Unregisters, or_and_right, exists_or]
    rw [hlater, ← DiffBind.get_eq_gone_iff, ← DiffBind.get_eq_gone_iff, ofSeries_concat, extend,
      DiffBind.get_extend]
    rw [hnone] at hrow
    cases hverdict : block.fragment.accounts.get cred with
    | gone => simp
    | unknown =>
      rw [hverdict] at hrow
      simpa [DiffBind.get_eq_gone_iff] using ih hrow.symm
    | exists_ bind =>
      -- the block leaves a row
      rw [hverdict] at hrow
      have happly := (of_accountsAddRow hrow).2.1
      have hexists := (of_accountsAddRow hrow).1
      rcases hvalue : bind.value with - | deposit
      · obtain ⟨row, hbefore⟩ := isSome_iff_exists.1 (hexists hvalue)
        simp [Bind.apply, hvalue, hbefore] at happly
      · simp [Bind.apply, hvalue] at happly

/-- **Each account that cannot be reached is listed once, or twice if the store remembers it as gone and
the blocks unregister it again.** -/
theorem count_iterUnreachableAccounts (hstore : store.RecentlyUnregisteredGone)
    (hnewer : Store.Newer store.tip series)
    (h : store.applyBlocks eras pp activity series = .ok store')
    (poolsOwners : SortedSet Credential) (cred : Credential) :
    ((ofSeries series).iterUnreachableAccounts store poolsOwners).count cred =
      if store'.accounts.contains cred then 0
      else if store.recentlyUnregisteredAccounts.contains cred ∧ series.Unregisters cred then 2
      else if store.recentlyUnregisteredAccounts.contains cred ∨ series.Unregisters cred ∨
        cred ∈ poolsOwners then 1
      else 0 := by
  have hkeys : ∀ s : SortedSet Credential, cred ∈ s.keys ↔ cred ∈ s := fun s ↦ mem_keys_iff
  have hrecents : cred ∈ store.recentlyUnregisteredAccounts.keys ↔
    store.recentlyUnregisteredAccounts.contains cred := mem_keys_iff
  have hcontains := contains_accounts_of_applyBlocks hnewer h cred
  rw [iterUnreachableAccounts, count_append, count_append, ((nodup_keys _).filter _).count,
    (nodup_keys _).count, ((nodup_keys _).filter _).count]
  simp only [mem_filter, hkeys, hrecents]
  rcases hrow : store'.accounts.contains cred with - | -
  · have hiff := mem_unregistered_iff_of_applyBlocks hnewer h (by simpa [contains] using hrow)
    by_cases hun : cred ∈ (ofSeries series).accounts.unregistered
    · have hregistered : (ofSeries series).isRegistered cred = false := by
        rw [isRegistered, (ofSeries series).accounts.disjoint cred hun]
        rfl
      cases store.recentlyUnregisteredAccounts.contains cred <;> simp [hun, hiff.1 hun, hregistered]
    · rw [hrow, hasAccount_of_notMem hun, eq_comm, Bool.or_eq_false_iff] at hcontains
      cases store.recentlyUnregisteredAccounts.contains cred <;> simp [hun, mt hiff.2 hun, hcontains]
  · have hun : cred ∉ (ofSeries series).accounts.unregistered := fun hun ↦ by
      rw [hasAccount, DiffBind.get_eq_gone_iff.2 hun, hrow] at hcontains
      cases hcontains
    rw [hrow, hasAccount_of_notMem hun, eq_comm, Bool.or_eq_true] at hcontains
    rcases hcontains with hregistered | hstored
    · simp [hun, hregistered]
    · cases hrecent : store.recentlyUnregisteredAccounts.contains cred
      · simp [hun, hstored]
      · rw [contains, hstore cred hrecent] at hstored
        cases hstored

/-- A store that remembers an account as gone. -/
def oneRemembered : Store := { blankStore with recentlyUnregisteredAccounts := .ofList [(.keyHash 1, 0)] }

/-- A block that registers that account, and one that unregisters it. -/
def backAndForth : VolatileSeries :=
  lateRegistration.current ++ [{
    point := .specific 11 2 2
    issuer := 0
    fragment :=
      { accounts :=
          { registered := ∅
            unregistered := .ofList [(.keyHash 1, ())]
            disjoint := by simp } } }]

theorem remembered_account_is_listed_twice : ∃ store',
    oneRemembered.applyBlocks tenSlotEpochs default ⟨0⟩ backAndForth = .ok store' ∧
    (ofSeries backAndForth).iterUnreachableAccounts oneRemembered ∅ = [.keyHash 1, .keyHash 1] :=
  ⟨_, rfl, rfl⟩

theorem count_iterUnreachableAccounts_owner :
    ((ofSeries backAndForth).iterUnreachableAccounts oneRemembered (.ofList [(.keyHash 3, ())])).count
      (.keyHash 3) = 1 := by
  have h : oneRemembered.applyBlocks tenSlotEpochs default ⟨0⟩ backAndForth = .ok _ := rfl
  refine (count_iterUnreachableAccounts (fun cred hrecent ↦ rfl) ?_ h _ _).trans (by decide)
  exact isChain_cons_cons.2 ⟨rfl, isChain_cons_cons.2 ⟨rfl, isChain_singleton _⟩⟩

/-! ### What cannot be paid -/

/-- The sum of the payments to some credentials. -/
def paidTo (p : Credential → Prop) [DecidablePred p] (payouts : List (Credential × ℕ)) : ℕ :=
  ((payouts.filter fun payout ↦ decide (p payout.1)).map Prod.snd).sum

theorem paidTo_cons (p : Credential → Prop) [DecidablePred p] (payout : Credential × ℕ)
    (payouts : List (Credential × ℕ)) :
    paidTo p (payout :: payouts) = (if p payout.1 then payout.2 else 0) + paidTo p payouts := by
  by_cases h : p payout.1 <;> simp [paidTo, h]

theorem paidTo_eq_zero_iff {p} [DecidablePred p] :
    ∀ {payouts : List (Credential × ℕ)}, paidTo p payouts = 0 ↔ ∀ payout ∈ payouts, p payout.1 → payout.2 = 0
  | [] => by simp [paidTo]
  | payout :: payouts => by
    rw [paidTo_cons, Nat.add_eq_zero_iff, paidTo_eq_zero_iff, forall_mem_cons]
    by_cases h : p payout.1 <;> simp [h]

/-- Two answers to who exists that differ on the unlisted only. -/
theorem unpayable_eq_add (found accountExists : Credential → Bool) (unlisted : Credential → Prop)
    [DecidablePred unlisted]
    (h : ∀ cred, found cred = (accountExists cred && !decide (unlisted cred)))
    (hunlisted : ∀ cred, unlisted cred → accountExists cred) :
    ∀ payouts : List (Credential × ℕ), unpayable found payouts =
      unpayable accountExists payouts + paidTo unlisted payouts
  | [] => rfl
  | payout :: payouts => by
    rw [unpayable_cons, unpayable_cons, paidTo_cons,
      unpayable_eq_add found accountExists unlisted h hunlisted payouts, h]
    by_cases hpayout : unlisted payout.1
    · rw [hunlisted _ hpayout]
      simp only [hpayout, decide_true, Bool.not_true, Bool.and_false, if_true, if_false, Bool.false_eq_true]
      omega
    · simp only [hpayout, decide_false, Bool.not_false, Bool.and_true, if_false]
      omega

theorem foldl_unpayable (accountExists : Credential → Bool) :
    ∀ (payouts : List (Credential × ℕ)) (n : ℕ),
      payouts.foldl (fun unpayable payout ↦
        if accountExists payout.1 then unpayable else unpayable + payout.2) n =
      n + unpayable accountExists payouts
  | [], _ => rfl
  | payout :: payouts, n => by
    rw [foldl_cons, foldl_unpayable accountExists payouts, unpayable_cons]
    split_ifs <;> omega

/-! ### The treasury -/

theorem pots_of_applyBlocks (hnewer : Store.Newer store.tip series)
    (h : store.applyBlocks eras pp activity series = .ok store') :
    store'.pots.treasury = store.pots.treasury ∧
      store'.pots.donations = store.pots.donations + series.aggregate.donations :=
  applyBlocks_invariant hnewer h ⟨rfl, rfl⟩ fun done before after block ⟨htreasury, hdonations⟩ hnew h ↦ by
    obtain ⟨_, _, _, -, -, -, rfl⟩ := exists_of_applyBlock h hnew
    refine ⟨htreasury, ?_⟩
    rw [VolatileSeries.aggregate_concat]
    change before.pots.donations + _ = _ + (_ + _)
    omega

namespace StateOverlay

/-- What the rewards of a boundary leave to the treasury. -/
def rewardsTax (ov : StateOverlay) : ℕ :=
  match ov.rewards with
  | .effective rewards => rewards.deltaTreasuryWithUnclaimed
  | _ => 0

section

variable (ov : StateOverlay) (effectiveRewards : Option EffectiveRewards)
  (poolsUpdates : PoolsEpochTransitionUpdates) (governanceUpdates : GovernanceUpdates)
  (donations : ℕ) (accountExists : Credential → Bool)

theorem rewardsTax_transition :
    (ov.transition effectiveRewards poolsUpdates governanceUpdates donations accountExists).rewardsTax =
      (effectiveRewards.map (·.deltaTreasuryWithUnclaimed)).getD 0 := by
  cases effectiveRewards <;> rfl

theorem pendingPayouts_transition :
    (ov.transition effectiveRewards poolsUpdates governanceUpdates donations
      accountExists).pendingPayouts = payouts poolsUpdates governanceUpdates := by
  rw [payouts, append_assoc]
  rfl

theorem toInt_treasuryDelta_transition :
    (ov.transition effectiveRewards poolsUpdates governanceUpdates donations
      accountExists).treasuryDelta.toInt =
      - (governanceUpdates.treasuryWithdrawals.values.sum : ℤ) +
        ((effectiveRewards.map (·.deltaTreasuryWithUnclaimed)).getD 0 : ℕ) + donations +
        unpayable accountExists (payouts poolsUpdates governanceUpdates) := by
  rw [transition, toInt_add, toInt_add, toInt_add, foldl_unpayable, Nat.zero_add]
  rfl

end

end StateOverlay

theorem treasury_of_apply (h : ov.apply store = .ok store')
    (hrewards : store.epochTransitionProgress ≠ none → ∀ rewards, ov.rewards ≠ .effective rewards) :
    store'.pots.treasury + ov.totalWithdrawn =
      store.pots.treasury + ov.rewardsTax + store.pots.donations +
        unpayable store.accounts.contains ov.pendingPayouts := by
  obtain ⟨closed, hclosed, hopen⟩ := exists_of_apply h
  rw [(opens_of_openEpoch hopen).treasury_eq, rewardsTax]
  rcases exists_of_endEpoch hclosed with ⟨-, rewards, _, heffective, rfl⟩ | ⟨hprogress, rfl⟩
  · have hcontains : (store.accounts.map fun cred row ↦
        AccountRow.pay (rewards.rewardOf cred) row).contains = store.accounts.contains := by
      funext cred
      rw [contains, get?_map, isSome_map]
      rfl
    rw [heffective]
    rw [hcontains]
  · cases hstate : ov.rewards with
    | effective rewards => exact absurd hstate (hrewards hprogress rewards)
    | notReady | computed => rfl

/-- **The pending treasury is the flushed treasury exactly when no payment of the boundary goes to an
unlisted credential**: one without an account, that no block of the closing epoch unregistered, that
the store does not remember, and that does not own a rewarded pool. -/
theorem resolveTreasury_eq_flushed_iff {db db' : VolatileDB} {drained flushed : Store}
    {computedRewards : Option Rewards} {poolsUpdates : PoolsEpochTransitionUpdates}
    {governanceUpdates : GovernanceUpdates} (hnewer : Store.Newer store.tip db.current)
    (hstore : store.RecentlyUnregisteredGone)
    (hcross : db.crossBoundary store computedRewards poolsUpdates governanceUpdates = .ok db')
    (hdrained : store.applyBlocks eras pp activity db'.draining = .ok drained)
    (happly : db'.overlay.apply drained = .ok flushed) :
    db'.resolveTreasury store.pots = some flushed.pots.treasury ↔
      ∀ payout ∈ payouts poolsUpdates governanceUpdates,
        Unlisted db store (rewardedOwners store computedRewards) payout.1 → payout.2 = 0 := by
  obtain ⟨effectiveRewards, hpaid, hdraining, rfl⟩ := exists_of_crossBoundary hcross
  have hview : new db = ofSeries db.current := by
    rw [new, hdraining, nil_append]
  have hflushed := treasury_of_apply happly fun hprogress rewards heffective ↦ by
    rcases epochTransitionProgress_of_applyBlocks hdrained with rfl | hnone
    · rw [hpaid hprogress] at heffective
      cases heffective
    · exact hprogress hnone
  obtain ⟨htreasury, hdonations⟩ := pots_of_applyBlocks hnewer hdrained
  -- both sides count what cannot be paid, with two answers to who has an account
  have hunpayable := unpayable_eq_add drained.accounts.contains
    (fun account ↦ decide (account ∉ (new db).iterUnreachableAccounts store
      (rewardedOwners store computedRewards)))
    (Unlisted db store (rewardedOwners store computedRewards))
    (fun cred ↦ by
      rw [contains_accounts_of_applyBlocks hnewer hdrained, ← hview]
      by_cases hunlisted : Unlisted db store (rewardedOwners store computedRewards) cred
      · simp [hunlisted, hunlisted.1]
      · simp [hunlisted, mem_iterUnreachableAccounts hstore])
    (fun cred hunlisted ↦ by
      rw [decide_eq_true_iff, mem_iterUnreachableAccounts hstore]
      exact fun h ↦ h.2 hunlisted)
    (payouts poolsUpdates governanceUpdates)
  rw [← paidTo_eq_zero_iff, VolatileDB.resolveTreasury, asCredit_add_eq_some_iff,
    toInt_treasuryDelta_transition]
  have hresolve : db.resolveDonations = db.current.aggregate.donations := by
    rw [VolatileDB.resolveDonations, hdraining]
    rfl
  change _ + governanceUpdates.treasuryWithdrawals.values.sum = _ at hflushed
  rw [pendingPayouts_transition, rewardsTax_transition, hunpayable, htreasury, hdonations] at hflushed
  rw [hresolve]
  omega

/-- A volatile database at the end of an epoch of which one block is left, and that block unregisters
an account. -/
def closingWithUnregistration : VolatileDB where
  current := [{
    point := .specific 10 1 1
    issuer := 0
    fragment :=
      { accounts :=
          { registered := ∅
            unregistered := .ofList [(.keyHash 2, ())]
            disjoint := by simp } } }]
  draining := []
  overlay := { epoch := 1 }
  baseProtocolParameters := default
  baseGovernanceActivity := ⟨0⟩
  baseGuardrailScript := none

/-- Rewards of an epoch in which nobody earned any. -/
def noRewards : Rewards where
  deltaReserves := 0
  deltaTreasury := 0
  totalRewards := 0
  accounts := ∅
  poolsOwners := ∅

/-- **The deposit of a pool whose reward account was never registered goes to the treasury, which is
read without it.** -/
theorem refund_to_nobody_is_not_read : ∃ db' drained flushed,
    closingWithUnregistration.crossBoundary blankStore (some noRewards)
      { refunds := .ofList [(.keyHash 1, 500)] } quietBoundary = .ok db' ∧
    blankStore.applyBlocks tenSlotEpochs default ⟨0⟩ db'.draining = .ok drained ∧
    db'.overlay.apply drained = .ok flushed ∧
    db'.resolveTreasury blankStore.pots = some 0 ∧ flushed.pots.treasury = 500 :=
  ⟨_, _, _, rfl, rfl, rfl, rfl, rfl⟩

theorem resolveTreasury_eq_flushed_unregistered : ∃ db' drained flushed,
    closingWithUnregistration.crossBoundary blankStore (some noRewards)
      { refunds := .ofList [(.keyHash 2, 500)] } quietBoundary = .ok db' ∧
    blankStore.applyBlocks tenSlotEpochs default ⟨0⟩ db'.draining = .ok drained ∧
    db'.overlay.apply drained = .ok flushed ∧
    db'.resolveTreasury blankStore.pots = some flushed.pots.treasury := by
  have hcross : closingWithUnregistration.crossBoundary blankStore (some noRewards)
    { refunds := .ofList [(.keyHash 2, 500)] } quietBoundary = .ok _ := rfl
  have hdrained : blankStore.applyBlocks tenSlotEpochs default ⟨0⟩
    closingWithUnregistration.current = .ok _ := rfl
  refine ⟨_, _, _, hcross, hdrained, rfl, (resolveTreasury_eq_flushed_iff ?_ ?_ hcross hdrained rfl).2
    (by decide)⟩
  · exact isChain_cons_cons.2 ⟨rfl, isChain_singleton _⟩
  · exact fun cred hrecent ↦ by simp [blankStore] at hrecent

end Amaru
