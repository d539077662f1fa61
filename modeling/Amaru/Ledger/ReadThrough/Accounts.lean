import Amaru.Ledger.Context.Preparation
import Amaru.Ledger.ReadThrough.Flush

/-!
# Accounts read through the volatile database

Does reading an account through the layers give the row that flushing them would give?

An account has two parts. Its deposit and delegations are bindings, and folding bindings is applying
them (`Existence.apply_fold`). Its rewards are not in the fragments at all: a fragment only says who
withdrew, and what the boundary pays is in the overlay. So a read **adds what the boundary pays to
whatever account it finds**, and that is right for an account that was there at the boundary, and
wrong for one that registered after it.
-/

namespace Amaru

open Existence Option Store Preparation AccountRow ProposalsForest DiffBind RewardsAtTip

/-! ### One fragment -/

/-- The part of an account that bindings apply to. -/
def AccountRow.bound (row : AccountRow) : Bound (PoolId × CertificatePointer) (DRep × CertificatePointer) ℕ :=
  ⟨row.pool, row.drep, row.deposit⟩

variable {row : AccountRow} {s s' : Store} {db : VolatileDB}

theorem AccountRow.ext_bound {row'} (hbound : row.bound = row'.bound)
    (hrewards : row.rewards = row'.rewards) : row = row' := by
  obtain ⟨pool, deposit, drep, rewards⟩ := row
  simp_all [bound]

namespace Store

variable {eras : EraHistory} {activity : GovernanceActivity}
  {pp : ProtocolParameters} {cred : Credential} {block : AnchoredVolatileFragment}
  {a : VolatileAggregate} {base : Store}

/-- The rewards of an account, nothing for one that does not exist. -/
def rewardsOf (s : Store) (cred : Credential) : ℕ :=
  ((s.accounts.get? cred).map (·.rewards)).getD 0

theorem of_accountsAddRow {bind existing row'} (h : accountsAddRow cred bind existing = .ok row') :
    (bind.value = none → existing.isSome) ∧ row'.map (·.bound) = bind.apply (existing.map (·.bound)) ∧
      (row'.map (·.rewards)).getD 0 = if bind.value.isSome then 0 else (existing.map (·.rewards)).getD 0 := by
  obtain ⟨left, right, value⟩ := bind
  rcases value with - | deposit
  · rcases existing with - | row
    · cases h
    · cases h
      exact ⟨fun _ ↦ rfl, rfl, rfl⟩
  · cases h
    exact ⟨by simp, rfl, rfl⟩

theorem get?_accounts_of_applyBlock (h : s.applyBlock eras pp activity block = .ok s')
    (hnew : block.point.isStale s.tip = false) (cred : Credential) :
    ∃ row, (match block.fragment.accounts.get cred with
        | .exists_ bind => accountsAddRow cred bind (s.accounts.get? cred) = .ok row
        | .gone => row = none
        | .unknown => row = s.accounts.get? cred) ∧
      s'.accounts.get? cred = row.map fun row ↦
        if cred ∈ block.fragment.withdrawals then { row with rewards := 0 } else row := by
  obtain ⟨_, accounts, _, -, haccounts, -, rfl⟩ := exists_of_applyBlock h hnew
  have hadd := SortedMap.get?_of_mergeWithM haccounts cred
  simp only [withFragment, SortedSet.get?_removeFrom, accountsResetMany, SortedMap.get?_map]
  cases hverdict : block.fragment.accounts.get cred with
  | exists_ bind =>
    have hreg := get_eq_exists_iff.1 hverdict
    rw [hreg] at hadd
    exact ⟨_, hadd, by rw [if_neg (notMem_unregistered_of_get hverdict)]⟩
  | gone => exact ⟨none, rfl, by rw [if_pos (get_eq_gone_iff.1 hverdict)]; rfl⟩
  | unknown =>
    obtain ⟨hreg, hun⟩ := get_eq_unknown_iff.1 hverdict
    rw [hreg] at hadd
    exact ⟨_, rfl, by rw [if_neg hun, hadd]⟩

/-! ### A series of fragments -/

/-- The account of a credential in a store, with respect to a store that some fragments were then
saved into. -/
structure AccountAgrees (cred : Credential) (base : Store) (a : VolatileAggregate)
    (s : Store) : Prop where
  unknown_notMem : unknown ∉ a.accounts.history cred
  grounded : Grounded (a.accounts.history cred) ((base.accounts.get? cred).map (·.bound))
  bound_eq : (s.accounts.get? cred).map (·.bound) =
    applyAll (a.accounts.history cred) ((base.accounts.get? cred).map (·.bound))
  rewards_eq : (s.accounts.get? cred).isSome →
    s.rewardsOf cred =
      if a.hasWithdrawal cred || creates (a.accounts.history cred) then 0
      else base.rewardsOf cred

theorem accountAgrees_refl (cred : Credential) (s : Store) : AccountAgrees cred s {} s where
  unknown_notMem := List.not_mem_nil
  grounded := trivial
  bound_eq := rfl
  rewards_eq _ := rfl

theorem hasWithdrawal_addFragment (a : VolatileAggregate) (f : VolatileFragment) (cred : Credential) :
    (a.addFragment f).hasWithdrawal cred = (a.hasWithdrawal cred || decide (cred ∈ f.withdrawals)) := by
  simp [VolatileAggregate.hasWithdrawal, VolatileAggregate.addFragment]

theorem AccountAgrees.step (hagrees : AccountAgrees cred base a s)
    (hnew : block.point.isStale s.tip = false)
    (h : s.applyBlock eras pp activity block = .ok s') :
    AccountAgrees cred base (a.addFragment block.fragment) s' := by
  obtain ⟨row, hrow, hget⟩ := get?_accounts_of_applyBlock h hnew cred
  have hbound : (s'.accounts.get? cred).map (·.bound) = row.map (·.bound) := by
    rw [hget, map_map]
    congr 1
    funext row
    split_ifs <;> rfl
  have hrewards : s'.rewardsOf cred = if cred ∈ block.fragment.withdrawals then 0
      else (row.map (·.rewards)).getD 0 := by
    rw [rewardsOf, hget]
    cases row <;> split_ifs <;> simp_all
  have hsome : (s'.accounts.get? cred).isSome = row.isSome := by
    rw [hget, isSome_map]
  have hhistory : (a.addFragment block.fragment).accounts.history cred =
      (block.fragment.accounts.get cred).conclusive ++ a.accounts.history cred :=
    IndexedBind.history_extend a.accounts block.fragment.accounts cred
  cases hverdict : block.fragment.accounts.get cred with
  | exists_ bind =>
    rw [hverdict] at hrow hhistory
    change _ = exists_ bind :: a.accounts.history cred at hhistory
    obtain ⟨hmissing, happly, hpaid⟩ := of_accountsAddRow hrow
    refine ⟨?_, ?_, ?_, fun hrow' ↦ ?_⟩
    · rw [hhistory]
      simpa using hagrees.unknown_notMem
    · rw [hhistory]
      refine ⟨fun hvalue ↦ ?_, hagrees.grounded⟩
      rw [← hagrees.bound_eq, isSome_map]
      exact hmissing hvalue
    · rw [hhistory, hbound, happly, hagrees.bound_eq]
      rfl
    · rw [hrewards, hpaid, hhistory, hasWithdrawal_addFragment]
      rcases hvalue : bind.value with - | deposit
      · have heq := hagrees.rewards_eq (hmissing hvalue)
        rw [rewardsOf] at heq
        by_cases hw : cred ∈ block.fragment.withdrawals
        · simp [hw]
        · simp [hw, heq, creates, hvalue]
      · simp [creates, hvalue]
  | gone =>
    rw [hverdict] at hrow hhistory
    change _ = gone :: a.accounts.history cred at hhistory
    refine ⟨?_, ?_, ?_, fun hrow' ↦ ?_⟩
    · rw [hhistory]
      simpa using hagrees.unknown_notMem
    · rw [hhistory]
      exact hagrees.grounded
    · rw [hhistory, hbound, show row = none from hrow]
      rfl
    · rw [hsome, show row = none from hrow] at hrow'
      cases hrow'
  | unknown =>
    rw [hverdict] at hrow hhistory
    change _ = a.accounts.history cred at hhistory
    refine ⟨?_, ?_, ?_, fun hrow' ↦ ?_⟩
    · rw [hhistory]
      exact hagrees.unknown_notMem
    · rw [hhistory]
      exact hagrees.grounded
    · rw [hhistory, hbound, show row = _ from hrow, hagrees.bound_eq]
    · rw [hsome, show row = _ from hrow] at hrow'
      have heq := hagrees.rewards_eq hrow'
      rw [rewardsOf] at heq
      rw [hrewards, hhistory, hasWithdrawal_addFragment, show row = _ from hrow, heq]
      by_cases hw : cred ∈ block.fragment.withdrawals <;> simp [hw]

theorem AccountAgrees.bound_fold (h : AccountAgrees cred base a s) :
    (s.accounts.get? cred).map (·.bound) =
      (a.resolveAccount cred).apply ((base.accounts.get? cred).map (·.bound)) :=
  h.bound_eq.trans (apply_fold h.unknown_notMem h.grounded).symm

theorem accountAgrees_of_applyBlocks {series} (hnewer : Newer s.tip series)
    (h : s.applyBlocks eras pp activity series = .ok s')
    (cred : Credential) : AccountAgrees cred s series.aggregate s' :=
  applyBlocks_invariant hnewer h (accountAgrees_refl cred s)
    fun done _ _ block hagrees hnew h ↦ by
      rw [VolatileSeries.aggregate_concat]
      exact hagrees.step hnew h

end Store

/-! ### Reading an account -/

theorem bound_resolveAccount (db : VolatileDB) (s : Store) (cred : Credential) :
    (resolveAccount db s cred).map (·.bound) =
      (db.accountVerdict cred).apply ((s.accounts.get? cred).map (·.bound)) := by
  rw [resolveAccount, VolatileDB.resolveAccount]
  match db.accountVerdict cred with
  | gone => rfl
  | unknown => cases s.accounts.get? cred <;> rfl
  | exists_ ⟨left, right, some deposit⟩ => rfl
  | exists_ ⟨left, right, none⟩ => cases s.accounts.get? cred <;> rfl

/-- The rewards that a read starts from: none for an account that a fragment registers. -/
def baseRewards (s : Store) (cred : Credential) (verdict : Existence AccountBind) : ℕ :=
  if creates [verdict] then 0 else s.rewardsOf cred

theorem rewards_resolveAccount {cred} (h : resolveAccount db s cred = some row) :
    row.rewards = (db.rewardsAtTip cred).intoBalance (baseRewards s cred (db.accountVerdict cred)) := by
  rw [resolveAccount, VolatileDB.resolveAccount] at h
  match hverdict : db.accountVerdict cred with
  | gone => rw [hverdict] at h; cases h
  | exists_ ⟨left, right, some deposit⟩ =>
    rw [hverdict] at h
    cases h
    rfl
  | unknown | exists_ ⟨left, right, none⟩ =>
    rw [hverdict] at h
    obtain ⟨stored, hstored, rfl⟩ := map_eq_some_iff.1 h
    simp [baseRewards, creates, rewardsOf, hstored]

/-! ### Reading and flushing agree on the bindings -/

section

variable {db : VolatileDB} {eras : EraHistory} {s drained opened s' : Store} {cred : Credential}

/-- What the blocks before the boundary and those after it make of an account. -/
theorem Flushed.accountAgrees (h : Flushed db eras s drained opened s')
    (cred : Credential) : AccountAgrees cred s db.draining.aggregate drained ∧
      AccountAgrees cred opened db.current.aggregate s' :=
  ⟨accountAgrees_of_applyBlocks h.newer_draining h.drained_eq cred,
    accountAgrees_of_applyBlocks h.newer_current h.flushed_eq cred⟩

theorem bound_opened (hcrosses : Crosses db.overlay drained opened) (cred : Credential) :
    (opened.accounts.get? cred).map (·.bound) = (drained.accounts.get? cred).map (·.bound) := by
  rw [hcrosses.get?_accounts, map_map]
  rfl

theorem bound_resolveAccount_eq (h : Flushed db eras s drained opened s') (cred : Credential) :
    (resolveAccount db s cred).map (·.bound) = (s'.accounts.get? cred).map (·.bound) := by
  obtain ⟨hdraining, hcurrent⟩ := h.accountAgrees cred
  have hdrained := (bound_opened h.crosses cred).trans hdraining.bound_fold
  rw [bound_resolveAccount, VolatileDB.accountVerdict, apply_chain, ← hdrained, hcurrent.bound_fold]
  · intro bind hbind hvalue
    rw [← hdrained]
    exact isSome_of_fold_eq hcurrent.unknown_notMem hcurrent.grounded hbind hvalue

/-! ### Reading and flushing differ on the rewards -/

/-- Whether an account registered after the boundary and is still there. -/
def registeredSinceBoundary (db : VolatileDB) (cred : Credential) : Bool :=
  match db.current.aggregate.resolveAccount cred with
  | exists_ bind => bind.value.isSome
  | _ => false

theorem registeredSinceBoundary_eq (db : VolatileDB) (cred : Credential) :
    registeredSinceBoundary db cred = creates [db.current.aggregate.resolveAccount cred] := by
  rw [registeredSinceBoundary]
  cases db.current.aggregate.resolveAccount cred <;> simp [creates]

section

variable (h : Flushed db eras s drained opened s') (hsome : (s'.accounts.get? cred).isSome)
include h hsome

theorem resolveAccount_current_ne_gone : db.current.aggregate.resolveAccount cred ≠ gone := by
  intro hgone
  have hnone := (h.accountAgrees cred).2.bound_fold
  rw [hgone] at hnone
  rw [map_eq_none_iff.1 hnone] at hsome
  cases hsome

theorem creates_current :
    creates [db.current.aggregate.resolveAccount cred] =
      creates (db.current.aggregate.accounts.history cred) := by
  have hcurrent := (h.accountAgrees cred).2
  exact creates_fold hcurrent.unknown_notMem hcurrent.grounded (resolveAccount_current_ne_gone h hsome)

variable (hcreates : creates (db.current.aggregate.accounts.history cred) = false)
include hcreates

/-- An account that is there after the current fragments and that none of them registers was there
at the boundary. -/
theorem isSome_opened :
    (opened.accounts.get? cred).isSome := by
  rw [← isSome_map (f := bound)]
  refine isSome_of_applyAll _ hcreates ?_
  rw [← (h.accountAgrees cred).2.bound_eq, isSome_map]
  exact hsome

/-- The rewards of an account that no current fragment registers nor empties. -/
theorem rewardsOf_flushed (hwithdrawal : db.current.aggregate.hasWithdrawal cred = false) :
    s'.rewardsOf cred =
      (if db.draining.aggregate.hasWithdrawal cred ||
          creates (db.draining.aggregate.accounts.history cred) then 0
        else s.rewardsOf cred) + db.overlay.pendingRewardCredit cred := by
  obtain ⟨hdraining, hcurrent⟩ := h.accountAgrees cred
  have hopened := isSome_opened h hsome hcreates
  have hget := h.crosses.get?_accounts cred
  have hdrained : (drained.accounts.get? cred).isSome := by
    rwa [hget, isSome_map] at hopened
  rw [hcurrent.rewards_eq hsome, hwithdrawal, hcreates, ← hdraining.rewards_eq hdrained]
  obtain ⟨row, hrow⟩ := isSome_iff_exists.1 hdrained
  simp [rewardsOf, hget, hrow, pay]

/-- What a read starts from, for an account that no current fragment registers. -/
theorem baseRewards_verdict :
    baseRewards s cred (db.accountVerdict cred) =
      if creates (db.draining.aggregate.accounts.history cred) then 0
      else s.rewardsOf cred := by
  have hdraining := (h.accountAgrees cred).1
  have hgone : db.draining.aggregate.resolveAccount cred ≠ gone := by
    intro hgone
    have hopened := isSome_opened h hsome hcreates
    rw [← isSome_map (f := bound), bound_opened h.crosses, hdraining.bound_fold, hgone] at hopened
    cases hopened
  have hverdict : creates [db.accountVerdict cred] =
      creates (db.draining.aggregate.accounts.history cred) := by
    rw [VolatileDB.accountVerdict, creates_chain (resolveAccount_current_ne_gone h hsome) hgone,
      creates_cons, creates_current h hsome, hcreates, Bool.false_or]
    exact creates_fold hdraining.unknown_notMem hdraining.grounded hgone
  rw [baseRewards, hverdict]

end

/-- An account that registered after the boundary is there after a flush. -/
theorem isSome_of_registeredSinceBoundary (h : Flushed db eras s drained opened s')
    (hregistered : registeredSinceBoundary db cred) :
    (s'.accounts.get? cred).isSome := by
  rw [registeredSinceBoundary] at hregistered
  match hverdict : db.current.aggregate.resolveAccount cred with
  | gone | unknown => rw [hverdict] at hregistered; cases hregistered
  | exists_ bind =>
    rw [hverdict] at hregistered
    obtain ⟨value, hvalue⟩ := isSome_iff_exists.1 hregistered
    rw [← isSome_map (f := bound), (h.accountAgrees cred).2.bound_fold, hverdict]
    simp [apply, Bind.apply, hvalue]

theorem rewards_resolveAccount_iff (h : Flushed db eras s drained opened s')
    (hrow : resolveAccount db s cred = some row)
    (hsome : (s'.accounts.get? cred).isSome) :
    row.rewards = s'.rewardsOf cred ↔
      ¬ (registeredSinceBoundary db cred ∧ ¬ db.current.aggregate.hasWithdrawal cred ∧
        0 < db.overlay.pendingRewardCredit cred) := by
  have hcurrent := (h.accountAgrees cred).2
  rw [rewards_resolveAccount hrow, registeredSinceBoundary_eq, creates_current h hsome,
    VolatileDB.rewardsAtTip]
  by_cases hwithdrawal : db.current.aggregate.hasWithdrawal cred
  · -- a withdrawal after the boundary leaves nothing
    rw [hcurrent.rewards_eq hsome]
    simp [hwithdrawal, intoBalance]
  by_cases hcreates : creates (db.current.aggregate.accounts.history cred)
  · -- registered after the boundary: flushing starts from nothing, reading from the payment
    have hbase : baseRewards s cred (db.accountVerdict cred) = 0 := by
      rw [baseRewards, VolatileDB.accountVerdict, if_pos]
      exact creates_chain_of_newer ((creates_current h hsome).trans hcreates)
    rw [hcurrent.rewards_eq hsome, hbase]
    by_cases hdraining : db.draining.aggregate.hasWithdrawal cred <;>
      simp [hwithdrawal, hcreates, hdraining, intoBalance]
  · -- there at the boundary
    rw [Bool.not_eq_true] at hcreates hwithdrawal
    rw [rewardsOf_flushed h hsome hcreates hwithdrawal, baseRewards_verdict h hsome hcreates]
    by_cases hdraining : db.draining.aggregate.hasWithdrawal cred <;>
      simp [hwithdrawal, hcreates, hdraining, intoBalance]

end

/-- **Reading an account gives the row that a flush would write, except for an account that registered
after the boundary, has not withdrawn since, and is owed a payment by the boundary.** The boundary
pays nothing to an account that was not there, and the read adds the payment all the same. -/
theorem resolveAccount_eq_flushed_iff {db : VolatileDB} {eras : EraHistory}
    {s s' : Store} (hlayered : Layered db s)
    (hflush : db.flush eras s = .ok s') (cred : Credential) :
    resolveAccount db s cred = s'.accounts.get? cred ↔
      ¬ (registeredSinceBoundary db cred ∧ ¬ db.current.aggregate.hasWithdrawal cred ∧
        0 < db.overlay.pendingRewardCredit cred) := by
  obtain ⟨drained, opened, h⟩ := exists_flushed hlayered hflush
  have hbound := bound_resolveAccount_eq h cred
  rcases hflushed : s'.accounts.get? cred with - | row
  · rw [hflushed, map_none, map_eq_none_iff] at hbound
    refine iff_of_true hbound fun ⟨hregistered, _⟩ ↦ ?_
    have hsome := isSome_of_registeredSinceBoundary h hregistered
    rw [hflushed] at hsome
    cases hsome
  · rw [hflushed, map_some, map_eq_some_iff] at hbound
    obtain ⟨read, hread, hbound⟩ := hbound
    rw [← rewards_resolveAccount_iff h hread (by rw [hflushed]; rfl), hread, some_inj, rewardsOf, hflushed]
    exact ⟨fun heq ↦ heq ▸ rfl, fun hrewards ↦ ext_bound hbound hrewards⟩

/-- A pool retired at the boundary, and its reward account registers only after it, together with
another account. -/
def lateRegistration : VolatileDB :=
  crossing { refunds := .ofList [(.keyHash 1, 500)] } quietBoundary
    { accounts :=
        { registered := .ofList
            [(.keyHash 1, { left := .reset, right := .reset, value := some 2 }),
              (.keyHash 2, { left := .reset, right := .reset, value := some 2 })]
          unregistered := ∅
          disjoint := by simp } }

/-- **The deposit of the pool went to the treasury, and is read as rewards of the account.** -/
theorem late_registration_is_credited : ∃ s', Layered lateRegistration blankStore ∧
    lateRegistration.flush tenSlotEpochs blankStore = .ok s' ∧
    s'.pots.treasury = 500 ∧
    s'.accounts.get? (.keyHash 1) = some { deposit := 2, rewards := 0 } ∧
    resolveAccount lateRegistration blankStore (.keyHash 1) = some { deposit := 2, rewards := 500 } :=
  ⟨_, layered_crossing _ _ _ rfl rfl, rfl, rfl, rfl, rfl⟩

theorem resolveAccount_eq_flushed_other : ∃ s',
    lateRegistration.flush tenSlotEpochs blankStore = .ok s' ∧
    resolveAccount lateRegistration blankStore (.keyHash 2) = s'.accounts.get? (.keyHash 2) := by
  obtain ⟨s', hflush⟩ : ∃ s', lateRegistration.flush tenSlotEpochs blankStore = .ok s' := ⟨_, rfl⟩
  refine ⟨s', hflush, ?_⟩
  exact (resolveAccount_eq_flushed_iff (layered_crossing _ _ _ rfl rfl) hflush _).2 (by decide)

end Amaru
