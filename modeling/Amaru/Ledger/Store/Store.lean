import Amaru.Kernel.EraHistory
import Amaru.Ledger.Volatile.Fragment
import Mathlib.Data.List.Chain

/-!
# The stable store

The tables of the store and `save`, which writes the fragment of a block that is now stable into
them.

A table is a map, and saving a fragment is **one update per table**: what a table holds at a key
afterwards depends only on what it held there and on what the fragment says of that key. The source
interleaves the tables in one transaction; they are independent of each other, and an operation that
panics or fails aborts the transaction, so the order matters only within a table.
-/

namespace Amaru

open Except

/-! ### Tables -/

/-- How far the store is in the transition to a new epoch. -/
inductive EpochTransitionProgress
  | epochEnded
  | snapshotTaken
deriving DecidableEq, Repr

/-- Why an operation on the store does not go through. Where the source panics, so does the
model. -/
inductive StoreError
  | eraHistory (error : EraHistoryError)
  | updatedMissingAccount (cred : Credential)
  | missingDeregistration
  | rewardsDiscrepancy
  | potUnderflow
deriving DecidableEq, Repr

/-- The stable store. -/
structure Store where
  tip : Point
  epochTransitionProgress : Option EpochTransitionProgress
  protocolParameters : ProtocolParameters
  constitutionalCommittee : ConstitutionalCommitteeStatus
  constitution : Constitution
  governanceActivity : GovernanceActivity
  proposalsRoots : ProposalsRoots
  utxo : SortedMap TransactionInput MemoizedTransactionOutput
  accounts : SortedMap Credential AccountRow
  /-- The accounts that unregistered in the last epochs, with the epoch. -/
  recentlyUnregisteredAccounts : SortedMap Credential ℕ
  pools : SortedMap PoolId PoolRow
  dreps : SortedMap Credential DRepRow
  ccMembers : SortedMap Credential CCMemberRow
  proposals : SortedMap ProposalId ProposalState
  recentlyPrunedProposals : SortedMap ProposalId RatificationStatus
  votes : SortedMap BallotId Vote
  /-- The issuer of the block of each slot. -/
  slots : SortedMap ℕ PoolId
  pots : Pots

namespace Store

/-! ### Accounts -/

/-- What a binding makes of the row of an account. -/
def accountsAddRow (cred : Credential) (bind : AccountBind) (existing : Option AccountRow) :
    Except StoreError (Option AccountRow) :=
  match bind.value, existing with
  | some deposit, _ =>
    .ok (some
      { pool := bind.left.intoOption none, deposit, drep := bind.right.intoOption none, rewards := 0 })
  | none, some row =>
    .ok (some { row with pool := bind.left.intoOption row.pool, drep := bind.right.intoOption row.drep })
  | none, none => .error (.updatedMissingAccount cred)

/-- Register accounts, or change their delegations. -/
def accountsAdd (accounts : SortedMap Credential AccountRow)
    (rows : SortedMap Credential AccountBind) : Except StoreError (SortedMap Credential AccountRow) :=
  accounts.mergeWithM rows accountsAddRow

/-- Reset the rewards of many accounts. -/
def accountsResetMany (accounts : SortedMap Credential AccountRow)
    (withdrawals : SortedSet Credential) : SortedMap Credential AccountRow :=
  accounts.map fun cred row ↦
    if cred ∈ withdrawals then { row with rewards := 0 } else row

/-- Remember the accounts that unregister, and forget those that register. -/
def recentlyUnregistered (recent : SortedMap Credential ℕ)
    (rows : SortedMap Credential AccountBind) (removed : SortedSet Credential) (epoch : ℕ) :
    SortedMap Credential ℕ :=
  (recent.filter fun cred _ ↦ !(rows.get? cred).any (·.value.isSome)).insertAll (removed.map fun _ _ ↦ epoch)

/-! ### Pools -/

variable (pools : SortedMap PoolId PoolRow)

/-- Register a pool, or stash its new parameters until the next epoch. -/
def poolsAddOne (row : PoolParams × CertificatePointer × ℕ) : SortedMap PoolId PoolRow :=
  pools.alter row.1.id fun
    | none => some { registeredAt := row.2.1, deposit := row.2.2, currentParams := row.1 }
    | some existing => some { existing with
        pendingCertificates := existing.pendingCertificates ++ [.registration row.1] }

/-- Register pools. -/
def poolsAdd (rows : SortedMap PoolId (Registrations (PoolParams × CertificatePointer × ℕ))) :
    SortedMap PoolId PoolRow :=
  (rows.entries.flatMap fun e ↦ e.2.toList).foldl poolsAddOne pools

/-- Schedule the retirement of pools. An unknown pool is logged and skipped. -/
def poolsRemove (rows : SortedMap PoolId ℕ) : SortedMap PoolId PoolRow :=
  pools.mergeWith rows fun _ epoch existing ↦ existing.map fun existing ↦
    { existing with pendingCertificates := existing.pendingCertificates ++ [.retirement epoch] }

/-! ### Delegate representatives -/

/-- What a binding makes of the row of a delegate representative. Changing a missing one is logged
and skipped. -/
def drepsAddRow (validUntilOnUpdate : ℕ) (bind : Bind Anchor Unit DRepRegistration) :
    Option DRepRow → Option DRepRow
  | some row =>
    match bind.value with
    | some registration =>
      some { toDRepRegistration := registration, anchor := bind.left.intoOption row.anchor }
    | none =>
      some { row with validUntil := validUntilOnUpdate, anchor := bind.left.intoOption row.anchor }
  | none => bind.value.map fun registration ↦
    { toDRepRegistration := registration, anchor := bind.left.intoOption none }

variable (dreps : SortedMap Credential DRepRow)

/-- Register delegate representatives, or change their anchors. -/
def drepsAdd (validUntilOnUpdate : ℕ) (rows : SortedMap Credential (Bind Anchor Unit DRepRegistration)) :
    SortedMap Credential DRepRow :=
  dreps.mergeWith rows fun _ bind ↦ drepsAddRow validUntilOnUpdate bind

/-- Postpone the expiry of the delegate representatives that voted. -/
def drepsSetValidUntil (voting : List Credential) (validUntil : ℕ) : SortedMap Credential DRepRow :=
  dreps.map fun cred row ↦ if cred ∈ voting then { row with validUntil } else row

/-- The delegate representatives among the voters. -/
def votingDReps (votes : SortedMap BallotId Vote) : List Credential :=
  votes.keys.filterMap fun ballot ↦ ballot.voter.drepCredential

/-- The delegate representatives to remove from the store: those that existed before the block. -/
def removeDReps (unregistered : SortedSet Credential)
    (deregistrations : SortedMap Credential (Option CertificatePointer)) :
    Except StoreError (SortedSet Credential) :=
  if unregistered.keys.all fun cred ↦ deregistrations.contains cred then
    .ok (unregistered.filter fun cred _ ↦
      ((deregistrations.get? cred).bind id).isSome)
  else .error .missingDeregistration

/-- Give back the dormant epochs to the delegate representatives that have not expired. -/
def drepsReactivate (dormantEpochs currentEpoch : ℕ) : SortedMap Credential DRepRow :=
  dreps.map fun _ row ↦
    if currentEpoch ≤ row.validUntil + dormantEpochs then
      { row with validUntil := row.validUntil + dormantEpochs }
    else row

/-! ### Committee -/

/-- What a binding makes of the row of a committee member. -/
def ccMembersUpsertRow (bind : CommitteeMemberBind) (existing : Option CCMemberRow) : CCMemberRow :=
  let row := existing.getD {}
  { status := bind.left.intoOption row.status, validUntil := bind.right.intoOption row.validUntil }

/-- Change committee members, known or not. -/
def ccMembersUpsert (members : SortedMap Credential CCMemberRow)
    (rows : SortedMap Credential CommitteeMemberBind) : SortedMap Credential CCMemberRow :=
  members.mergeWith rows fun _ bind existing ↦ some (ccMembersUpsertRow bind existing)

/-! ### Saving a block -/

section

variable (store : Store)

/-- The tables with a fragment, in an epoch, from the accounts with those that register and the
delegate representatives to remove. -/
def withFragment (pp : ProtocolParameters)
    (activity : GovernanceActivity) (block : AnchoredVolatileFragment) (currentEpoch : ℕ)
    (accounts : SortedMap Credential AccountRow) (removedDReps : SortedSet Credential) : Store :=
  let fragment := block.fragment
  let dormantEpochs := activity.consecutiveDormantEpochs
  let drepValidity := currentEpoch + pp.drepExpiry - dormantEpochs
  let dreps := removedDReps.removeFrom (drepsSetValidUntil
    (drepsAdd store.dreps drepValidity fragment.dreps.registered)
    (votingDReps fragment.votes.produced) drepValidity)
  -- a proposal ends a dormant period
  let reactivating := decide (0 < dormantEpochs ∧ fragment.proposals.entries ≠ [])
  { store with
    tip := block.point
    slots := store.slots.insert block.point.slotOrDefault block.issuer
    utxo := fragment.utxo.consumed.removeFrom (store.utxo.insertAll fragment.utxo.produced)
    pools := poolsRemove (poolsAdd store.pools fragment.pools.registered) fragment.pools.unregistered
    accounts := fragment.accounts.unregistered.removeFrom (accountsResetMany accounts fragment.withdrawals)
    recentlyUnregisteredAccounts := recentlyUnregistered store.recentlyUnregisteredAccounts
      fragment.accounts.registered fragment.accounts.unregistered currentEpoch
    dreps := if reactivating then drepsReactivate dreps dormantEpochs currentEpoch else dreps
    ccMembers := ccMembersUpsert store.ccMembers fragment.committee.registered
    proposals := store.proposals.insertAll fragment.proposals
    votes := store.votes.insertAll fragment.votes.produced
    governanceActivity :=
      if reactivating then { consecutiveDormantEpochs := 0 } else store.governanceActivity }

/-- Write a fragment into the tables. -/
def write (eras : EraHistory) (pp : ProtocolParameters)
    (activity : GovernanceActivity) (block : AnchoredVolatileFragment) :
    Except StoreError Store := do
  let tip := block.point.slotOrDefault
  let currentEpoch ← (eras.slotToEpoch tip tip).mapError .eraHistory
  let accounts ← accountsAdd store.accounts block.fragment.accounts.registered
  let removedDReps ← removeDReps block.fragment.dreps.unregistered block.fragment.drepsDeregistrations
  return store.withFragment pp activity block currentEpoch accounts removedDReps

/-- Save a block. A block that is no newer than the tip is not saved. -/
def save (eras : EraHistory) (pp : ProtocolParameters)
    (activity : GovernanceActivity) (block : AnchoredVolatileFragment) :
    Except StoreError Store :=
  if block.point.isStale store.tip then .ok store
  else store.write eras pp activity block

/-- Apply a block that is now stable. -/
def applyBlock (eras : EraHistory) (pp : ProtocolParameters)
    (activity : GovernanceActivity) (block : AnchoredVolatileFragment) :
    Except StoreError Store := do
  let store ← store.save eras pp activity block
  return { store with
    pots := { store.pots with
      fees := store.pots.fees + block.fragment.fees
      donations := store.pots.donations + block.fragment.donations }
    epochTransitionProgress := none }

/-- Apply the blocks of a series. -/
def applyBlocks (eras : EraHistory) (pp : ProtocolParameters)
    (activity : GovernanceActivity) (series : VolatileSeries) : Except StoreError Store :=
  series.foldlM (fun store block ↦
    store.applyBlock eras pp activity block) store

end

/-! ### What a successful block did -/

section

variable {store store' : Store} {eras : EraHistory} {pp : ProtocolParameters}
  {activity : GovernanceActivity} {block : AnchoredVolatileFragment}

section

variable (h : store.applyBlock eras pp activity block = .ok store')
  (hnew : block.point.isStale store.tip = false)
include h hnew

/-- A block that is newer than the tip is written, and then its fees and donations are added. -/
theorem exists_of_applyBlock :
    ∃ currentEpoch accounts removedDReps,
      eras.slotToEpoch block.point.slotOrDefault block.point.slotOrDefault = .ok currentEpoch ∧
      accountsAdd store.accounts block.fragment.accounts.registered = .ok accounts ∧
      removeDReps block.fragment.dreps.unregistered block.fragment.drepsDeregistrations = .ok removedDReps ∧
      store' = { store.withFragment pp activity block currentEpoch accounts removedDReps with
          pots := { store.pots with
            fees := store.pots.fees + block.fragment.fees
            donations := store.pots.donations + block.fragment.donations }
          epochTransitionProgress := none } := by
  obtain ⟨written, hwritten, h⟩ := bind_eq_ok_iff.1 h
  rw [save, hnew] at hwritten
  obtain ⟨currentEpoch, hepoch, hwritten⟩ := bind_eq_ok_iff.1 hwritten
  obtain ⟨accounts, haccounts, hwritten⟩ := bind_eq_ok_iff.1 hwritten
  obtain ⟨removedDReps, hremoved, hwritten⟩ := bind_eq_ok_iff.1 hwritten
  cases hwritten
  exact ⟨currentEpoch, accounts, removedDReps, mapError_eq_ok_iff.1 hepoch, haccounts, hremoved,
    (ok.inj h).symm⟩

theorem tip_of_applyBlock : store'.tip = block.point := by
  obtain ⟨_, _, _, -, -, -, rfl⟩ := exists_of_applyBlock h hnew
  rfl

end

/-- Blocks that each are newer than the one before. -/
def Newer (tip : Point) (series : VolatileSeries) : Prop :=
  List.IsChain (fun older newer ↦ newer.isStale older = false)
    (tip :: series.map AnchoredVolatileFragment.point)

/-- **The rule for saving a series.** What the store and the blocks saved so far have in common, kept
by every block, holds at the end. -/
@[elab_as_elim]
theorem applyBlocks_invariant :
    ∀ {P : VolatileSeries → Store → Prop} {series} {store store'},
      Newer store.tip series →
      store.applyBlocks eras pp activity series = .ok store' →
      P [] store →
      (∀ done store store' (block : AnchoredVolatileFragment), P done store →
        block.point.isStale store.tip = false →
        store.applyBlock eras pp activity block = .ok store' →
        P (done ++ [block]) store') →
      P series store'
  | _, [], _, _, _, h, hP, _ => by
    cases h
    exact hP
  | P, block :: series, store, store', hnewer, h, hP, step => by
    obtain ⟨next, hnext, h⟩ := bind_eq_ok_iff.1 h
    obtain ⟨hnew, hnewer⟩ := List.isChain_cons_cons.1 hnewer
    rw [← tip_of_applyBlock hnext hnew] at hnewer
    exact applyBlocks_invariant (P := fun done ↦ P (block :: done)) hnewer h
      (step [] store next block hP hnew hnext) fun done ↦ step (block :: done)

theorem Newer.of_append {tip older newer} (h : Newer tip (older ++ newer)) : Newer tip older := by
  rw [Newer, List.map_append, ← List.cons_append] at h
  exact h.left_of_append

/-- Blocks that follow others are newer than the tip once these are saved. -/
theorem newer_of_applyBlocks {newer} :
    ∀ {older} {store store' : Store}, Newer store.tip (older ++ newer) →
      store.applyBlocks eras pp activity older = .ok store' →
      Newer store'.tip newer
  | [], _, _, hnewer, h => by
    cases h
    exact hnewer
  | block :: older, store, store', hnewer, h => by
    obtain ⟨next, hnext, h⟩ := bind_eq_ok_iff.1 h
    obtain ⟨hnew, hnewer⟩ := List.isChain_cons_cons.1 hnewer
    refine newer_of_applyBlocks ?_ h
    rw [tip_of_applyBlock hnext hnew]
    exact hnewer

/-- A transition to a new epoch that was under way is over once a block is saved. -/
theorem epochTransitionProgress_of_applyBlocks : ∀ {series} {store store' : Store},
    store.applyBlocks eras pp activity series = .ok store' →
    store' = store ∨ store'.epochTransitionProgress = none
  | [], _, _, h => by
    cases h
    exact .inl rfl
  | block :: series, store, store', h => by
    obtain ⟨next, hnext, h⟩ := bind_eq_ok_iff.1 h
    obtain ⟨_, -, hnext⟩ := bind_eq_ok_iff.1 hnext
    cases hnext
    rcases epochTransitionProgress_of_applyBlocks h with rfl | h
    · exact .inr rfl
    · exact .inr h

end

end Store

end Amaru
