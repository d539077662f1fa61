import Amaru.Ledger.Volatile.VolatileDB

/-!
# Crossing a boundary

At the end of an epoch its last blocks are still volatile, so what the boundary changes is computed
from a view: the store patched with the volatile blocks, all of the closing epoch.

The view does not list the accounts. It lists those that **cannot be reached** any more: those that
unregistered in the last epochs, and the owners of rewarded pools that have no account. Everyone else
is taken to have one.
-/

namespace Amaru

open VolatileDB

/-! ### The view -/

/-- The volatile blocks of the closing epoch, merged. -/
structure VolatileView where
  pools : DiffEpochReg PoolId (PoolParams × CertificatePointer × ℕ) := ∅
  proposals : SortedMap ProposalId ProposalState := ∅
  accounts : DiffBind Credential (PoolId × CertificatePointer) (DRep × CertificatePointer) ℕ := ∅

namespace VolatileView

variable (view : VolatileView)

/-- Merge a newer block. -/
def extend (block : AnchoredVolatileFragment) : VolatileView where
  pools := view.pools.extend block.fragment.pools
  proposals := view.proposals.insertAll block.fragment.proposals
  accounts := view.accounts.extend block.fragment.accounts

/-- The view of a series of blocks. -/
def ofSeries (series : VolatileSeries) : VolatileView := series.foldl extend {}

theorem ofSeries_concat (series : VolatileSeries) (block : AnchoredVolatileFragment) :
    ofSeries (series ++ [block]) = (ofSeries series).extend block := by
  rw [ofSeries, List.foldl_append]
  rfl

/-- The view of the volatile database. -/
def new (db : VolatileDB) : VolatileView := ofSeries (db.draining ++ db.current)

/-- The pools, with what the volatile blocks add to them. -/
def iterPools (store : Store) : SortedMap PoolId PoolRow :=
  let retirement := fun pool ↦
    ((view.pools.unregistered.get? pool).map PoolCertificate.retirement).toList
  (store.pools.map fun pool row ↦
    { row with
      pendingCertificates := row.pendingCertificates ++
        (((view.pools.registered.get? pool).map (·.toList)).getD []).map (fun r ↦ .registration r.1) ++
        retirement pool }).insertAll
  (view.pools.registered.filterMap fun pool registrations ↦
    if store.pools.contains pool then none
    else some
      { registeredAt := registrations.current.2.1
        deposit := registrations.current.2.2
        currentParams := registrations.current.1
        pendingCertificates :=
          (registrations.next.map fun r ↦ PoolCertificate.registration r.1).toList ++ retirement pool })

/-- The proposals, with those of the volatile blocks. -/
def iterProposals (store : Store) : SortedMap ProposalId ProposalState :=
  store.proposals.insertAll view.proposals

/-- Whether a volatile block registers an account. -/
def isRegistered (cred : Credential) : Bool :=
  (view.accounts.registered.get? cred).any (·.value.isSome)

/-- The accounts that cannot be paid. -/
def iterUnreachableAccounts (store : Store) (poolsOwners : SortedSet Credential) : List Credential :=
  let recent := store.recentlyUnregisteredAccounts.keys
  (recent.filter fun cred ↦ !view.isRegistered cred) ++
  view.accounts.unregistered.keys ++
  (poolsOwners.keys.filter fun cred ↦
    decide (cred ∉ recent) && decide (cred ∉ view.accounts.unregistered.keys) &&
    !view.isRegistered cred && !store.accounts.contains cred)

end VolatileView

/-! ### The transition -/

namespace VolatileDB

/-- Cross a boundary: the blocks of the closing epoch start to drain. Blocks of an older epoch must
not be there any more. -/
def transition (db : VolatileDB) (effectiveRewards : Option EffectiveRewards)
    (poolsUpdates : PoolsEpochTransitionUpdates) (governanceUpdates : GovernanceUpdates)
    (donations : ℕ) (accountExists : Credential → Bool) : Except StateError VolatileDB :=
  if db.draining = [] then
    .ok { db with
      current := []
      draining := db.current
      overlay := db.overlay.transition effectiveRewards poolsUpdates governanceUpdates donations
        accountExists }
  else .error .drainingNotEmpty

/-- The accounts that cannot be paid at a boundary, and the rewards that become effective: those that
were computed, unless the store has paid them before. -/
def endRewards (db : VolatileDB) (store : Store) (computedRewards : Option Rewards) :
    Except StateError (List Credential × Option EffectiveRewards) :=
  let view := VolatileView.new db
  match store.epochTransitionProgress with
  | none =>
    match computedRewards with
    | none => .error .rewardsSummaryNotReady
    | some computed =>
      let unreachable := view.iterUnreachableAccounts store computed.poolsOwners
      .ok (unreachable, some { computed with unclaimed := computed.unclaimedRewards unreachable })
  | some _ => .ok (view.iterUnreachableAccounts store ∅, none)

/-- Cross a boundary with the updates computed for it. -/
def crossBoundary (db : VolatileDB) (store : Store) (computedRewards : Option Rewards)
    (poolsUpdates : PoolsEpochTransitionUpdates) (governanceUpdates : GovernanceUpdates) :
    Except StateError VolatileDB := do
  let (unreachable, effectiveRewards) ← db.endRewards store computedRewards
  db.transition effectiveRewards poolsUpdates governanceUpdates
    (store.pots.donations + db.resolveDonations) fun account ↦ decide (account ∉ unreachable)

end VolatileDB

/-- The owners of rewarded pools that crossing a boundary looks at. -/
def rewardedOwners (store : Store) (computedRewards : Option Rewards) : SortedSet Credential :=
  match store.epochTransitionProgress, computedRewards with
  | none, some computed => computed.poolsOwners
  | _, _ => ∅

/-- What crossing a boundary leaves, and with which list of accounts that cannot be reached. -/
theorem exists_of_crossBoundary {db db' : VolatileDB} {store : Store}
    {computedRewards : Option Rewards} {poolsUpdates : PoolsEpochTransitionUpdates}
    {governanceUpdates : GovernanceUpdates}
    (h : db.crossBoundary store computedRewards poolsUpdates governanceUpdates = .ok db') :
    ∃ effectiveRewards : Option EffectiveRewards,
      (store.epochTransitionProgress ≠ none → effectiveRewards = none) ∧ db.draining = [] ∧
      db' = { db with
        current := []
        draining := db.current
        overlay := db.overlay.transition effectiveRewards poolsUpdates governanceUpdates
          (store.pots.donations + db.resolveDonations) fun account ↦
            decide (account ∉ (VolatileView.new db).iterUnreachableAccounts store
              (rewardedOwners store computedRewards)) } := by
  obtain ⟨⟨unreachable, effectiveRewards⟩, hend, h⟩ := Except.bind_eq_ok_iff.1 h
  change db.transition effectiveRewards _ _ _ _ = _ at h
  rw [transition] at h
  split_ifs at h with hdraining
  cases h
  rcases hprogress : store.epochTransitionProgress with - | progress
  · rcases computedRewards with - | computed
    · simp [endRewards, hprogress] at hend
    · simp only [endRewards, hprogress] at hend
      cases hend
      have howners : rewardedOwners store (some computed) = computed.poolsOwners := by
        simp only [rewardedOwners, hprogress]
      rw [howners]
      exact ⟨_, fun h ↦ absurd rfl h, hdraining, rfl⟩
  · simp only [endRewards, hprogress] at hend
    cases hend
    refine ⟨none, fun _ ↦ rfl, hdraining, ?_⟩
    simp only [rewardedOwners, hprogress]

end Amaru
