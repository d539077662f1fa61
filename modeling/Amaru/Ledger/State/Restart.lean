import Amaru.Ledger.ReadThrough.Pools
import Amaru.Ledger.ReadThrough.Treasury
import Amaru.Ledger.State.ForkSwitch

/-!
# A flush that is interrupted

Writing a boundary takes three transactions. A node that stops between two of them starts again with
the store as it is and with **nothing volatile**: the overlay is gone, and crossing the boundary
computes it again, this time from a store that already has the last blocks of the epoch, and maybe
its rewards.

`flushUntil` is the flush up to a transaction, `resume` the start and the boundary crossed again.
Whatever the transaction, the second flush leaves what one flush would have left (`flush_resumes`). The
one difference is the one between the view and the store it drains into: certificates of a pool that
later ones replace are in the store, and the updates computed after the restart keep them.
-/

namespace Amaru

open Except VolatileView SortedMap PoolsEpochTransitionUpdates StateOverlay Store SortedSet State Option
  Nat VolatileDB
open List hiding isEmpty

/-! ### The view of the closing epoch and the store it drains into -/

section

variable {store drained : Store} {eras : EraHistory} {pp : ProtocolParameters}
  {activity : GovernanceActivity} {series : VolatileSeries}

section

variable (hnewer : Store.Newer store.tip series) (h : store.applyBlocks eras pp activity series = .ok drained)
include hnewer h

theorem kept_of_applyBlocks :
    drained.proposalsRoots = store.proposalsRoots ∧ drained.protocolParameters = store.protocolParameters ∧
      (store.epochTransitionProgress = none → drained.epochTransitionProgress = none) :=
  applyBlocks_invariant hnewer h ⟨rfl, rfl, id⟩ fun _ _ _ _ ⟨hroots, hparameters, _⟩ hnew h ↦ by
    obtain ⟨_, _, _, -, -, -, rfl⟩ := exists_of_applyBlock h hnew
    exact ⟨hroots, hparameters, fun _ ↦ rfl⟩

theorem iterProposals_eq : (ofSeries series).iterProposals store = drained.proposals := by
  have hproposals : (ofSeries series).proposals = series.aggregate.proposals := by
    clear hnewer h
    induction series using List.reverseRecOn with
    | nil => rfl
    | append_singleton series block ih =>
      rw [ofSeries_concat, VolatileSeries.aggregate_concat]
      exact congrArg (insertAll · _) ih
  refine ext_get? fun id ↦ ?_
  rw [iterProposals, get?_insertAll, hproposals, get?_proposals_of_applyBlocks hnewer h]

/-- The accounts that the store remembers as gone after the blocks: those the blocks unregister, and
those it remembered before, unless a block registers them. -/
theorem isSome_recentlyUnregistered_iff (hstore : store.RecentlyUnregisteredGone) (cred : Credential) :
    (drained.recentlyUnregisteredAccounts.get? cred).isSome ↔ cred ∈ (ofSeries series).accounts.unregistered ∨
        ((store.recentlyUnregisteredAccounts.get? cred).isSome ∧
          (ofSeries series).isRegistered cred = false) := by
  refine (?_ : drained.RecentlyUnregisteredGone ∧ _).2
  refine applyBlocks_invariant hnewer h ⟨hstore, ?_⟩ ?_
  rotate_left
  · rintro done saved saved' block ⟨hgone, hiff⟩ hnew happly
    refine ⟨hgone.applyBlock hnew happly, ?_⟩
    obtain ⟨row, hrow, -⟩ := get?_accounts_of_applyBlock happly hnew cred
    obtain ⟨epoch, _, _, -, -, -, rfl⟩ := exists_of_applyBlock happly hnew
    change ((recentlyUnregistered _ _ _ epoch).get? cred).isSome ↔ _
    rw [recentlyUnregistered, get?_insertAll, get?_map, get?_filter, ofSeries_concat, isRegistered,
      extend, DiffBind.mem_unregistered_extend, DiffBind.registered_extend]
    cases hverdict : block.fragment.accounts.get cred with
    | gone =>
      have hun := DiffBind.get_eq_gone_iff.1 hverdict
      simp [mem_iff.1 hun, hun, block.fragment.accounts.disjoint cred hun]
    | unknown =>
      obtain ⟨hreg, hun⟩ := DiffBind.get_eq_unknown_iff.1 hverdict
      rw [notMem_iff.1 hun, hreg]
      simpa [hun, isRegistered] using hiff
    | exists_ bind =>
      have hreg := DiffBind.get_eq_exists_iff.1 hverdict
      rw [notMem_iff.1 (DiffBind.notMem_unregistered_of_get hverdict), hreg]
      rcases hvalue : bind.value with - | deposit
      · -- the account is there, so it is not remembered as gone
        rw [hverdict] at hrow
        have hexists := (of_accountsAddRow hrow).1 hvalue
        have hnone : saved.recentlyUnregisteredAccounts.get? cred = none := by
          by_contra hsome
          rw [hgone cred (isSome_iff_ne_none.2 hsome)] at hexists
          cases hexists
        rw [hnone, isRegistered] at hiff
        rw [hnone]
        rcases hview : (ofSeries done).accounts.registered.get? cred with - | older <;> rw [hview] at hiff
        · simpa [hvalue] using (not_or.1 (mt hiff.2 (by simp))).2
        · simpa [hvalue, Bind.andThen] using (not_or.1 (mt hiff.2 (by simp))).2
      · cases (ofSeries done).accounts.registered.get? cred <;> simp [hvalue, Bind.andThen]
  · exact ⟨fun h ↦ .inr ⟨h, rfl⟩, fun h ↦ h.elim (fun h ↦ absurd h (notMem_empty cred)) And.left⟩

/-- **The accounts that cannot be reached are the same**, listed from the view of the last blocks or
from the store once it has them. -/
theorem mem_iterUnreachableAccounts_drained {db db'} (hview : VolatileView.new db = ofSeries series)
    (hnothing : VolatileView.new db' = {}) (hstore : store.RecentlyUnregisteredGone)
    (poolsOwners : SortedSet Credential) (cred : Credential) :
    cred ∈ (VolatileView.new db').iterUnreachableAccounts drained poolsOwners ↔
      cred ∈ (VolatileView.new db).iterUnreachableAccounts store poolsOwners := by
  rw [mem_iterUnreachableAccounts hstore,
    mem_iterUnreachableAccounts (hstore.applyBlocks hnewer h), Unlisted, Unlisted, hview, hnothing]
  have hhas : hasAccount {} drained cred = (ofSeries series).hasAccount store cred :=
    contains_accounts_of_applyBlocks hnewer h cred
  rw [hhas]
  refine and_congr_right fun hnone ↦ not_congr (and_congr_right fun _ ↦ ?_)
  have hrecent := isSome_recentlyUnregistered_iff hnewer h hstore cred
  have hempty : cred ∉ ({} : VolatileView).accounts.unregistered :=
    notMem_empty cred
  rw [← not_isSome_iff_eq_none, hrecent, not_or, ← not_isSome_iff_eq_none]
  constructor
  · rintro ⟨-, ⟨hun, hnot⟩, howner⟩
    refine ⟨hun, fun hsome ↦ ?_, howner⟩
    -- registered, and not unregistered since, it would have an account
    rw [hasAccount_of_notMem hun, Bool.or_eq_false_iff] at hnone
    exact hnot ⟨hsome, hnone.1⟩
  · rintro ⟨hun, hnot, howner⟩
    exact ⟨hempty, ⟨hun, fun h ↦ hnot h.1⟩, howner⟩

end

theorem VolatileView.iterPools_empty (store : Store) : ({} : VolatileView).iterPools store = store.pools :=
  ext_get? fun pool ↦ by
    rw [get?_iterPools]
    exact PoolRow.extend_nil _

end

theorem Rewards.mem_unclaimedRewards (rewards : Rewards) (unreachable : List Credential)
    (cred : Credential) : cred ∈ rewards.unclaimedRewards unreachable ↔
      cred ∈ unreachable ∧ (rewards.accounts.get? cred).any (0 < ·) := by
  have hfold : ∀ (l : List Credential) (s : SortedSet Credential),
      cred ∈ l.foldl add s ↔ cred ∈ l ∨ cred ∈ s := by
    intro l
    induction l with
    | nil => simp
    | cons c l ih =>
      intro s
      rw [foldl_cons, ih, mem_add, mem_cons]
      tauto
  rw [unclaimedRewards, hfold, mem_filter]
  simp

/-! ### Stores that differ in replaced certificates -/

/-- A registration of the pool is displaced in one of two tables only. -/
def DisplacedInOne (epoch : ℕ) (pools pools' : SortedMap PoolId PoolRow) (pool : PoolId) : Prop :=
  ∃ row row', pools.get? pool = some row ∧ pools'.get? pool = some row' ∧
    ¬(Displaces epoch row.pendingCertificates ↔ Displaces epoch row'.pendingCertificates)

/-- Stores that are the same but for certificates of pools that are replaced, and some pools. -/
structure Store.Alike (but : PoolId → Prop) (store store' : Store) : Prop where
  tables_eq : { store' with pools := store.pools } = store
  alike_pools : ∀ pool, ¬but pool → PoolRow.Alike (store.pools.get? pool) (store'.pools.get? pool)

variable {epoch : ℕ}

/-- Updates from the view and from the store after saving the blocks, both written to that store. -/
theorem alike_updateOrRetirePools {pools : SortedMap PoolId PoolRow} {store : Store}
    {updates updates' : PoolsEpochTransitionUpdates} (hnamed : Store.PoolsNamed store.pools)
    (halike : ∀ pool, PoolRow.Alike (pools.get? pool) (store.pools.get? pool))
    (hupdates : PoolsEpochTransitionUpdates.new pools epoch = .ok updates)
    (hupdates' : PoolsEpochTransitionUpdates.new store.pools epoch = .ok updates')
    {pool : PoolId} (hpool : ¬DisplacedInOne epoch pools store.pools pool) :
    PoolRow.Alike ((store.updateOrRetirePools updates.updated updates.retired).pools.get? pool)
      ((store.updateOrRetirePools updates'.updated updates'.retired).pools.get? pool) := by
  have hget : ∀ updates : PoolsEpochTransitionUpdates,
      (store.updateOrRetirePools updates.updated updates.retired).pools.get? pool =
        (store.pools.get? pool).bind fun row ↦
          if pool ∈ updates.retired then none else some ((updates.updated.get? pool).getD row) :=
    fun updates ↦ get?_filterMap _ _ _
  have hrow := halike pool
  rw [hget, hget]
  rcases hstored : store.pools.get? pool with - | row'
  · rfl
  rw [hstored] at hrow
  obtain ⟨row, hview, hsummary⟩ := map_eq_some_iff.1 hrow
  obtain ⟨-, hagree⟩ := agree_of_alike hnamed halike epoch
  obtain ⟨-, -, hrows⟩ := hagree updates updates' hupdates hupdates'
  have hafter := hrows pool row row' hview hstored
    (by_contra fun hne ↦ hpool ⟨row, row', hview, hstored, hne⟩)
  rw [PoolsEpochTransitionUpdates.rowAfter, PoolsEpochTransitionUpdates.rowAfter, hview, hstored] at hafter
  refine Eq.trans ?_ (hafter.trans ?_)
  · split_ifs
    · rfl
    · rcases updates.updated.get? pool with - | updated
      · exact congrArg some hsummary.symm
      · rfl
  · split_ifs
    · rfl
    · cases updates'.updated.get? pool <;> rfl

/-! ### The transactions of a flush -/

/-- How far a flush got. -/
inductive FlushProgress
  | notStarted
  | epochEnded
  | snapshotTaken
  | epochBegun
deriving DecidableEq, Repr

namespace StateOverlay

variable {ov ov' : StateOverlay} {store flushed : Store}
  {snaps kept written : SortedMap ℕ Store} {updates updates' : PoolsEpochTransitionUpdates}
  {progress : FlushProgress} {ended stored : Store}

/-- The second transaction, with the snapshots. -/
def recordSnapshot (ov : StateOverlay) (ended : Store) (snaps : SortedMap ℕ Store) :
    Store × SortedMap ℕ Store :=
  ((takeSnapshot ended).1, match (takeSnapshot ended).2 with
    | some snapshot => snaps.insert (ov.epoch - 1) snapshot
    | none => snaps)

/-- The third transaction, with the snapshots. -/
def beginRecorded (ov : StateOverlay) (recorded : Store × SortedMap ℕ Store) :
    Except StateError (Store × SortedMap ℕ Store) :=
  (ov.beginEpoch recorded.1).map (·, recorded.2)

/-- The store and the snapshots that the transactions of a flush leave. -/
def flushUntil (ov : StateOverlay) (store : Store) (snaps : SortedMap ℕ Store) :
    FlushProgress → Except StateError (Store × SortedMap ℕ Store)
  | .notStarted => .ok (store, snaps)
  | .epochEnded => (ov.endEpoch store).map (·, snaps)
  | .snapshotTaken => (ov.endEpoch store).map (ov.recordSnapshot · snaps)
  | .epochBegun => ov.endEpoch store >>= fun ended ↦
      ov.beginRecorded (ov.recordSnapshot ended snaps)

/-- The epoch ends once. -/
theorem endEpoch_of_progress (ov : StateOverlay) (h : store.epochTransitionProgress ≠ none) :
    ov.endEpoch store = .ok store :=
  if_neg h

theorem progress_of_endEpoch (h : ov.endEpoch store = .ok ended)
    (hnone : store.epochTransitionProgress = none) :
    ended.epochTransitionProgress = some .epochEnded := by
  rcases exists_of_endEpoch h with ⟨-, _, _, -, rfl⟩ | ⟨hsome, -⟩
  · rfl
  · exact absurd hnone hsome

theorem takeSnapshot_of_endEpoch (h : ov.endEpoch store = .ok ended)
    (hnone : store.epochTransitionProgress = none) : takeSnapshot ended =
      ({ ended with epochTransitionProgress := some .snapshotTaken }, some ended) := by
  rw [takeSnapshot, if_pos (progress_of_endEpoch h hnone)]

/-- **A flush goes on where it stopped**, with an overlay that makes the same updates. The rewards are
not looked at once they are paid. -/
theorem flush_of_flushUntil (hepoch : ov'.epoch = ov.epoch)
    (hpools : ov'.poolsUpdates = ov.poolsUpdates)
    (hgovernance : ov'.governanceUpdates = ov.governanceUpdates)
    (hprogress : progress = .epochEnded ∨ progress = .snapshotTaken)
    (hstored : ov.flushUntil store snaps progress = .ok (stored, kept))
    (hnone : store.epochTransitionProgress = none) :
    ov'.flushUntil stored kept .epochBegun = ov.flushUntil store snaps .epochBegun := by
  have hrecord : ∀ ended snaps,
      ov'.recordSnapshot ended snaps = ov.recordSnapshot ended snaps := by
    intro ended snaps
    rw [recordSnapshot, recordSnapshot, hepoch]
  have hbegin : ov'.beginRecorded = ov.beginRecorded := by
    obtain ⟨epoch', rewards', poolsUpdates', governanceUpdates', treasuryDelta'⟩ := ov'
    subst hepoch hpools hgovernance
    rfl
  rcases hprogress with rfl | rfl <;> obtain ⟨ended, hended, heq⟩ := map_eq_ok_iff.1 hstored
  · cases heq
    have hstage := progress_of_endEpoch hended hnone
    rw [flushUntil, flushUntil, hended, endEpoch_of_progress ov' (by simp [hstage])]
    change ov'.beginRecorded _ = ov.beginRecorded _
    rw [hrecord, hbegin]
  · have htake := takeSnapshot_of_endEpoch hended hnone
    rw [recordSnapshot, htake] at heq
    cases heq
    rw [flushUntil, flushUntil, hended, endEpoch_of_progress ov' (by simp)]
    change ov'.beginRecorded _ = ov.beginRecorded _
    rw [hbegin]
    congr 1
    rw [recordSnapshot, recordSnapshot, htake]
    rfl

theorem applyGovernanceUpdates_withPools (ov : StateOverlay) (store : Store)
    (pools : SortedMap PoolId PoolRow) :
    ov.applyGovernanceUpdates { store with pools } =
      (ov.applyGovernanceUpdates store).map fun store ↦ { store with pools } := by
  rw [applyGovernanceUpdates, applyGovernanceUpdates]
  rcases ov.governanceUpdates with - | updates
  · rfl
  simp only [Store.applyGovernanceUpdates, Store.updateConstitutionalCommittee,
    Store.payOrRefundAccounts, Store.withdrawFromTreasury]
  by_cases hle : updates.treasuryWithdrawals.values.sum ≤ store.pots.treasury +
      (Store.refundAll store.accounts
        (updates.depositRefunds.entries ++ updates.treasuryWithdrawals.entries)).2
  · simp only [hle, if_true]
    rfl
  · simp only [hle, if_false]
    rfl

theorem pools_of_endEpoch (h : ov.endEpoch store = .ok ended) : ended.pools = store.pools := by
  rcases exists_of_endEpoch h with ⟨-, _, _, -, rfl⟩ | ⟨-, rfl⟩ <;> rfl

theorem pots_of_openEpoch {opened : Store} (h : ov.openEpoch store = .ok opened) :
    opened.pots.reserves = store.pots.reserves ∧
      opened.epochTransitionProgress = store.epochTransitionProgress := by
  have hpools : ∀ store, (ov.applyPoolsUpdates store).pots.reserves = store.pots.reserves ∧
      (ov.applyPoolsUpdates store).epochTransitionProgress = store.epochTransitionProgress :=
        fun store ↦ by
    rw [applyPoolsUpdates]
    cases ov.poolsUpdates <;> exact ⟨rfl, rfl⟩
  rw [openEpoch, applyGovernanceUpdates] at h
  split at h
  swap
  · cases h
    exact hpools _
  obtain ⟨withdrawn, hwithdrawn, h⟩ := bind_eq_ok_iff.1 h
  cases h
  rw [withdrawFromTreasury] at hwithdrawn
  split_ifs at hwithdrawn
  cases hwithdrawn
  exact hpools _

/-- A whole flush ends the epoch, takes a snapshot and begins the next. -/
theorem flush_eq_ok_iff (hnone : store.epochTransitionProgress = none) :
    ov.flushUntil store snaps .epochBegun = .ok (flushed, written) ↔
      ∃ ended, ov.endEpoch store = .ok ended ∧
        ov.openEpoch { ended with epochTransitionProgress := none } = .ok flushed ∧
        snaps.insert (ov.epoch - 1) ended = written := by
  refine bind_eq_ok_iff.trans (exists_congr fun ended ↦ and_congr_right fun hended ↦ ?_)
  rw [beginRecorded, recordSnapshot, takeSnapshot_of_endEpoch hended hnone, beginEpoch, if_pos rfl]
  refine map_eq_ok_iff.trans ?_
  simp [mapError_eq_ok_iff]

variable (hupdates : ov.poolsUpdates = some updates) (hretired : updates'.retired = updates.retired)
  (hrefunds : updates'.refunds = updates.refunds)
include hupdates hretired hrefunds

/-- Other updates of the pools, with the same retirements and refunds, make other pools and nothing
else. -/
theorem openEpoch_withPools (store : Store) :
    ({ ov with poolsUpdates := some updates' } : StateOverlay).openEpoch store =
      (ov.openEpoch store).map fun opened ↦ { opened with
        pools := (store.updateOrRetirePools updates'.updated updates'.retired).pools } := by
  rw [openEpoch, openEpoch, ← applyGovernanceUpdates_withPools, applyPoolsUpdates, applyPoolsUpdates,
    hupdates]
  dsimp only
  rw [hretired, hrefunds]
  rfl

variable (hnone : store.epochTransitionProgress = none)
include hnone

theorem flush_withPools
    (h : ov.flushUntil store snaps .epochBegun = .ok (flushed, kept)) :
    ({ ov with poolsUpdates := some updates' } : StateOverlay).flushUntil store snaps
      .epochBegun = .ok ({ flushed with
        pools := (store.updateOrRetirePools updates'.updated updates'.retired).pools }, kept) := by
  obtain ⟨ended, hended, hopen, hkept⟩ := (flush_eq_ok_iff hnone).1 h
  refine (flush_eq_ok_iff hnone).2 ⟨ended, hended, ?_, hkept⟩
  rw [openEpoch_withPools hupdates hretired hrefunds, hopen, updateOrRetirePools,
    updateOrRetirePools, pools_of_endEpoch hended]
  rfl

/-- **A flush that is interrupted and started again**, with an overlay that makes the same updates but
for what becomes of the pools that stay. -/
theorem flush_again (hepoch : ov'.epoch = ov.epoch)
    (hgovernance : ov'.governanceUpdates = ov.governanceUpdates)
    (hupdates' : ov'.poolsUpdates = some updates')
    (hrewards : progress = .notStarted → ov'.rewards = ov.rewards)
    (hprogress : progress ≠ .epochBegun)
    (hstored : ov.flushUntil store snaps progress = .ok (stored, kept))
    (hflush : ov.flushUntil store snaps .epochBegun = .ok (flushed, written)) :
    ov'.flushUntil stored kept .epochBegun = .ok ({ flushed with
      pools := (store.updateOrRetirePools updates'.updated updates'.retired).pools }, written) := by
  rw [← flush_withPools hupdates hretired hrefunds hnone hflush]
  by_cases hstart : progress = .notStarted
  · subst hstart
    cases hstored
    have hrewards := hrewards rfl
    obtain ⟨epoch', rewards', poolsUpdates', governanceUpdates', treasuryDelta'⟩ := ov'
    subst hepoch hrewards hupdates' hgovernance
    rfl
  · -- before the last transaction the pools are not looked at
    have hstored' : ({ ov with poolsUpdates := some updates' } : StateOverlay).flushUntil store
        snaps progress = .ok (stored, kept) := by
      rw [← hstored]
      cases progress with
      | notStarted | epochEnded | snapshotTaken => rfl
      | epochBegun => exact absurd rfl hprogress
    refine flush_of_flushUntil hepoch hupdates' hgovernance ?_ hstored' hnone
    cases progress <;> simp_all

end StateOverlay

namespace State

variable {Body : Type*} {env : Environment Body} {closing nextEpoch : ℕ} {st taken : State}
  {stored drained flushed older stable : Store} {rewards : Rewards}
  {distribution distribution' : StakeDistribution} {ds : List StakeDistribution}
  {kept snaps written : SortedMap ℕ Store} {computed : Option Rewards}
  {effectiveRewards : Option EffectiveRewards} {governanceUpdates : GovernanceUpdates}
  {poolsUpdates : PoolsEpochTransitionUpdates} {last : Store} {latest : ℕ} {st' : State}

theorem writeTransition_eq (st : State) : st.writeTransition =
    (st.volatile.overlay.flushUntil st.stable st.snapshots .epochBegun).map fun written ↦
      { st with
        stable := written.1
        snapshots := written.2
        volatile := st.volatile.applied written.1 } := by
  rw [writeTransition, flushUntil]
  rcases st.volatile.overlay.endEpoch st.stable with error | ended
  · rfl
  · change (st.volatile.overlay.beginEpoch (takeSnapshot ended).1 >>= _) =
      (Except.map _ (st.volatile.overlay.beginEpoch (takeSnapshot ended).1)).map _
    cases st.volatile.overlay.beginEpoch (takeSnapshot ended).1 with
    | error | ok => rfl

/-- What crossing a boundary computes, from what, and what it leaves. -/
structure Crossing (env : Environment Body) (taken : State) (nextEpoch : ℕ)
    (computed : Option Rewards) (poolsUpdates : PoolsEpochTransitionUpdates)
    (effectiveRewards : Option EffectiveRewards) (governanceUpdates : GovernanceUpdates) : Prop where
  poolsUpdates_eq : PoolsEpochTransitionUpdates.new
    ((VolatileView.new taken.volatile).iterPools taken.stable) nextEpoch = .ok poolsUpdates
  effectiveRewards_eq : (taken.volatile.endRewards taken.stable computed).map Prod.snd = .ok effectiveRewards
  governanceUpdates_eq : taken.governanceUpdates env nextEpoch (taken.stable.pots.treasury +
    (effectiveRewards.map (·.deltaTreasuryWithUnclaimed)).getD 0) = .ok governanceUpdates
  draining_eq : taken.volatile.draining = []

/-- The overlay that crossing a boundary leaves. -/
structure LeavesOverlay (ov ov' : StateOverlay) (poolsUpdates : PoolsEpochTransitionUpdates)
    (effectiveRewards : Option EffectiveRewards) (governanceUpdates : GovernanceUpdates) : Prop where
  epoch_eq : ov'.epoch = ov.epoch + 1
  rewards_eq : ov'.rewards = (effectiveRewards.map RewardsState.effective).getD .notReady
  poolsUpdates_eq : ov'.poolsUpdates = some poolsUpdates
  governanceUpdates_eq : ov'.governanceUpdates = some governanceUpdates

theorem exists_of_epochTransition (h : st.epochTransition env nextEpoch = .ok st') :
    ∃ computed taken poolsUpdates effectiveRewards governanceUpdates,
      st.takeRewards = .ok (computed, taken) ∧
      Crossing env taken nextEpoch computed poolsUpdates effectiveRewards governanceUpdates ∧
      LeavesOverlay taken.volatile.overlay st'.volatile.overlay poolsUpdates effectiveRewards
        governanceUpdates := by
  obtain ⟨⟨computed, taken⟩, htaken, h⟩ := bind_eq_ok_iff.1 h
  obtain ⟨poolsUpdates, hpools, h⟩ := bind_eq_ok_iff.1 h
  obtain ⟨⟨unreachable, effectiveRewards⟩, hend, h⟩ := bind_eq_ok_iff.1 h
  obtain ⟨governanceUpdates, hgovernance, h⟩ := bind_eq_ok_iff.1 h
  obtain ⟨volatile, hcross, h⟩ := bind_eq_ok_iff.1 h
  cases h
  obtain ⟨⟨unreachable', effectiveRewards'⟩, hend', hcross⟩ := bind_eq_ok_iff.1 hcross
  obtain ⟨rfl, rfl⟩ := Prod.mk.inj (ok.inj (hend.symm.trans hend'))
  change taken.volatile.transition effectiveRewards _ _ _ _ = _ at hcross
  rw [VolatileDB.transition] at hcross
  split_ifs at hcross with hdraining
  cases hcross
  exact ⟨computed, taken, poolsUpdates, effectiveRewards, governanceUpdates, htaken,
    ⟨mapError_eq_ok_iff.1 hpools, by rw [hend]; rfl, hgovernance, hdraining⟩,
    ⟨rfl, rfl, rfl, rfl⟩⟩

theorem Crossing.exists_epochTransition (htaken : st.takeRewards = .ok (computed, taken))
    (h : Crossing env taken nextEpoch computed poolsUpdates effectiveRewards governanceUpdates) :
    ∃ st', st.epochTransition env nextEpoch = .ok st' ∧ st'.stable = taken.stable ∧
      st'.snapshots = taken.snapshots ∧
      LeavesOverlay taken.volatile.overlay st'.volatile.overlay poolsUpdates effectiveRewards
        governanceUpdates := by
  obtain ⟨⟨unreachable, effective⟩, hend, rfl⟩ := map_eq_ok_iff.1 h.effectiveRewards_eq
  obtain ⟨volatile, hvolatile, hoverlay⟩ : ∃ volatile,
      taken.volatile.transition effective poolsUpdates governanceUpdates
        (taken.stable.pots.donations + taken.volatile.resolveDonations)
        (fun account ↦ decide (account ∉ unreachable)) = .ok volatile ∧
      LeavesOverlay taken.volatile.overlay volatile.overlay poolsUpdates effective governanceUpdates :=
    ⟨_, if_pos h.draining_eq, ⟨rfl, rfl, rfl, rfl⟩⟩
  refine ⟨{ taken with volatile }, ?_, rfl, rfl, hoverlay⟩
  refine bind_eq_ok_iff.2 ⟨_, htaken, bind_eq_ok_iff.2
    ⟨_, mapError_eq_ok_iff.2 h.poolsUpdates_eq, bind_eq_ok_iff.2 ⟨_, hend,
      bind_eq_ok_iff.2 ⟨_, h.governanceUpdates_eq, bind_eq_ok_iff.2 ⟨volatile, ?_, rfl⟩⟩⟩⟩⟩
  exact bind_eq_ok_iff.2 ⟨_, hend, hvolatile⟩

theorem Crossing.view_eq (htaken : st.takeRewards = .ok (computed, taken))
    (h : Crossing env taken nextEpoch computed poolsUpdates effectiveRewards governanceUpdates) :
    VolatileView.new taken.volatile = ofSeries st.volatile.current := by
  obtain ⟨-, -, _, hvolatile⟩ := exists_of_takeRewards htaken
  rw [VolatileView.new, h.draining_eq, nil_append, hvolatile]

/-- Start again, and cross the boundary with the next block. A boundary that is pending then is
written. -/
def resume (env : Environment Body) (stable : Store) (snaps : SortedMap ℕ Store)
    (block : Block Body) : Except StateError State := do
  let fresh ← new env stable snaps
  let crossed ← fresh.prepare env block
  if crossed.volatile.overlay.isEmpty then .ok crossed else crossed.writeTransition

/-! ### Starting again -/

/-- A node that has just started. -/
def started (stable : Store) (snaps : SortedMap ℕ Store) (epoch : ℕ)
    (stakeDistributions : List StakeDistribution) : State where
  stable := stable
  snapshots := snaps
  stakeDistributions := stakeDistributions
  volatile := .new epoch stable.protocolParameters stable.governanceActivity
    stable.constitution.guardrailScript
  rewardsJoinHandle := none

theorem new_eq_started
    (hversion : stable.protocolParameters.protocolVersion.isOlder .minimumSupported = false)
    (hepoch : initialEpoch env stable snaps = .ok epoch)
    (hlatest : mostRecentSnapshot snaps = .ok (latest + 1))
    (hlast : snaps.get? (latest + 1) = some last) (holder : snaps.get? latest = some older)
    (hdistribution : env.computeStakeDistribution (latest + 1) last = .ok distribution)
    (hdistribution' : env.computeStakeDistribution latest older = .ok distribution') :
    new env stable snaps = .ok (started stable snaps epoch [distribution, distribution']) := by
  have hdistributions : initialStakeDistributions env snaps = .ok [distribution, distribution'] := by
    refine bind_eq_ok_iff.2 ⟨latest + 1, hlatest, ?_⟩
    rw [if_neg (Nat.succ_ne_zero latest), Nat.add_sub_cancel, mapM_cons, mapM_cons, mapM_nil]
    have hfirst : snapshotFor snaps (latest + 1) = .ok last := by rw [snapshotFor, hlast]
    have hsecond : snapshotFor snaps latest = .ok older := by rw [snapshotFor, holder]
    exact bind_eq_ok_iff.2 ⟨distribution,
      bind_eq_ok_iff.2 ⟨last, hfirst, hdistribution⟩, bind_eq_ok_iff.2
        ⟨[distribution'], bind_eq_ok_iff.2 ⟨distribution',
          bind_eq_ok_iff.2 ⟨older, hsecond, hdistribution'⟩, rfl⟩, rfl⟩⟩
  rw [new, hversion, hepoch, hdistributions]
  rfl

/-- A node that starts with the boundary before written computes the rewards again. -/
theorem takes_rewards_again {previous : Store} (hepoch : env.epochOf stable.tip.slotOrDefault = .ok closing)
    (hrecent : mostRecentSnapshot snaps = .ok (closing - 1)) (hclosing : 3 ≤ closing)
    (hdue : env.stabilityWindow ≤ env.eraHistory.slotInEpochOrDefault stable.tip.slotOrDefault)
    (hprevious : snaps.get? (closing - 1) = some previous)
    (holder : snaps.get? (closing - 3) = some older)
    (hdistribution : closing - 1 ≤ distribution.epoch)
    (hrewards : env.computeRewards previous older closing stable.protocolParameters = .ok rewards) :
    ∃ waiting, (started stable snaps closing (distribution :: ds)).tryComputeRewards env
        = .ok waiting ∧ waiting.volatile.epoch = closing ∧
      waiting.takeRewards = .ok (some rewards,
        started stable snaps closing (distribution :: ds)) := by
  have hbefore : ∀ back store, back ≤ closing → snaps.get? (closing - back) = some store →
      snapshotBefore snaps closing back = .ok store := by
    intro back store hback hstore
    rw [snapshotBefore, if_neg (not_lt.2 hback), snapshotFor, hstore]
  have hare : (started stable snaps closing (distribution :: ds)).rewardsAreDue env
      closing = .ok true := by
    change (mostRecentSnapshot snaps).map _ = _
    rw [hrecent]
    have hnext : closing - 1 + 1 = closing := by omega
    change ok (decide (closing - 1 + 1 = closing) && decide (env.stabilityWindow ≤
      env.eraHistory.slotInEpochOrDefault stable.tip.slotOrDefault)) = _
    rw [decide_eq_true hnext, decide_eq_true hdue]
    rfl
  have htasks : (started stable snaps closing (distribution :: ds)).backgroundTasks env
      closing previous older = .ok (none, rewards) := by
    have hhead : (started stable snaps closing (distribution :: ds)
        ).stakeDistributions.head?.any (closing - 1 ≤ ·.epoch) = true := by
      simpa [started] using hdistribution
    rw [backgroundTasks, if_pos hhead]
    exact bind_eq_ok_iff.2 ⟨none, rfl, bind_eq_ok_iff.2 ⟨rewards, hrewards, rfl⟩⟩
  refine ⟨{ started stable snaps closing (distribution :: ds) with
    rewardsJoinHandle := some (.ok (none, rewards)) }, ?_, rfl, rfl⟩
  refine bind_eq_ok_iff.2 ⟨closing, hepoch, bind_eq_ok_iff.2 ⟨true, hare, ?_⟩⟩
  refine bind_eq_ok_iff.2 ⟨previous, hbefore 1 previous (by omega) hprevious,
    bind_eq_ok_iff.2 ⟨older, hbefore 3 older hclosing holder, ?_⟩⟩
  rw [htasks]
  rfl

/-- A node that starts after the snapshot was taken does not. -/
theorem takes_no_rewards (hepoch : env.epochOf stable.tip.slotOrDefault = .ok closing)
    (hrecent : mostRecentSnapshot snaps = .ok closing) :
    (started stable snaps epoch ds).tryComputeRewards env =
        .ok (started stable snaps epoch ds) ∧
      (started stable snaps epoch ds).takeRewards =
        .ok (none, started stable snaps epoch ds) := by
  refine ⟨bind_eq_ok_iff.2 ⟨closing, hepoch, bind_eq_ok_iff.2 ⟨false, ?_, rfl⟩⟩, rfl⟩
  change (mostRecentSnapshot snaps).map _ = _
  rw [hrecent]
  change ok (decide (closing + 1 = closing) && _) = _
  rw [decide_eq_false (succ_ne_self closing)]
  rfl

variable {block : Block Body} {ended : Store} {paid : ℕ} {progress : FlushProgress} {waiting pending : State}

/-- How a node starts again: with which epoch, which stake distribution and which rewards. -/
structure StartsAgain (env : Environment Body) (closing : ℕ) (stored : Store)
    (kept : SortedMap ℕ Store) (computed : Option Rewards) (ds : List StakeDistribution)
    (waiting : State) : Prop where
  new_eq : new env stored kept = .ok (started stored kept closing ds)
  compute_eq : (started stored kept closing ds).tryComputeRewards env = .ok waiting
  epoch_eq : waiting.volatile.epoch = closing
  take_eq : waiting.takeRewards = .ok (computed, started stored kept closing ds)
  distribution_eq : ∀ previous, kept.get? (closing - 1) = some previous →
    (started stored kept closing ds).stakeDistribution (closing - 1) =
      env.computeStakeDistribution (closing - 1) previous

/-- **What starting again comes to**: the boundary is crossed with what is computed from the store, and
then written. -/
theorem StartsAgain.exists_resume
    (hagain : StartsAgain env closing stored kept computed ds waiting)
    (hblock : env.epochOf block.slot = .ok (closing + 1))
    (hcrossing : Crossing env (started stored kept closing ds) (closing + 1) computed
      poolsUpdates effectiveRewards governanceUpdates) :
    ∃ ov, LeavesOverlay { epoch := closing } ov poolsUpdates effectiveRewards governanceUpdates ∧
      ∀ flushed snaps, ov.flushUntil stored kept .epochBegun = .ok (flushed, snaps) →
        ∃ resumed, resume env stored kept block = .ok resumed ∧ resumed.stable = flushed ∧
          resumed.snapshots = snaps := by
  obtain ⟨crossed, hcrossed, hstable, hsnapshots, hoverlay⟩ := hcrossing.exists_epochTransition hagain.take_eq
  refine ⟨crossed.volatile.overlay, hoverlay, fun flushed snaps hflush ↦ ?_⟩
  have hprepare : (started stored kept closing ds).prepare env block = .ok crossed := by
    refine bind_eq_ok_iff.2 ⟨waiting, hagain.compute_eq, bind_eq_ok_iff.2 ⟨closing + 1, hblock, ?_⟩⟩
    rw [if_pos (by rw [hagain.epoch_eq]; exact lt_succ_self closing)]
    exact hcrossed
  have hpending : crossed.volatile.overlay.isEmpty = false := by
    rw [isEmpty, hoverlay.poolsUpdates_eq]
    simp
  refine ⟨{ crossed with
    stable := flushed
    snapshots := snaps
    volatile := crossed.volatile.applied flushed },
    bind_eq_ok_iff.2 ⟨_, hagain.new_eq, bind_eq_ok_iff.2 ⟨crossed, hprepare, ?_⟩⟩, rfl, rfl⟩
  rw [hpending, if_neg Bool.false_ne_true, writeTransition_eq, hstable, hsnapshots]
  exact map_eq_ok_iff.2 ⟨_, hflush, rfl⟩

/-! ### The same boundary again -/

/-- The ledger at the end of an epoch, about to cross the boundary with the rewards it computed: its
blocks are those of the closing epoch, the boundary before is written, and it holds what it computed
from the snapshots. -/
structure Closing (env : Environment Body) (st : State) (closing : ℕ) (rewards : Rewards) : Prop where
  epoch_eq : st.volatile.epoch = closing
  progress_eq : st.stable.epochTransitionProgress = none
  parameters_eq : st.volatile.protocolParameters = st.stable.protocolParameters
  newer : Store.Newer st.stable.tip st.volatile.current
  namesPools : ∀ block ∈ st.volatile.current, block.fragment.NamesPools
  poolsNamed : Store.PoolsNamed st.stable.pools
  recentlyUnregisteredGone : st.stable.RecentlyUnregisteredGone
  three_le : 3 ≤ closing
  recent_eq : mostRecentSnapshot st.snapshots = .ok (closing - 1)
  exists_snapshot : ∀ back, 1 ≤ back → back ≤ 3 → ∃ s, st.snapshots.get? (closing - back) = some s
  taken : ∃ taken, st.takeRewards = .ok (some rewards, taken) ∧
    ∀ previous, st.snapshots.get? (closing - 1) = some previous →
      taken.stakeDistribution (closing - 1) = env.computeStakeDistribution (closing - 1) previous
  rewards_eq : ∀ previous older, st.snapshots.get? (closing - 1) = some previous →
    st.snapshots.get? (closing - 3) = some older →
    env.computeRewards previous older closing st.stable.protocolParameters = .ok rewards

/-- What a store in the middle of a flush has of the one before: all that crossing the boundary looks
at, with the rewards in the treasury once they are paid. -/
structure MidFlush (drained stored : Store) (paid : ℕ) : Prop where
  tip_eq : stored.tip = drained.tip
  pools_eq : stored.pools = drained.pools
  proposals_eq : stored.proposals = drained.proposals
  proposalsRoots_eq : stored.proposalsRoots = drained.proposalsRoots
  protocolParameters_eq : stored.protocolParameters = drained.protocolParameters
  treasury_eq : stored.pots.treasury = drained.pots.treasury + paid

theorem midFlush_of_endEpoch {ov : StateOverlay} {effective : EffectiveRewards}
    (hrewards : ov.rewards = .effective effective) (hnone : drained.epochTransitionProgress = none)
    (h : ov.endEpoch drained = .ok ended) :
    MidFlush drained ended effective.deltaTreasuryWithUnclaimed := by
  rcases exists_of_endEpoch h with ⟨-, _, _, heffective, rfl⟩ | ⟨hsome, -⟩
  · cases hrewards.symm.trans heffective
    exact ⟨rfl, rfl, rfl, rfl, rfl, rfl⟩
  · exact absurd hnone hsome

/-- What starting again needs: the last block of the epoch is late enough for the rewards to be due,
the next block is in the next epoch, the versions of the protocol are supported, and stake distributions
can be computed. -/
structure Restartable (env : Environment Body) (closing : ℕ) (drained flushed : Store)
    (block : Block Body) : Prop where
  tip_eq : env.epochOf drained.tip.slotOrDefault = .ok closing
  due : env.stabilityWindow ≤ env.eraHistory.slotInEpochOrDefault drained.tip.slotOrDefault
  block_eq : env.epochOf block.slot = .ok (closing + 1)
  supported : drained.protocolParameters.protocolVersion.isOlder .minimumSupported = false
  supported' : flushed.protocolParameters.protocolVersion.isOlder .minimumSupported = false
  exists_distribution : ∀ epoch snapshot, ∃ distribution : StakeDistribution,
    env.computeStakeDistribution epoch snapshot = .ok distribution ∧ distribution.epoch = epoch

section

variable {taken : State}
  {pp : ProtocolParameters} {activity : GovernanceActivity}
  {effective effective' : Option EffectiveRewards}
  {updates : PoolsEpochTransitionUpdates}

theorem mostRecentSnapshot_insert {ended : Store}
    (hrecent : mostRecentSnapshot snaps = .ok (closing - 1)) :
    mostRecentSnapshot (snaps.insert closing ended) = .ok closing := by
  have hlast : snaps.keys.getLast? = some (closing - 1) := by
    rw [mostRecentSnapshot] at hrecent
    split at hrecent
    · next epoch hepoch => rw [hepoch, ok.inj hrecent]
    · cases hrecent
  have hinsert : (snaps.insert closing ended).keys.getLast? = some closing := by
    refine getLast?_keys_eq_some_iff.2 ⟨?_, fun epoch hepoch ↦ ?_⟩
    · rw [mem_keys_iff, get?_insert_self]
      rfl
    · by_contra hlt
      rw [mem_keys_iff, get?_insert_of_ne _ _ (by omega), ← mem_keys_iff] at hepoch
      have := (getLast?_keys_eq_some_iff.1 hlast).2 epoch hepoch
      omega
  rw [mostRecentSnapshot, hinsert]

variable (hclosing : Closing env st closing rewards)
  (htaken : st.takeRewards = .ok (some rewards, taken))
  (hdistribution : ∀ previous, st.snapshots.get? (closing - 1) = some previous →
    taken.stakeDistribution (closing - 1) = env.computeStakeDistribution (closing - 1) previous)
  (hdrained : st.stable.applyBlocks env.eraHistory pp activity st.volatile.current = .ok drained)
  (hcrossing : Crossing env taken (closing + 1) (some rewards) updates effective governanceUpdates)
  (hmid : MidFlush drained stored paid)
  (hkept : kept.get? (closing - 1) = st.snapshots.get? (closing - 1))
  (heffective : ((started stored kept closing ds).volatile.endRewards stored computed).map
    Prod.snd = .ok effective')
  (hpaid : paid + (effective'.map (·.deltaTreasuryWithUnclaimed)).getD 0 =
    (effective.map (·.deltaTreasuryWithUnclaimed)).getD 0)
include hclosing htaken hdistribution hdrained hcrossing hmid hkept heffective hpaid

/-- Crossing the boundary again, from a store that has the blocks of the epoch and maybe its
rewards. -/
theorem Closing.crossing_again
    (hdistribution' : ∀ previous, st.snapshots.get? (closing - 1) = some previous →
      (started stored kept closing ds).stakeDistribution (closing - 1) =
      env.computeStakeDistribution (closing - 1) previous) :
    ∃ updates', PoolsEpochTransitionUpdates.new drained.pools (closing + 1) = .ok updates' ∧
      updates'.retired = updates.retired ∧ updates'.refunds = updates.refunds ∧
      Crossing env (started stored kept closing ds) (closing + 1) computed updates'
        effective' governanceUpdates := by
  obtain ⟨hstable, hsnapshots, pending, hvolatile⟩ := exists_of_takeRewards htaken
  have hnothing : VolatileView.new (started stored kept closing ds).volatile = {} := rfl
  obtain ⟨hroots, hparameters, -⟩ := kept_of_applyBlocks hclosing.newer hdrained
  obtain ⟨htreasury, -⟩ := pots_of_applyBlocks hclosing.newer hdrained
  have hpools := hcrossing.poolsUpdates_eq
  rw [hcrossing.view_eq htaken, hstable] at hpools
  obtain ⟨herror, hagree⟩ := agree_of_alike
    (hclosing.poolsNamed.applyBlocks hclosing.newer hclosing.namesPools hdrained)
    (alike_iterPools hclosing.newer hclosing.namesPools hdrained) (closing + 1)
  rcases hpools' : PoolsEpochTransitionUpdates.new drained.pools (closing + 1) with error | updates'
  · rw [← herror, hpools] at hpools'
    cases hpools'
  obtain ⟨hretired, hrefunds, -⟩ := hagree updates updates' hpools hpools'
  refine ⟨updates', rfl, hretired.symm, hrefunds.symm, ?_, heffective, ?_, rfl⟩
  · rw [hnothing, iterPools_empty]
    change PoolsEpochTransitionUpdates.new stored.pools (closing + 1) = _
    rw [hmid.pools_eq, hpools']
  · -- governance looks at the snapshots, the proposals, the parameters and the treasury
    obtain ⟨previous, hprevious⟩ := hclosing.exists_snapshot 1 (by omega) (by omega)
    have hback : closing + 1 - 2 = closing - 1 := by omega
    have hsnapshot : snapshotBefore kept (closing + 1) 2 =
        snapshotBefore taken.snapshots (closing + 1) 2 := by
      rw [hsnapshots, snapshotBefore, snapshotBefore, snapshotFor, snapshotFor, hback, hkept]
    have hproposals : (VolatileView.new (started stored kept closing ds).volatile).iterProposals
        stored = (VolatileView.new taken.volatile).iterProposals taken.stable := by
      rw [hnothing, show ({} : VolatileView).iterProposals _ = _ from ext_get? fun _ ↦ rfl,
        hcrossing.view_eq htaken, hstable, iterProposals_eq hclosing.newer hdrained]
      exact hmid.proposals_eq
    have hpast : stored.protocolParameters = taken.volatile.protocolParameters := by
      rw [hmid.protocolParameters_eq, hparameters, hvolatile]
      exact hclosing.parameters_eq.symm
    have htotal : stored.pots.treasury + (effective'.map (·.deltaTreasuryWithUnclaimed)).getD 0 =
        taken.stable.pots.treasury + (effective.map (·.deltaTreasuryWithUnclaimed)).getD 0 := by
      rw [hmid.treasury_eq, htreasury, hstable, add_assoc, hpaid]
    rw [← hcrossing.governanceUpdates_eq, State.governanceUpdates, State.governanceUpdates, hback,
      hdistribution previous hprevious, hdistribution' previous hprevious]
    dsimp only [started] at hproposals ⊢
    rw [hsnapshot, hproposals, htotal, hmid.proposalsRoots_eq, hroots, hstable]
    exact hpast ▸ rfl

/-- Starting again before the last transaction of the flush. -/
theorem Closing.resumes (hblock : env.epochOf block.slot = .ok (closing + 1))
    (hoverlay : LeavesOverlay taken.volatile.overlay pending.volatile.overlay updates effective
      governanceUpdates) (hprogress : progress ≠ .epochBegun)
    (hstored : pending.volatile.overlay.flushUntil drained st.snapshots progress = .ok (stored, kept))
    (hflush : pending.volatile.overlay.flushUntil drained st.snapshots .epochBegun = .ok (flushed, written))
    (hagain : StartsAgain env closing stored kept computed ds waiting)
    (hsame : progress = .notStarted → effective' = effective) :
    ∃ resumed, resume env stored kept block = .ok resumed ∧ resumed.snapshots = written ∧
      flushed.Alike (DisplacedInOne (closing + 1)
        ((ofSeries st.volatile.current).iterPools st.stable) drained.pools)
        resumed.stable := by
  obtain ⟨updates', hupdates', hretired, hrefunds, hcrossing'⟩ :=
    hclosing.crossing_again htaken hdistribution hdrained hcrossing hmid hkept heffective hpaid
      (hkept ▸ hagain.distribution_eq)
  obtain ⟨hstable, -, _, hvolatile⟩ := exists_of_takeRewards htaken
  have htakenEpoch : taken.volatile.overlay.epoch = closing := by
    rw [hvolatile]
    exact hclosing.epoch_eq
  have hnone : drained.epochTransitionProgress = none :=
    (kept_of_applyBlocks hclosing.newer hdrained).2.2 hclosing.progress_eq
  obtain ⟨ov, hoverlay', hresume⟩ := hagain.exists_resume hblock hcrossing'
  have hwritten := flush_again hoverlay.poolsUpdates_eq hretired hrefunds hnone
    (by rw [hoverlay'.epoch_eq, hoverlay.epoch_eq, htakenEpoch])
    (by rw [hoverlay'.governanceUpdates_eq, hoverlay.governanceUpdates_eq]) hoverlay'.poolsUpdates_eq
    (fun hstart ↦ by rw [hoverlay'.rewards_eq, hoverlay.rewards_eq, hsame hstart]) hprogress hstored hflush
  obtain ⟨resumed, hresumed, hstable', hsnapshots⟩ := hresume _ _ hwritten
  refine ⟨resumed, hresumed, hsnapshots, ?_, fun pool hpool ↦ ?_⟩
  · rw [hstable']
  · have hupdates := hcrossing.poolsUpdates_eq
    rw [hcrossing.view_eq htaken, hstable] at hupdates
    have hsame := flush_withPools hoverlay.poolsUpdates_eq rfl rfl hnone hflush
    rw [← hoverlay.poolsUpdates_eq, hflush] at hsame
    rw [hstable', congrArg (fun written ↦ written.1.pools) (ok.inj hsame)]
    exact alike_updateOrRetirePools
      (hclosing.poolsNamed.applyBlocks hclosing.newer hclosing.namesPools hdrained)
      (alike_iterPools hclosing.newer hclosing.namesPools hdrained) hupdates hupdates' hpool

end

theorem initialEpoch_eq (htip : env.epochOf stored.tip.slotOrDefault = .ok closing)
    (hrecent : mostRecentSnapshot kept = .ok latest) :
    initialEpoch env stored kept =
      .ok (if stored.epochTransitionProgress = none ∧ latest = closing then closing + 1 else closing) := by
  refine Except.bind_eq_ok_iff.2 ⟨closing, htip, ?_⟩
  rcases stored.epochTransitionProgress with - | progress
  · rw [hrecent]
    by_cases hlatest : latest = closing <;> simp [hlatest, Except.map]
  · simp

/-- Starting again once everything is written leaves nothing to do. -/
theorem resume_written (htip : env.epochOf flushed.tip.slotOrDefault = .ok closing)
    (hnone : flushed.epochTransitionProgress = none)
    (hversion : flushed.protocolParameters.protocolVersion.isOlder .minimumSupported = false)
    (hblock : env.epochOf block.slot = .ok (closing + 1)) (hclosing : 3 ≤ closing)
    (hrecent : mostRecentSnapshot written = .ok closing) (hlast : written.get? closing = some last)
    (holder : written.get? (closing - 1) = some older)
    (hdistribution : env.computeStakeDistribution closing last = .ok distribution)
    (hdistribution' : env.computeStakeDistribution (closing - 1) older = .ok distribution') :
    ∃ resumed, resume env flushed written block = .ok resumed ∧ resumed.snapshots = written ∧
      resumed.stable = flushed := by
  have hepoch := initialEpoch_eq htip hrecent
  rw [if_pos ⟨hnone, rfl⟩] at hepoch
  obtain ⟨latest, rfl⟩ : ∃ latest, closing = latest + 1 := ⟨closing - 1, by omega⟩
  have hnew := new_eq_started hversion hepoch hrecent hlast holder hdistribution hdistribution'
  obtain ⟨hcompute, -⟩ := takes_no_rewards htip hrecent
  refine ⟨started flushed written (latest + 1 + 1) [distribution, distribution'],
    bind_eq_ok_iff.2 ⟨_, hnew, bind_eq_ok_iff.2
      ⟨started flushed written (latest + 1 + 1) [distribution, distribution'], ?_, rfl⟩⟩, rfl, rfl⟩
  refine bind_eq_ok_iff.2 ⟨_, hcompute, bind_eq_ok_iff.2 ⟨_, hblock, ?_⟩⟩
  exact if_neg (lt_irrefl _)

/-- In the middle of a flush a node starts with the two most recent snapshots, of which one is that of
the epoch before. -/
theorem Restartable.exists_new
    (hrestart : Restartable env closing drained flushed block) (hmid : MidFlush drained stored paid)
    (hrecent : mostRecentSnapshot kept = .ok (latest + 1)) (hlast : kept.get? (latest + 1) = some last)
    (holder : kept.get? latest = some older)
    (hpending : stored.epochTransitionProgress = none → latest + 1 ≠ closing)
    (hback : closing - 1 = latest + 1 ∨ closing - 1 = latest) :
    ∃ distribution distribution', distribution.epoch = latest + 1 ∧
      new env stored kept = .ok (started stored kept closing [distribution, distribution']) ∧
      ∀ previous, kept.get? (closing - 1) = some previous →
        (started stored kept closing [distribution, distribution']).stakeDistribution (closing - 1) =
          env.computeStakeDistribution (closing - 1) previous := by
  obtain ⟨distribution, hdistribution, hepoch⟩ := hrestart.exists_distribution (latest + 1) last
  obtain ⟨distribution', hdistribution', hepoch'⟩ := hrestart.exists_distribution latest older
  have hinitial := initialEpoch_eq (hmid.tip_eq ▸ hrestart.tip_eq) hrecent
  rw [if_neg fun h ↦ hpending h.1 h.2] at hinitial
  refine ⟨distribution, distribution', hepoch, new_eq_started ?_ hinitial hrecent hlast holder hdistribution
    hdistribution', fun previous hprevious ↦ ?_⟩
  · rw [hmid.protocolParameters_eq, hrestart.supported]
  · rw [stakeDistribution]
    dsimp only [started]
    rcases hback with hback | hback <;> rw [hback] at hprevious ⊢
    · rw [find?_cons_of_pos (by simpa using hepoch)]
      cases hlast.symm.trans hprevious
      exact hdistribution.symm
    · rw [find?_cons_of_neg (by simp; omega), find?_cons_of_pos (by simpa using hepoch')]
      cases holder.symm.trans hprevious
      exact hdistribution'.symm

section

variable (hclosing : Closing env st closing rewards)
  (hrestart : Restartable env closing drained flushed block) (hmid : MidFlush drained stored paid)
include hclosing hrestart hmid

/-- Before the snapshot is taken, the rewards are computed again. -/
theorem Closing.startsAgain_before
    (hparameters : drained.protocolParameters = st.stable.protocolParameters) :
    ∃ ds waiting,
      StartsAgain env closing stored st.snapshots (some rewards) ds waiting := by
  have hthree := hclosing.three_le
  obtain ⟨latest, rfl⟩ : ∃ latest, closing = latest + 2 := ⟨closing - 2, by omega⟩
  obtain ⟨previous, hprevious⟩ := hclosing.exists_snapshot 1 (by omega) (by omega)
  obtain ⟨second, hsecond⟩ := hclosing.exists_snapshot 2 (by omega) (by omega)
  obtain ⟨third, hthird⟩ := hclosing.exists_snapshot 3 (by omega) (by omega)
  obtain ⟨_, _, hepoch, hnew, hlookup⟩ := hrestart.exists_new hmid hclosing.recent_eq hprevious hsecond
    (by omega) (.inl rfl)
  have hrewards : env.computeRewards previous third (latest + 2) stored.protocolParameters = .ok rewards := by
    rw [hmid.protocolParameters_eq, hparameters, hclosing.rewards_eq _ _ hprevious hthird]
  obtain ⟨waiting, hcompute, hwaiting, htake⟩ := takes_rewards_again (hmid.tip_eq ▸ hrestart.tip_eq)
    hclosing.recent_eq hthree (hmid.tip_eq ▸ hrestart.due) hprevious hthird hepoch.ge hrewards
  exact ⟨_, waiting, hnew, hcompute, hwaiting, htake, hlookup⟩

/-- After the snapshot is taken, they are not. -/
theorem Closing.startsAgain_after (hprogress : stored.epochTransitionProgress ≠ none) :
    ∃ ds waiting,
      StartsAgain env closing stored (st.snapshots.insert closing ended) none ds
        waiting := by
  have hthree := hclosing.three_le
  obtain ⟨latest, rfl⟩ : ∃ latest, closing = latest + 1 := ⟨closing - 1, by omega⟩
  obtain ⟨previous, hprevious⟩ := hclosing.exists_snapshot 1 (by omega) (by omega)
  have hrecent : mostRecentSnapshot (st.snapshots.insert (latest + 1) ended) = .ok (latest + 1) :=
    mostRecentSnapshot_insert hclosing.recent_eq
  have hkept : (st.snapshots.insert (latest + 1) ended).get? latest = some previous := by
    rw [get?_insert_of_ne _ _ (by omega)]
    exact hprevious
  obtain ⟨_, _, -, hnew, hlookup⟩ := hrestart.exists_new hmid hrecent (get?_insert_self _ _ _)
    hkept (fun h ↦ absurd h hprogress) (.inr rfl)
  obtain ⟨hcompute, htake⟩ := takes_no_rewards (hmid.tip_eq ▸ hrestart.tip_eq) hrecent
  exact ⟨_, _, hnew, hcompute, rfl, htake, hlookup⟩

end

/-- **A flush that is interrupted and started again leaves what it would have left**, at whichever
transaction it was interrupted. Rewards, fees, donations, refunds and withdrawals are moved once, and
there is one snapshot. Of the pools that stay, certificates that are replaced may differ. -/
theorem flush_resumes {pending : State} {pp : ProtocolParameters}
    {activity : GovernanceActivity} {progress : FlushProgress}
    (hclosing : Closing env st closing rewards)
    (hcross : st.epochTransition env (closing + 1) = .ok pending)
    (hdrained : st.stable.applyBlocks env.eraHistory pp activity st.volatile.current = .ok drained)
    (hflush : pending.volatile.overlay.flushUntil drained st.snapshots .epochBegun = .ok (flushed, written))
    (hrestart : Restartable env closing drained flushed block)
    (hstored : pending.volatile.overlay.flushUntil drained st.snapshots progress = .ok (stored, kept)) :
    ∃ resumed, resume env stored kept block = .ok resumed ∧ resumed.snapshots = written ∧
      flushed.Alike (DisplacedInOne (closing + 1)
        ((ofSeries st.volatile.current).iterPools st.stable) drained.pools)
        resumed.stable := by
  obtain ⟨taken, htaken, hdistribution⟩ := hclosing.taken
  obtain ⟨computed, taken', updates, effective, governance, htaken', hcrossing, hoverlay⟩ :=
    exists_of_epochTransition hcross
  obtain ⟨rfl, rfl⟩ := Prod.mk.inj (ok.inj (htaken'.symm.trans htaken))
  obtain ⟨hstable, -, _, hvolatile⟩ := exists_of_takeRewards htaken
  have hnone : drained.epochTransitionProgress = none :=
    (kept_of_applyBlocks hclosing.newer hdrained).2.2 hclosing.progress_eq
  have hoverlayEpoch : pending.volatile.overlay.epoch = closing + 1 := by
    rw [hoverlay.epoch_eq, hvolatile]
    exact congrArg (· + 1) hclosing.epoch_eq
  obtain ⟨paid, hpaid, hrewards, hagain⟩ : ∃ paid, effective = some paid ∧
      pending.volatile.overlay.rewards = .effective paid ∧
      ∀ ds, (((started drained st.snapshots closing ds).volatile.endRewards
        drained (some rewards)).map Prod.snd) = .ok effective := by
    have heffective := hcrossing.effectiveRewards_eq
    rw [hstable] at heffective
    simp only [endRewards, hclosing.progress_eq] at heffective
    obtain rfl := ok.inj heffective
    refine ⟨_, rfl, by rw [hoverlay.rewards_eq]; rfl, fun ds ↦ ?_⟩
    simp only [endRewards, hnone]
    change ok (some _) = _
    congr 3
    refine ext_get? fun cred ↦ ext fun _ ↦ ?_
    rw [← mem_iff, ← mem_iff, Rewards.mem_unclaimedRewards, Rewards.mem_unclaimedRewards,
      mem_iterUnreachableAccounts_drained hclosing.newer hdrained (hcrossing.view_eq htaken) rfl
        hclosing.recentlyUnregisteredGone]
  have hparameters := (kept_of_applyBlocks hclosing.newer hdrained).2.1
  cases progress with
  | notStarted =>
    obtain ⟨rfl, rfl⟩ := Prod.mk.inj (ok.inj hstored)
    have hmid : MidFlush drained drained 0 := ⟨rfl, rfl, rfl, rfl, rfl, rfl⟩
    obtain ⟨ds, waiting, hstart⟩ := hclosing.startsAgain_before hrestart hmid hparameters
    exact hclosing.resumes htaken hdistribution hdrained hcrossing hmid rfl (hagain ds)
      (Nat.zero_add _) hrestart.block_eq hoverlay (by simp) hstored hflush hstart (fun _ ↦ rfl)
  | epochEnded =>
    obtain ⟨ended, hended, heq⟩ := map_eq_ok_iff.1 hstored
    cases heq
    have hmid := midFlush_of_endEpoch hrewards hnone hended
    have hprogress := progress_of_endEpoch hended hnone
    obtain ⟨ds, waiting, hstart⟩ := hclosing.startsAgain_before hrestart hmid hparameters
    -- the rewards are computed again, and not looked at
    exact hclosing.resumes htaken hdistribution hdrained hcrossing hmid rfl
      (by simp only [endRewards, hprogress]; rfl) (by rw [hpaid]; rfl) hrestart.block_eq hoverlay
      (by simp) hstored hflush hstart (fun h ↦ by cases h)
  | snapshotTaken =>
    obtain ⟨ended, hended, heq⟩ := map_eq_ok_iff.1 hstored
    have hmid := midFlush_of_endEpoch hrewards hnone hended
    rw [recordSnapshot, takeSnapshot_of_endEpoch hended hnone, hoverlayEpoch, Nat.add_sub_cancel] at heq
    cases heq
    have hmid' : MidFlush drained { ended with epochTransitionProgress := some .snapshotTaken }
        paid.deltaTreasuryWithUnclaimed := { hmid with }
    obtain ⟨ds, waiting, hstart⟩ :=
      hclosing.startsAgain_after hrestart hmid' (some_ne_none _)
    have hthree := hclosing.three_le
    exact hclosing.resumes htaken hdistribution hdrained hcrossing hmid'
      (get?_insert_of_ne _ _ (by omega)) rfl (by rw [hpaid]; rfl) hrestart.block_eq hoverlay
      (by simp) hstored hflush hstart (fun h ↦ by cases h)
  | epochBegun =>
    rw [hflush] at hstored
    cases hstored
    obtain ⟨ended, hended, hopen, rfl⟩ := (flush_eq_ok_iff hnone).1 hflush
    have htip := (opens_of_openEpoch hopen).tip_eq.trans (tip_of_endEpoch hended :)
    have hnone' := (pots_of_openEpoch hopen).2
    rw [hoverlayEpoch, Nat.add_sub_cancel] at *
    have hthree := hclosing.three_le
    obtain ⟨previous, hprevious⟩ := hclosing.exists_snapshot 1 (by omega) (by omega)
    obtain ⟨_, hlast, -⟩ := hrestart.exists_distribution closing ended
    obtain ⟨_, hprevious', -⟩ := hrestart.exists_distribution (closing - 1) previous
    obtain ⟨resumed, hresumed, hsnapshots, hstable'⟩ := resume_written
      (by rw [htip]; exact hrestart.tip_eq) hnone' hrestart.supported' hrestart.block_eq hthree
      (mostRecentSnapshot_insert hclosing.recent_eq) (get?_insert_self _ _ _)
      ((get?_insert_of_ne _ _ (by omega)).trans hprevious) hlast hprevious'
    refine ⟨resumed, hresumed, hsnapshots, by rw [hstable'], fun pool _ ↦ ?_⟩
    rw [hstable']
    rfl

/-! ### One boundary -/

/-- A flush of the small ledger, interrupted once the snapshot is taken. -/
theorem flush_resumes_after_snapshot : ∃ started ledger pending drained flushed written stored kept resumed,
    new tenSlots thirdEpoch thirdEpochSnapshots = .ok started ∧
    started.rollForward tenSlots (blockAt 35 true) = .ok (ledger, .valid) ∧
    ledger.epochTransition tenSlots 4 = .ok pending ∧
    ledger.stable.applyBlocks tenSlots.eraHistory ledger.stable.protocolParameters ⟨0⟩
      ledger.volatile.current = .ok drained ∧
    pending.volatile.overlay.flushUntil drained ledger.snapshots .epochBegun = .ok (flushed, written) ∧
    pending.volatile.overlay.flushUntil drained ledger.snapshots .snapshotTaken = .ok (stored, kept) ∧
    resume tenSlots stored kept (blockAt 41 true) = .ok resumed ∧ resumed.snapshots = written ∧
    flushed.Alike (DisplacedInOne 4 ((ofSeries ledger.volatile.current).iterPools
      ledger.stable) drained.pools) resumed.stable := by
  simp only [exists_and_left]
  exact ⟨_, rfl, _, rfl, _, rfl, _, rfl, _, _, rfl, _, _, rfl, flush_resumes
    { epoch_eq := rfl
      progress_eq := rfl
      parameters_eq := rfl
      newer := .cons_cons rfl (.singleton _)
      namesPools := by
        intro block hblock
        obtain rfl := mem_singleton.1 hblock
        exact nofun
      poolsNamed := nofun
      recentlyUnregisteredGone := nofun
      three_le := le_rfl
      recent_eq := rfl
      exists_snapshot := by
        intro back _ _
        obtain rfl | rfl | rfl : back = 1 ∨ back = 2 ∨ back = 3 := by omega
        exacts [⟨_, rfl⟩, ⟨_, rfl⟩, ⟨_, rfl⟩]
      taken := ⟨_, rfl, fun _ _ ↦ rfl⟩
      rewards_eq := fun _ _ _ _ ↦ rfl }
    rfl (rfl : Store.applyBlocks _ _ thirdEpoch.protocolParameters ⟨0⟩ _ = _) rfl
    { tip_eq := rfl
      due := zero_le _
      block_eq := rfl
      supported := rfl
      supported' := rfl
      exists_distribution := fun _ _ ↦ ⟨_, rfl, rfl⟩ }
    (rfl : flushUntil _ _ _ .snapshotTaken = _)⟩

/-- The small ledger, with blocks that carry what they change. -/
def tenSlotsOfFragments : Environment VolatileFragment where
  eraHistory := tenSlots.eraHistory
  consensusSecurityParam := 2
  stabilityWindow := 0
  maxExtraLedgerSnapshots := 0
  validateBlock _ _ block := .ok (.ok block.body)
  computeStakeDistribution := tenSlots.computeStakeDistribution
  computeRewards := tenSlots.computeRewards

/-- A block that carries what another changes. -/
def blockOf (block : AnchoredVolatileFragment) : Block VolatileFragment :=
  { slot := block.point.slotOrDefault
    hash := block.point.slotOrDefault
    height := block.point.slotOrDefault
    issuer := 0
    body := block.fragment }

/-- **A flush that is interrupted does not leave the same store.** The pool registers again, and two
blocks retire it, in the sixth epoch and then in the fifth. The first of the two retirements is replaced,
and the view has dropped it; a node that stops once the rewards are paid computes the updates from the
store, which has it. -/
theorem resumed_flush_keeps_replaced_retirement : ∃ started one two ledger pending drained flushed written
    stored kept resumed,
    new tenSlotsOfFragments { thirdEpoch with pools := onePool.pools } thirdEpochSnapshots = .ok started ∧
    started.rollForward tenSlotsOfFragments (blockOf (registeringBlock 35 20)) = .ok (one, .valid) ∧
    one.rollForward tenSlotsOfFragments (blockOf (retiringBlock 36 6)) = .ok (two, .valid) ∧
    two.rollForward tenSlotsOfFragments (blockOf (retiringBlock 37 5)) = .ok (ledger, .valid) ∧
    ledger.epochTransition tenSlotsOfFragments 4 = .ok pending ∧
    ledger.stable.applyBlocks tenSlots.eraHistory ledger.stable.protocolParameters ⟨0⟩
      ledger.volatile.current = .ok drained ∧
    pending.volatile.overlay.flushUntil drained ledger.snapshots .epochBegun = .ok (flushed, written) ∧
    pending.volatile.overlay.flushUntil drained ledger.snapshots .epochEnded = .ok (stored, kept) ∧
    resume tenSlotsOfFragments stored kept (blockOf (registeringBlock 41 30)) = .ok resumed ∧
    (flushed.pools.get? 1).map (·.pendingCertificates) = some [.retirement 5] ∧
    (resumed.stable.pools.get? 1).map (·.pendingCertificates) = some [.retirement 6, .retirement 5] :=
  ⟨_, _, _, _, _, _, _, _, _, _, _, rfl, rfl, rfl, rfl, rfl, rfl, rfl, rfl, rfl, rfl, rfl⟩

end State

end Amaru
