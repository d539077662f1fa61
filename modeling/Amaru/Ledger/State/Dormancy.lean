import Amaru.Ledger.State.ForkSwitch

/-!
# Dormant epochs

The expiry of a delegate representative is stored without the epochs in which there was nothing to
vote on. They are given back by the first proposal after them: saving it adds the number of dormant
epochs to the expiry of every delegate representative that has not expired, and resets the counter.

The counter lives twice. The store has it, and resets it; **the volatile database has a copy, which is
what every block of the epoch is saved with, and which no block resets**. So each block with a proposal
gives the dormant epochs back once more, and a delegate representative that registers or votes after
the last of them is short of them.

What the blocks of an epoch make of one delegate representative is its `Standing`: whether it was
refreshed, and how many blocks with proposals were saved from then on. The expiry that is stored is
that many times the dormant epochs above the one it had (`Tracks`), and so it is right exactly when
there is one such block.
-/

namespace Amaru

open List AnchoredVolatileFragment Store Except SortedMap Option SortedSet Nat

namespace AnchoredVolatileFragment

section

variable (block : AnchoredVolatileFragment)

/-- Whether a block carries a proposal. -/
def proposes : Bool :=
  decide (block.fragment.proposals.entries ≠ [])

/-- Whether a delegate representative registers, changes its anchor or votes in a block. -/
def refreshes (drep : Credential) : Bool :=
  block.fragment.dreps.registered.contains drep || decide (drep ∈ votingDReps block.fragment.votes.produced)

/-- Whether a delegate representative that was there before a block leaves in it. -/
def retires (drep : Credential) : Bool :=
  decide (drep ∈ block.fragment.dreps.unregistered) &&
    ((block.fragment.drepsDeregistrations.get? drep).bind id).isSome

end

end AnchoredVolatileFragment

/-! ### One delegate representative, block after block -/

/-- What the blocks of an epoch make of a delegate representative that is there. -/
structure Standing where
  /-- It registered, changed its anchor or voted. -/
  refreshed : Bool := false
  /-- How many blocks with proposals there are since, the block that refreshed it included. -/
  credits : ℕ := 0
deriving DecidableEq, Repr

namespace Standing

variable {dormant epoch validity : ℕ} {row : DRepRow} {standing : Standing}
  {before : Option DRepRow} {drep : Credential}

/-- The standing once a block may have refreshed a delegate representative. -/
def refresh (drep : Credential) (block : AnchoredVolatileFragment) (standing : Option Standing) :
    Option Standing :=
  let registered := match block.fragment.dreps.registered.get? drep with
    | some bind => if bind.value.isSome || standing.isSome then some { refreshed := true } else none
    | none => standing
  if drep ∈ votingDReps block.fragment.votes.produced then
    registered.map fun _ ↦ { refreshed := true }
  else registered

/-- The standing once a block may have carried a proposal. -/
def credit (block : AnchoredVolatileFragment) (standing : Option Standing) : Option Standing :=
  if block.proposes then standing.map fun s ↦ { s with credits := s.credits + 1 } else standing

/-- The standing once a block is saved. -/
def step (drep : Credential) (standing : Option Standing) (block : AnchoredVolatileFragment) :
    Option Standing :=
  credit block (if block.retires drep then none else refresh drep block standing)

/-- The standing of a delegate representative before the first block. -/
def initial (store : Store) (drep : Credential) : Option Standing :=
  (store.dreps.get? drep).map fun _ ↦ {}

/-- The standing once the blocks of a series are saved. -/
def after (store : Store) (series : VolatileSeries) (drep : Credential) : Option Standing :=
  series.foldl (step drep) (initial store drep)

theorem after_append (store : Store) (series : VolatileSeries) (block : AnchoredVolatileFragment)
    (drep : Credential) :
    after store (series ++ [block]) drep = step drep (after store series drep) block := by
  rw [after, foldl_append]
  rfl

/-- A block that refreshes a delegate representative starts the count again, and one that does not
leaves its standing. -/
theorem refresh_eq (drep : Credential) (block : AnchoredVolatileFragment) (standing : Option Standing) :
    (block.refreshes drep = false ∧ refresh drep block standing = standing) ∨
      (block.refreshes drep = true ∧ (refresh drep block standing = none ∨
        refresh drep block standing = some { refreshed := true })) := by
  rw [refresh, refreshes, SortedMap.contains]
  rcases block.fragment.dreps.registered.get? drep with - | bind
  · cases standing <;> split_ifs with hvotes <;> simp [hvotes]
  · right
    cases hvalue : bind.value <;> cases standing <;> split_ifs <;> simp [hvalue]

/-- A delegate representative that is there after a block did not retire in it. -/
theorem exists_of_step_eq_some {block before} (h : step drep before block = some standing) :
    block.retires drep = false ∧
      ∃ kept, refresh drep block before = some kept ∧ standing.refreshed = kept.refreshed := by
  rw [step, credit] at h
  split_ifs at h with hproposes hretires hretires
  · cases h
  · obtain ⟨kept, hkept, rfl⟩ := map_eq_some_iff.1 h
    exact ⟨by simpa using hretires, kept, hkept, rfl⟩
  · exact ⟨by simpa using hretires, standing, h, rfl⟩

/-- Whether a delegate representative counts as refreshed is whether some block refreshed it; if none
did, then it never left. -/
theorem refreshed_of_after (store : Store) (drep : Credential) (series : VolatileSeries) :
    ∀ standing, after store series drep = some standing → standing.refreshed = series.any (·.refreshes drep) ∧
      (standing.refreshed = false → series.any (·.retires drep) = false) := by
  induction series using reverseRecOn with
  | nil =>
    intro standing h
    obtain ⟨_, -, rfl⟩ := map_eq_some_iff.1 h
    exact ⟨rfl, fun _ ↦ rfl⟩
  | append_singleton series block ih =>
    intro standing h
    rw [after_append] at h
    obtain ⟨hretires, kept, hkept, hrefreshed⟩ := exists_of_step_eq_some h
    rw [hrefreshed, any_append, any_append, any_cons, any_nil, any_cons, hretires]
    rcases refresh_eq drep block (after store series drep) with ⟨hno, heq⟩ | ⟨hyes, heq | heq⟩ <;>
      rw [heq] at hkept
    · simpa [hno] using ih kept hkept
    · cases hkept
    · cases hkept
      simp [hyes]

theorem exists_after_of_idle {store} (hrow : store.dreps.get? drep = some row) {series}
    (hidle : series.any (·.refreshes drep) = false) (hstays : series.any (·.retires drep) = false) :
    ∃ standing, after store series drep = some standing := by
  induction series using reverseRecOn with
  | nil => exact ⟨{}, by rw [after, foldl_nil, initial, hrow]; rfl⟩
  | append_singleton series block ih =>
    rw [any_append, Bool.or_eq_false_iff, any_cons, any_nil, Bool.or_false] at hidle hstays
    obtain ⟨standing, hstanding⟩ := ih hidle.1 hstays.1
    rw [after_append, step, hstays.2, hstanding, credit]
    obtain ⟨-, heq⟩ | ⟨hyes, -⟩ := refresh_eq drep block (some standing)
    · rw [heq]
      cases block.proposes <;> exact ⟨_, rfl⟩
    · exact absurd hyes (by simp [hidle.2])

/-- The expiry a standing counts from: the one of the row before the first block, or the one that a
refreshed delegate representative gets. -/
def base (refreshedExpiry : ℕ) (row : Option DRepRow) (standing : Standing) : ℕ :=
  if standing.refreshed then refreshedExpiry else (row.map (·.validUntil)).getD 0

/-- A row that is as its standing says: as many times the dormant epochs above the expiry it counts
from as it was credited, unless it had expired. -/
inductive Tracks (validity epoch dormant : ℕ) (before : Option DRepRow) :
    Option Standing → Option DRepRow → Prop
  | absent : Tracks validity epoch dormant before none none
  | present {standing : Standing} {row}
    (h : epoch ≤ standing.base validity before + dormant →
        row.validUntil = standing.base validity before + standing.credits * dormant) :
    Tracks validity epoch dormant before (some standing) (some row)

theorem Tracks.exists_row {row} (h : Tracks validity epoch dormant before (some standing) row) :
    ∃ r, row = some r := by
  cases h
  exact ⟨_, rfl⟩

theorem Tracks.exists_standing {standing} (h : Tracks validity epoch dormant before standing (some row))
    :
    ∃ s, standing = some s := by
  cases h
  exact ⟨_, rfl⟩

theorem Tracks.validUntil_eq_iff (h : Tracks validity epoch dormant before (some standing) (some row))
    (hactive : epoch ≤ standing.base validity before + dormant) :
    row.validUntil = standing.base validity before + dormant ↔
      dormant = 0 ∨ standing.credits = 1 := by
  cases h with
  | present h => rw [h hactive, add_right_inj, mul_left_eq_self₀, or_comm]

/-- The expiry of one that did nothing is right exactly when it was credited once. -/
theorem Tracks.idle_iff {before}
    (h : Tracks validity epoch dormant (some before) (some standing) (some row))
    (hidle : standing.refreshed = false) (hactive : epoch ≤ before.validUntil + dormant) :
    row.validUntil = before.validUntil + dormant ↔ dormant = 0 ∨ standing.credits = 1 := by
  have hbase : standing.base validity (some before) = before.validUntil := if_neg (by simp [hidle])
  rw [← h.validUntil_eq_iff (hbase ▸ hactive), hbase]

/-- The expiry of one that was refreshed is right exactly when it was credited once since. -/
theorem Tracks.refreshed_iff {drepExpiry : ℕ}
    (h : Tracks (epoch + drepExpiry - dormant) epoch dormant before (some standing)
      (some row)) (hrefreshed : standing.refreshed = true) (hdormant : dormant ≤ epoch) :
    row.validUntil = epoch + drepExpiry ↔ dormant = 0 ∨ standing.credits = 1 := by
  have hbase : standing.base (epoch + drepExpiry - dormant) before + dormant =
      epoch + drepExpiry := by
    rw [base, if_pos hrefreshed]
    omega
  rw [← h.validUntil_eq_iff (by rw [hbase]; exact le_add_right _ _), hbase]

end Standing

/-! ### One block -/

namespace Store

variable {validity epoch dormant : ℕ}

/-- What registering, changing an anchor and voting make of the row of a delegate representative. -/
def refreshDRep (validity : ℕ) (block : AnchoredVolatileFragment) (drep : Credential)
    (row : Option DRepRow) : Option DRepRow :=
  let registered := match block.fragment.dreps.registered.get? drep with
    | some bind => drepsAddRow validity bind row
    | none => row
  if drep ∈ votingDReps block.fragment.votes.produced then
    registered.map fun row ↦ { row with validUntil := validity }
  else registered

/-- What a block with proposals makes of the row of a delegate representative. -/
def reactivateDRep (epoch dormant : ℕ) (block : AnchoredVolatileFragment)
    (row : Option DRepRow) : Option DRepRow :=
  if 0 < dormant ∧ block.fragment.proposals.entries ≠ [] then
    row.map fun row ↦ if epoch ≤ row.validUntil + dormant then
      { row with validUntil := row.validUntil + dormant } else row
  else row

/-- The registrations of a block, as the rules record them, expire without the dormant epochs. -/
def RegistersUntil (validity : ℕ) (block : AnchoredVolatileFragment) : Prop :=
  ∀ drep bind registration, block.fragment.dreps.registered.get? drep = some bind →
    bind.value = some registration → registration.validUntil = validity

section

variable {store store' : Store} {eras : EraHistory} {pp : ProtocolParameters}
  {block : AnchoredVolatileFragment}

theorem mem_removeDReps_iff {removed drep}
    (h : removeDReps block.fragment.dreps.unregistered block.fragment.drepsDeregistrations = .ok removed) :
    drep ∈ removed ↔ block.retires drep = true := by
  rw [removeDReps] at h
  split_ifs at h
  cases h
  rw [mem_iff, get?_filter, filter_eq_some_iff, ← mem_iff, retires, Bool.and_eq_true, decide_eq_true_iff]

/-- **One block**, for one delegate representative. -/
theorem get?_dreps_of_applyBlock
    (hepoch : eras.slotToEpoch block.point.slotOrDefault block.point.slotOrDefault = .ok epoch)
    (hnew : block.point.isStale store.tip = false)
    (h : store.applyBlock eras pp ⟨dormant⟩ block = .ok store')
    (drep : Credential) :
    store'.dreps.get? drep = reactivateDRep epoch dormant block
      (if block.retires drep then none else
        refreshDRep (epoch + pp.drepExpiry - dormant) block drep (store.dreps.get? drep)) := by
  obtain ⟨epoch', accounts, removed, hepoch', -, hremoved, rfl⟩ := exists_of_applyBlock h hnew
  obtain rfl := ok.inj (hepoch'.symm.trans hepoch)
  have hkept : (removed.removeFrom (drepsSetValidUntil (drepsAdd store.dreps
      (epoch' + pp.drepExpiry - dormant) block.fragment.dreps.registered)
      (votingDReps block.fragment.votes.produced)
      (epoch' + pp.drepExpiry - dormant))).get? drep =
      if block.retires drep then none else
        refreshDRep (epoch' + pp.drepExpiry - dormant) block drep (store.dreps.get? drep) := by
    rw [get?_removeFrom, drepsSetValidUntil, get?_map, drepsAdd, get?_mergeWith, refreshDRep]
    simp only [mem_removeDReps_iff hremoved]
    cases block.fragment.dreps.registered.get? drep <;> split_ifs <;> simp
  rw [← hkept, reactivateDRep]
  by_cases hreactivates : 0 < dormant ∧ block.fragment.proposals.entries ≠ []
  · simp only [withFragment, hreactivates, drepsReactivate, get?_map, decide_true,
      if_true, ne_eq, not_false_eq_true, and_self]
  · simp only [withFragment, hreactivates, decide_false, if_false, Bool.false_eq_true]

end

end Store

/-! ### What each part of a block keeps -/

namespace Standing

variable {validity epoch dormant : ℕ} {before : Option DRepRow} {standing : Option Standing}
  {row : Option DRepRow} {block : AnchoredVolatileFragment} {drep : Credential}

theorem Tracks.initial {store : Store} :
    Tracks validity epoch dormant (store.dreps.get? drep) (initial store drep)
      (store.dreps.get? drep) := by
  rw [Standing.initial]
  rcases store.dreps.get? drep with - | row
  · exact .absent
  · exact .present fun _ ↦ by simp [base]

/-- A delegate representative that was just refreshed. -/
theorem Tracks.of_refreshed {row} (h : row.validUntil = validity) :
    Tracks validity epoch dormant before (some { refreshed := true }) (some row) :=
  .present fun _ ↦ by simp [base, h]

variable (h : Tracks validity epoch dormant before standing row)
include h

theorem Tracks.register (hblock : Store.RegistersUntil validity block) {bind}
    (hbind : block.fragment.dreps.registered.get? drep = some bind) :
    Tracks validity epoch dormant before
      (if bind.value.isSome || standing.isSome then some { refreshed := true } else none)
      (drepsAddRow validity bind row) := by
  rcases hvalue : bind.value with - | registration
  · cases h with
    | absent => simpa [drepsAddRow, hvalue] using .absent
    | present h => simpa [drepsAddRow, hvalue] using .of_refreshed rfl
  · have hvalid := hblock drep bind registration hbind hvalue
    cases row <;> simpa [drepsAddRow, hvalue] using .of_refreshed hvalid

theorem Tracks.vote :
    Tracks validity epoch dormant before (standing.map fun _ ↦ { refreshed := true })
      (row.map fun row ↦ { row with validUntil := validity }) := by
  cases h with
  | absent => exact .absent
  | present h => exact .of_refreshed rfl

theorem Tracks.refresh (hblock : Store.RegistersUntil validity block) (drep : Credential) :
    Tracks validity epoch dormant before (refresh drep block standing)
      (refreshDRep validity block drep row) := by
  have hregistered : Tracks validity epoch dormant before
      (match block.fragment.dreps.registered.get? drep with
        | some bind =>
          if bind.value.isSome || standing.isSome then some { refreshed := true } else none
        | none => standing)
      (match block.fragment.dreps.registered.get? drep with
        | some bind => drepsAddRow validity bind row
        | none => row) := by
    rcases hbind : block.fragment.dreps.registered.get? drep with - | bind
    · exact h
    · exact h.register hblock hbind
  rw [Standing.refresh, refreshDRep]
  split_ifs
  · exact hregistered.vote
  · exact hregistered

/-- A block with proposals adds the dormant epochs to an expiry that has not passed; it had not passed
with the credits there are already. -/
theorem Tracks.credit :
    Tracks validity epoch dormant before (credit block standing)
      (reactivateDRep epoch dormant block row) := by
  rw [Standing.credit, reactivateDRep, proposes]
  by_cases hproposes : block.fragment.proposals.entries = []
  · simpa [hproposes] using h
  cases h with
  | absent => simpa [hproposes] using .absent
  | @present standing row h =>
    rw [if_pos (decide_eq_true hproposes)]
    rcases Nat.eq_zero_or_pos dormant with rfl | hdormant
    · exact .present h
    rw [if_pos ⟨hdormant, hproposes⟩]
    refine .present fun hactive ↦ ?_
    have hrow := h hactive
    beta_reduce
    have hexpiry : epoch ≤ row.validUntil + dormant := by
      rw [hrow, add_right_comm]
      exact hactive.trans (le_add_right _ _)
    rw [if_pos hexpiry, hrow, add_assoc, ← succ_mul]
    rfl

/-- **One block keeps a row as its standing says.** -/
theorem Tracks.step (hblock : Store.RegistersUntil validity block) (drep : Credential) :
    Tracks validity epoch dormant before (step drep standing block)
      (reactivateDRep epoch dormant block
        (if block.retires drep then none else refreshDRep validity block drep row)) := by
  rw [Standing.step]
  split_ifs
  · exact Tracks.absent.credit
  · exact (h.refresh hblock drep).credit

end Standing

/-! ### The blocks of an epoch -/

/-- A block of an epoch after some dormant ones, with the registrations the rules record. -/
structure OfEpoch (eras : EraHistory) (pp : ProtocolParameters)
    (epoch dormant : ℕ) (block : AnchoredVolatileFragment) : Prop where
  slotToEpoch_eq : eras.slotToEpoch block.point.slotOrDefault block.point.slotOrDefault = .ok epoch
  registersUntil : Store.RegistersUntil (epoch + pp.drepExpiry - dormant) block

namespace Store

variable {eras : EraHistory} {pp : ProtocolParameters}
  {epoch dormant : ℕ} {series : VolatileSeries} {store store' : Store}

/-- **Every row is as its standing says** once the blocks are saved, and the counter is reset by the
first proposal. -/
theorem tracks_of_applyBlocks (hnewer : Newer store.tip series)
    (hblocks : ∀ block ∈ series, OfEpoch eras pp epoch dormant block)
    (hcounter : store.governanceActivity = ⟨dormant⟩)
    (h : store.applyBlocks eras pp ⟨dormant⟩ series = .ok store') :
    (∀ drep, Standing.Tracks (epoch + pp.drepExpiry - dormant) epoch
      dormant (store.dreps.get? drep) (Standing.after store series drep)
      (store'.dreps.get? drep)) ∧
    store'.governanceActivity =
      if 0 < dormant ∧ series.any (·.proposes) = true then ⟨0⟩ else ⟨dormant⟩ := by
  revert hblocks
  refine applyBlocks_invariant hnewer h ?_ fun done saved saved' block hsaved hnew happly hblocks ↦ ?_
  · exact fun _ ↦ ⟨fun drep ↦ .initial, by simpa using hcounter⟩
  · rw [forall_mem_append] at hblocks
    obtain ⟨htracks, hactivity⟩ := hsaved hblocks.1
    have hblock := hblocks.2 block (mem_singleton_self _)
    refine ⟨fun drep ↦ ?_, ?_⟩
    · rw [Standing.after_append, get?_dreps_of_applyBlock hblock.slotToEpoch_eq hnew happly]
      exact (htracks drep).step hblock.registersUntil drep
    · obtain ⟨_, _, _, -, -, -, rfl⟩ := exists_of_applyBlock happly hnew
      rw [withFragment, hactivity, any_append, any_cons, any_nil, Bool.or_false]
      by_cases hdormant : 0 < dormant <;> cases hproposes : block.proposes <;> simp_all [proposes]

end Store

/-- What the blocks of an epoch owe to the delegate representatives. -/
structure DormancyCredited (epoch drepExpiry dormant : ℕ) (series : VolatileSeries)
    (store store' : Store) : Prop where
  counter_eq : store'.governanceActivity = ⟨0⟩
  /-- One that has not expired, and does nothing, expires later by the dormant epochs. -/
  idle : ∀ drep row, store.dreps.get? drep = some row → epoch ≤ row.validUntil + dormant →
    series.any (·.refreshes drep) = false → series.any (·.retires drep) = false →
    ∃ row', store'.dreps.get? drep = some row' ∧ row'.validUntil = row.validUntil + dormant
  /-- One that registers, changes its anchor or votes has the full time before it. -/
  refreshed : ∀ drep row', series.any (·.refreshes drep) = true →
    store'.dreps.get? drep = some row' → row'.validUntil = epoch + drepExpiry

/-- There is a block with proposals, and exactly one for each delegate representative since it was
last refreshed. -/
structure CreditedOnce (epoch dormant : ℕ) (series : VolatileSeries) (store : Store) : Prop where
  proposes : series.any (·.proposes) = true
  credits_eq : ∀ drep standing, Standing.after store series drep = some standing →
    (standing.refreshed = true ∨
      ∃ row, store.dreps.get? drep = some row ∧ epoch ≤ row.validUntil + dormant) →
    standing.credits = 1

variable {pp : ProtocolParameters}

/-! ### Through the state -/

namespace State

variable {Body : Type*} {env : Environment Body} {dormant : ℕ}

/-- **The blocks of an epoch are all saved with the same counter**: nothing that writes a block
changes the copy. -/
theorem exists_applyBlocks_of_foldlM {activity epoch volatile}
    (hparameters : volatile.parametersFor epoch = some (pp, activity)) :
    ∀ {series} {st st' : State}, st.volatile = volatile →
      (∀ block ∈ series, env.epochOf block.point.slotOrDefault = .ok epoch) →
      series.foldlM (applyBlock env) st = .ok st' →
      st.stable.applyBlocks env.eraHistory pp activity series = .ok st'.stable
  | [], _, _, _, _, h => by
    cases h
    rfl
  | block :: series, st, st', hvolatile, hblocks, h => by
    obtain ⟨next, hnext, h⟩ := bind_eq_ok_iff.1 h
    obtain ⟨epoch', hepoch, hnext⟩ := bind_eq_ok_iff.1 hnext
    obtain rfl := ok.inj (hepoch.symm.trans (hblocks block mem_cons_self))
    rw [hvolatile, hparameters] at hnext
    obtain ⟨stable, hstable, rfl⟩ := map_eq_ok_iff.1 (mapError_eq_ok_iff.1 hnext)
    refine bind_eq_ok_iff.2 ⟨stable, hstable, ?_⟩
    exact exists_applyBlocks_of_foldlM hparameters rfl
      (fun block hblock ↦ hblocks block (mem_cons_of_mem _ hblock)) h

/-- **Dormant epochs are credited exactly once** to every delegate representative by the blocks of the
epoch after them, and the counter is reset, exactly when there are none, or when some block carries a
proposal and for each delegate representative exactly one does since it was last refreshed. -/
theorem dormancy_credited_iff {pp : ProtocolParameters} {epoch : ℕ}
    {series : VolatileSeries} {st st' : State} (hdormant : dormant ≤ epoch)
    (hparameters : st.volatile.parametersFor epoch = some (pp, ⟨dormant⟩))
    (hcounter : st.stable.governanceActivity = ⟨dormant⟩)
    (hfollows : series.Follows st.stable.tip)
    (hepoch : ∀ block ∈ series, env.epochOf block.point.slotOrDefault = .ok epoch)
    (hblocks : ∀ block ∈ series, OfEpoch env.eraHistory pp epoch dormant block)
    (h : series.foldlM (applyBlock env) st = .ok st') :
    DormancyCredited epoch pp.drepExpiry dormant series st.stable st'.stable ↔
      dormant = 0 ∨ CreditedOnce epoch dormant series st.stable := by
  obtain ⟨htracks, hactivity⟩ := Store.tracks_of_applyBlocks
    (hfollows.imp fun _ _ ↦ Point.Before.not_isStale) hblocks hcounter
    (exists_applyBlocks_of_foldlM hparameters rfl hepoch h)
  constructor
  · intro hcredited
    rcases Nat.eq_zero_or_pos dormant with hzero | hpos
    · exact .inl hzero
    refine .inr ⟨?_, fun drep standing hstanding hactive ↦ ?_⟩
    · -- without a proposal the counter stays
      by_contra hnone
      rw [hcredited.counter_eq, if_neg fun h ↦ hnone h.2] at hactivity
      exact absurd (GovernanceActivity.mk.inj hactivity).symm hpos.ne'
    · have htrack := htracks drep
      rw [hstanding] at htrack
      obtain ⟨row', hrow'⟩ := htrack.exists_row
      rw [hrow'] at htrack
      obtain ⟨hany, hstays⟩ := Standing.refreshed_of_after st.stable drep series standing hstanding
      refine (Or.resolve_left · hpos.ne') ?_
      rcases hrefreshed : standing.refreshed with - | -
      · obtain ⟨row, hrow, hactive⟩ := hactive.resolve_left (by simp [hrefreshed])
        obtain ⟨kept, hkept, hvalid⟩ :=
          hcredited.idle drep row hrow hactive (hany ▸ hrefreshed) (hstays hrefreshed)
        obtain rfl := some.inj (hkept.symm.trans hrow')
        rw [hrow] at htrack
        rwa [← htrack.idle_iff hrefreshed hactive]
      · rw [← htrack.refreshed_iff hrefreshed hdormant]
        exact hcredited.refreshed drep row' (hany ▸ hrefreshed) hrow'
  · intro hcondition
    refine ⟨?_, fun drep row hrow hactive hidle hstays ↦ ?_, fun drep row' hany hrow' ↦ ?_⟩
    · rw [hactivity]
      rcases Nat.eq_zero_or_pos dormant with rfl | hpos
      · simp
      · rw [if_pos ⟨hpos, (hcondition.resolve_left hpos.ne').proposes⟩]
    · obtain ⟨standing, hstanding⟩ := Standing.exists_after_of_idle hrow hidle hstays
      have htrack := htracks drep
      rw [hstanding, hrow] at htrack
      obtain ⟨row', hrow'⟩ := htrack.exists_row
      rw [hrow'] at htrack
      have hrefreshed : standing.refreshed = false :=
        (Standing.refreshed_of_after st.stable drep series standing hstanding).1.trans hidle
      refine ⟨row', hrow', (htrack.idle_iff hrefreshed hactive).2 (hcondition.imp_right fun h ↦ ?_)⟩
      exact h.credits_eq drep standing hstanding (.inr ⟨row, hrow, hactive⟩)
    · have htrack := htracks drep
      rw [hrow'] at htrack
      obtain ⟨standing, hstanding⟩ := htrack.exists_standing
      rw [hstanding] at htrack
      have hrefreshed : standing.refreshed = true :=
        (Standing.refreshed_of_after st.stable drep series standing hstanding).1.trans hany
      refine (htrack.refreshed_iff hrefreshed hdormant).2 (hcondition.imp_right fun h ↦ ?_)
      exact h.credits_eq drep standing hstanding (.inl hrefreshed)

/-! ### One dormant epoch -/

/-- A store of the third epoch, after one dormant epoch, with one delegate representative. -/
def dormantStore : Store :=
  { thirdEpoch with
    governanceActivity := ⟨1⟩
    dreps := .ofList [(.keyHash 1, { deposit := 0, registeredAt := default, validUntil := 5 })] }

/-- A block of the third epoch whose only content is a proposal. -/
def proposingBlock (slot : ℕ) : AnchoredVolatileFragment where
  point := .specific slot slot slot
  issuer := 0
  fragment := { proposals := .ofList [(⟨slot, 0⟩,
    { proposedIn := ⟨⟨slot, 0⟩, 0⟩
      validUntil := 9
      proposal := ⟨0, ⟨.testnet, .keyHash 1⟩, .information⟩ })] }

theorem dormancy_credited_by_one_proposal : ∃ started flushed,
    State.new tenSlots dormantStore thirdEpochSnapshots = .ok started ∧
    [proposingBlock 33].foldlM (applyBlock tenSlots) started = .ok flushed ∧
    DormancyCredited 3 dormantStore.protocolParameters.drepExpiry 1 [proposingBlock 33]
      started.stable flushed.stable := by
  obtain ⟨started, flushed, hstart, hflush⟩ : ∃ started flushed,
      State.new tenSlots dormantStore thirdEpochSnapshots = .ok started ∧
      [proposingBlock 33].foldlM (applyBlock tenSlots) started = .ok flushed := ⟨_, _, rfl, rfl⟩
  cases hstart
  refine ⟨_, flushed, rfl, hflush, (dormancy_credited_iff (by decide) rfl rfl ?_ ?_ ?_ hflush).2
    (.inr ⟨rfl, fun drep standing hstanding _ ↦ ?_⟩)⟩
  · exact VolatileSeries.follows_singleton.2 (by decide : 32 < 33)
  · intro block hblock
    obtain rfl := mem_singleton.1 hblock
    rfl
  · simpa using ⟨rfl, nofun⟩
  · change ((dormantStore.dreps.get? drep).map _).map _ = _ at hstanding
    rw [Option.map_map] at hstanding
    obtain ⟨_, -, rfl⟩ := Option.map_eq_some_iff.1 hstanding
    rfl

/-- **The dormant epoch is credited twice.** Two blocks of the epoch carry a proposal; the expiry of
the delegate representative goes from 5 to 7. -/
theorem dormant_epoch_credited_twice : ∃ started flushed,
    State.new tenSlots dormantStore thirdEpochSnapshots = .ok started ∧
    started.volatile.parametersFor 3 = some (dormantStore.protocolParameters, ⟨1⟩) ∧
    [proposingBlock 33, proposingBlock 34].foldlM (applyBlock tenSlots) started = .ok flushed ∧
    (started.stable.dreps.get? (.keyHash 1)).map (·.validUntil) = some 5 ∧
    (flushed.stable.dreps.get? (.keyHash 1)).map (·.validUntil) = some 7 ∧
    ¬DormancyCredited 3 dormantStore.protocolParameters.drepExpiry 1
      [proposingBlock 33, proposingBlock 34] started.stable flushed.stable := by
  refine ⟨_, _, rfl, rfl, rfl, rfl, rfl, fun h ↦ ?_⟩
  obtain ⟨row, hrow, hvalid⟩ := h.idle (.keyHash 1) _ rfl (by decide) rfl rfl
  cases hrow
  exact absurd hvalid (by decide)

end State

end Amaru
