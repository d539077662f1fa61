import Amaru.Ledger.Volatile.View

/-!
# The ledger state

The stable store, the snapshots of the epochs before, and the volatile database over the store. A
block that extends the tip **rolls the ledger forward**; a block of a later epoch first makes it cross
the boundary. A better chain makes it **switch to a fork**: roll back to the fork point, roll forward
with the blocks of the fork, and go back to where it was if one of them is invalid.

`Environment` holds what the state machine asks and does not decide: the verdict of the rules on a
block, and the two summaries of past epochs. A call that fails stops the node, so a run of the ledger
is made of calls that return.
-/

namespace Amaru

/-- A block, as the state machine sees it. -/
structure Block (Body : Type*) where
  slot : ℕ
  hash : ℕ
  height : ℕ
  issuer : PoolId
  body : Body

/-- The point of a block. -/
def Block.point {Body : Type*} (block : Block Body) : Point :=
  .specific block.slot block.hash block.height

/-- What a block changes, at its point. -/
def Block.anchor {Body : Type*} (block : Block Body) (fragment : VolatileFragment) :
    AnchoredVolatileFragment where
  point := block.point
  issuer := block.issuer
  fragment

/-- A block that breaks a rule. -/
structure InvalidBlock where
  tip : Point
  reason : String
deriving DecidableEq, Repr

/-- What the ledger is run with. -/
structure Environment (Body : Type*) where
  eraHistory : EraHistory
  consensusSecurityParam : ℕ
  stabilityWindow : ℕ
  maxExtraLedgerSnapshots : ℕ
  /-- What the rules make of a block, over the ledger it comes to. -/
  validateBlock : VolatileDB → Store → Block Body → Except StateError (Except InvalidBlock VolatileFragment)
  /-- The stake distribution of an epoch, from its snapshot. -/
  computeStakeDistribution : ℕ → Store → Except StateError StakeDistribution
  /-- The rewards of an epoch, from the snapshot of the one before and of the one its leaders were
  drawn from. -/
  computeRewards : Store → Store → ℕ → ProtocolParameters → Except StateError Rewards

/-- The epoch of a slot. The source panics on a slot before the first era. -/
def Environment.epochOf {Body : Type*} (env : Environment Body) (slot : ℕ) : Except StateError ℕ :=
  (env.eraHistory.slotToEpochUncheckedHorizon slot).mapError .eraHistory

/-- The ledger state. -/
structure State where
  stable : Store
  snapshots : SortedMap ℕ Store
  volatile : VolatileDB
  /-- The latest stake distributions, newest first. -/
  stakeDistributions : List StakeDistribution
  /-- What the background task computes: the rewards, and a stake distribution to install. -/
  rewardsJoinHandle : Option (Except StateError (Option StakeDistribution × Rewards))

namespace State

variable {Body : Type*} (env : Environment Body)

/-! ### Starting -/

variable (snapshots : SortedMap ℕ Store)

/-- The newest snapshot. -/
def mostRecentSnapshot : Except StateError ℕ :=
  match snapshots.keys.getLast? with
  | some epoch => .ok epoch
  | none => .error .emptySnapshots

/-- The snapshot of an epoch. -/
def snapshotFor (epoch : ℕ) : Except StateError Store :=
  match snapshots.get? epoch with
  | some snapshot => .ok snapshot
  | none => .error (.noSnapshot epoch)

/-- The snapshot some epochs back. -/
def snapshotBefore (epoch back : ℕ) : Except StateError Store :=
  if epoch < back then .error .epochUnderflow else snapshotFor snapshots (epoch - back)

/-- The epoch to start in. A boundary that is written already is not crossed again. -/
def initialEpoch (stable : Store) (snapshots : SortedMap ℕ Store) : Except StateError ℕ := do
  let epoch ← env.epochOf stable.tip.slotOrDefault
  match stable.epochTransitionProgress with
  | none => (mostRecentSnapshot snapshots).map fun recent ↦
      if recent = epoch then epoch + 1 else epoch
  | some _ => .ok epoch

/-- The stake distributions to start with. -/
def initialStakeDistributions : Except StateError (List StakeDistribution) := do
  let latest ← mostRecentSnapshot snapshots
  (if latest = 0 then [latest] else [latest, latest - 1]).mapM fun epoch ↦ do
    env.computeStakeDistribution epoch (← snapshotFor snapshots epoch)

/-- Start from a store, with nothing volatile. -/
def new (stable : Store) (snapshots : SortedMap ℕ Store) : Except StateError State :=
  if stable.protocolParameters.protocolVersion.isOlder .minimumSupported then
    .error (.protocolVersionTooOld stable.protocolParameters.protocolVersion)
  else do
    let epoch ← initialEpoch env stable snapshots
    let stakeDistributions ← initialStakeDistributions env snapshots
    return {
      stable, snapshots, stakeDistributions
      volatile := .new epoch stable.protocolParameters stable.governanceActivity
        stable.constitution.guardrailScript
      rewardsJoinHandle := none }

/-! ### Crossing a boundary -/

variable (state : State)

/-- The newest block of the ledger. -/
def tip : Point := (state.volatile.viewBack.map (·.point)).getD state.stable.tip

/-- Whether to compute the rewards: they are not there, the boundary before is written, and the epoch
is old enough. -/
def rewardsAreDue (currentEpoch : ℕ) : Except StateError Bool :=
  if state.volatile.rewardsNotReady && state.rewardsJoinHandle.isNone then
    (mostRecentSnapshot state.snapshots).map fun recent ↦
      decide (recent + 1 = currentEpoch) &&
        decide (env.stabilityWindow ≤ env.eraHistory.slotInEpochOrDefault state.tip.slotOrDefault)
  else .ok false

/-- What the background task computes. -/
def backgroundTasks (currentEpoch : ℕ) (previousEpoch rewardsSnapshot : Store) :
    Except StateError (Option StakeDistribution × Rewards) := do
  let rotated ← if state.stakeDistributions.head?.any (currentEpoch - 1 ≤ ·.epoch) then pure none
    else (env.computeStakeDistribution (currentEpoch - 1) previousEpoch).map some
  let rewards ← env.computeRewards previousEpoch rewardsSnapshot currentEpoch
    state.volatile.protocolParameters
  return (rotated, rewards)

/-- Start the background task. -/
def startBackgroundTasks (currentEpoch : ℕ) : Except StateError State := do
  let previousEpoch ← snapshotBefore state.snapshots currentEpoch 1
  let rewardsSnapshot ← snapshotBefore state.snapshots currentEpoch 3
  return { state with
    rewardsJoinHandle := some (state.backgroundTasks env currentEpoch previousEpoch rewardsSnapshot) }

/-- Compute the rewards, if it is time. -/
def tryComputeRewards : Except StateError State := do
  let currentEpoch ← env.epochOf state.tip.slotOrDefault
  let due ← state.rewardsAreDue env currentEpoch
  if due then state.startBackgroundTasks env currentEpoch else .ok state

/-- Keep a new stake distribution and the one before. -/
def installStakeDistribution (distributions : List StakeDistribution) :
    Option StakeDistribution → List StakeDistribution
  | none => distributions
  | some distribution =>
    if distributions.head?.all (·.epoch < distribution.epoch) then
      (distribution :: distributions).take 2
    else distributions

/-- The rewards to cross a boundary with: those that were computed, or else those of a boundary that
was rolled back. -/
def takeRewards : Except StateError (Option Rewards × State) :=
  match state.rewardsJoinHandle with
  | some handle => handle.map fun (rotated, rewards) ↦ (some rewards, { state with
      rewardsJoinHandle := none
      stakeDistributions := installStakeDistribution state.stakeDistributions rotated })
  | none => .ok (state.volatile.takeComputedRewards.1,
      { state with volatile := state.volatile.takeComputedRewards.2 })

/-- The stake distribution of an epoch, if it is held. -/
def stakeDistribution (epoch : ℕ) : Except StateError StakeDistribution :=
  match state.stakeDistributions.find? (·.epoch = epoch) with
  | some distribution => .ok distribution
  | none => .error (.noSuitableStakeDistribution epoch)

/-- What governance comes to at a boundary: the votes of the epoch before the one that ends. -/
def governanceUpdates (nextEpoch treasury : ℕ) : Except StateError GovernanceUpdates := do
  let snapshot ← snapshotBefore state.snapshots nextEpoch 2
  let distribution ← state.stakeDistribution (nextEpoch - 2)
  (GovernanceUpdates.new state.stable.proposalsRoots
    ((VolatileView.new state.volatile).iterProposals state.stable) env.eraHistory
    (.new (nextEpoch - 2) snapshot.constitutionalCommittee snapshot.ccMembers snapshot.votes
      distribution state.volatile.protocolParameters treasury)).mapError .epochTransition

/-- Cross the boundary into an epoch. -/
def epochTransition (nextEpoch : ℕ) : Except StateError State := do
  let (computedRewards, state) ← state.takeRewards
  let poolsUpdates ← (PoolsEpochTransitionUpdates.new
    ((VolatileView.new state.volatile).iterPools state.stable) nextEpoch).mapError .epochTransition
  let (_, effectiveRewards) ← state.volatile.endRewards state.stable computedRewards
  let governanceUpdates ← state.governanceUpdates env nextEpoch (state.stable.pots.treasury +
    (effectiveRewards.map (·.deltaTreasuryWithUnclaimed)).getD 0)
  let volatile ← state.volatile.crossBoundary state.stable computedRewards poolsUpdates governanceUpdates
  return { state with volatile }

/-- Cross a boundary if the next tip is in a later epoch. -/
def tryEpochTransition (nextTip : Point) : Except StateError State := do
  let nextEpoch ← env.epochOf nextTip.slotOrDefault
  if state.volatile.epoch < nextEpoch then state.epochTransition env nextEpoch else .ok state

/-! ### Rolling forward -/

/-- Write a block that is now stable. -/
def applyBlock (nowStable : AnchoredVolatileFragment) : Except StateError State := do
  let immutableEpoch ← env.epochOf nowStable.point.slotOrDefault
  match state.volatile.parametersFor immutableEpoch with
  | none => .error (.unreachableEpoch immutableEpoch)
  | some (pp, activity) =>
    ((state.stable.applyBlock env.eraHistory pp activity nowStable).map
      fun stable ↦ { state with stable }).mapError .storage

/-- Add a block, and take out the oldest one when there are enough. -/
def pushFragment (block : AnchoredVolatileFragment) :
    Except StateError (Option AnchoredVolatileFragment × State) :=
  if env.consensusSecurityParam ≤ state.volatile.length then
    match state.volatile.popFront with
    | some (nowStable, volatile) =>
      .ok (some nowStable, { state with volatile := volatile.pushBack block })
    | none => .error .emptyVolatile
  else .ok (none, { state with volatile := state.volatile.pushBack block })

/-- Write the overlay, with a snapshot of the epoch that ended. -/
def writeTransition : Except StateError State := do
  let ended ← state.volatile.overlay.endEpoch state.stable
  let stable ← state.volatile.overlay.beginEpoch (StateOverlay.takeSnapshot ended).1
  return { state with
    stable
    snapshots := match (StateOverlay.takeSnapshot ended).2 with
      | some snapshot => state.snapshots.insert (state.volatile.epoch - 1) snapshot
      | none => state.snapshots
    volatile := state.volatile.applied stable }

/-- How many snapshots the ledger needs. -/
def minLedgerSnapshots : ℕ := 3

/-- Drop the snapshots that are not needed any more. -/
def pruneSnapshots : Except StateError State :=
  if state.volatile.epoch < minLedgerSnapshots then .error .epochUnderflow
  else .ok { state with
    snapshots := state.snapshots.filter fun epoch _ ↦
      decide (state.volatile.epoch - minLedgerSnapshots - env.maxExtraLedgerSnapshots ≤ epoch) }

/-- Write the pending boundary if it is stable, after what is left of the epoch that ended. -/
def applyTransition : Except StateError State :=
  if state.volatile.isEpochTransitionStable env.eraHistory env.stabilityWindow then do
    let state ← state.volatile.draining.foldlM (applyBlock env)
      { state with volatile := { state.volatile with draining := [] } }
    let state ← state.writeTransition
    state.pruneSnapshots env
  else .ok state

/-- Record a valid block, and write what is stable with it. -/
def adopt (block : AnchoredVolatileFragment) : Except StateError State := do
  let (nowStable, state) ← state.pushFragment env block
  let state ← nowStable.elim (.ok state) (state.applyBlock env)
  state.applyTransition env

/-- The verdict on a block. -/
inductive BlockValidation
  | valid
  | invalid (failure : InvalidBlock)

/-- Compute the rewards if it is time, and cross the boundary if the block is beyond it. -/
def prepare (block : Block Body) : Except StateError State := do
  let state ← state.tryComputeRewards env
  state.tryEpochTransition env block.point

/-- Roll the ledger forward with a block. What was done before the rules refuse the block **stays**. -/
def rollForward (block : Block Body) : Except StateError (State × BlockValidation) := do
  let state ← state.prepare env block
  let verdict ← env.validateBlock state.volatile state.stable block
  match verdict with
  | .error failure => .ok (state, .invalid failure)
  | .ok fragment => (state.adopt env (block.anchor fragment)).map (·, .valid)

/-! ### Switching to a fork -/

/-- How to undo a rollback. -/
inductive StateRecovery
  | wholeVolatileDB (volatile : VolatileDB)
  | volatileDBPart (forkPoint : Point) (recovery : VolatileDB.Recovery)

/-- How many blocks were rolled back. -/
def StateRecovery.rollbackLength : StateRecovery → ℕ
  | wholeVolatileDB volatile => volatile.length
  | volatileDBPart _ recovery => recovery.rollbackLength

/-- How to undo a rollback, as long as the store has not moved. -/
structure RollbackGuard where
  immutableTip : Point
  kind : StateRecovery

/-- Roll back to a point. -/
def rollbackTo (point : Point) : Except StateError (RollbackGuard × State) :=
  let immutableTip := state.stable.tip
  if point = immutableTip then
    .ok ({ immutableTip, kind := .wholeVolatileDB state.volatile },
      { state with volatile := state.volatile.clear })
  else if point < immutableTip then .error .beyondMaxRollback
  else if state.tip < point then .error .rollbackInTheFuture
  else match state.volatile.rollbackTo point with
    | some (recovery, volatile) =>
      .ok ({ immutableTip, kind := .volatileDBPart point recovery }, { state with volatile })
    | none => .error .unknownRollbackPoint

/-- Undo a rollback, and what was rolled forward since. -/
def recover (guard : RollbackGuard) : Except StateError State :=
  if state.stable.tip = guard.immutableTip then
    match guard.kind with
    | .wholeVolatileDB volatile => .ok { state with volatile }
    | .volatileDBPart forkPoint recovery =>
      match state.volatile.undoRollback forkPoint recovery with
      | some volatile => .ok { state with volatile }
      | none => .error .forkPointGone
  else .error .immutableTipMoved

/-- How a switch ended. A fork of the wrong length is an error of the source, which goes back to where
it was as after an invalid block. -/
inductive ForkSwitchOutcome
  | completed
  | failed (failure : InvalidBlock)
  | partiallyApplied (appliedTip : Point) (failure : InvalidBlock)
  | invalidForkLength (rollbackLength forkLength : ℕ)

/-- Roll forward with the blocks of a fork, up to the first that is invalid. -/
def replay (state : State) (appliedTip : Point) :
    List (Block Body) → Except StateError (State × Point × Option InvalidBlock)
  | [] => .ok (state, appliedTip, none)
  | block :: blocks => do
    let (state, verdict) ← state.rollForward env block
    match verdict with
    | .valid => state.replay block.point blocks
    | .invalid failure => .ok (state, appliedTip, some failure)

/-- Roll forward with the blocks of a fork, and go back if one is invalid and nothing was written. -/
def applyFork (guard : RollbackGuard) (blocks : List (Block Body)) :
    Except StateError (State × ForkSwitchOutcome) := do
  let (state, appliedTip, failure) ← state.replay env guard.immutableTip blocks
  match failure with
  | none => .ok (state, .completed)
  | some failure =>
    if state.stable.tip = guard.immutableTip then
      (state.recover guard).map (·, .failed failure)
    else .ok (state, .partiallyApplied appliedTip failure)

/-- Switch to a fork, as long as the chain it replaces or one block longer. -/
def switchToFork (forkPoint : Point) (blocks : List (Block Body)) :
    Except StateError (State × ForkSwitchOutcome) := do
  let (guard, rolledBack) ← state.rollbackTo forkPoint
  let rollbackLength := guard.kind.rollbackLength
  if blocks.length < rollbackLength ∨ rollbackLength + 1 < blocks.length then
    (rolledBack.recover guard).map (·, .invalidForkLength rollbackLength blocks.length)
  else rolledBack.applyFork env guard blocks

end State

end Amaru
