import Amaru.Ledger.Volatile.Overlay

/-!
# The volatile database

The blocks that are not stable yet, in two series: those of the current epoch, and those of the
previous one that are still **draining** into the store. The overlay stands between the two.

Reading goes through the layers from the newest: current fragments, overlay, draining fragments, and
then the store.
-/

namespace Amaru

/-- The volatile database. -/
structure VolatileDB where
  current : VolatileSeries
  draining : VolatileSeries
  overlay : StateOverlay
  /-- The parameters of the store, without what the overlay changes. -/
  baseProtocolParameters : ProtocolParameters
  /-- The governance activity of the store, without what the overlay changes. -/
  baseGovernanceActivity : GovernanceActivity
  /-- The guardrails of the store, without what the overlay changes. -/
  baseGuardrailScript : Option ScriptHash

/-- The rewards of an account with respect to those of the store. -/
inductive RewardsAtTip
  | reset
  | replace (credit : ℕ)
  | add (credit : ℕ)
deriving DecidableEq, Repr

/-- The rewards, from those of the store. -/
def RewardsAtTip.intoBalance : RewardsAtTip → ℕ → ℕ
  | reset, _ => 0
  | replace credit, _ => credit
  | add credit, base => base + credit

namespace VolatileDB

/-- An empty volatile database. -/
def new (epoch : ℕ) (pp : ProtocolParameters)
    (activity : GovernanceActivity) (guardrailScript : Option ScriptHash) :
    VolatileDB where
  current := []
  draining := []
  overlay := { epoch }
  baseProtocolParameters := pp
  baseGovernanceActivity := activity
  baseGuardrailScript := guardrailScript

/-! ### Reading through the layers -/

variable (db : VolatileDB)

/-- Resolve an output. -/
def resolveInput (input : TransactionInput) : Existence MemoizedTransactionOutput :=
  (db.current.aggregate.resolveInput input).orElse (db.draining.aggregate.resolveInput input)

/-- Resolve a pool. -/
def resolvePool (pool : PoolId) : Existence Unit :=
  if db.current.aggregate.resolvePool pool then .exists_ ()
  else if db.overlay.isPoolRetired pool then .gone
  else if db.draining.aggregate.resolvePool pool then .exists_ ()
  else .unknown

/-- The rewards of an account. -/
def rewardsAtTip (cred : Credential) : RewardsAtTip :=
  if db.current.aggregate.hasWithdrawal cred then .reset
  else
    let credit := db.overlay.pendingRewardCredit cred
    if db.draining.aggregate.hasWithdrawal cred then .replace credit else .add credit

/-- Resolve an account, without its rewards. -/
def accountVerdict (cred : Credential) : Existence AccountBind :=
  (db.current.aggregate.resolveAccount cred).chain (db.draining.aggregate.resolveAccount cred)

/-- Resolve an account. -/
def resolveAccount (cred : Credential) : Existence AccountBind × RewardsAtTip :=
  (db.accountVerdict cred, db.rewardsAtTip cred)

/-- Resolve a delegate representative. -/
def resolveDRep (cred : Credential) : Existence DRepBind :=
  (db.current.aggregate.resolveDRep cred).chain (db.draining.aggregate.resolveDRep cred)

/-- What each layer says of the committee members it names, newest first. -/
def ccMemberVerdicts : List (Credential × Existence CommitteeMemberBind) :=
  db.current.aggregate.resolveCCMembers ++
  (db.current.aggregate.resolveCommitteeCandidates.map fun (_, cold) ↦ (cold, .exists_ {})) ++
  db.overlay.ccMembers ++
  db.draining.aggregate.resolveCCMembers ++
  (db.draining.aggregate.resolveCommitteeCandidates.filterMap fun (id, cold) ↦
    if db.overlay.hasPrunedProposal id then none else some (cold, .exists_ {}))

/-- Resolve the committee members that some layer names. -/
def resolveCCMembers : SortedMap Credential (Existence CommitteeMemberBind) :=
  (SortedMap.group db.ccMemberVerdicts).map fun _ verdicts ↦ .fold verdicts

/-- Resolve a proposal. -/
def resolveProposal (id : ProposalId) : Existence ProposalState :=
  match db.current.aggregate.resolveProposal id with
  | .exists_ proposal => .exists_ proposal
  | _ => if db.overlay.hasPrunedProposal id then .gone
         else db.draining.aggregate.resolveProposal id

/-- The treasury. The source panics when it is negative. -/
def resolveTreasury (pots : Pots) : Option ℕ :=
  (db.overlay.treasuryDelta.add pots.treasury).asCredit

/-- The donations that are not in the store yet. -/
def resolveDonations : ℕ :=
  db.current.aggregate.donations + db.draining.aggregate.donations

/-! ### Parameters -/

/-- The epoch. -/
def epoch : ℕ := db.overlay.epoch

/-- The protocol parameters in force. -/
def protocolParameters : ProtocolParameters :=
  (db.overlay.governanceUpdates.map (·.protocolParameters)).getD db.baseProtocolParameters

/-- The governance activity in force. -/
def governanceActivity : GovernanceActivity :=
  if db.overlay.governanceUpdates.any (·.isDormantEpoch) then
    { consecutiveDormantEpochs := db.baseGovernanceActivity.consecutiveDormantEpochs + 1 }
  else db.baseGovernanceActivity

/-- The protocol parameters and governance activity of the current epoch or of the one before. -/
def parametersFor (epoch : ℕ) : Option (ProtocolParameters × GovernanceActivity) :=
  if epoch = db.epoch then some (db.protocolParameters, db.governanceActivity)
  else if epoch + 1 = db.epoch then some (db.baseProtocolParameters, db.baseGovernanceActivity)
  else none

/-- The guardrails script in force. -/
def guardrailScript : Option ScriptHash :=
  match db.overlay.governanceUpdates.bind (·.newConstitution) with
  | some constitution => constitution.guardrailScript
  | none => db.baseGuardrailScript

/-! ### Sequence -/

/-- How many blocks are not stable. -/
def length : ℕ := db.current.length + db.draining.length

/-- The newest block. -/
def viewBack : Option AnchoredVolatileFragment :=
  db.current.getLast?.or db.draining.getLast?

/-- Take out the oldest block. -/
def popFront : Option (AnchoredVolatileFragment × VolatileDB) :=
  match db.draining, db.current with
  | block :: draining, _ => some (block, { db with draining })
  | [], block :: current => some (block, { db with current })
  | [], [] => none

/-- Add a block. -/
def pushBack (block : AnchoredVolatileFragment) : VolatileDB :=
  { db with current := db.current ++ [block] }

/-! ### The pending boundary -/

/-- Whether the rewards of the epoch are still to be computed. -/
def rewardsNotReady : Bool :=
  match db.overlay.rewards with
  | .notReady => true
  | _ => false

/-- Take the rewards of a boundary that was rolled back. -/
def takeComputedRewards : Option Rewards × VolatileDB :=
  match db.overlay.rewards with
  | .computed rewards => (some rewards, { db with overlay := { db.overlay with rewards := .notReady } })
  | _ => (none, db)

/-- Whether a boundary is pending that can be written: no block of the closing epoch is left, or the
new epoch is old enough. -/
def isEpochTransitionStable (eras : EraHistory) (stabilityWindow : ℕ) : Bool :=
  !db.overlay.isEmpty && (db.draining.isEmpty ||
    decide (stabilityWindow ≤ eras.slotInEpochOrDefault
      ((db.current.getLast?.map (·.point.slotOrDefault)).getD 0)))

/-- The volatile database once the overlay is written: the parameters in force are those of the
store. -/
def applied (store : Store) : VolatileDB :=
  let db' := { db with overlay := db.overlay.applied }
  match db.overlay.governanceUpdates with
  | some updates => { db' with
      baseProtocolParameters := updates.protocolParameters
      baseGovernanceActivity := store.governanceActivity
      baseGuardrailScript := store.constitution.guardrailScript }
  | none => db'

/-! ### Rolling back -/

/-- Empty the volatile database. What was there is kept by the caller. -/
def clear : VolatileDB :=
  { db with
    current := []
    draining := []
    overlay := if db.draining = [] then db.overlay else db.overlay.rollback }

/-- What a rollback discarded. -/
inductive Recovery
  | inEpoch (discarded : VolatileSeries) (overlay : StateOverlay)
  | acrossEpoch (oldCurrent drained : VolatileSeries) (overlay : StateOverlay)

namespace Recovery

/-- How many blocks were discarded. -/
def rollbackLength : Recovery → ℕ
  | inEpoch discarded _ => discarded.length
  | acrossEpoch oldCurrent drained _ => oldCurrent.length + drained.length

end Recovery

/-- Roll back to a point. A point of the closing epoch rolls the boundary back as well. -/
def rollbackTo (point : Point) : Option (Recovery × VolatileDB) :=
  if db.draining.hasPoint point then
    (db.draining.rollbackTo point).map fun (kept, drained) ↦
      (.acrossEpoch db.current drained db.overlay,
        { db with current := kept, draining := [], overlay := db.overlay.rollback })
  else
    (db.current.rollbackTo point).map fun (kept, discarded) ↦
      (.inEpoch discarded db.overlay, { db with current := kept })

/-- Undo a rollback, and what was added since. -/
def undoRollback (forkPoint : Point) : Recovery → Option VolatileDB
  | .inEpoch discarded overlay =>
    -- what was rolled forward may have crossed a boundary
    let db := if db.draining.hasPoint forkPoint then
      { db with current := db.draining, draining := [] } else db
    (db.current.undoRollback forkPoint discarded).map fun current ↦ { db with current, overlay }
  | .acrossEpoch oldCurrent drained overlay =>
    let draining := if db.draining.hasPoint forkPoint then db.draining else db.current
    (draining.undoRollback forkPoint drained).map fun draining ↦
      { db with current := oldCurrent, draining, overlay }

end VolatileDB

end Amaru
