import Amaru.Ledger.Volatile.VolatileDB

/-!
# Preparing a validation context

What a block is validated against: for each key that the block mentions, what the volatile database
says of it and, where that is not conclusive, the row of the store.
-/

namespace Amaru.Preparation

variable (volatile : VolatileDB) (db : Store)

/-- The output of an input. -/
def resolveInput (input : TransactionInput) : Option MemoizedTransactionOutput :=
  match volatile.resolveInput input with
  | .gone => none
  | .exists_ output => some output
  | .unknown => db.utxo.get? input

/-- Whether a pool exists. -/
def resolvePool (pool : PoolId) : Bool :=
  match volatile.resolvePool pool with
  | .gone => false
  | .exists_ _ => true
  | .unknown => db.pools.contains pool

/-- The state of an account. -/
def resolveAccount (cred : Credential) : Option AccountRow :=
  match volatile.resolveAccount cred with
  | (.gone, _) => none
  | (.exists_ ⟨left, right, some deposit⟩, rewardsAtTip) =>
    some
      { deposit
        pool := left.intoOption none
        drep := right.intoOption none
        rewards := rewardsAtTip.intoBalance 0 }
  | (.exists_ ⟨left, right, none⟩, rewardsAtTip) =>
    (db.accounts.get? cred).map fun row ↦
      { deposit := row.deposit
        pool := left.intoOption row.pool
        drep := right.intoOption row.drep
        rewards := rewardsAtTip.intoBalance row.rewards }
  | (.unknown, rewardsAtTip) =>
    (db.accounts.get? cred).map fun row ↦
      { row with rewards := rewardsAtTip.intoBalance row.rewards }

/-- The registration of a delegate representative. -/
def resolveDRep (cred : Credential) : Option DRepRegistration :=
  match volatile.resolveDRep cred with
  | .gone => none
  | .exists_ ⟨_, _, some registration⟩ => some registration
  | .exists_ ⟨_, _, none⟩ | .unknown => (db.dreps.get? cred).map (·.toDRepRegistration)

/-- A proposal. The source keeps the part of it that validation needs. -/
def resolveProposal (id : ProposalId) : Option ProposalState :=
  match volatile.resolveProposal id with
  | .gone => none
  | .exists_ proposal => some proposal
  | .unknown => db.proposals.get? id

/-! ### Committee -/

variable (cold hot : SortedSet Credential)

/-- Whether a member is needed: a certificate names it, or a vote names its hot credential. -/
def isNeeded (cred : Credential) (status : Option ConstitutionalCommitteeMemberStatus) : Bool :=
  decide (cred ∈ cold) || match status with
    | some (.delegatedToHotCredential cred) => decide (cred ∈ hot)
    | _ => false

/-- The members the store has a row for. -/
def committeeRows : SortedMap Credential CCMemberRow :=
  db.ccMembers.filterMap fun cred row ↦
    match (volatile.resolveCCMembers.get? cred).getD .unknown with
    | .unknown => if isNeeded cold hot cred row.status then some row else none
    | .exists_ bind =>
      let status := bind.left.intoOption row.status
      if isNeeded cold hot cred status then
        some { status, validUntil := bind.right.intoOption row.validUntil }
      else none
    | .gone => none

/-- The members that only the volatile database knows. -/
def volatileMembers : SortedMap Credential CCMemberRow :=
  volatile.resolveCCMembers.filterMap fun cred verdict ↦
    match verdict with
    | .exists_ bind =>
      if db.ccMembers.contains cred then none
      else some { status := bind.left.intoOption none, validUntil := bind.right.intoOption none }
    | _ => none

/-- The candidates of the proposals of the store that the boundary does not prune. -/
def stableCandidates : List Credential :=
  db.proposals.entries.flatMap fun (id, state) ↦
    match volatile.resolveProposal id with
    | .gone => []
    | _ => VolatileAggregate.candidatesOf state

/-- The committee members that certificates and votes need. -/
def resolveCommittee : SortedMap Credential CCMemberRow :=
  if cold.entries = [] ∧ hot.entries = [] then ∅
  else
    let members := (committeeRows volatile db cold hot).insertAll (volatileMembers volatile db)
    (stableCandidates volatile db).foldl (fun members candidate ↦
      if candidate ∈ cold then
        members.alter candidate fun existing ↦ some (existing.getD {})
      else members) members

end Amaru.Preparation
