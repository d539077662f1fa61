import Amaru.Kernel.Output

/-!
# Rows of the stable store

The columns of the store are maps from a key to a row. The rows are those of the source; fields that
are only carried along (relays and metadata of pools, anchors of proposals and votes) are left out.
-/

namespace Amaru

/-! ### Points -/

/-- A point of the chain. -/
inductive Point
  | origin
  | specific (slot hash height : ℕ)
deriving DecidableEq, Repr

namespace Point

/-- The slot of a point, the origin being at slot zero. -/
def slotOrDefault : Point → ℕ
  | origin => 0
  | specific slot _ _ => slot

/-- The height of a point. -/
def blockHeight : Point → ℕ
  | origin => 0
  | specific _ _ height => height

/-- The position of a point in the derived order: the origin comes first. -/
def toKey : Point → ℕ ×ₗ ℕ ×ₗ ℕ ×ₗ ℕ
  | origin => toLex (0, toLex (0, toLex (0, 0)))
  | specific slot hash height => toLex (1, toLex (slot, toLex (hash, height)))

instance : LinearOrder Point := .ofKey toKey <| by
  rintro (_ | ⟨a, b, c⟩) (_ | ⟨a', b', c'⟩) h <;> simp_all [toKey]

/-- Whether a point is no newer than the tip of the store. -/
def isStale : Point → Point → Bool
  | specific new _ _, specific current _ _ => decide (new ≤ current)
  | _, _ => false

/-- Whether a block at a point can follow one at another: its slot is later. -/
def Before : Point → Point → Prop
  | _, origin => False
  | origin, specific _ _ _ => True
  | specific slot _ _, specific slot' _ _ => slot < slot'

theorem Before.trans : ∀ {p q r : Point}, p.Before q → q.Before r → p.Before r
  | _, origin, _, h, _ => h.elim
  | _, specific _ _ _, origin, _, h => h.elim
  | origin, specific _ _ _, specific _ _ _, _, _ => trivial
  | specific _ _ _, specific _ _ _, specific _ _ _, h, h' => Nat.lt_trans h h'

theorem Before.ne : ∀ {p q : Point}, p.Before q → p ≠ q
  | _, origin, h => h.elim
  | origin, specific _ _ _, _ => Point.noConfusion
  | specific _ _ _, specific _ _ _, h => fun heq ↦ (Point.specific.inj heq).1.not_lt h

theorem Before.not_isStale : ∀ {p q : Point}, p.Before q → q.isStale p = false
  | _, origin, h => h.elim
  | origin, specific _ _ _, _ => rfl
  | specific _ _ _, specific _ _ _, h => decide_eq_false (Nat.not_le.2 h)

end Point

/-! ### Committee -/

/-- What a committee member made of its seat. -/
inductive ConstitutionalCommitteeMemberStatus
  | delegatedToHotCredential (hot : Credential)
  | resigned
deriving DecidableEq, Repr

/-- The state of the committee as a whole. -/
inductive ConstitutionalCommitteeStatus
  | noConfidence
  | trusted (threshold : ℚ)
deriving DecidableEq, Repr

/-- A committee member, by cold credential. A candidate of an ongoing proposal may have a status and
no term yet. -/
structure CCMemberRow where
  status : Option ConstitutionalCommitteeMemberStatus := none
  validUntil : Option ℕ := none
deriving DecidableEq, Repr

/-! ### Accounts -/

/-- A stake account, by credential. -/
structure AccountRow where
  pool : Option (PoolId × CertificatePointer) := none
  deposit : ℕ
  drep : Option (DRep × CertificatePointer) := none
  rewards : ℕ
deriving DecidableEq, Repr

/-- Pay an account. -/
def AccountRow.pay (amount : ℕ) (row : AccountRow) : AccountRow :=
  { row with rewards := row.rewards + amount }

/-! ### Delegate representatives -/

/-- The registration of a delegate representative. -/
structure DRepRegistration where
  deposit : ℕ
  registeredAt : CertificatePointer
  validUntil : ℕ
deriving DecidableEq, Repr

/-- A delegate representative, by credential. -/
structure DRepRow extends DRepRegistration where
  anchor : Option Anchor := none
deriving DecidableEq, Repr

/-! ### Pools -/

/-- The parameters of a stake pool. -/
structure PoolParams where
  id : PoolId
  vrf : ℕ
  pledge : ℕ
  cost : ℕ
  margin : ℚ
  rewardAccount : RewardAccount
  owners : Finset KeyHash
deriving DecidableEq

/-- A certificate of a pool that waits for an epoch boundary. -/
inductive PoolCertificate
  | registration (params : PoolParams)
  | retirement (epoch : ℕ)
deriving DecidableEq

/-- A stake pool, by identifier. -/
structure PoolRow where
  registeredAt : CertificatePointer
  deposit : ℕ
  currentParams : PoolParams
  pendingCertificates : List PoolCertificate := []
deriving DecidableEq

/-! ### Governance -/

/-- A proposal as submitted. -/
structure Proposal where
  deposit : ℕ
  rewardAccount : RewardAccount
  govAction : GovernanceAction
deriving DecidableEq

/-- A proposal of the ledger. -/
structure ProposalState where
  proposedIn : ProposalPointer
  validUntil : ℕ
  proposal : Proposal
deriving DecidableEq

/-- A vote of a voter on a proposal. -/
structure BallotId where
  proposal : ProposalId
  voter : Voter
deriving DecidableEq, Repr

namespace BallotId

/-- Ballots are grouped by proposal. -/
def toKey (b : BallotId) : ProposalId ×ₗ Voter := toLex (b.proposal, b.voter)

instance : LinearOrder BallotId := .ofKey toKey <| by
  rintro ⟨p, v⟩ ⟨q, w⟩ h
  simpa [toKey] using h

end BallotId

/-- How long governance has been dormant. -/
structure GovernanceActivity where
  consecutiveDormantEpochs : ℕ
deriving DecidableEq, Repr

/-! ### Pots -/

/-- The pots of the ledger. -/
structure Pots where
  treasury : ℕ
  reserves : ℕ
  fees : ℕ
  donations : ℕ
deriving DecidableEq, Repr

end Amaru
