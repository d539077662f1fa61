import Amaru.Kernel.ProtocolParameters
import Mathlib.Data.Finset.Basic

/-!
# Governance actions and proposals

A governance action as submitted, and the proposal the ratification works on. Actions that change
the same thing form a chain through their parents: there is one chain for each `Purpose`, and the
motion of no confidence shares the chain of the committee updates. Treasury withdrawals and polls
are orphans, which never chain.
-/

namespace Amaru

/-- The network an address belongs to. -/
inductive Network
  | testnet
  | mainnet
deriving DecidableEq, Repr, Inhabited

namespace Network

/-- The network's identifier. -/
def toKey : Network → ℕ
  | testnet => 0
  | mainnet => 1

instance : LinearOrder Network := .ofKey toKey <| by
  rintro (_ | _) (_ | _) h <;> simp_all [toKey]

end Network

/-- A reward account: a stake credential on a network. -/
structure RewardAccount where
  network : Network
  credential : Credential
deriving DecidableEq, Repr, Inhabited

namespace RewardAccount

/-- The position of an account in the derived order. -/
def toKey (a : RewardAccount) : Network ×ₗ Credential := toLex (a.network, a.credential)

instance : LinearOrder RewardAccount := .ofKey toKey <| by
  rintro ⟨a, b⟩ ⟨c, d⟩ h
  simp_all [toKey]

end RewardAccount

/-- A pointer to an off-chain document. -/
structure Anchor where
  contentHash : ℕ
  url : String
deriving DecidableEq, Repr, Inhabited

/-- The constitution: a document and an optional guardrail script. -/
structure Constitution where
  anchor : Anchor
  guardrailScript : Option ScriptHash
deriving DecidableEq, Repr, Inhabited

/-- A change of the constitutional committee. -/
inductive ConstitutionalCommitteeUpdate
  | noConfidence
  | changeMembers (removed : SortedSet Credential) (added : SortedMap Credential ℕ) (threshold : ℚ)
deriving DecidableEq

/-- A proposal that does not chain. -/
inductive OrphanProposal
  | treasuryWithdrawal (withdrawals : SortedMap Credential ℕ)
  | nicePoll
deriving DecidableEq

/-- A proposal, as the ratification sees it. -/
inductive ProposalEnum
  | protocolParameters (update : ProtocolParamUpdate) (parent : Option ProposalId)
  | hardFork (version : ProtocolVersion) (parent : Option ProposalId)
  | constitutionalCommittee (update : ConstitutionalCommitteeUpdate) (parent : Option ProposalId)
  | constitution (constitution : Constitution) (parent : Option ProposalId)
  | orphan (proposal : OrphanProposal)
deriving DecidableEq

/-- What a chain of proposals changes. -/
inductive Purpose
  | protocolParameters
  | hardFork
  | constitutionalCommittee
  | constitution
deriving DecidableEq, Repr

namespace ProposalEnum

/-- The parent a proposal chains onto, if any. -/
def parent : ProposalEnum → Option ProposalId
  | protocolParameters _ parent => parent
  | hardFork _ parent => parent
  | constitutionalCommittee _ parent => parent
  | constitution _ parent => parent
  | orphan _ => none

/-- The chain a proposal belongs to; orphans belong to none. -/
def purpose : ProposalEnum → Option Purpose
  | protocolParameters _ _ => some .protocolParameters
  | hardFork _ _ => some .hardFork
  | constitutionalCommittee _ _ => some .constitutionalCommittee
  | constitution _ _ => some .constitution
  | orphan _ => none

/-- Only proposals with a purpose have a parent. -/
theorem exists_purpose_of_parent {proposal : ProposalEnum} {id : ProposalId}
    (h : proposal.parent = some id) : ∃ p, proposal.purpose = some p := by
  cases proposal with
  | orphan _ => simp [parent] at h
  | _ => exact ⟨_, rfl⟩

/-- Compare the priorities of two proposals: no confidence, committee, constitution, hard fork,
parameters, withdrawals, polls. -/
def cmpPriority : ProposalEnum → ProposalEnum → Ordering
  | constitutionalCommittee .noConfidence _, constitutionalCommittee .noConfidence _ => .eq
  | constitutionalCommittee .noConfidence _, _ => .gt
  | _, constitutionalCommittee .noConfidence _ => .lt
  | constitutionalCommittee _ _, constitutionalCommittee _ _ => .eq
  | constitutionalCommittee _ _, _ => .gt
  | _, constitutionalCommittee _ _ => .lt
  | constitution _ _, constitution _ _ => .eq
  | constitution _ _, _ => .gt
  | _, constitution _ _ => .lt
  | hardFork _ _, hardFork _ _ => .eq
  | hardFork _ _, _ => .gt
  | _, hardFork _ _ => .lt
  | protocolParameters _ _, protocolParameters _ _ => .eq
  | protocolParameters _ _, _ => .gt
  | _, protocolParameters _ _ => .lt
  | orphan (.treasuryWithdrawal _), orphan (.treasuryWithdrawal _) => .eq
  | orphan (.treasuryWithdrawal _), _ => .gt
  | _, orphan (.treasuryWithdrawal _) => .lt
  | orphan .nicePoll, orphan .nicePoll => .eq

/-- Whether the proposal is a hard fork. -/
def isHardfork : ProposalEnum → Bool
  | hardFork _ _ => true
  | _ => false

/-- Whether the proposal is a motion of no confidence. -/
def isNoConfidence : ProposalEnum → Bool
  | constitutionalCommittee .noConfidence _ => true
  | _ => false

end ProposalEnum

/-- A governance action, as submitted in a transaction. -/
inductive GovernanceAction
  | parameterChange (parent : Option ProposalId) (update : ProtocolParamUpdate)
      (guardrailsScript : Option ScriptHash)
  | hardForkInitiation (parent : Option ProposalId) (version : ProtocolVersion)
  | treasuryWithdrawals (withdrawals : SortedMap RewardAccount ℕ) (guardrailsScript : Option ScriptHash)
  | noConfidence (parent : Option ProposalId)
  | updateCommittee (parent : Option ProposalId) (removed : SortedSet Credential)
      (added : List (Credential × ℕ)) (threshold : ℚ)
  | newConstitution (parent : Option ProposalId) (constitution : Constitution)
  | information
deriving DecidableEq

/-- The proposal of a governance action. -/
def GovernanceAction.toProposalEnum : GovernanceAction → ProposalEnum
  | parameterChange parent update _ => .protocolParameters update parent
  | hardForkInitiation parent version => .hardFork version parent
  | treasuryWithdrawals withdrawals _ =>
    .orphan (.treasuryWithdrawal (withdrawals.entries.foldl
      (fun accum e ↦ accum.insert e.1.credential e.2) ∅))
  | updateCommittee parent removed added threshold =>
    .constitutionalCommittee (.changeMembers removed (SortedMap.ofList added) threshold) parent
  | noConfidence parent => .constitutionalCommittee .noConfidence parent
  | newConstitution parent constitution => .constitution constitution parent
  | information => .orphan .nicePoll

/-- The last enacted proposal of every chain. -/
structure ProposalsRoots where
  protocolParameters : Option ProposalId := none
  hardFork : Option ProposalId := none
  constitutionalCommittee : Option ProposalId := none
  constitution : Option ProposalId := none
deriving DecidableEq, Repr, Inhabited

/-- The last enacted proposal of a chain. -/
def ProposalsRoots.rootOf (roots : ProposalsRoots) : Purpose → Option ProposalId
  | .protocolParameters => roots.protocolParameters
  | .hardFork => roots.hardFork
  | .constitutionalCommittee => roots.constitutionalCommittee
  | .constitution => roots.constitution

/-- What became of a proposal that leaves the ledger. -/
inductive RatificationStatus
  | ratified
  | notRatified
deriving DecidableEq, Repr

/-- A vote. -/
inductive Vote
  | no
  | yes
  | abstain
deriving DecidableEq, Repr

/-- A voter: whose vote it is. -/
inductive Voter
  | constitutionalCommitteeKey (hash : KeyHash)
  | constitutionalCommitteeScript (hash : ScriptHash)
  | dRepKey (hash : KeyHash)
  | dRepScript (hash : ScriptHash)
  | stakePoolKey (pool : PoolId)
deriving DecidableEq, Repr

namespace Voter

/-- Voters are ordered by role. -/
def toKey : Voter → ℕ ×ₗ ℕ
  | constitutionalCommitteeScript h => toLex (0, h)
  | constitutionalCommitteeKey h => toLex (1, h)
  | dRepScript h => toLex (2, h)
  | dRepKey h => toLex (3, h)
  | stakePoolKey h => toLex (4, h)

instance : LinearOrder Voter := .ofKey toKey <| by
  rintro (_ | _ | _ | _ | _) (_ | _ | _ | _ | _) h <;> simp_all [toKey]

/-- The credential of a voter that is a delegate representative. -/
def drepCredential : Voter → Option Credential
  | dRepKey h => some (.keyHash h)
  | dRepScript h => some (.scriptHash h)
  | _ => none

end Voter

end Amaru
