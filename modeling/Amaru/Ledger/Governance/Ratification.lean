import Amaru.Ledger.Governance.Pruning
import Amaru.Ledger.Governance.Voting

/-!
# Ratification

A round of ratification takes the proposals of the forest one by one, asks the three bodies in turn,
and enacts what they all accept. The loop is bounded by the length of the forest's sequence, which
every candidate shortens; `ratifyLoop_succ` says that this bound is never what ends it.

Each pass of the loop is a move of the forest, so **a whole round is a `Round`**, and what holds of
rounds holds of the forest a round ends with.

The committee is asked first, and **a committee that is absent refuses everything**, its own renewal
included: from a state of no confidence, no round enacts anything.
-/

namespace Amaru

open ProposalsForest ConstitutionalCommittee Except

/-- What votes are counted with, and what has been enacted so far in this round. -/
structure RatificationContext where
  epoch : ℕ
  treasury : ℕ
  stakeDistribution : StakeDistribution
  protocolParameters : ProtocolParameters
  withdrawals : SortedMap Credential ℕ
  constitutionalCommittee : Option ConstitutionalCommittee
  constitutionalCommitteeUpdate : Option ConstitutionalCommitteeUpdate
  newConstitution : Option Constitution
  votes : SortedMap ProposalId (List (Voter × Vote))

/-- Why a round failed. -/
inductive RatificationInternalError
  | internalForestCreationError (error : ProposalsInsertError ProposalId)
  | internalForestEnactmentError (error : ProposalsEnactError ProposalId)

/-- The votes of each body. -/
structure PartitionedVotes where
  dreps : SortedMap DRep Vote := ∅
  committee : SortedMap Credential Vote := ∅
  pools : SortedMap PoolId Vote := ∅

/-- Split the votes by body. -/
def partitionVotes (votes : List (Voter × Vote)) : PartitionedVotes :=
  votes.foldl (fun acc (voter, vote) ↦
    match voter with
    | .constitutionalCommitteeKey hash =>
      { acc with committee := acc.committee.insert (.keyHash hash) vote }
    | .constitutionalCommitteeScript hash =>
      { acc with committee := acc.committee.insert (.scriptHash hash) vote }
    | .dRepKey hash => { acc with dreps := acc.dreps.insert (.key hash) vote }
    | .dRepScript hash => { acc with dreps := acc.dreps.insert (.script hash) vote }
    | .stakePoolKey pool => { acc with pools := acc.pools.insert pool vote }) {}

namespace RatificationContext

variable {ctx : RatificationContext}

/-- The context of a round, from the snapshot of an epoch. -/
def new (epoch : ℕ) (committeeStatus : ConstitutionalCommitteeStatus)
    (ccMembers : SortedMap Credential CCMemberRow) (votes : SortedMap BallotId Vote)
    (stakeDistribution : StakeDistribution) (protocolParameters : ProtocolParameters)
    (treasury : ℕ) : RatificationContext where
  epoch
  treasury
  stakeDistribution
  protocolParameters
  withdrawals := ∅
  constitutionalCommittee :=
    resolve committeeStatus ccMembers stakeDistribution.ccUpdate
  constitutionalCommitteeUpdate := none
  newConstitution := none
  votes := .group (votes.entries.map fun (id, vote) ↦ (id.proposal, id.voter, vote))

/-! ### The three bodies -/

section

variable (ctx : RatificationContext)

/-- Whether the committee accepts a proposal. -/
def isAcceptedByConstitutionalCommittee (proposal : ProposalEnum)
    (votes : SortedMap Credential Vote) : Bool :=
  (ctx.constitutionalCommittee.bind fun committee ↦
    (committee.votingThreshold ctx.epoch ctx.protocolParameters.minCommitteeSize proposal).map
      fun threshold ↦ decide (threshold = 0 ∨ threshold ≤ committee.tally ctx.epoch votes)).getD
    false

/-- Whether the stake pools accept a proposal. -/
def isAcceptedByStakePoolOperators (proposal : ProposalEnum) (votes : SortedMap PoolId Vote) : Bool :=
  match StakePools.votingThreshold ctx.constitutionalCommittee.isNone
      ctx.protocolParameters.poolVotingThresholds proposal with
  | none => false
  | some threshold =>
    decide (threshold = 0 ∨ threshold ≤ StakePools.tally proposal votes ctx.stakeDistribution)

/-- Whether the representatives accept a proposal. -/
def isAcceptedByDelegateRepresentatives (proposal : ProposalEnum) (votes : SortedMap DRep Vote) : Bool :=
  match DReps.votingThreshold ctx.constitutionalCommittee.isNone
      ctx.protocolParameters.drepVotingThresholds proposal with
  | none => false
  | some threshold =>
    decide (threshold = 0 ∨ threshold ≤ DReps.tally ctx.epoch proposal votes ctx.stakeDistribution)

/-- The votes cast on a proposal. -/
def votesOn (id : ProposalId) : PartitionedVotes :=
  partitionVotes ((ctx.votes.get? id).getD [])

/-- Whether all three bodies accept a proposal. -/
def isAcceptedByEveryone (id : ProposalId) (proposal : ProposalEnum) : Bool :=
  let votes := ctx.votesOn id
  if ctx.isAcceptedByConstitutionalCommittee proposal votes.committee then
    if ctx.isAcceptedByStakePoolOperators proposal votes.pools then
      ctx.isAcceptedByDelegateRepresentatives proposal votes.dreps
    else false
  else false

/-! ### Enacting -/

/-- Add withdrawals to those enacted before. -/
def addWithdrawals (total withdrawals : SortedMap Credential ℕ) : SortedMap Credential ℕ :=
  withdrawals.entries.foldl (fun total e ↦ total.alter e.1 fun balance ↦ some (balance.getD 0 + e.2)) total

/-- Apply an accepted proposal. A poll is never accepted; the source does not return here. -/
def enactProposal : ProposalEnum → RatificationContext
  | .protocolParameters update _ =>
    { ctx with protocolParameters := ctx.protocolParameters.update update }
  | .hardFork version _ =>
    { ctx with protocolParameters := { ctx.protocolParameters with protocolVersion := version } }
  | .constitutionalCommittee .noConfidence _ =>
    { ctx with
      constitutionalCommittee := none
      constitutionalCommitteeUpdate := some .noConfidence }
  | .constitutionalCommittee (.changeMembers removed added threshold) _ =>
    let addedAsInactive := inactive added
    { ctx with
      constitutionalCommittee := some (match ctx.constitutionalCommittee with
        | some committee => committee.update threshold addedAsInactive removed
        | none => { threshold, members := addedAsInactive })
      constitutionalCommitteeUpdate := some (.changeMembers removed added threshold) }
  | .constitution constitution _ => { ctx with newConstitution := some constitution }
  | .orphan (.treasuryWithdrawal withdrawals) =>
    { ctx with withdrawals := addWithdrawals ctx.withdrawals withdrawals }
  | .orphan .nicePoll => ctx

/-- The loop of a round, for at most so many candidates. -/
def ratifyLoop : ℕ → RatificationContext → ProposalsForest →
    Except RatificationInternalError (RatificationContext × ProposalsForest)
  | 0, ctx, forest => .ok (ctx, forest)
  | fuel + 1, ctx, forest =>
    match forest.next ctx.protocolParameters with
    | (none, forest) => .ok (ctx, forest)
    | (some (id, context), forest) =>
      if ctx.isAcceptedByEveryone id context.proposal then
        match forest.enact id context.proposal with
        | .error e => .error (.internalForestEnactmentError e)
        | .ok forest => ratifyLoop fuel (ctx.enactProposal context.proposal) forest
      else ratifyLoop fuel ctx forest

/-- A round, up to the forest it ends with. -/
def ratifyRound (eras : EraHistory)
    (proposals : List (ProposalId × CandidateProposal)) (roots : ProposalsRoots) :
    Except RatificationInternalError (RatificationContext × ProposalsForest) :=
  match (ProposalsForest.new ctx.epoch roots ctx.treasury).drain eras proposals with
  | .error e => .error (.internalForestCreationError e)
  | .ok forest => ratifyLoop forest.sequence.length ctx forest

/-- A round: the new roots, and the proposals that leave the ledger. -/
def ratifyProposals (eras : EraHistory)
    (proposals : List (ProposalId × CandidateProposal)) (roots : ProposalsRoots) :
    Except RatificationInternalError
      (RatificationContext × ProposalsRoots × SortedMap ProposalId RatificationStatus) :=
  (fun (ctx, forest) ↦ (ctx, forest.roots, forest.end_)) <$> ctx.ratifyRound eras proposals roots

end

/-! ### The loop ends by itself -/

/-- **The bound is never what ends the loop**: with as many passes as the sequence is long, one
more pass changes nothing. -/
theorem ratifyLoop_succ (n : ℕ) : ∀ (ctx : RatificationContext) (forest : ProposalsForest),
    forest.sequence.length ≤ n → ratifyLoop (n + 1) ctx forest = ratifyLoop n ctx forest := by
  induction n with
  | zero =>
    intro ctx forest hlen
    have hnil : forest.sequence = [] := List.length_eq_zero_iff.1 (Nat.le_zero.1 hlen)
    have hnext : forest.next ctx.protocolParameters = (none, forest) := by
      rw [next]
      split_ifs
      · rfl
      · show ((forest.nextOf _ forest.sequence).1,
          { forest with sequence := (forest.nextOf _ forest.sequence).2 }) = (none, forest)
        rw [hnil, nextOf, ← hnil]
    simp [ratifyLoop, hnext]
  | succ n ih =>
    intro ctx forest hlen
    rw [ratifyLoop, ratifyLoop]
    rcases hnext : forest.next ctx.protocolParameters with ⟨_ | ⟨id, context⟩, forest'⟩
    · rfl
    obtain ⟨skipped, hsplit⟩ := (yields_of_next hnext).exists_skipped
    rw [hsplit, List.length_append, List.length_cons] at hlen
    dsimp only
    split_ifs
    · rcases henact : forest'.enact id context.proposal with e | forest''
      · rfl
      · have hle := length_sequence_enact henact
        exact ih _ _ (by omega)
    · exact ih _ _ (by omega)

/-! ### A state of no confidence -/

theorem not_accepted_of_no_committee (h : ctx.constitutionalCommittee = none) (id : ProposalId)
    (proposal : ProposalEnum) :
    ctx.isAcceptedByEveryone id proposal = false := by
  have hcommittee : ∀ votes, ctx.isAcceptedByConstitutionalCommittee proposal votes = false :=
    fun votes ↦ by rw [isAcceptedByConstitutionalCommittee, h]; rfl
  simp [isAcceptedByEveryone, hcommittee]

theorem ratifyLoop_of_no_committee (h : ctx.constitutionalCommittee = none) (n : ℕ) :
    ∀ forest : ProposalsForest,
    ∃ forest', ratifyLoop n ctx forest = .ok (ctx, forest') ∧ forest'.roots = forest.roots ∧
      forest'.pruned = forest.pruned := by
  induction n with
  | zero => exact fun forest ↦ ⟨forest, rfl, rfl, rfl⟩
  | succ n ih =>
    intro forest
    have hkeeps := forest.next_keeps ctx.protocolParameters
    rw [ratifyLoop]
    rcases hnext : forest.next ctx.protocolParameters with ⟨_ | ⟨id, context⟩, f⟩
    all_goals rw [hnext] at hkeeps
    · exact ⟨f, rfl, hkeeps⟩
    · obtain ⟨forest', hloop, hroots, hpruned⟩ := ih f
      refine ⟨forest', ?_, hroots.trans hkeeps.1, hpruned.trans hkeeps.2⟩
      simpa [not_accepted_of_no_committee h] using hloop

/-- **A state of no confidence is never left.** Whatever the votes, the stake and the proposals: no
proposal is accepted without a committee, and a round keeps the context and the roots and ratifies
nothing. -/
theorem no_confidence_never_left (h : ctx.constitutionalCommittee = none) (eras : EraHistory)
    (proposals : List (ProposalId × CandidateProposal)) (roots : ProposalsRoots) :
    (∀ id proposal, ctx.isAcceptedByEveryone id proposal = false) ∧
      ∀ ctx' roots' pruned,
        ctx.ratifyProposals eras proposals roots = .ok (ctx', roots', pruned) →
          ctx' = ctx ∧ roots' = roots ∧ ∀ id, pruned.get? id ≠ some .ratified := by
  refine ⟨not_accepted_of_no_committee h, fun ctx' roots' pruned hround ↦ ?_⟩
  rw [ratifyProposals, map_eq_ok_iff] at hround
  obtain ⟨⟨ctx₁, forest⟩, hround, heq⟩ := hround
  obtain ⟨rfl, rfl, rfl⟩ : ctx₁ = ctx' ∧ forest.roots = roots' ∧ forest.end_ = pruned := by
    simpa using heq
  rw [ratifyRound] at hround
  cases hdrain : (ProposalsForest.new ctx.epoch roots ctx.treasury).drain eras proposals with
  | error e => simp [hdrain] at hround
  | ok forest₀ =>
    rw [hdrain] at hround
    obtain ⟨forest', hloop, hroots, hpruned⟩ :=
      ratifyLoop_of_no_committee h forest₀.sequence.length forest₀
    obtain ⟨rfl, rfl⟩ := Prod.mk.inj (ok.inj (hround.symm.trans hloop))
    obtain ⟨hroots₀, hpruned₀⟩ := drain_keeps hdrain
    refine ⟨rfl, hroots.trans hroots₀, fun id ↦ ?_⟩
    have hnone : forest.pruned.get? id = none := by
      rw [hpruned, hpruned₀]
      rfl
    rcases forest.get?_visit _ id with h | ⟨-, h⟩ <;> rw [end_, h]
    · simp [hnone]
    · simp

/-- A proposal to elect a committee of one. -/
def renewal : ProposalId × CandidateProposal :=
  (⟨1, 0⟩, { validUntil := 9
             proposedIn := ⟨⟨30, 0⟩, 0⟩
             governanceAction := .updateCommittee none ∅ [(.keyHash 7, 20)] (1 / 2) })

/-- A state of no confidence in which one pool and one representative hold all the stake, and both
vote for the renewal. -/
def afterNoConfidence : RatificationContext where
  epoch := 5
  treasury := 0
  stakeDistribution :=
    { epoch := 5
      poolsVotingStake := 100
      pools := .ofList [(1, { votingStake := 100, fallbackDrep := none })]
      dreps := .ofList [(.key 2, { validUntil := some 30, votingStake := 100 })]
      ccUpdate := none }
  protocolParameters :=
    { (default : ProtocolParameters) with
      maxCommitteeTermLength := 50
      poolVotingThresholds := ⟨1 / 2, 1 / 2, 1 / 2, 1 / 2, 1 / 2⟩
      drepVotingThresholds :=
        ⟨1 / 2, 1 / 2, 1 / 2, 1 / 2, 1 / 2, 1 / 2, 1 / 2, 1 / 2, 1 / 2, 1 / 2⟩ }
  withdrawals := ∅
  constitutionalCommittee := none
  constitutionalCommitteeUpdate := none
  newConstitution := none
  votes := .ofList [(⟨1, 0⟩, [(.dRepKey 2, .yes), (.stakePoolKey 1, .yes)])]

/-- **The renewal is refused.** It is the candidate the forest yields, the pools and the
representatives accept it, and yet it is not accepted, and the round does not enact it. -/
theorem renewal_refused :
    (∃ forest context, (ProposalsForest.new 5 {} 0).drain tenSlotEpochs [renewal] =
        .ok forest ∧
      (forest.next afterNoConfidence.protocolParameters).1 = some (⟨1, 0⟩, context) ∧
      context.proposal = renewal.2.proposal) ∧
    afterNoConfidence.isAcceptedByStakePoolOperators renewal.2.proposal
      (afterNoConfidence.votesOn ⟨1, 0⟩).pools = true ∧
    afterNoConfidence.isAcceptedByDelegateRepresentatives renewal.2.proposal
      (afterNoConfidence.votesOn ⟨1, 0⟩).dreps = true ∧
    afterNoConfidence.isAcceptedByEveryone ⟨1, 0⟩ renewal.2.proposal = false ∧
    afterNoConfidence.ratifyProposals tenSlotEpochs [renewal] {} =
      .ok (afterNoConfidence, {}, ∅) := by
  refine ⟨⟨_, _, rfl, rfl, rfl⟩, ?_, ?_, rfl, rfl⟩
  · decide +kernel
  · decide +kernel

theorem no_confidence_never_left_renewal :
    afterNoConfidence.constitutionalCommittee = none ∧
      (∀ id proposal, afterNoConfidence.isAcceptedByEveryone id proposal = false) :=
  ⟨rfl, (no_confidence_never_left (by rfl) tenSlotEpochs [renewal] {}).1⟩

end RatificationContext

end Amaru
