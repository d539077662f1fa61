import Amaru.Ledger.Store.Columns
import Mathlib.Data.Finset.Card
import Mathlib.Data.Rat.Cast.Order

/-!
# Voting bodies

The three bodies that vote on a proposal: the constitutional committee, the stake pool operators and
the delegate representatives. For each there is a **threshold**, which depends on the proposal and
is missing where the body cannot accept it, and a **tally**, the ratio of its votes in favour.

The committee may be absent, which is a state of no confidence. It has no say on its own renewal:
its threshold for a committee proposal is zero.
-/

namespace Amaru

open List

/-! ### The constitutional committee -/

/-- A constitutional committee: cold credentials, with their hot credential, if any, and the end of
their term. -/
structure ConstitutionalCommittee where
  threshold : ℚ
  members : SortedMap Credential (Option Credential × ℕ)
deriving DecidableEq

namespace ConstitutionalCommittee

/-- The hot credential of a stored member. -/
def hotCredentialFromRow (row : CCMemberRow) : Option Credential :=
  match row.status with
  | some (.delegatedToHotCredential hot) => some hot
  | some .resigned | none => none

/-- Members with no hot credential yet. -/
def inactive (added : SortedMap Credential ℕ) : SortedMap Credential (Option Credential × ℕ) :=
  added.map fun _ validUntil ↦ (none, validUntil)

/-- Stored members that an update keeps, with the term it gives them, and then the new ones. -/
def renew (rows : SortedMap Credential CCMemberRow) (added : SortedMap Credential ℕ)
    (keep : Credential → CCMemberRow → Option ℕ) :
    SortedMap Credential (Option Credential × ℕ) :=
  let members := rows.filterMap fun cold row ↦
    ((added.get? cold).or (keep cold row)).map fun validUntil ↦
      (hotCredentialFromRow row, validUntil)
  (added.filter fun cold _ ↦ !rows.contains cold).entries.foldl
    (fun members e ↦ members.insert e.1 (none, e.2)) members

/-- Restore a committee from the store, and apply an update that happens at the boundary. -/
def resolve (status : ConstitutionalCommitteeStatus) (rows : SortedMap Credential CCMemberRow) :
    Option ConstitutionalCommitteeUpdate → Option ConstitutionalCommittee
  | some .noConfidence => none
  | some (.changeMembers removed added threshold) =>
    match status with
    | .noConfidence => some { threshold, members := renew rows added fun _ _ ↦ none }
    | .trusted _ =>
      some { threshold
             members := renew rows added fun cold row ↦
               if cold ∈ removed then none else row.validUntil }
  | none =>
    match status with
    | .noConfidence => none
    | .trusted threshold =>
      some { threshold
             members := rows.filterMap fun _ row ↦
               row.validUntil.map fun validUntil ↦ (hotCredentialFromRow row, validUntil) }

section

variable (committee : ConstitutionalCommittee)

/-- Remove members, then add others. -/
def update (threshold : ℚ)
    (added : SortedMap Credential (Option Credential × ℕ)) (removed : SortedSet Credential) :
    ConstitutionalCommittee where
  threshold
  members := added.entries.foldl (fun members e ↦ members.insert e.1 e.2)
    (committee.members.filter fun cold _ ↦ decide (cold ∉ removed))

/-- The members with a hot credential whose term is not over. -/
def activeMembers (currentEpoch : ℕ) : SortedMap Credential Credential :=
  committee.members.filterMap fun _ member ↦ if currentEpoch < member.2 then member.1 else none

/-- The threshold for the committee to accept a proposal. -/
def votingThreshold (currentEpoch minCommitteeSize : ℕ) : ProposalEnum → Option ℚ
  | .orphan .nicePoll => none
  | .constitutionalCommittee .. => some 0
  | .protocolParameters .. | .hardFork .. | .constitution .. | .orphan (.treasuryWithdrawal _) =>
    if (committee.activeMembers currentEpoch).entries.length < minCommitteeSize then none
    else some committee.threshold

/-- The ratio of votes in favour. Votes are per hot credential, members per cold credential. -/
def tally (epoch : ℕ) (votes : SortedMap Credential Vote) : ℚ :=
  let activeMembers := committee.activeMembers epoch
  let hotCredentials := activeMembers.values
  let totalActiveMembers := activeMembers.entries.length
  let (yes, abstain) := votes.entries.foldl (fun (yes, abstain) e ↦
    if e.1 ∈ hotCredentials then
      match e.2 with
      | .yes => (yes + 1, abstain)
      | .no => (yes, abstain)
      | .abstain => (yes, abstain + 1)
    else (yes, abstain)) (0, 0)
  if totalActiveMembers ≤ abstain then 0 else (yes : ℚ) / (totalActiveMembers - abstain : ℕ)

end

/-! ### Seats -/

section Seats

variable (committee : ConstitutionalCommittee) (epoch : ℕ) (votes : SortedMap Credential Vote)

/-- The hot credentials of the seats, in which a credential that holds several seats is repeated. -/
def seats : List Credential := (committee.activeMembers epoch).values

/-- The seats whose hot credential cast this vote. -/
def seatsVoting (vote : Vote) : List Credential :=
  (committee.seats epoch).filter fun hot ↦ votes.get? hot = some vote

/-- The ratio of seats in favour, among those that do not abstain. -/
def seatTally : ℚ :=
  (committee.seatsVoting epoch votes .yes).length /
    ((committee.seats epoch).filter fun hot ↦ votes.get? hot ≠ some .abstain).length

/-- The votes of this kind that are counted. -/
def votesCounted (vote : Vote) : ℕ :=
  votes.entries.countP fun e ↦ e.1 ∈ committee.seats epoch ∧ e.2 = vote

theorem tally_eq : committee.tally epoch votes =
    if (committee.seats epoch).length ≤ committee.votesCounted epoch votes .abstain then 0
    else (committee.votesCounted epoch votes .yes : ℚ) /
      ((committee.seats epoch).length - committee.votesCounted epoch votes .abstain : ℕ) := by
  have hfold : ∀ (l : List (Credential × Vote)) (counts : ℚ × ℕ),
      l.foldl (fun counts e ↦ if e.1 ∈ committee.seats epoch then
        match e.2 with
        | .yes => (counts.1 + 1, counts.2)
        | .no => (counts.1, counts.2)
        | .abstain => (counts.1, counts.2 + 1)
      else (counts.1, counts.2)) counts =
        (counts.1 + (l.countP fun e ↦ e.1 ∈ committee.seats epoch ∧ e.2 = .yes : ℕ),
          counts.2 + l.countP fun e ↦ e.1 ∈ committee.seats epoch ∧ e.2 = .abstain) := by
    intro l
    induction l with
    | nil => simp
    | cons e l ih =>
      rcases e with ⟨hot, vote⟩
      by_cases hmem : hot ∈ committee.seats epoch
      · cases vote <;> simp [hmem, ih, add_assoc, add_comm]
      · simp [hmem, ih]
  have htotal : (committee.seats epoch).length = (committee.activeMembers epoch).entries.length :=
    length_map _
  have hcounts := congrArg (fun counts : ℚ × ℕ ↦
    if (committee.seats epoch).length ≤ counts.2 then (0 : ℚ)
    else counts.1 / ((committee.seats epoch).length - counts.2 : ℕ)) (hfold votes.entries (0, 0))
  rw [zero_add, zero_add] at hcounts
  rw [votesCounted, votesCounted, ← hcounts, htotal]
  rfl

/-- Each credential is counted once, however many seats it holds. -/
theorem votesCounted_eq (vote : Vote) :
    committee.votesCounted epoch votes vote = (committee.seatsVoting epoch votes vote).toFinset.card := by
  set counted := votes.entries.filter fun e ↦ e.1 ∈ committee.seats epoch ∧ e.2 = vote with hcounted
  have hnodup : (counted.map Prod.fst).Nodup :=
    votes.nodup_keys.sublist (filter_sublist.map Prod.fst)
  have hkeys : (counted.map Prod.fst).toFinset = (committee.seatsVoting epoch votes vote).toFinset := by
    ext hot
    simp [hcounted, seatsVoting, SortedMap.mem_entries_iff, and_comm]
  rw [← hkeys, toFinset_card_of_nodup hnodup, length_map, votesCounted, countP_eq_length_filter]

theorem length_seats : ((committee.seats epoch).filter fun hot ↦ votes.get? hot ≠ some .abstain).length =
    (committee.seats epoch).length - (committee.seatsVoting epoch votes .abstain).length := by
  rw [seatsVoting, ← countP_eq_length_filter, ← countP_eq_length_filter,
    length_eq_countP_add_countP fun hot ↦ votes.get? hot = some .abstain, Nat.add_sub_cancel_left]
  simp

theorem length_seatsVoting_le :
    (committee.seatsVoting epoch votes .yes).length + (committee.seatsVoting epoch votes .abstain).length ≤
      (committee.seats epoch).length := by
  rw [seatsVoting, seatsVoting, ← countP_eq_length_filter, ← countP_eq_length_filter]
  induction committee.seats epoch with
  | nil => rfl
  | cons hot seats ih =>
    simp only [countP_cons, length_cons]
    rcases votes.get? hot with - | vote
    · simpa using ih.trans (Nat.le_succ _)
    · cases vote <;> simp <;> omega

end Seats

/-- Two ratios, of which the second has the larger numerator and the smaller denominator. -/
theorem ratio_eq_iff {total yes abstain yes' abstain' : ℕ} (hyes : yes ≤ yes') (habstain : abstain ≤ abstain')
    (htotal : yes' + abstain' ≤ total) :
    (if total ≤ abstain then (0 : ℚ) else (yes : ℚ) / (total - abstain : ℕ)) =
      (yes' : ℚ) / (total - abstain' : ℕ) ↔ yes' = 0 ∨ yes = yes' ∧ abstain = abstain' := by
  rcases Nat.eq_zero_or_pos yes' with rfl | hpos
  · obtain rfl := Nat.le_zero.1 hyes
    simp
  have hden : ((total - abstain : ℕ) : ℚ) ≠ 0 ∧ ((total - abstain' : ℕ) : ℚ) ≠ 0 := by
    constructor <;> exact_mod_cast (by omega)
  rw [if_neg (by omega), div_eq_div_iff hden.1 hden.2]
  norm_cast
  constructor
  · intro heq
    have heq' : yes = yes' := by
      by_contra hne
      have hlt : yes * (total - abstain) < yes' * (total - abstain) :=
        Nat.mul_lt_mul_of_pos_right (by omega) (by omega)
      have hle : yes * (total - abstain') ≤ yes * (total - abstain) :=
        Nat.mul_le_mul_left _ (by omega)
      omega
    subst heq'
    have := Nat.eq_of_mul_eq_mul_left hpos heq
    omega
  · rintro (hzero | ⟨rfl, rfl⟩)
    · omega
    · rfl

/-- **The committee counts seats exactly if no hot credential that votes yes or abstains holds two**, or
if none votes yes. -/
theorem tally_eq_seatTally_iff (committee : ConstitutionalCommittee) (epoch : ℕ)
    (votes : SortedMap Credential Vote) :
    committee.tally epoch votes = committee.seatTally epoch votes ↔
      committee.seatsVoting epoch votes .yes = [] ∨
        (committee.seatsVoting epoch votes .yes).Nodup ∧
          (committee.seatsVoting epoch votes .abstain).Nodup := by
  have hcard : ∀ l : List Credential, l.toFinset.card = l.length ↔ l.Nodup :=
    fun _ ↦ Multiset.toFinset_card_eq_card_iff_nodup
  rw [tally_eq, seatTally, length_seats, votesCounted_eq, votesCounted_eq,
    ratio_eq_iff (toFinset_card_le _) (toFinset_card_le _) (committee.length_seatsVoting_le epoch votes),
    length_eq_zero_iff, hcard, hcard]

/-- Two of three seats with one hot credential. -/
def sharedSeats : ConstitutionalCommittee where
  threshold := 2 / 3
  members := .ofList [(.keyHash 1, some (.keyHash 7), 9), (.keyHash 2, some (.keyHash 7), 9),
    (.keyHash 3, some (.keyHash 8), 9)]

/-- **A credential with two seats counts once**: the vote of two thirds of the committee is one third. -/
theorem shared_seats_count_once :
    sharedSeats.tally 5 (.ofList [(.keyHash 7, .yes)]) = 1 / 3 ∧
      sharedSeats.seatTally 5 (.ofList [(.keyHash 7, .yes)]) = 2 / 3 := by
  constructor <;> decide +kernel

end ConstitutionalCommittee

/-! ### The stake distribution -/

/-- A stake pool, as its vote counts. -/
structure PoolState where
  votingStake : ℕ
  fallbackDrep : Option DRep
deriving DecidableEq

/-- A delegate representative, as its vote counts. -/
structure DRepState where
  validUntil : Option ℕ
  votingStake : ℕ
deriving DecidableEq

/-- Whether the votes of a representative count. -/
def DRepState.isActive (state : DRepState) (epoch : ℕ) : Bool :=
  match state.validUntil with
  | none => true
  | some validUntil => decide (epoch < validUntil)

/-- The stake distribution of an epoch, as votes are counted with it. -/
structure StakeDistribution where
  epoch : ℕ
  poolsVotingStake : ℕ
  pools : SortedMap PoolId PoolState
  dreps : SortedMap DRep DRepState
  ccUpdate : Option ConstitutionalCommitteeUpdate
deriving DecidableEq

/-! ### Stake pools -/

namespace StakePools

/-- The threshold for the stake pools to accept a proposal. -/
def votingThreshold (isStateOfNoConfidence : Bool) (thresholds : PoolVotingThresholds) :
    ProposalEnum → Option ℚ
  | .protocolParameters update _ =>
    if update.anyInSecurityGroup then some thresholds.securityVotingThreshold else some 0
  | .hardFork .. => some thresholds.hardForkInitiation
  | .constitutionalCommittee .noConfidence _ => some thresholds.motionNoConfidence
  | .constitutionalCommittee (.changeMembers ..) _ =>
    some (if isStateOfNoConfidence then thresholds.committeeNoConfidence
      else thresholds.committeeNormal)
  | .constitution .. | .orphan (.treasuryWithdrawal _) => some 0
  | .orphan .nicePoll => none

/-- Count one pool: its own vote, or else that of the representative it falls back to. -/
def count (proposal : ProposalEnum) (votes : SortedMap PoolId Vote) (acc : ℕ × ℕ)
    (e : PoolId × PoolState) : ℕ × ℕ :=
  let (yes, abstain) := acc
  let (poolId, pool) := e
  match votes.get? poolId with
  | some .yes => (yes + pool.votingStake, abstain)
  | some .no => (yes, abstain)
  | some .abstain => (yes, abstain + pool.votingStake)
  | none =>
    if proposal.isHardfork then (yes, abstain)
    else
      match pool.fallbackDrep with
      | some .noConfidence =>
        if proposal.isNoConfidence then (yes + pool.votingStake, abstain) else (yes, abstain)
      | some .abstain => (yes, abstain + pool.votingStake)
      | some (.key _) | some (.script _) | none => (yes, abstain)

/-- The ratio of stake in favour. -/
def tally (proposal : ProposalEnum) (votes : SortedMap PoolId Vote)
    (stakeDistribution : StakeDistribution) : ℚ :=
  if stakeDistribution.poolsVotingStake = 0 then 0
  else
    let (yes, abstain) := stakeDistribution.pools.entries.foldl (count proposal votes) (0, 0)
    if stakeDistribution.poolsVotingStake ≤ abstain then 0
    else (yes : ℚ) / (stakeDistribution.poolsVotingStake - abstain : ℕ)

end StakePools

/-! ### Delegate representatives -/

namespace DReps

variable (thresholds : DRepVotingThresholds)

variable (u : ProtocolParamUpdate)

/-- Whether the update touches the network group. -/
def anyUpdateInNetworkGroup : Option ℚ :=
  if u.maxBlockBodySize.isSome || u.maxTransactionSize.isSome || u.maxBlockHeaderSize.isSome ||
    u.maxTxExUnits.isSome || u.maxBlockExUnits.isSome || u.maxValueSize.isSome ||
    u.maxCollateralInputs.isSome then some thresholds.ppNetworkGroup else none

/-- Whether the update touches the economic group. -/
def anyUpdateInEconomicGroup : Option ℚ :=
  if u.minfeeA.isSome || u.minfeeB.isSome || u.keyDeposit.isSome || u.poolDeposit.isSome ||
    u.expansionRate.isSome || u.treasuryGrowthRate.isSome || u.minPoolCost.isSome ||
    u.adaPerUtxoByte.isSome || u.executionCosts.isSome || u.minfeeRefscriptCostPerByte.isSome then
    some thresholds.ppEconomicGroup else none

/-- Whether the update touches the technical group. -/
def anyUpdateInTechnicalGroup : Option ℚ :=
  if u.maximumEpoch.isSome || u.desiredNumberOfStakePools.isSome || u.poolPledgeInfluence.isSome ||
    u.costModelsForScriptLanguages.isSome || u.collateralPercentage.isSome then
    some thresholds.ppTechnicalGroup else none

/-- Whether the update touches the governance group. -/
def anyUpdateInGovernanceGroup : Option ℚ :=
  if u.poolVotingThresholds.isSome || u.drepVotingThresholds.isSome || u.minCommitteeSize.isSome ||
    u.committeeTermLimit.isSome || u.governanceActionValidityPeriod.isSome ||
    u.governanceActionDeposit.isSome || u.drepDeposit.isSome || u.drepInactivityPeriod.isSome then
    some thresholds.ppGovernanceGroup else none

/-- The threshold for the representatives to accept a proposal. -/
def votingThreshold (isStateOfNoConfidence : Bool) (thresholds : DRepVotingThresholds) :
    ProposalEnum → Option ℚ
  | .orphan .nicePoll => none
  | .protocolParameters update _ =>
    let groups := [anyUpdateInNetworkGroup thresholds update,
      anyUpdateInEconomicGroup thresholds update, anyUpdateInTechnicalGroup thresholds update,
      anyUpdateInGovernanceGroup thresholds update].reduceOption
    some (groups.max?.getD 0)
  | .hardFork .. => some thresholds.hardForkInitiation
  | .constitutionalCommittee .noConfidence _ => some thresholds.motionNoConfidence
  | .constitutionalCommittee (.changeMembers ..) _ =>
    some (if isStateOfNoConfidence then thresholds.committeeNoConfidence
      else thresholds.committeeNormal)
  | .constitution .. => some thresholds.updateConstitution
  | .orphan (.treasuryWithdrawal _) => some thresholds.treasuryWithdrawal

/-- Count one representative: stake in favour, and stake that counts at all. -/
def count (epoch : ℕ) (proposal : ProposalEnum) (votes : SortedMap DRep Vote) (acc : ℕ × ℕ)
    (e : DRep × DRepState) : ℕ × ℕ :=
  let (yes, denominator) := acc
  let (drep, st) := e
  if st.isActive epoch then
    match drep with
    | .abstain => (yes, denominator)
    | .noConfidence =>
      if proposal.isNoConfidence then (yes + st.votingStake, denominator + st.votingStake)
      else (yes, denominator + st.votingStake)
    | .key _ | .script _ =>
      match votes.get? drep with
      | none | some .no => (yes, denominator + st.votingStake)
      | some .yes => (yes + st.votingStake, denominator + st.votingStake)
      | some .abstain => (yes, denominator)
  else (yes, denominator)

/-- The ratio of stake in favour. -/
def tally (epoch : ℕ) (proposal : ProposalEnum) (votes : SortedMap DRep Vote)
    (stakeDistribution : StakeDistribution) : ℚ :=
  let (yes, denominator) :=
    stakeDistribution.dreps.entries.foldl (count epoch proposal votes) (0, 0)
  if denominator = 0 then 0 else (yes : ℚ) / denominator

end DReps

end Amaru
