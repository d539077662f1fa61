import Amaru.Kernel.Basic
import Mathlib.Data.Rat.Defs

/-!
# Protocol parameters and their updates

The parameters in force and the partial record a governance action proposes. An update sets exactly
the fields it carries (`ProtocolParameters.update`); the field it sets is the one the source names,
including the two monetary rates, which the source crosses.

Rational parameters are rational numbers: the source reduces every ratio it decodes and compares by
cross-multiplication, so nothing depends on the representation.
-/

namespace Amaru

/-- Execution units: memory and steps. -/
structure ExUnits where
  mem : ℕ
  steps : ℕ
deriving DecidableEq, Repr, Inhabited

/-- The price of execution units. -/
structure ExUnitPrices where
  memPrice : ℚ
  stepPrice : ℚ
deriving DecidableEq, Repr, Inhabited

/-- A protocol version. -/
structure ProtocolVersion where
  major : ℕ
  minor : ℕ
deriving DecidableEq, Repr, Inhabited

namespace ProtocolVersion

/-- The oldest version the ledger starts with. -/
def minimumSupported : ProtocolVersion := ⟨10, 0⟩

/-- Whether a version is older than another. -/
def isOlder (version other : ProtocolVersion) : Bool :=
  decide (version.major < other.major ∨ version.major = other.major ∧ version.minor < other.minor)

end ProtocolVersion

/-- The cost models of the script languages, known and unknown. -/
structure CostModels where
  plutusV1 : Option (List ℤ)
  plutusV2 : Option (List ℤ)
  plutusV3 : Option (List ℤ)
  unknown : SortedMap ℕ (List ℤ)
deriving DecidableEq, Inhabited

/-- Replace the cost models an update carries. A language that is known is no longer kept among the
unknown ones. -/
def CostModels.update (self update : CostModels) : CostModels :=
  let plutusV1 := update.plutusV1.or self.plutusV1
  let plutusV2 := update.plutusV2.or self.plutusV2
  let plutusV3 := update.plutusV3.or self.plutusV3
  let extended := update.unknown.entries.foldl (fun m e ↦ m.insert e.1 e.2) self.unknown
  let unknown := [(0, plutusV1), (1, plutusV2), (2, plutusV3)].foldl
    (fun m e ↦ if e.2.isSome then m.erase e.1 else m) extended
  { plutusV1, plutusV2, plutusV3, unknown }

/-- Voting thresholds of the stake pools. -/
structure PoolVotingThresholds where
  motionNoConfidence : ℚ
  committeeNormal : ℚ
  committeeNoConfidence : ℚ
  hardForkInitiation : ℚ
  securityVotingThreshold : ℚ
deriving DecidableEq, Repr, Inhabited

/-- Voting thresholds of the delegate representatives. -/
structure DRepVotingThresholds where
  motionNoConfidence : ℚ
  committeeNormal : ℚ
  committeeNoConfidence : ℚ
  updateConstitution : ℚ
  hardForkInitiation : ℚ
  ppNetworkGroup : ℚ
  ppEconomicGroup : ℚ
  ppTechnicalGroup : ℚ
  ppGovernanceGroup : ℚ
  treasuryWithdrawal : ℚ
deriving DecidableEq, Repr, Inhabited

/-- The protocol parameters in force. -/
structure ProtocolParameters where
  protocolVersion : ProtocolVersion
  -- network group
  maxBlockBodySize : ℕ
  maxTransactionSize : ℕ
  maxBlockHeaderSize : ℕ
  maxTxExUnits : ExUnits
  maxBlockExUnits : ExUnits
  maxValueSize : ℕ
  maxCollateralInputs : ℕ
  -- economic group
  minFeeA : ℕ
  minFeeB : ℕ
  stakeCredentialDeposit : ℕ
  stakePoolDeposit : ℕ
  monetaryExpansionRate : ℚ
  treasuryExpansionRate : ℚ
  minPoolCost : ℕ
  lovelacePerUtxoByte : ℕ
  prices : ExUnitPrices
  minFeeRefScriptLovelacePerByte : ℚ
  maxRefScriptSizePerTx : ℕ
  maxRefScriptSizePerBlock : ℕ
  refScriptCostStride : ℕ
  refScriptCostMultiplier : ℚ
  -- technical group
  stakePoolMaxRetirementEpoch : ℕ
  optimalStakePoolsCount : ℕ
  pledgeInfluence : ℚ
  collateralPercentage : ℕ
  costModels : CostModels
  -- governance group
  poolVotingThresholds : PoolVotingThresholds
  drepVotingThresholds : DRepVotingThresholds
  minCommitteeSize : ℕ
  maxCommitteeTermLength : ℕ
  govActionLifetime : ℕ
  govActionDeposit : ℕ
  drepDeposit : ℕ
  drepExpiry : ℕ
deriving DecidableEq, Inhabited

/-- A partial update of the protocol parameters. -/
structure ProtocolParamUpdate where
  minfeeA : Option ℕ := none
  minfeeB : Option ℕ := none
  maxBlockBodySize : Option ℕ := none
  maxTransactionSize : Option ℕ := none
  maxBlockHeaderSize : Option ℕ := none
  keyDeposit : Option ℕ := none
  poolDeposit : Option ℕ := none
  maximumEpoch : Option ℕ := none
  desiredNumberOfStakePools : Option ℕ := none
  poolPledgeInfluence : Option ℚ := none
  expansionRate : Option ℚ := none
  treasuryGrowthRate : Option ℚ := none
  minPoolCost : Option ℕ := none
  adaPerUtxoByte : Option ℕ := none
  costModelsForScriptLanguages : Option CostModels := none
  executionCosts : Option ExUnitPrices := none
  maxTxExUnits : Option ExUnits := none
  maxBlockExUnits : Option ExUnits := none
  maxValueSize : Option ℕ := none
  collateralPercentage : Option ℕ := none
  maxCollateralInputs : Option ℕ := none
  poolVotingThresholds : Option PoolVotingThresholds := none
  drepVotingThresholds : Option DRepVotingThresholds := none
  minCommitteeSize : Option ℕ := none
  committeeTermLimit : Option ℕ := none
  governanceActionValidityPeriod : Option ℕ := none
  governanceActionDeposit : Option ℕ := none
  drepDeposit : Option ℕ := none
  drepInactivityPeriod : Option ℕ := none
  minfeeRefscriptCostPerByte : Option ℚ := none
deriving DecidableEq, Inhabited

/-- Set every field the update carries. The expansion rate of the update lands in the treasury
expansion rate and the treasury growth rate in the monetary expansion rate, as in the source. -/
def ProtocolParameters.update (self : ProtocolParameters) (u : ProtocolParamUpdate) : ProtocolParameters :=
  { self with
    minFeeA := u.minfeeA.getD self.minFeeA
    minFeeB := u.minfeeB.getD self.minFeeB
    maxBlockBodySize := u.maxBlockBodySize.getD self.maxBlockBodySize
    maxTransactionSize := u.maxTransactionSize.getD self.maxTransactionSize
    maxBlockHeaderSize := u.maxBlockHeaderSize.getD self.maxBlockHeaderSize
    stakeCredentialDeposit := u.keyDeposit.getD self.stakeCredentialDeposit
    stakePoolDeposit := u.poolDeposit.getD self.stakePoolDeposit
    stakePoolMaxRetirementEpoch := u.maximumEpoch.getD self.stakePoolMaxRetirementEpoch
    optimalStakePoolsCount := u.desiredNumberOfStakePools.getD self.optimalStakePoolsCount
    pledgeInfluence := u.poolPledgeInfluence.getD self.pledgeInfluence
    treasuryExpansionRate := u.expansionRate.getD self.treasuryExpansionRate
    monetaryExpansionRate := u.treasuryGrowthRate.getD self.monetaryExpansionRate
    minPoolCost := u.minPoolCost.getD self.minPoolCost
    lovelacePerUtxoByte := u.adaPerUtxoByte.getD self.lovelacePerUtxoByte
    costModels := (u.costModelsForScriptLanguages.map self.costModels.update).getD self.costModels
    prices := u.executionCosts.getD self.prices
    maxTxExUnits := u.maxTxExUnits.getD self.maxTxExUnits
    maxBlockExUnits := u.maxBlockExUnits.getD self.maxBlockExUnits
    maxValueSize := u.maxValueSize.getD self.maxValueSize
    collateralPercentage := u.collateralPercentage.getD self.collateralPercentage
    maxCollateralInputs := u.maxCollateralInputs.getD self.maxCollateralInputs
    poolVotingThresholds := u.poolVotingThresholds.getD self.poolVotingThresholds
    drepVotingThresholds := u.drepVotingThresholds.getD self.drepVotingThresholds
    minCommitteeSize := u.minCommitteeSize.getD self.minCommitteeSize
    maxCommitteeTermLength := u.committeeTermLimit.getD self.maxCommitteeTermLength
    govActionLifetime := u.governanceActionValidityPeriod.getD self.govActionLifetime
    govActionDeposit := u.governanceActionDeposit.getD self.govActionDeposit
    drepDeposit := u.drepDeposit.getD self.drepDeposit
    drepExpiry := u.drepInactivityPeriod.getD self.drepExpiry
    minFeeRefScriptLovelacePerByte :=
      u.minfeeRefscriptCostPerByte.getD self.minFeeRefScriptLovelacePerByte }

/-- Whether the update touches a parameter on which the stake pools vote. -/
def ProtocolParamUpdate.anyInSecurityGroup (u : ProtocolParamUpdate) : Bool :=
  u.minfeeA.isSome || u.minfeeB.isSome || u.maxBlockBodySize.isSome ||
    u.maxBlockHeaderSize.isSome || u.maxTransactionSize.isSome || u.adaPerUtxoByte.isSome ||
    u.maxBlockExUnits.isSome || u.maxValueSize.isSome || u.governanceActionDeposit.isSome ||
    u.minfeeRefscriptCostPerByte.isSome

end Amaru
