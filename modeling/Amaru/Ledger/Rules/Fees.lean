import Amaru.Kernel.Fees
import Amaru.Kernel.Output
import Mathlib.Data.Prod.Lex

/-!
# The rule on fees

The fee of a transaction is at least a minimum, and covered by its collateral if it runs scripts. Sums and
products are those of 64 bits, and so are amounts of lovelace: **one that does not fit stops the node**.

It does not stop exactly if the minimum fee fits, the collateral where it is read, and what is collected with
the fees of the transactions before (`exists_execute_iff`). The prices are those that governance sets, and
execution units those that a transaction declares, which are compared with their limits later
(`fees_stop_node`).
-/

namespace Amaru

open Nat

/-! ### The minimum fee -/

/-- How computing an amount stops the node. -/
inductive Panic
  | overflow
  /-- An amount of lovelace that the source takes to be within the supply. -/
  | unreachable
  | assertion
deriving DecidableEq, Repr

/-- A number that is to fit in 64 bits. -/
def fitting (panic : Panic) (n : ℕ) : Except Panic ℕ := if n < 2 ^ 64 then .ok n else .error panic

theorem fitting_eq_ok_iff {panic n m} : fitting panic n = .ok m ↔ n < 2 ^ 64 ∧ m = n := by
  rw [fitting]
  split_ifs with h
  · rw [Except.ok.injEq, eq_comm, and_iff_right h]
  · exact ⟨nofun, fun hlt ↦ absurd hlt.1 h⟩

/-- A sum or a product. -/
def u64 : ℕ → Except Panic ℕ := fitting .overflow

/-- An amount of lovelace, from a number of any size. -/
def toLovelace : ℕ → Except Panic ℕ := fitting .unreachable

/-- Add execution units, up to the largest number. -/
def ExUnits.add (a b : ExUnits) : ExUnits where
  mem := min (a.mem + b.mem) (2 ^ 64 - 1)
  steps := min (a.steps + b.steps) (2 ^ 64 - 1)

/-- The tag and the index of a redeemer. -/
abbrev RedeemerKey := ℕ ×ₗ ℕ

/-- The execution units of redeemers, of which the last of each key counts. -/
def totalExUnits (redeemers : Option (List (RedeemerKey × ExUnits))) : ExUnits :=
  (SortedMap.ofList (redeemers.getD [])).entries.foldl (fun total entry ↦ total.add entry.2) ⟨0, 0⟩

/-- The least fee of a transaction. -/
def minimumFee (txSize : ℕ) (units : ExUnits) (refScriptsSize : ℕ) (pp : ProtocolParameters) :
    Except Panic ℕ := do
  let bytes ← u64 (pp.minFeeA * txSize)
  let size ← u64 (bytes + pp.minFeeB)
  let plutus ← toLovelace (plutusExecutionFee units pp.prices)
  if pp.refScriptCostStride = 0 ∨ pp.refScriptCostMultiplier ≤ 0 then .error .assertion else
  let refScripts ← toLovelace (referenceScriptsFee refScriptsSize pp.refScriptCostStride
    pp.minFeeRefScriptLovelacePerByte pp.refScriptCostMultiplier)
  let fee ← u64 (size + plutus)
  u64 (fee + refScripts)

/-! ### Collateral -/

/-- A value that may be negative. -/
structure Balance where
  coin : ℤ
  multiasset : SortedMap (ScriptHash ×ₗ AssetName) ℤ := ∅
deriving DecidableEq

namespace Balance

/-- Change the amount of an asset. An amount of zero is not kept. -/
def applyDelta (balance : Balance) (key : ScriptHash ×ₗ AssetName) (delta : ℤ) : Balance :=
  if delta = 0 then balance else { balance with
    multiasset := balance.multiasset.alter key fun amount ↦
      if amount.getD 0 + delta = 0 then none else some (amount.getD 0 + delta) }

/-- Subtract a value. -/
def sub (balance : Balance) (value : Value) : Balance :=
  value.assets.entries.foldl (fun balance entry ↦ entry.2.entries.foldl
    (fun balance asset ↦ balance.applyDelta (toLex (entry.1, asset.1)) (-asset.2)) balance)
    { balance with coin := balance.coin - value.lovelace }

/-- Whether there is some asset. -/
def hasAssets (balance : Balance) : Bool := !balance.multiasset.entries.isEmpty

end Balance

/-- Why the collateral of a transaction is refused. -/
inductive InvalidCollateral
  | lockedAtScriptAddress (input : TransactionInput)
  | insufficientBalance (effective required : ℕ)
  | declaredCollateralMismatch (effective declared : ℕ)
  | noCollateral
  | valueNotConserved (balance : Balance)
deriving DecidableEq

/-- Why the fee of a transaction is refused. -/
inductive InvalidFees
  | feeTooSmall (provided minimum : ℕ)
  | collateral (error : InvalidCollateral)
deriving DecidableEq

/-- The collateral inputs: their number, what they hold, and the first that a script locks. -/
structure ResolvedCollateral where
  provided : ℕ
  value : Balance
  lockedAtScript : Option TransactionInput

/-- What the rule reads of a transaction. -/
structure DeclaredFees where
  fees : ℕ
  collateral : ResolvedCollateral
  collateralReturn : Option Value
  declaredCollateral : Option ℕ
  txSize : ℕ
  redeemers : Option (List (RedeemerKey × ExUnits))
  refScriptsSize : ℕ
  protocolParameters : ProtocolParameters

/-- The part of the context that the rule changes. -/
structure FeesContext where
  fees : ℕ
  balance : Balance
deriving DecidableEq

namespace DeclaredFees

variable (tx : DeclaredFees)

/-- What is left of the collateral. -/
def effectiveCollateral : Balance := tx.collateralReturn.elim tx.collateral.value tx.collateral.value.sub

/-- Compare the collateral with the fee and with what is declared. -/
def compareCollateral (effective : ℕ) : Except InvalidCollateral ℕ :=
  let required := tx.fees * tx.protocolParameters.collateralPercentage
  if effective * 100 < required then .error (.insufficientBalance effective ((required + 99) / 100))
  else match tx.declaredCollateral.filter (· ≠ effective) with
    | some declared => .error (.declaredCollateralMismatch effective declared)
    | none => .ok effective

/-- Check the collateral. -/
def validateCollateral : Except Panic (Except InvalidCollateral ℕ) :=
  match tx.collateral.lockedAtScript with
  | some input => .ok (.error (.lockedAtScriptAddress input))
  | none =>
    if tx.collateral.provided = 0 then .ok (.error .noCollateral)
    else if tx.effectiveCollateral.coin < 0 ∨ tx.effectiveCollateral.hasAssets then
      .ok (.error (.valueNotConserved tx.effectiveCollateral))
    else tx.compareCollateral <$> toLovelace tx.effectiveCollateral.coin.toNat

/-- Check the fee and the collateral, which is read only where there are redeemers. -/
def validate : Except Panic (Except InvalidFees ℕ) := do
  let minimum ← minimumFee tx.txSize (totalExUnits tx.redeemers) tx.refScriptsSize tx.protocolParameters
  if tx.fees < minimum then return .error (.feeTooSmall tx.fees minimum)
  if tx.redeemers.isNone then return .ok 0
  let effective ← tx.validateCollateral
  return effective.mapError .collateral

/-- What is collected: the fee, or the collateral of a transaction whose scripts fail. -/
def collected (valid : Bool) (effective : ℕ) : ℕ := if valid then tx.fees else effective

/-- Check the fee and collect it. -/
def execute (valid : Bool) (context : FeesContext) : Except Panic (Except InvalidFees FeesContext) := do
  match ← tx.validate with
  | .error error => return .error error
  | .ok effective =>
    let fees ← u64 (context.fees + tx.collected valid effective)
    return .ok { fees, balance := context.balance.sub (.coin tx.fees) }

/-! ### What has to fit -/

/-- The minimum fee, whatever its size. -/
def exactFee : ℕ :=
  let pp := tx.protocolParameters
  sizeFee tx.txSize pp.minFeeA pp.minFeeB + plutusExecutionFee (totalExUnits tx.redeemers) pp.prices +
    referenceScriptsFee tx.refScriptsSize pp.refScriptCostStride pp.minFeeRefScriptLovelacePerByte
      pp.refScriptCostMultiplier

/-- The collateral is read: it is lovelace only, and no script locks it. -/
def ReadsCollateral : Prop :=
  tx.collateral.lockedAtScript = none ∧ tx.collateral.provided ≠ 0 ∧ 0 ≤ tx.effectiveCollateral.coin ∧
    tx.effectiveCollateral.hasAssets = false

/-- The collateral is enough, and as declared. -/
def CollateralEnough : Prop :=
  tx.fees * tx.protocolParameters.collateralPercentage ≤ tx.effectiveCollateral.coin.toNat * 100 ∧
    ∀ declared ∈ tx.declaredCollateral, declared = tx.effectiveCollateral.coin.toNat

/-- What has to fit in 64 bits. The tiers of the fee for scripts are not empty. -/
structure Fits (valid : Bool) (context : FeesContext) : Prop where
  tiers : 0 < tx.protocolParameters.refScriptCostStride ∧ 0 < tx.protocolParameters.refScriptCostMultiplier
  fee_lt : tx.exactFee < 2 ^ 64
  fees_lt : tx.exactFee ≤ tx.fees → tx.redeemers = none → context.fees + tx.collected valid 0 < 2 ^ 64
  collateral_lt : tx.exactFee ≤ tx.fees → tx.redeemers ≠ none → tx.ReadsCollateral →
    tx.effectiveCollateral.coin.toNat < 2 ^ 64 ∧ (tx.CollateralEnough →
      context.fees + tx.collected valid tx.effectiveCollateral.coin.toNat < 2 ^ 64)

variable {tx : DeclaredFees}

theorem minimumFee_eq_ok_iff {fee : ℕ} :
    minimumFee tx.txSize (totalExUnits tx.redeemers) tx.refScriptsSize tx.protocolParameters = .ok fee ↔
      (0 < tx.protocolParameters.refScriptCostStride ∧ 0 < tx.protocolParameters.refScriptCostMultiplier) ∧
        tx.exactFee < 2 ^ 64 ∧ fee = tx.exactFee := by
  -- every part of the fee is within the whole of it
  simp only [minimumFee, Except.bind_eq_ok_iff, u64, toLovelace, fitting_eq_ok_iff, exactFee, sizeFee]
  constructor
  · rintro ⟨_, ⟨-, rfl⟩, _, ⟨-, rfl⟩, _, ⟨-, rfl⟩, h⟩
    split_ifs at h with htiers
    simp only [Except.bind_eq_ok_iff, fitting_eq_ok_iff] at h
    obtain ⟨_, ⟨-, rfl⟩, _, ⟨-, rfl⟩, hfee, rfl⟩ := h
    rw [not_or, not_le] at htiers
    exact ⟨⟨pos_of_ne_zero htiers.1, htiers.2⟩, hfee, rfl⟩
  · rintro ⟨htiers, hfee, rfl⟩
    refine ⟨_, ⟨by omega, rfl⟩, _, ⟨by omega, rfl⟩, _, ⟨by omega, rfl⟩, ?_⟩
    rw [if_neg (not_or.2 ⟨htiers.1.ne', not_le.2 htiers.2⟩)]
    simp only [Except.bind_eq_ok_iff, fitting_eq_ok_iff]
    exact ⟨_, ⟨by omega, rfl⟩, _, ⟨by omega, rfl⟩, hfee, rfl⟩

theorem exists_validateCollateral (h : ¬tx.ReadsCollateral) :
    ∃ error, tx.validateCollateral = .ok (.error error) := by
  rw [validateCollateral]
  rcases hlocked : tx.collateral.lockedAtScript with - | input
  · dsimp only
    split_ifs with hprovided hvalue
    · exact ⟨_, rfl⟩
    · exact ⟨_, rfl⟩
    · rw [not_or, not_lt, Bool.not_eq_true] at hvalue
      exact absurd ⟨hlocked, hprovided, hvalue⟩ h
  · exact ⟨_, rfl⟩

theorem validateCollateral_eq (h : tx.ReadsCollateral) :
    tx.validateCollateral = tx.compareCollateral <$> toLovelace tx.effectiveCollateral.coin.toNat := by
  obtain ⟨hlocked, hprovided, hcoin, hassets⟩ := h
  rw [validateCollateral, hlocked]
  rw [if_neg hprovided, if_neg (by simp [hassets, hcoin])]

theorem compareCollateral_eq_ok_iff {effective : ℕ} :
    tx.compareCollateral tx.effectiveCollateral.coin.toNat = .ok effective ↔
      tx.CollateralEnough ∧ effective = tx.effectiveCollateral.coin.toNat := by
  rw [compareCollateral, CollateralEnough]
  split_ifs with hrequired
  · exact ⟨nofun, fun h ↦ absurd h.1.1 (not_le.2 hrequired)⟩
  rcases tx.declaredCollateral with - | declared
  · simp [not_lt.1 hrequired, eq_comm]
  · by_cases heq : declared = tx.effectiveCollateral.coin.toNat
    · simp [heq, Option.filter, not_lt.1 hrequired, eq_comm]
    · simp [heq, Option.filter]

theorem exists_execute_iff_validate {valid context} :
    (∃ outcome, tx.execute valid context = .ok outcome) ↔ ∃ result, tx.validate = .ok result ∧
      ∀ effective, result = .ok effective → context.fees + tx.collected valid effective < 2 ^ 64 := by
  rw [execute]
  rcases tx.validate with panic | result
  · exact iff_of_false nofun nofun
  rcases result with error | effective
  · exact iff_of_true ⟨_, rfl⟩ ⟨_, rfl, nofun⟩
  change (∃ outcome, (u64 _ >>= _) = _) ↔ _
  simp only [Except.bind_eq_ok_iff, u64, fitting_eq_ok_iff]
  constructor
  · rintro ⟨_, _, hlt, -⟩
    exact ⟨_, rfl, fun _ h ↦ by cases h; exact hlt.1⟩
  · rintro ⟨_, h, hlt⟩
    cases h
    exact ⟨_, _, ⟨hlt effective rfl, rfl⟩, rfl⟩

/-- **Checking and collecting the fee does not stop the node exactly if everything fits.** -/
theorem exists_execute_iff (tx : DeclaredFees) (valid : Bool) (context : FeesContext) :
    (∃ outcome, tx.execute valid context = .ok outcome) ↔ tx.Fits valid context := by
  rw [exists_execute_iff_validate]
  by_cases hfee : (0 < tx.protocolParameters.refScriptCostStride ∧
      0 < tx.protocolParameters.refScriptCostMultiplier) ∧ tx.exactFee < 2 ^ 64
  case neg =>
    refine ⟨fun ⟨_, h, _⟩ ↦ ?_, fun h ↦ absurd ⟨h.tiers, h.fee_lt⟩ hfee⟩
    obtain ⟨_, hminimum, -⟩ := Except.bind_eq_ok_iff.1 h
    obtain ⟨htiers, hlt, -⟩ := minimumFee_eq_ok_iff.1 hminimum
    exact absurd ⟨htiers, hlt⟩ hfee
  obtain ⟨htiers, hlt⟩ := hfee
  have hvalidate : tx.validate = if tx.fees < tx.exactFee then .ok (.error (.feeTooSmall tx.fees tx.exactFee))
      else if tx.redeemers.isNone then .ok (.ok 0)
      else tx.validateCollateral >>= fun effective ↦ .ok (effective.mapError .collateral) := by
    rw [validate, minimumFee_eq_ok_iff.2 ⟨htiers, hlt, rfl⟩]
    rfl
  rw [hvalidate]
  split_ifs with hless hnone
  · exact iff_of_true ⟨_, rfl, nofun⟩ ⟨htiers, hlt, by omega, by omega⟩
  · rw [Option.isNone_iff_eq_none] at hnone
    constructor
    · rintro ⟨_, h, hsum⟩
      cases h
      exact ⟨htiers, hlt, fun _ _ ↦ hsum 0 rfl, fun _ hsome ↦ absurd hnone hsome⟩
    · intro h
      exact ⟨_, rfl, fun _ heq ↦ by cases heq; exact h.fees_lt (not_lt.1 hless) hnone⟩
  rw [Option.isNone_iff_eq_none] at hnone
  have hfits : (tx.ReadsCollateral → tx.effectiveCollateral.coin.toNat < 2 ^ 64 ∧ (tx.CollateralEnough →
      context.fees + tx.collected valid tx.effectiveCollateral.coin.toNat < 2 ^ 64)) ↔
      tx.Fits valid context :=
    ⟨fun h ↦ ⟨htiers, hlt, fun _ h ↦ absurd h hnone, fun _ _ ↦ h⟩,
      fun h ↦ h.collateral_lt (not_lt.1 hless) hnone⟩
  rw [← hfits]
  by_cases hread : tx.ReadsCollateral
  case neg =>
    obtain ⟨error, herror⟩ := exists_validateCollateral hread
    rw [herror]
    exact iff_of_true ⟨_, rfl, nofun⟩ fun h ↦ absurd h hread
  rw [validateCollateral_eq hread, toLovelace, fitting, forall_prop_of_true hread]
  split_ifs with hcoin
  · change (∃ result, Except.ok ((tx.compareCollateral _).mapError _) = _ ∧ _) ↔ _
    simp only [Except.ok.injEq, exists_eq_left', hcoin, true_and]
    constructor
    · intro h henough
      exact h _ (Except.mapError_eq_ok_iff.2 (compareCollateral_eq_ok_iff.2 ⟨henough, rfl⟩))
    · intro h effective heffective
      obtain ⟨henough, rfl⟩ := compareCollateral_eq_ok_iff.1 (Except.mapError_eq_ok_iff.1 heffective)
      exact h henough
  · exact iff_of_false nofun fun h ↦ hcoin h.1

end DeclaredFees

/-! ### Prices of governance -/

/-- Refuse a field that is set to zero. -/
def rejectZero (field : Option ℕ) (fieldName : String) : Except String Unit :=
  if field = some 0 then .error (fieldName ++ " cannot be 0") else .ok ()

/-- Whether an update may be proposed. -/
def ppuWellFormed (ppu : ProtocolParamUpdate) (version : ProtocolVersion) : Except String Unit := do
  rejectZero ppu.maxBlockBodySize "max_block_body_size"
  rejectZero ppu.maxTransactionSize "max_transaction_size"
  rejectZero ppu.maxBlockHeaderSize "max_block_header_size"
  rejectZero ppu.maxValueSize "max_value_size"
  rejectZero ppu.collateralPercentage "collateral_percentage"
  rejectZero ppu.committeeTermLimit "committee_term_limit"
  rejectZero ppu.governanceActionValidityPeriod "governance_action_validity_period"
  rejectZero ppu.poolDeposit "pool_deposit"
  rejectZero ppu.governanceActionDeposit "governance_action_deposit"
  rejectZero ppu.drepDeposit "drep_deposit"
  unless version = ⟨9, 0⟩ do rejectZero ppu.adaPerUtxoByte "ada_per_utxo_byte"
  unless version.isOlder ⟨11, 0⟩ do
    rejectZero ppu.desiredNumberOfStakePools "desired_number_of_stake_pools"
  if ppu = {} then .error "parameter update cannot be empty"

/-- Memory at a price of two lovelace a unit. -/
def repricing : ProtocolParamUpdate := { executionCosts := some ⟨2, 0⟩ }

/-- Parameters like those of the networks. -/
def pricedParameters : ProtocolParameters :=
  { (default : ProtocolParameters) with
    minFeeA := 44, minFeeB := 155381, prices := ⟨577 / 10000, 721 / 10000000⟩, collateralPercentage := 150
    minFeeRefScriptLovelacePerByte := 15, refScriptCostStride := 25600, refScriptCostMultiplier := 12 / 10 }

/-- A transaction with two redeemers of the largest memory, and no collateral. -/
def largeRedeemers : DeclaredFees where
  fees := 0
  collateral := ⟨0, ⟨0, ∅⟩, none⟩
  collateralReturn := none
  declaredCollateral := none
  txSize := 300
  redeemers := some [(toLex (0, 0), ⟨2 ^ 63 - 1, 0⟩), (toLex (0, 1), ⟨2 ^ 63 - 1, 0⟩)]
  refScriptsSize := 0
  protocolParameters := pricedParameters.update repricing

/-- Units that are declared, at a price that may be proposed, stop the node. -/
theorem fees_stop_node : ppuWellFormed repricing ⟨10, 0⟩ = .ok () ∧
    largeRedeemers.execute true ⟨0, ⟨0, ∅⟩⟩ = .error .unreachable := by
  decide +kernel

end Amaru
