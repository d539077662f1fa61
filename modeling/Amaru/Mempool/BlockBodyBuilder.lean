import Amaru.Kernel.Fees
import Amaru.Mempool.InMemory

/-!
# Building a block body

Transactions are added to the body of a block one by one, as long as the limits of a block permit it. A
transaction that does not fit is left out, and the body stays as it is.

The size of the body is counted as transactions are added, and compared with the encoding at the end.
**What is counted is what is encoded** (`BlockBodyBuilder.size_eq`, a field), so that the comparison never
fails.

The reference scripts of a transaction are not in the transaction. Their size is **bounded by what the fee
leaves room for**, with a binary search.
-/

namespace Amaru

/-- Whether a slot is in the interval. The upper bound is not in it. -/
def ValidityInterval.includes (interval : ValidityInterval) (slot : ℕ) : Bool :=
  interval.lowerBound.all (· ≤ slot) && interval.upperBound.all (slot < ·)

/-- What is read of a transaction to put it into a block. -/
class BlockTransaction (Tx : Type*) extends HasTransactionId Tx where
  bodyLen : Tx → ℕ
  witnessesLen : ProtocolVersion → Tx → ℕ
  auxiliaryLen : Tx → Option ℕ
  isExpectedValid : Tx → Bool
  totalExUnits : Tx → ExUnits
  fee : Tx → ℕ
  validityInterval : Tx → ValidityInterval
  /-- The length of the transaction on its own. -/
  len : Tx → ℕ

open BlockTransaction

/-- The limits of a block, and what the fees depend on. -/
structure BlockBuilderConstraints where
  maxSize : ℕ
  maxExUnits : ExUnits
  maxRefScriptsSize : ℕ
  minFeeA : ℕ
  minFeeB : ℕ
  prices : ExUnitPrices
  minFeeRefScriptLovelacePerByte : ℚ
  maxRefScriptSizePerTx : ℕ
  refScriptCostStride : ℕ
  refScriptCostMultiplier : ℚ
  protocolVersion : ProtocolVersion
deriving DecidableEq, Repr

/-- Why a body cannot be built. -/
inductive BlockBodyBuilderError
  | tooManyTransactions
  | sizeOverflow
  | sizeMismatch (counted encoded : ℕ)
  | protocolVersionMismatch (expected actual : ProtocolVersion)
deriving DecidableEq, Repr

section Builder

variable {Tx : Type*} [BlockTransaction Tx]

/-- Search for the largest size whose fee is within a bound. The interval shrinks in every step. -/
def searchRefScriptsSize (constraints : BlockBuilderConstraints) (feeHeadroom : ℕ) : ℕ → ℕ → ℕ → ℕ
  | 0, lower, _ => lower
  | steps + 1, lower, upper =>
    if lower + 1 < upper then
      let candidate := lower + (upper - lower) / 2
      if referenceScriptsFee candidate constraints.refScriptCostStride
        constraints.minFeeRefScriptLovelacePerByte constraints.refScriptCostMultiplier ≤ feeHeadroom
      then searchRefScriptsSize constraints feeHeadroom steps candidate upper
      else searchRefScriptsSize constraints feeHeadroom steps lower candidate
    else lower

/-- A bound on the size of the scripts that a transaction refers to. -/
def refScriptsSizeUpperBound (tx : Tx) (constraints : BlockBuilderConstraints) : ℕ :=
  let linearFee := sizeFee (len tx) constraints.minFeeA constraints.minFeeB
  let executionFee := plutusExecutionFee (BlockTransaction.totalExUnits tx) constraints.prices
  let upper := constraints.maxRefScriptSizePerTx + 1
  searchRefScriptsSize constraints (fee tx - (linearFee + executionFee)) upper 0 upper

/-- The size of an encoded index. -/
def indexSize (index : ℕ) : ℕ := if index < 24 then 1 else if index < 256 then 2 else 3

/-- What a transaction adds to the size of a body, at an index. -/
def sizeAt (version : ProtocolVersion) (index : ℕ) (tx : Tx) : ℕ :=
  bodyLen tx + witnessesLen version tx + ((auxiliaryLen tx).map (indexSize index + ·)).getD 0 +
    if isExpectedValid tx then 0 else indexSize index

/-- The size of the four collections around the transactions. -/
def fixedCborOverhead : ℕ := 8

/-- The size of an encoded body, whose transactions have the indexes from one on. -/
def encodedSize (version : ProtocolVersion) : ℕ → List Tx → ℕ
  | _, [] => fixedCborOverhead
  | index, tx :: txs => sizeAt version index tx + encodedSize version (index + 1) txs

theorem encodedSize_concat (version : ProtocolVersion) (index : ℕ) (txs : List Tx) (tx : Tx) :
    encodedSize version index (txs ++ [tx]) =
      encodedSize version index txs + sizeAt version (index + txs.length) tx := by
  induction txs generalizing index with
  | nil => exact Nat.add_comm _ _
  | cons tx' txs ih =>
    rw [List.cons_append, encodedSize, ih, encodedSize, List.length_cons]
    ring_nf

/-- A body under construction. -/
structure BlockBodyBuilder (Tx : Type*) [BlockTransaction Tx] where
  transactions : List Tx
  size : ℕ
  exUnits : ExUnits
  refScriptsSize : ℕ
  protocolVersion : ProtocolVersion
  /-- What is counted is what is encoded. -/
  size_eq : size = encodedSize protocolVersion 0 transactions

/-- A body without transactions. The version is set with the first transaction. -/
def BlockBodyBuilder.new : BlockBodyBuilder Tx where
  transactions := []
  size := fixedCborOverhead
  exUnits := ⟨0, 0⟩
  refScriptsSize := 0
  protocolVersion := default
  size_eq := rfl

namespace BlockBodyBuilder

variable (builder : BlockBodyBuilder Tx) (tx : Tx) (constraints : BlockBuilderConstraints)

/-- The execution units with those of a transaction. -/
def exUnitsWith : ExUnits :=
  ⟨builder.exUnits.mem + (BlockTransaction.totalExUnits tx).mem,
    builder.exUnits.steps + (BlockTransaction.totalExUnits tx).steps⟩

/-- Whether a body with a transaction is over a limit. -/
def exceeds : Bool :=
  constraints.maxSize < builder.size + sizeAt constraints.protocolVersion builder.transactions.length tx ||
    constraints.maxExUnits.mem < (builder.exUnitsWith tx).mem ||
    constraints.maxExUnits.steps < (builder.exUnitsWith tx).steps ||
    constraints.maxRefScriptsSize < builder.refScriptsSize + refScriptsSizeUpperBound tx constraints

/-- The body with a transaction. -/
def push (hversion : builder.transactions = [] ∨ builder.protocolVersion = constraints.protocolVersion) :
    BlockBodyBuilder Tx where
  transactions := builder.transactions ++ [tx]
  size := builder.size + sizeAt constraints.protocolVersion builder.transactions.length tx
  exUnits := builder.exUnitsWith tx
  refScriptsSize := builder.refScriptsSize + refScriptsSizeUpperBound tx constraints
  protocolVersion := constraints.protocolVersion
  size_eq := by
    rw [encodedSize_concat, Nat.zero_add, builder.size_eq]
    rcases hversion with hnil | hversion
    · rw [hnil, encodedSize, encodedSize]
    · rw [hversion]

/-- Add a transaction if the limits permit it, and tell whether it was added. -/
def tryPush : Except BlockBodyBuilderError (BlockBodyBuilder Tx × Bool) :=
  if hversion : builder.transactions ≠ [] ∧ builder.protocolVersion ≠ constraints.protocolVersion then
    .error (.protocolVersionMismatch builder.protocolVersion constraints.protocolVersion)
  else if 2 ^ 16 ≤ builder.transactions.length then .error .tooManyTransactions
  else if 2 ^ 64 ≤ (builder.exUnitsWith tx).mem ∨ 2 ^ 64 ≤ (builder.exUnitsWith tx).steps then
    .error .sizeOverflow
  else if builder.exceeds tx constraints then .ok (builder, false)
  else .ok (builder.push tx constraints (by tauto), true)

/-- The body, if its encoding has the size that was counted. -/
def finalize : Except BlockBodyBuilderError (List Tx) :=
  let encoded := encodedSize builder.protocolVersion 0 builder.transactions
  if encoded ≠ builder.size then .error (.sizeMismatch builder.size encoded) else .ok builder.transactions

/-- **The comparison at the end never fails.** -/
theorem finalize_eq_ok : builder.finalize = .ok builder.transactions :=
  if_neg (not_not_intro builder.size_eq.symm)

end BlockBodyBuilder

end Builder

end Amaru
