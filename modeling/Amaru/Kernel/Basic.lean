import Amaru.Data.SortedMap
import Mathlib.Data.Prod.Lex
import Mathlib.Order.Nat
import Mathlib.Tactic.DeriveTraversable

/-!
# Identifiers

The identifiers of the kernel: hashes, credentials, pointers into the chain and the ids built from
them. A hash of a fixed size is a natural number, which orders as its bytes do. Every identifier
used as a key carries the **linear order the source derives**, fields compared in declaration order
and constructors in declaration order; the order is what fixes the iteration of its maps.

Quantities of lovelace, epochs and slots are plain natural numbers.
-/

namespace Amaru

/-- The hash of a verification key. -/
abbrev KeyHash := ℕ

/-- The hash of a script. -/
abbrev ScriptHash := ℕ

/-- The hash of a transaction body. -/
abbrev TransactionId := ℕ

/-- A stake pool's identifier: the hash of its cold key. -/
abbrev PoolId := ℕ

/-- A payment, stake or governance credential. -/
inductive Credential
  | scriptHash (hash : ScriptHash)
  | keyHash (hash : KeyHash)
deriving DecidableEq, Repr

namespace Credential

/-- The position of a credential in the derived order: scripts come first. -/
def toKey : Credential → ℕ ×ₗ ℕ
  | scriptHash h => toLex (0, h)
  | keyHash h => toLex (1, h)

instance : LinearOrder Credential := .ofKey toKey <| by
  rintro (a | a) (b | b) h <;> simp_all [toKey]

instance : Inhabited Credential := ⟨keyHash 0⟩

end Credential

/-- Where a transaction stands on the chain. -/
structure TransactionPointer where
  slot : ℕ
  transactionIndex : ℕ
deriving DecidableEq, Repr, Inhabited

namespace TransactionPointer

/-- The position of a pointer in the derived order. -/
def toKey (p : TransactionPointer) : ℕ ×ₗ ℕ := toLex (p.slot, p.transactionIndex)

instance : LinearOrder TransactionPointer := .ofKey toKey <| by
  rintro ⟨a, b⟩ ⟨c, d⟩ h
  simp_all [toKey]

end TransactionPointer

/-- Where a certificate stands on the chain. -/
structure CertificatePointer where
  transaction : TransactionPointer
  certificateIndex : ℕ
deriving DecidableEq, Repr, Inhabited

namespace CertificatePointer

/-- The position of a pointer in the derived order. -/
def toKey (p : CertificatePointer) : TransactionPointer ×ₗ ℕ :=
  toLex (p.transaction, p.certificateIndex)

instance : LinearOrder CertificatePointer := .ofKey toKey <| by
  rintro ⟨a, b⟩ ⟨c, d⟩ h
  simp_all [toKey]

end CertificatePointer

/-- Where a proposal was submitted. -/
structure ProposalPointer where
  transaction : TransactionPointer
  proposalIndex : ℕ
deriving DecidableEq, Repr, Inhabited

namespace ProposalPointer

/-- The slot in which the proposal was submitted. -/
def slot (p : ProposalPointer) : ℕ := p.transaction.slot

/-- The position of a pointer in the derived order. -/
def toKey (p : ProposalPointer) : TransactionPointer ×ₗ ℕ := toLex (p.transaction, p.proposalIndex)

instance : LinearOrder ProposalPointer := .ofKey toKey <| by
  rintro ⟨a, b⟩ ⟨c, d⟩ h
  simp_all [toKey]

end ProposalPointer

/-- A proposal's identifier: the transaction that submitted it and its rank there. -/
structure ProposalId where
  transactionId : TransactionId
  proposalIndex : ℕ
deriving DecidableEq, Repr, Inhabited

namespace ProposalId

/-- The position of an identifier in the derived order. -/
def toKey (p : ProposalId) : ℕ ×ₗ ℕ := toLex (p.transactionId, p.proposalIndex)

instance : LinearOrder ProposalId := .ofKey toKey <| by
  rintro ⟨a, b⟩ ⟨c, d⟩ h
  simp_all [toKey]

end ProposalId

/-- A reference to an output of an earlier transaction. -/
structure TransactionInput where
  transactionId : TransactionId
  index : ℕ
deriving DecidableEq, Repr, Inhabited

namespace TransactionInput

/-- The position of an input in the derived order. -/
def toKey (i : TransactionInput) : ℕ ×ₗ ℕ := toLex (i.transactionId, i.index)

instance : LinearOrder TransactionInput := .ofKey toKey <| by
  rintro ⟨a, b⟩ ⟨c, d⟩ h
  simp_all [toKey]

end TransactionInput

/-- A delegate representative, as delegated to by an account. -/
inductive DRep
  | key (hash : KeyHash)
  | script (hash : ScriptHash)
  | abstain
  | noConfidence
deriving DecidableEq, Repr

namespace DRep

/-- The position of a representative in the derived order. -/
def toKey : DRep → ℕ ×ₗ ℕ
  | key h => toLex (0, h)
  | script h => toLex (1, h)
  | abstain => toLex (2, 0)
  | noConfidence => toLex (3, 0)

instance : LinearOrder DRep := .ofKey toKey <| by
  rintro (a | a | _ | _) (b | b | _ | _) h <;> simp_all [toKey]

end DRep

/-- A pending change of the treasury. -/
inductive TreasuryDelta
  | zero
  | credit (amount : ℕ)
  | debit (amount : ℕ)
deriving DecidableEq, Repr

namespace TreasuryDelta

/-- Add an amount. -/
def add : TreasuryDelta → ℕ → TreasuryDelta
  | zero, rhs => credit rhs
  | credit lhs, rhs => credit (lhs + rhs)
  | debit lhs, rhs =>
    if rhs < lhs then debit (lhs - rhs) else if lhs < rhs then credit (rhs - lhs) else zero

/-- The amount, unless it is due. -/
def asCredit : TreasuryDelta → Option ℕ
  | zero => some 0
  | credit amount => some amount
  | debit _ => none

/-- The change, as a signed amount. -/
def toInt : TreasuryDelta → ℤ
  | zero => 0
  | credit amount => amount
  | debit amount => -amount

/-- Amounts are added as signed ones. -/
theorem toInt_add (delta : TreasuryDelta) (rhs : ℕ) : (delta.add rhs).toInt = delta.toInt + rhs := by
  cases delta with
  | zero | credit => simp [add, toInt]
  | debit lhs =>
    rw [add]
    split_ifs <;> simp only [toInt] <;> omega

/-- What is left after an addition is the signed sum, if that is not due. -/
theorem asCredit_add_eq_some_iff {delta : TreasuryDelta} {rhs amount : ℕ} :
    (delta.add rhs).asCredit = some amount ↔ delta.toInt + rhs = amount := by
  rw [← toInt_add]
  cases delta with
  | zero => simp [add, asCredit, toInt]
  | credit lhs =>
    simp only [add, asCredit, toInt, Option.some_inj]
    omega
  | debit lhs =>
    rw [add]
    split_ifs <;> simp only [asCredit, toInt, reduceCtorEq, false_iff, Option.some_inj] <;> omega

end TreasuryDelta

end Amaru
