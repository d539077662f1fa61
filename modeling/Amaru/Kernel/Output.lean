import Amaru.Kernel.Proposals

/-!
# Outputs

What the UTxO holds: addresses, values, datums and scripts. A script is given by its hash, its size
and what running it needs; a datum by its hash. That two scripts of one hash are the same script is
an assumption on hashing, which results that rest on it state.
-/

namespace Amaru

/-- The hash of a datum. -/
abbrev DatumHash := ℕ

/-- The name of an asset under its policy. -/
abbrev AssetName := ℕ

/-! ### Scripts -/

/-- The slots in which a transaction is valid. -/
structure ValidityInterval where
  lowerBound : Option ℕ := none
  upperBound : Option ℕ := none
deriving DecidableEq, Repr, Inhabited

/-- The bounds are at least as tight. A missing bound is infinite, so one that is given stays given. -/
structure ValidityInterval.Within (inner outer : ValidityInterval) : Prop where
  lower : ∀ bound ∈ outer.lowerBound, ∃ bound' ∈ inner.lowerBound, bound ≤ bound'
  upper : ∀ bound ∈ outer.upperBound, ∃ bound' ∈ inner.upperBound, bound' ≤ bound

/-- A native script. -/
inductive NativeScript
  | verificationKey (hash : KeyHash)
  | all (scripts : List NativeScript)
  | any (scripts : List NativeScript)
  | atLeast (n : ℤ) (scripts : List NativeScript)
  | invalidBefore (slot : ℕ)
  | invalidAfter (slot : ℕ)

namespace NativeScript

mutual

/-- Whether a native script holds, for the keys that signed and the validity interval. -/
def eval (keys : Finset KeyHash) (interval : ValidityInterval) : NativeScript → Bool
  | verificationKey hash => decide (hash ∈ keys)
  | all scripts => (evals keys interval scripts).all id
  | any scripts => (evals keys interval scripts).any id
  -- a threshold that is not positive always holds
  | atLeast n scripts => decide (n.toNat ≤ (evals keys interval scripts).count true)
  -- a missing bound is infinite, and never satisfies a lock
  | invalidBefore lockStart => interval.lowerBound.any fun txStart ↦ decide (lockStart ≤ txStart)
  | invalidAfter lockExpiry => interval.upperBound.any fun txExpiry ↦ decide (txExpiry ≤ lockExpiry)

/-- The results of several native scripts. -/
def evals (keys : Finset KeyHash) (interval : ValidityInterval) : List NativeScript → List Bool
  | [] => []
  | script :: scripts => script.eval keys interval :: evals keys interval scripts

end

/-- More results hold: so do all, some, and as many of them. -/
theorem combine_mono {results results'}
    (h : List.Forall₂ (fun result result' : Bool ↦ result → result') results results') :
    (results.all id → results'.all id) ∧ (results.any id → results'.any id) ∧
      results.count true ≤ results'.count true := by
  induction h with
  | nil => simp
  | @cons result result' _ _ himp _ ih =>
    cases result <;> cases result' <;> simp_all
    omega

variable {keys keys' : Finset KeyHash} {interval interval' : ValidityInterval}

mutual

/-- A script stays valid with more keys and a narrower interval. -/
theorem eval_mono (hkeys : keys ⊆ keys') (hwithin : interval'.Within interval) :
    ∀ script, eval keys interval script → eval keys' interval' script
  | verificationKey hash => by
    rw [eval, eval, decide_eq_true_iff, decide_eq_true_iff]
    exact fun h ↦ hkeys h
  | all scripts => (combine_mono (evals_mono hkeys hwithin scripts)).1
  | any scripts => (combine_mono (evals_mono hkeys hwithin scripts)).2.1
  | atLeast n scripts => by
    rw [eval, eval, decide_eq_true_iff, decide_eq_true_iff]
    exact fun h ↦ h.trans (combine_mono (evals_mono hkeys hwithin scripts)).2.2
  | invalidBefore lockStart => by
    rw [eval, eval, Option.any_eq_true, Option.any_eq_true]
    rintro ⟨bound, hbound, hle⟩
    obtain ⟨bound', hbound', hle'⟩ := hwithin.lower bound hbound
    exact ⟨bound', hbound', decide_eq_true ((of_decide_eq_true hle).trans hle')⟩
  | invalidAfter lockExpiry => by
    rw [eval, eval, Option.any_eq_true, Option.any_eq_true]
    rintro ⟨bound, hbound, hle⟩
    obtain ⟨bound', hbound', hle'⟩ := hwithin.upper bound hbound
    exact ⟨bound', hbound', decide_eq_true (hle'.trans (of_decide_eq_true hle))⟩

/-- Each of the scripts stays valid. -/
theorem evals_mono (hkeys : keys ⊆ keys') (hwithin : interval'.Within interval) : ∀ scripts,
    List.Forall₂ (fun result result' : Bool ↦ result → result') (evals keys interval scripts)
      (evals keys' interval' scripts)
  | [] => .nil
  | script :: scripts => .cons (eval_mono hkeys hwithin script) (evals_mono hkeys hwithin scripts)

end

/-- **A native script that holds, holds with more signatures and in a narrower interval.** -/
theorem native_scripts_are_monotone (hkeys : keys ⊆ keys') (hwithin : interval'.Within interval)
    (script : NativeScript) (h : script.eval keys interval) : script.eval keys' interval' :=
  eval_mono hkeys hwithin script h

theorem native_scripts_are_monotone_twoOfThree :
    (atLeast 2 [verificationKey 1, verificationKey 2, invalidBefore 5]).eval {1, 2} ⟨some 9, some 12⟩ := by
  have h : (atLeast 2 [verificationKey 1, verificationKey 2, invalidBefore 5]).eval {1} ⟨some 7, none⟩ := by
    decide
  have hwithin : ValidityInterval.Within ⟨some 9, some 12⟩ ⟨some 7, none⟩ :=
    ⟨fun _ hbound ↦ ⟨9, rfl, by cases hbound; decide⟩, nofun⟩
  exact native_scripts_are_monotone (by decide) hwithin _ h

end NativeScript

/-- The version of a Plutus script. -/
inductive PlutusVersion
  | v1
  | v2
  | v3
deriving DecidableEq, Repr

/-- What a script is written in. -/
inductive ScriptLanguage
  | native (script : NativeScript)
  | plutus (version : PlutusVersion)

/-- A script: its hash, the length of its bytes, and its language. -/
structure MemoizedScript where
  hash : ScriptHash
  len : ℕ
  language : ScriptLanguage

/-! ### Addresses -/

/-- The delegation part of an address. -/
inductive StakeReference
  | credential (credential : Credential)
  | pointer (slot transactionIndex certificateIndex : ℕ)
deriving DecidableEq, Repr

/-- An address. Of a Byron address only its root and its network are read. -/
inductive Address
  | byron (root : ℕ) (network : Network)
  | shelley (network : Network) (payment : Credential) (delegation : Option StakeReference)
deriving DecidableEq, Repr

namespace Address

/-- The network of an address. -/
def network : Address → Network
  | byron _ network => network
  | shelley network _ _ => network

end Address

/-! ### Values -/

/-- A bundle of native assets, by policy and name. -/
abbrev Multiasset (A : Type) := SortedMap ScriptHash (SortedMap AssetName A)

/-- A value: lovelace, and possibly native assets. -/
inductive Value
  | coin (lovelace : ℕ)
  | multiasset (lovelace : ℕ) (assets : Multiasset ℕ)

namespace Value

/-- The lovelace of a value. -/
def lovelace : Value → ℕ
  | coin lovelace => lovelace
  | multiasset lovelace _ => lovelace

/-- The native assets of a value. -/
def assets : Value → Multiasset ℕ
  | coin _ => ∅
  | multiasset _ assets => assets

end Value

/-! ### Outputs -/

/-- The datum of an output. -/
inductive MemoizedDatum
  | none
  | hash (hash : DatumHash)
  | inline (hash : DatumHash)
deriving DecidableEq, Repr

/-- A transaction output, with the size of its serialisation. -/
structure MemoizedTransactionOutput where
  originalSize : ℕ
  address : Address
  value : Value
  datum : MemoizedDatum
  script : Option MemoizedScript

end Amaru
