import Amaru.Kernel.Output
import Amaru.Kernel.ProtocolParameters
import Amaru.Ledger.Volatile.Diff

/-!
# Reference scripts

A transaction pays for the scripts of its inputs and of its reference inputs, as they are when its turn
comes. A block is limited in such scripts, but the check on the block is given the reference inputs alone,
and looks them up before any transaction runs. **The limit holds for what is paid for exactly if what the
check does not count fits into what it leaves** (`charged_le_iff`): the scripts of inputs, and those of
outputs that the block itself makes.
-/

namespace Amaru

open List SortedMap Except

/-- What sizing its scripts needs of a transaction. -/
structure TransactionInputs where
  id : TransactionId
  inputs : List TransactionInput
  referenceInputs : Option (List TransactionInput)
  collateral : List TransactionInput
  outputs : List MemoizedTransactionOutput
  collateralReturn : Option MemoizedTransactionOutput
  isExpectedValid : Bool

namespace TransactionInputs

/-- The reference inputs. -/
def references (tx : TransactionInputs) : List TransactionInput := tx.referenceInputs.getD []

/-- What the transaction spends. -/
def spent (tx : TransactionInputs) : List TransactionInput :=
  if tx.isExpectedValid then tx.inputs else tx.collateral

/-- What the transaction makes. -/
def made (tx : TransactionInputs) : List (TransactionInput × MemoizedTransactionOutput) :=
  if tx.isExpectedValid then tx.outputs.zipIdx.map fun (output, position) ↦ (⟨tx.id, position⟩, output)
  else tx.collateralReturn.toList.map fun output ↦ (⟨tx.id, tx.outputs.length⟩, output)

end TransactionInputs

/-- The outputs that a block is validated with: those from before that are not spent, and the changes. -/
structure UtxoContext where
  utxo : SortedMap TransactionInput MemoizedTransactionOutput
  state : DiffSet TransactionInput MemoizedTransactionOutput := ∅

namespace UtxoContext

section

variable (context : UtxoContext)

/-- The output of an input. -/
def lookup (input : TransactionInput) : Option MemoizedTransactionOutput :=
  (context.utxo.get? input).or (context.state.produced.get? input)

/-- Spend an output. -/
def consume (input : TransactionInput) : UtxoContext where
  utxo := context.utxo.erase input
  state := context.state.consume input

/-- Make an output. -/
def produce (made : TransactionInput × MemoizedTransactionOutput) : UtxoContext :=
  { context with state := context.state.produce made.1 made.2 }

/-- What a transaction leaves. -/
def settle (tx : TransactionInputs) : UtxoContext :=
  tx.spent.foldl consume (tx.made.foldl produce context)

end

end UtxoContext

/-- The bytes of the script of an output. -/
def scriptSize (output : Option MemoizedTransactionOutput) : ℕ := (output.bind (·.script)).elim 0 (·.len)

/-- Why a block is refused. -/
inductive InvalidBlockDetails
  | refScriptSizeTooBig (provided allowed : ℕ)

/-- The check on a block. -/
def blockRefScriptsSizeValid (inputs : List TransactionInput) (context : UtxoContext)
    (pp : ProtocolParameters) : Except InvalidBlockDetails Unit :=
  let allowed := pp.maxRefScriptSizePerBlock
  let total := inputs.foldl (fun total input ↦ total + scriptSize (context.lookup input)) 0
  if allowed < total then .error (.refScriptSizeTooBig total allowed) else .ok ()

/-- Why the inputs of a transaction are refused. -/
inductive InvalidInputs
  | emptyInputSet
  | unknownInput (input : TransactionInput)
  | nonDisjointRefInputs (intersection : List TransactionInput)
  | refScriptSizeTooBig (provided allowed : ℕ)

namespace TransactionInputs

/-- Add the script of a reference input. Before version 11 it must not be an input as well. -/
def addReference (tx : TransactionInputs) (context : UtxoContext) (checkDisjoint : Bool)
    (acc : ℕ × List TransactionInput) (input : TransactionInput) : Except InvalidInputs
      (ℕ × List TransactionInput) :=
  if checkDisjoint ∧ input ∈ tx.inputs then .ok (acc.1, acc.2 ++ [input])
  else match context.lookup input with
    | none => .error (.unknownInput input)
    | some output => .ok (acc.1 + scriptSize (some output), acc.2)

/-- Add the script of an input that is not a reference input. -/
def addInput (tx : TransactionInputs) (context : UtxoContext) (size : ℕ) (input : TransactionInput) :
    Except InvalidInputs ℕ :=
  match context.lookup input with
  | none => .error (.unknownInput input)
  | some output => .ok (if input ∈ tx.references then size else size + scriptSize (some output))

/-- The bytes of scripts that a transaction is charged for. -/
def refScriptsSize (tx : TransactionInputs) (context : UtxoContext) (pp : ProtocolParameters) :
    Except InvalidInputs ℕ :=
  if tx.inputs = [] then .error .emptyInputSet
  else do
    let (size, intersection) ← tx.references.foldlM
      (tx.addReference context (pp.protocolVersion.isOlder ⟨11, 0⟩)) (0, [])
    if intersection ≠ [] then .error (.nonDisjointRefInputs intersection)
    else do
      let size ← tx.inputs.foldlM (tx.addInput context) size
      let allowed := pp.maxRefScriptSizePerTx
      if allowed < size then .error (.refScriptSizeTooBig size allowed) else .ok size

end TransactionInputs

/-- What the transactions of a block are charged for, one after the other. -/
def chargeAll (pp : ProtocolParameters) (context : UtxoContext) :
    List TransactionInputs → Except InvalidInputs ℕ
  | [] => .ok 0
  | tx :: txs => do
    let size ← tx.refScriptsSize context pp
    let rest ← chargeAll pp (context.settle tx) txs
    .ok (size + rest)

/-- What is charged and not counted: the scripts of reference inputs that were not there before the block,
and those of inputs that are not reference inputs. -/
def uncounted (utxo : SortedMap TransactionInput MemoizedTransactionOutput) (context : UtxoContext) :
    List TransactionInputs → ℕ
  | [] => 0
  | tx :: txs =>
    ((tx.references.filter fun input ↦ !utxo.contains input).map fun input ↦ scriptSize
      (context.lookup input)).sum +
    ((tx.inputs.filter (· ∉ tx.references)).map fun input ↦ scriptSize (context.lookup input)).sum +
    uncounted utxo (context.settle tx) txs

/-- What is counted. -/
def counted (utxo : SortedMap TransactionInput MemoizedTransactionOutput)
    (inputs : List TransactionInput) : ℕ :=
  (inputs.map fun input ↦ scriptSize (utxo.get? input)).sum

/-! ### What is charged -/

section

variable {tx : TransactionInputs} {context : UtxoContext} {size size' : ℕ}
  {pp : ProtocolParameters} {utxo : SortedMap TransactionInput MemoizedTransactionOutput}

theorem foldlM_addReference {checkDisjoint : Bool} :
    ∀ {references : List TransactionInput} {acc},
      references.foldlM (tx.addReference context checkDisjoint) acc = .ok (size, []) →
      acc.2 = [] ∧ size = acc.1 + (references.map fun input ↦ scriptSize (context.lookup input)).sum ∧
        ∀ input ∈ references, (context.lookup input).isSome = true
  | [], acc, h => by
    cases h
    simp
  | input :: references, acc, h => by
    obtain ⟨acc', hadd, h⟩ := bind_eq_ok_iff.1 h
    obtain ⟨hnil, hsize, hsome⟩ := foldlM_addReference h
    rw [TransactionInputs.addReference] at hadd
    split_ifs at hadd
    · cases hadd
      simp at hnil
    split at hadd <;> cases hadd
    next hlookup =>
      exact ⟨hnil, by rw [hsize, map_cons, sum_cons, hlookup, Nat.add_assoc],
        forall_mem_cons.2 ⟨by rw [hlookup]; rfl, hsome⟩⟩

theorem foldlM_addInput : ∀ {inputs : List TransactionInput} {acc},
    inputs.foldlM (tx.addInput context) acc = .ok size → size = acc +
      ((inputs.filter (· ∉ tx.references)).map fun input ↦ scriptSize (context.lookup input)).sum
  | [], acc, h => by
    cases h
    rfl
  | input :: inputs, acc, h => by
    obtain ⟨acc', hadd, h⟩ := bind_eq_ok_iff.1 h
    rw [foldlM_addInput h]
    rw [TransactionInputs.addInput] at hadd
    split at hadd <;> cases hadd
    next hlookup => by_cases hmem : input ∈ tx.references <;> simp [hmem, hlookup, Nat.add_assoc]

theorem TransactionInputs.refScriptsSize_eq (h : tx.refScriptsSize context pp = .ok size) :
    size = (tx.references.map fun input ↦ scriptSize (context.lookup input)).sum +
        ((tx.inputs.filter (· ∉ tx.references)).map fun input ↦ scriptSize (context.lookup input)).sum ∧
      ∀ input ∈ tx.references, (context.lookup input).isSome = true := by
  rw [refScriptsSize] at h
  split_ifs at h
  obtain ⟨⟨referenced, intersection⟩, hreferences, h⟩ := bind_eq_ok_iff.1 h
  dsimp only at h
  split_ifs at h with hnil
  obtain rfl : intersection = [] := not_not.1 hnil
  obtain ⟨size', hinputs, h⟩ := bind_eq_ok_iff.1 h
  split_ifs at h
  cases h
  obtain ⟨-, hsize, hsome⟩ := foldlM_addReference hreferences
  exact ⟨by rw [foldlM_addInput hinputs, hsize, Nat.zero_add], hsome⟩

/-- The outputs within a block: some of those from before, and others. -/
structure UtxoContext.Within (utxo : SortedMap TransactionInput MemoizedTransactionOutput)
    (context : UtxoContext) : Prop where
  old : ∀ input, context.utxo.get? input = none ∨ context.utxo.get? input = utxo.get? input
  new : ∀ input, context.state.produced.get? input = none ∨ utxo.get? input = none

theorem UtxoContext.Within.settle (h : context.Within utxo)
    (hfresh : ∀ index, utxo.get? ⟨tx.id, index⟩ = none) :
    (context.settle tx).Within utxo := by
  have hmade : ∀ made ∈ tx.made, utxo.get? made.1 = none := by
    intro made hmem
    rw [TransactionInputs.made] at hmem
    split_ifs at hmem <;> obtain ⟨output, -, rfl⟩ := mem_map.1 hmem <;> exact hfresh _
  have hproduced : (tx.made.foldl produce context).Within utxo := by
    refine foldlRecOn tx.made _ h fun context h made hmem ↦ ⟨h.old, fun input ↦ ?_⟩
    rw [produce, DiffSet.produce, get?_insert]
    split_ifs with heq
    · exact .inr (heq ▸ hmade made hmem)
    · exact h.new input
  refine foldlRecOn tx.spent _ hproduced fun context h spent _ ↦ ⟨fun input ↦ ?_, fun input ↦ ?_⟩
  · rw [consume, get?_erase]
    split_ifs
    · exact .inl rfl
    · exact h.old input
  · rw [consume, DiffSet.consume, get?_erase]
    split_ifs
    · exact .inl rfl
    · exact h.new input

/-- A reference input that is found is counted, or was not there before the block. -/
theorem UtxoContext.Within.scriptSize_lookup (h : context.Within utxo) {input}
    (hsome : (context.lookup input).isSome = true) : scriptSize (context.lookup input) =
      scriptSize (utxo.get? input) + if utxo.contains input then 0 else scriptSize
        (context.lookup input) := by
  rw [SortedMap.contains]
  rcases hutxo : utxo.get? input with - | output
  · simp [scriptSize]
  · have hnew := (h.new input).resolve_right (by simp [hutxo])
    rcases h.old input with hold | hold
    · simp [lookup, hold, hnew] at hsome
    · simp [lookup, hold, hutxo]

theorem chargeAll_eq : ∀ {txs context} {total},
    context.Within utxo → (∀ tx ∈ txs, ∀ index, utxo.get? ⟨tx.id, index⟩ = none) →
    chargeAll pp context txs = .ok total →
      total = counted utxo (txs.flatMap TransactionInputs.references) + uncounted utxo context txs
  | [], _, _, _, _, h => by
    cases h
    rfl
  | tx :: txs, context, total, hwithin, hfresh, h => by
    obtain ⟨size, hsize, h⟩ := bind_eq_ok_iff.1 h
    obtain ⟨rest, hrest, h⟩ := bind_eq_ok_iff.1 h
    cases h
    obtain ⟨htx, htxs⟩ := forall_mem_cons.1 hfresh
    obtain ⟨rfl, hsome⟩ := TransactionInputs.refScriptsSize_eq hsize
    have hreferences : ∀ references : List TransactionInput,
        (∀ input ∈ references, (context.lookup input).isSome = true) →
        (references.map fun input ↦ scriptSize (context.lookup input)).sum = counted utxo references +
          ((references.filter fun input ↦ !utxo.contains input).map fun input ↦
            scriptSize (context.lookup input)).sum := by
      intro references hsome
      induction references with
      | nil => rfl
      | cons input references ih =>
        obtain ⟨hinput, hsome⟩ := forall_mem_cons.1 hsome
        rw [map_cons, sum_cons, ih hsome, hwithin.scriptSize_lookup hinput, counted, counted]
        cases hcontains : utxo.contains input <;> simp [hcontains] <;> omega
    have happend : counted utxo ((tx :: txs).flatMap TransactionInputs.references) = counted utxo
        tx.references +
        counted utxo (txs.flatMap TransactionInputs.references) := by
      rw [flatMap_cons, counted, map_append, sum_append]
      rfl
    rw [chargeAll_eq (hwithin.settle htx) htxs hrest, hreferences _ hsome, happend, uncounted]
    omega

end

/-- **What the transactions of a block are charged for is within the limit exactly if what is not counted fits
into what is left of it.** -/
theorem charged_le_iff {pp : ProtocolParameters} {txs : List TransactionInputs}
    {utxo : SortedMap TransactionInput MemoizedTransactionOutput} {total : ℕ}
    (hfresh : ∀ tx ∈ txs, ∀ index, utxo.get? ⟨tx.id, index⟩ = none)
    (hvalid : blockRefScriptsSizeValid (txs.flatMap TransactionInputs.references) { utxo } pp =
      .ok ())
    (hcharged : chargeAll pp { utxo } txs = .ok total) :
    total ≤ pp.maxRefScriptSizePerBlock ↔ uncounted utxo { utxo } txs ≤
      pp.maxRefScriptSizePerBlock - counted utxo (txs.flatMap TransactionInputs.references) := by
  have hcounted : ∀ inputs : List TransactionInput, ∀ acc, inputs.foldl (fun total input ↦ total +
      scriptSize (UtxoContext.lookup { utxo } input)) acc = acc + counted utxo inputs := by
    intro inputs
    induction inputs with
    | nil => exact fun _ ↦ rfl
    | cons input inputs ih =>
      intro acc
      have hlookup : UtxoContext.lookup { utxo } input = utxo.get? input := Option.or_none
      rw [foldl_cons, ih, hlookup, counted, counted, map_cons, sum_cons, Nat.add_assoc]
  rw [blockRefScriptsSizeValid, hcounted, Nat.zero_add] at hvalid
  split_ifs at hvalid with hle
  have hwithin : UtxoContext.Within utxo { utxo } := ⟨fun _ ↦ .inr rfl, fun _ ↦ .inl rfl⟩
  rw [chargeAll_eq hwithin hfresh hcharged]
  omega

/-- An output with a script of 16000 bytes. -/
def scriptOutput : MemoizedTransactionOutput where
  originalSize := 16100
  address := .byron 0 .mainnet
  value := .coin 0
  datum := .none
  script := some ⟨0, 16000, .plutus .v3⟩

/-- Six times a dozen outputs with a script. -/
def scriptUtxo : SortedMap TransactionInput MemoizedTransactionOutput :=
  .ofList ((range 72).map fun n : ℕ ↦ (⟨n / 12, n % 12⟩, scriptOutput))

/-- A transaction that spends a dozen of them. -/
def spendingTransaction (n : ℕ) : TransactionInputs where
  id := 100 + n
  inputs := (range 12).map (⟨n, ·⟩)
  referenceInputs := none
  collateral := []
  outputs := []
  collateralReturn := none
  isExpectedValid := true

/-- The limits of the main network. -/
def scriptLimits : ProtocolParameters :=
  { (default : ProtocolParameters) with
    protocolVersion := ⟨10, 0⟩
    maxRefScriptSizePerTx := 204800
    maxRefScriptSizePerBlock := 1048576 }

theorem fresh_spendingTransaction (n index : ℕ) : scriptUtxo.get? ⟨(spendingTransaction n).id, index⟩
    = none := by
  refine Option.eq_none_iff_forall_ne_some.2 fun output h ↦ ?_
  obtain ⟨m, hm, heq⟩ := mem_map.1 (mem_of_get?_ofList h)
  have hid : m / 12 = 100 + n := congrArg (fun e ↦ e.1.transactionId) heq
  have hlt : m < 72 := mem_range.1 hm
  omega

/-- Five such transactions are within the limit. -/
theorem charged_le_iff_five : ∃ total, chargeAll scriptLimits { utxo := scriptUtxo }
    ((range 5).map spendingTransaction) = .ok total ∧ total ≤ scriptLimits.maxRefScriptSizePerBlock := by
  have hcharged : chargeAll scriptLimits { utxo := scriptUtxo } ((range 5).map spendingTransaction) =
      .ok 960000 := rfl
  exact ⟨_, hcharged, (charged_le_iff (by simp [fresh_spendingTransaction]) rfl hcharged).2
    (by decide +kernel)⟩

/-- **Scripts of inputs are not limited.** Six transactions pay for more bytes than a block may have. -/
theorem spent_scripts_pass_limit : blockRefScriptsSizeValid
      (((range 6).map spendingTransaction).flatMap TransactionInputs.references) { utxo := scriptUtxo }
      scriptLimits = .ok () ∧
    chargeAll scriptLimits { utxo := scriptUtxo } ((range 6).map spendingTransaction) = .ok 1152000 ∧
    scriptLimits.maxRefScriptSizePerBlock < 1152000 := by
  refine ⟨rfl, rfl, by decide⟩

end Amaru
