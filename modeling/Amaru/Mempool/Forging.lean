import Amaru.Consensus.LeaderSchedule
import Amaru.Mempool.BlockBodyBuilder

/-!
# Taking transactions for a block

When a slot is due, the forge takes transactions from the mempool: those that are valid in the slot and
fit into the block, if the ledger and the mempool are at the parent. **They are removed from the mempool
at once**, before the header is signed and validated and the block stored, and nothing puts them back.

So a slot that is missed costs transactions if some were taken and the header cannot be signed, for
example because the certificate does not cover the period of the slot (`missed_slot_loses_transactions`).
This is the only way, together with the failures that end the node: `missed_slot_keeps_transactions_iff`
says exactly when an attempt keeps the transactions.
-/

namespace Amaru

open BlockTransaction InMemoryMempool List

/-! ### Taking transactions -/

/-- Why no transactions are taken. -/
inductive TakeForForgeError
  | body (error : BlockBodyBuilderError)
  | ledgerThreadTerminated
  | tipsChanged (ledgerTip : Point) (parent slot : ℕ)
deriving DecidableEq, Repr

section Take

variable {Tx : Type*} [BlockTransaction Tx] (cs : BlockBuilderConstraints) (slot : ℕ)
  {ledger : Option (Point × BlockBuilderConstraints)} {selected : List ℕ}

/-- Go through the mempool, and add what is valid in the slot and fits. -/
def selectTransactions : List Tx → BlockBodyBuilder Tx → List ℕ →
    Except BlockBodyBuilderError (BlockBodyBuilder Tx × List ℕ)
  | [], builder, selected => .ok (builder, selected)
  | tx :: txs, builder, selected =>
    if (validityInterval tx).includes slot then do
      let (builder, pushed) ← builder.tryPush tx cs
      selectTransactions txs builder (if pushed then selected ++ [txId tx] else selected)
    else selectTransactions txs builder selected

/-- Take transactions for a block on top of a parent, if the ledger and the mempool are there. The ledger
tells its tip and the limits, unless it has ended. -/
def takeForForge (ledger : Option (Point × BlockBuilderConstraints)) (m : InMemoryMempool Tx)
    (parent slot : ℕ) : Except TakeForForgeError (List Tx) × InMemoryMempool Tx :=
  match ledger with
  | none => (.error .ledgerThreadTerminated, m)
  | some (ledgerTip, cs) =>
    if ledgerTip.hash ≠ parent ∨ slot < ledgerTip.slotOrDefault then
      (.error (.tipsChanged ledgerTip parent slot), m)
    else match m.readAt ledgerTip with
      | none => (.error (.tipsChanged ledgerTip parent slot), m)
      | some view => match selectTransactions cs slot view .new [] with
        | .error error => (.error (.body error), m)
        | .ok (builder, selected) => match builder.finalize with
          | .error error => (.error (.body error), m)
          | .ok body => (.ok body, m.remove selected)

/-- What the stage is told. -/
def TakeForForge.ofResult : Except TakeForForgeError (List Tx) → TakeForForge
  | .ok _ => .taken
  | .error (.tipsChanged _ _ _) => .tipsChanged
  | .error _ => .failed

/-- A transaction can go into a block: it is valid in the slot and fits an empty block. -/
def IsCandidate (tx : Tx) : Prop :=
  (validityInterval tx).includes slot = true ∧ BlockBodyBuilder.new.exceeds tx cs = false

instance (tx : Tx) : Decidable (IsCandidate cs slot tx) := inferInstanceAs (Decidable (_ ∧ _))

variable {cs slot} {m : InMemoryMempool Tx} {txs : List Tx} {parent : ℕ}

theorem subset_of_selectTransactions {builder builder' selected'}
    (h : selectTransactions cs slot txs builder selected = .ok (builder', selected')) :
    selected ⊆ selected' ∧ ∀ id ∈ selected', id ∈ selected ∨ ∃ tx ∈ txs, txId tx = id := by
  induction txs generalizing builder selected with
  | nil =>
    cases h
    exact ⟨List.Subset.refl _, fun id hid ↦ .inl hid⟩
  | cons tx txs ih =>
    rw [selectTransactions] at h
    have hrest : ∀ {id}, (∃ tx ∈ txs, txId tx = id) → ∃ tx' ∈ tx :: txs, txId tx' = id :=
      fun ⟨tx', hmem, hid⟩ ↦ ⟨tx', mem_cons_of_mem _ hmem, hid⟩
    split_ifs at h with hvalid
    · obtain ⟨⟨pushedBuilder, pushed⟩, -, h⟩ := Except.bind_eq_ok_iff.1 h
      obtain ⟨hsubset, hmem⟩ := ih h
      rcases pushed with - | -
      · exact ⟨hsubset, fun id hid ↦ (hmem id hid).imp_right hrest⟩
      refine ⟨fun id hid ↦ hsubset (mem_append_left _ hid), fun id hid ↦ ?_⟩
      rcases hmem id hid with hid | htx
      · rcases mem_append.1 hid with hid | hid
        · exact .inl hid
        · exact .inr ⟨tx, mem_cons_self, (mem_singleton.1 hid).symm⟩
      · exact .inr (hrest htx)
    · obtain ⟨hsubset, hmem⟩ := ih h
      exact ⟨hsubset, fun id hid ↦ (hmem id hid).imp_right hrest⟩

/-- **Something is selected exactly if there is a candidate.** The block is empty until the first one. -/
theorem selectTransactions_eq_nil_iff {builder}
    (h : selectTransactions cs slot txs .new [] = .ok (builder, selected)) :
    selected = [] ↔ ∀ tx ∈ txs, ¬IsCandidate cs slot tx := by
  induction txs with
  | nil =>
    cases h
    simp
  | cons tx txs ih =>
    rw [selectTransactions] at h
    rw [forall_mem_cons]
    split_ifs at h with hvalid
    · obtain ⟨⟨pushedBuilder, pushed⟩, hpush, h⟩ := Except.bind_eq_ok_iff.1 h
      rw [BlockBodyBuilder.tryPush] at hpush
      split_ifs at hpush with _ _ _ hexceeds
      · cases hpush
        rw [ih h]
        refine ⟨fun hrest ↦ ⟨fun hcandidate ↦ ?_, hrest⟩, And.right⟩
        cases hexceeds.symm.trans hcandidate.2
      · cases hpush
        refine ⟨fun hnil ↦ ?_, fun hnone ↦ absurd ⟨hvalid, Bool.eq_false_iff.2 hexceeds⟩ hnone.1⟩
        have hmem := (subset_of_selectTransactions h).1 (mem_append_right [] (mem_singleton.2 rfl))
        rw [hnil] at hmem
        cases hmem
    · rw [ih h]
      exact ⟨fun hrest ↦ ⟨fun hcandidate ↦ hvalid hcandidate.1, hrest⟩, And.right⟩

/-- The ledger and the mempool are at the parent, there is a candidate, and a body can be built. -/
def TakesSome (ledger : Option (Point × BlockBuilderConstraints)) (m : InMemoryMempool Tx)
    (parent slot : ℕ) : Prop :=
  ∃ ledgerTip cs, ledger = some (ledgerTip, cs) ∧ ledgerTip.hash = parent ∧
    ledgerTip.slotOrDefault ≤ slot ∧ m.tip = ledgerTip ∧
    (∃ tx ∈ m.iter, IsCandidate cs slot tx) ∧
    ∀ error, selectTransactions cs slot m.iter .new [] ≠ .error error

/-- **The mempool stays as it is unless transactions are taken**, and then it does not. -/
theorem iter_takeForForge :
    (takeForForge ledger m parent slot).2.iter = m.iter ↔ ¬TakesSome ledger m
      parent slot := by
  rcases ledger with - | ledger
  · exact iff_of_true rfl (by simp [TakesSome])
  obtain ⟨ledgerTip, cs⟩ := ledger
  rw [takeForForge]
  split_ifs with hparent
  · refine iff_of_true rfl ?_
    rintro ⟨_, _, h, hhash, hslot, -⟩
    cases h
    exact hparent.elim (fun hne ↦ hne hhash) fun hlt ↦ Nat.not_lt.2 hslot hlt
  rw [not_or, not_not, Nat.not_lt] at hparent
  rw [readAt]
  split_ifs with htip
  swap
  · refine iff_of_true rfl ?_
    rintro ⟨_, _, h, -, -, htip', -⟩
    cases h
    exact htip htip'
  dsimp only
  rcases hselect : selectTransactions cs slot m.iter .new [] with error | selection
  · refine iff_of_true rfl ?_
    rintro ⟨_, _, h, -, -, -, -, hok⟩
    cases h
    exact hok error hselect
  obtain ⟨builder, selected⟩ := selection
  dsimp only
  rw [builder.finalize_eq_ok]
  have hthere : ∀ id ∈ selected, m.contains id = true := fun id hid ↦
    contains_iff_mem_iter.2 (((subset_of_selectTransactions hselect).2 id hid).resolve_left not_mem_nil)
  have hnil : (∀ id ∈ selected, m.contains id = false) ↔ selected = [] := by
    refine ⟨fun hnone ↦ eq_nil_iff_forall_not_mem.2 fun id hid ↦ ?_, fun hnil ↦ by simp [hnil]⟩
    cases (hthere id hid).symm.trans (hnone id hid)
  rw [iter_remove_eq_iff, hnil, selectTransactions_eq_nil_iff hselect]
  constructor
  · rintro hnone ⟨_, _, h, -, -, -, ⟨tx, hmem, hcandidate⟩, -⟩
    cases h
    exact hnone tx hmem hcandidate
  · intro hnot tx hmem hcandidate
    refine hnot ⟨ledgerTip, cs, rfl, hparent.1, hparent.2, htip, ⟨tx, hmem, hcandidate⟩, ?_⟩
    exact fun error herror ↦ by rw [hselect] at herror; cases herror

theorem takeForForge_eq_ok (h : TakesSome ledger m parent slot) :
    TakeForForge.ofResult (takeForForge ledger m parent slot).1 = .taken := by
  obtain ⟨ledgerTip, cs, rfl, rfl, hslot, htip, -, hok⟩ := h
  rw [takeForForge]
  rw [if_neg (by rw [not_or, not_not, Nat.not_lt]; exact ⟨rfl, hslot⟩), readAt, if_pos htip]
  dsimp only
  rcases hselect : selectTransactions cs slot m.iter .new [] with error | selection
  · exact absurd hselect (hok error)
  · obtain ⟨builder, selected⟩ := selection
    dsimp only
    rw [builder.finalize_eq_ok]
    rfl

end Take

/-! ### An attempt to forge -/

section Attempt

variable {Body Cert : Type} {Tx : Type*} [BlockTransaction Tx] (params : ConsensusParameters)
  (hash : NonceHash) (vrf : Vrf Cert) (data : ForgeData Cert) (r : ForgeReading Body)
  (ledger : Option (Point × BlockBuilderConstraints)) (m : InMemoryMempool Tx)
  (slot generation : ℕ) {parent : Point}

/-- The parent of the block for which transactions are taken, if the attempt gets that far. -/
def ForgeData.dueParent : Option (Point × Cert) :=
  if generation ≠ data.scheduleGeneration ∨ r.wokeLate then none
  else match data.parentToExtend slot, data.schedule.leadAt slot with
    | some parent, some cert =>
      if data.published = some (slot, parent.hash) then none else some (parent, cert)
    | _, _ => none

/-- How an attempt ends. -/
structure ForgeAttempt (Cert : Type) (Tx : Type*) [BlockTransaction Tx] where
  outcome : Except ForgeError (ForgeData Cert × List ForgeEffect)
  /-- What was taken, if the attempt got that far. -/
  taken : Option (Except TakeForForgeError (List Tx))
  mempool : InMemoryMempool Tx

/-- Take transactions for a block on top of a parent, and go on. -/
def ForgeData.attemptOn (parent : Point) : ForgeAttempt Cert Tx :=
  let (taken, left) := takeForForge ledger m parent.hash slot
  let r := { r with takeForForge := .ofResult taken }
  ⟨data.handleDueLead params hash vrf r slot generation, some taken, left⟩

/-- A slot is due: the stage takes transactions from the mempool when it gets that far. -/
def ForgeData.attempt : ForgeAttempt Cert Tx :=
  match data.dueParent r slot generation with
  | none => ⟨data.handleDueLead params hash vrf r slot generation, none, m⟩
  | some (parent, _) => data.attemptOn params hash vrf r ledger m slot generation parent

/-- A block with what was taken is sent. -/
def ForgeAttempt.Sends (attempt : ForgeAttempt Cert Tx) : Prop :=
  (∃ data effects tip parent nonces, attempt.outcome = .ok (data, effects) ∧
    ForgeEffect.forged tip parent nonces ∈ effects) ∧ ∃ body, attempt.taken = some (.ok body)

/-- The header of the block can be signed and is valid, and the block can be made and stored. -/
def ForgeReading.CanPublish (parent : Point) (cert : Cert) : Prop :=
  r.signHeader = .signed ∧ (∃ nonces, validateHeader params hash vrf r
    ⟨parent.blockHeight + 1, slot, parent.hash, cert⟩ = .ok nonces) ∧
  r.sealBlock = true ∧ r.storeHeader = true ∧ r.storeBlock = true

variable {data r ledger m slot generation}

variable {cert : Cert}

theorem handleDueLead_of_dueParent (h : data.dueParent r slot generation = some (parent, cert))
    (take : TakeForForge) :
    data.handleDueLead params hash vrf { r with takeForForge := take } slot generation =
      { data with schedule := data.schedule.dropThrough slot }.forge params hash vrf
        { r with takeForForge := take } slot parent cert ∧ data.published ≠ some (slot, parent.hash) := by
  rw [ForgeData.dueParent] at h
  split_ifs at h with hstale
  rw [not_or, not_not] at hstale
  obtain ⟨hparent, hcert, hpublished⟩ : data.parentToExtend slot = some parent ∧
      data.schedule.leadAt slot = some cert ∧ data.published ≠ some (slot, parent.hash) := by
    split at h
    · next hparent hcert =>
      split_ifs at h with hpublished
      cases h
      exact ⟨hparent, hcert, hpublished⟩
    · cases h
  rw [ForgeData.handleDueLead, if_neg (not_not_intro hstale.1), if_neg hstale.2, hparent, hcert]
  exact ⟨rfl, hpublished⟩

/-- **With transactions that were taken, a block is sent exactly if it can be published.** -/
theorem exists_forged_iff (htaken : r.takeForForge = .taken)
    (hpublished : data.published ≠ some (slot, parent.hash)) :
    (∃ data' effects tip parent' nonces,
      data.forge params hash vrf r slot parent cert = .ok (data', effects) ∧
        ForgeEffect.forged tip parent' nonces ∈ effects) ↔
      r.CanPublish params hash vrf slot parent cert := by
  rw [ForgeData.forge, if_neg hpublished, if_neg (by rw [htaken]; decide)]
  -- an attempt that ends the node sends nothing
  have hends : ∀ error : ForgeError, ¬∃ data' effects tip parent' nonces,
      (.error error : Except ForgeError (ForgeData Cert × List ForgeEffect)) = .ok (data', effects) ∧
        ForgeEffect.forged tip parent' nonces ∈ effects := by
    rintro error ⟨_, _, _, _, _, heq, -⟩
    cases heq
  cases hsign : r.signHeader with
  | period =>
    refine iff_of_false ?_ fun hcan ↦ by cases hsign.symm.trans hcan.1
    rintro ⟨_, _, _, _, _, heq, hmem⟩
    have heffects := congrArg Prod.snd (Except.ok.inj heq)
    dsimp only at heffects
    obtain ⟨_, _, htimer⟩ := exists_of_mem_armNextLead (heffects.symm ▸ hmem)
    cases htimer
  | failed => exact iff_of_false (hends _) fun hcan ↦ by cases hsign.symm.trans hcan.1
  | signed =>
    dsimp only
    cases hvalid : validateHeader params hash vrf r
      { blockNumber := parent.blockHeight + 1, slot, prevHash := parent.hash, vrfResult := cert } with
    | error error =>
      refine iff_of_false (hends _) fun hcan ↦ ?_
      obtain ⟨_, hok⟩ := hcan.2.1
      cases hvalid.symm.trans hok
    | ok nonces =>
      rcases hseal : r.sealBlock with _ | _
      · exact iff_of_false (hends .sealBlock) fun hcan ↦ by cases hseal.symm.trans hcan.2.2.1
      rcases hheader : r.storeHeader with _ | _
      · exact iff_of_false (hends .storeHeader) fun hcan ↦ by cases hheader.symm.trans hcan.2.2.2.1
      rcases hblock : r.storeBlock with _ | _
      · exact iff_of_false (hends .storeBlock) fun hcan ↦ by cases hblock.symm.trans hcan.2.2.2.2
      exact iff_of_true ⟨_, _, _, _, _, rfl, mem_cons_self⟩ ⟨hsign, ⟨nonces, hvalid⟩, hseal, hheader, hblock⟩

theorem sends_attemptOn_iff (hdue : data.dueParent r slot generation = some (parent, cert))
    (htakes : TakesSome ledger m parent.hash slot) :
    (data.attemptOn params hash vrf r ledger m slot generation parent).Sends ↔
      r.CanPublish params hash vrf slot parent cert := by
  have htaken := takeForForge_eq_ok htakes
  obtain ⟨hlead, hpublished⟩ := handleDueLead_of_dueParent params hash vrf hdue .taken
  rw [ForgeAttempt.Sends, ForgeData.attemptOn]
  dsimp only
  rw [htaken, hlead]
  refine Iff.trans (and_iff_left_of_imp fun _ ↦ ?_) (exists_forged_iff params hash vrf rfl hpublished)
  rcases htake : (takeForForge ledger m parent.hash slot).1 with error | body
  · rw [htake] at htaken
    cases error <;> cases htaken
  · exact ⟨body, rfl⟩

/-- **An attempt keeps the transactions, unless a block with them is sent, exactly if** no transactions
would be taken, or the block can be published. -/
theorem missed_slot_keeps_transactions_iff :
    (¬(data.attempt params hash vrf r ledger m slot generation).Sends →
        (data.attempt params hash vrf r ledger m slot generation).mempool.iter = m.iter) ↔
      ∀ parent cert, data.dueParent r slot generation = some (parent, cert) →
        TakesSome ledger m parent.hash slot → r.CanPublish params hash vrf slot parent cert := by
  rw [ForgeData.attempt]
  rcases hdue : data.dueParent r slot generation with - | due
  · exact iff_of_true (fun _ ↦ rfl) nofun
  obtain ⟨parent, cert⟩ := due
  have hleft : (data.attemptOn params hash vrf r ledger m slot generation parent).mempool.iter =
      m.iter ↔ ¬TakesSome ledger m parent.hash slot := iter_takeForForge
  rw [hleft]
  constructor
  · rintro hkept _ _ heq htakes
    cases heq
    exact (sends_attemptOn_iff params hash vrf hdue htakes).1 (by_contra fun hnot ↦ hkept hnot htakes)
  · intro hcan hnot htakes
    exact hnot ((sends_attemptOn_iff params hash vrf hdue htakes).2 (hcan parent cert rfl htakes))

end Attempt

/-! ### A certificate that has run out -/

section Example

open Pipeline (pointAt)

/-- A transaction that is valid at any time and runs no script. -/
structure PlainTransaction where
  id : ℕ
  bytes : ℕ
deriving DecidableEq, Repr

instance : BlockTransaction PlainTransaction where
  txId := PlainTransaction.id
  cborLen := PlainTransaction.bytes
  bodyLen := PlainTransaction.bytes
  witnessesLen _ _ := 0
  auxiliaryLen _ := none
  isExpectedValid _ := true
  totalExUnits _ := ⟨0, 0⟩
  fee _ := 0
  validityInterval _ := {}
  len := PlainTransaction.bytes

/-- Blocks of a hundred bytes. -/
def hundredBytes : BlockBuilderConstraints where
  maxSize := 100
  maxExUnits := ⟨0, 0⟩
  maxRefScriptsSize := 0
  minFeeA := 0
  minFeeB := 0
  prices := ⟨0, 0⟩
  minFeeRefScriptLovelacePerByte := 1
  maxRefScriptSizePerTx := 0
  refScriptCostStride := 1
  refScriptCostMultiplier := 1
  protocolVersion := ⟨10, 0⟩

/-- One transaction waits, and was validated against the tip of slot 21. -/
def oneTransaction : InMemoryMempool PlainTransaction :=
  ((new 1000).insert ⟨7, 50⟩).1.setTip (pointAt 21 12)

/-- The certificate of the pool does not cover the period of slot 25. -/
def atSlot25Expired : ForgeReading Unit := { atSlot25 with signHeader := .period }

/-- **A slot that is missed because the certificate has run out costs the transactions.** -/
theorem missed_slot_loses_transactions :
    let attempt := scheduledFrom21.data.attempt twentySlots decimalHash everySlot atSlot25Expired
      (some (pointAt 21 12, hundredBytes)) oneTransaction 25 2
    ¬attempt.Sends ∧ oneTransaction.iter = [⟨7, 50⟩] ∧ attempt.mempool.iter = [] := by
  refine ⟨?_, by decide +kernel, by decide +kernel⟩
  have hdue : scheduledFrom21.data.dueParent atSlot25Expired 25 2 = some (pointAt 21 12, (25, 108002)) := by
    decide +kernel
  have hselect : (selectTransactions hundredBytes 25 oneTransaction.iter .new []).toOption.isSome = true := by
    decide +kernel
  have htakes : TakesSome (some (pointAt 21 12, hundredBytes)) oneTransaction 21 25 :=
    ⟨_, _, rfl, rfl, by decide, rfl, ⟨⟨7, 50⟩, by decide +kernel, by decide +kernel⟩, fun error herror ↦ by
      rw [herror] at hselect; cases hselect⟩
  exact mt (sends_attemptOn_iff _ _ _ hdue htakes).1 fun hcan ↦ absurd hcan.1 (by decide)

end Example

end Amaru
