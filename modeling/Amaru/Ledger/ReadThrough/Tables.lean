import Amaru.Ledger.Context.Preparation
import Amaru.Ledger.ReadThrough.Flush

/-!
# Outputs, pools, proposals and delegate representatives read through the volatile database

These tables are read with verdicts that hide each other, and the boundary takes part in two of them
only: it retires pools and prunes proposals. Reading agrees with a flush for each of them, for blocks
that passed validation. What validation contributes is stated where it is needed: it lets a block
spend only what it does not create later, retire only a pool that is there, and change or remove only a
delegate representative that is registered.

One field is left out. The **expiry of a delegate representative** moves when it votes, changes its
anchor, or a proposal ends a dormant period; that is written when the block is saved, and nothing that
is read before says so. No rule of validation looks at it.
-/

namespace Amaru

open Existence List VolatileSeries Store Preparation SortedMap SortedSet DiffBind ProposalsForest

section

variable {s s' : Store} {eras : EraHistory} {pp : ProtocolParameters}
  {activity : GovernanceActivity} {series : VolatileSeries}

/-! ### Outputs -/

variable (fragment : VolatileFragment)

/-- A block does not create an output that it has spent. -/
def VolatileFragment.SpendsOnce : Prop :=
  ∀ input ∈ fragment.utxo.consumed, fragment.utxo.produced.get? input = none

theorem get?_utxo_of_applyBlocks (hnewer : Store.Newer s.tip series)
    (hspends : ∀ block ∈ series, block.fragment.SpendsOnce)
    (h : s.applyBlocks eras pp activity series = .ok s')
    (input : TransactionInput) : s'.utxo.get? input =
      (series.aggregate.resolveInput input).onto (s.utxo.get? input) := by
  revert hspends
  refine applyBlocks_invariant hnewer h (fun _ ↦ rfl) fun done before after block hdone hnew h hspends ↦ ?_
  obtain ⟨_, _, _, -, -, -, rfl⟩ := exists_of_applyBlock h hnew
  rw [forall_mem_append] at hspends
  have hblock := hspends.2 block (mem_singleton_self _) input
  have hextend : (aggregate (done ++ [block])).resolveInput input =
      (block.fragment.utxo.get input).orElse (done.aggregate.resolveInput input) := by
    rw [aggregate_concat]
    exact DiffSet.get_extend _ _ _
  rw [hextend, orElse_onto, ← hdone hspends.1]
  change (block.fragment.utxo.consumed.removeFrom (before.utxo.insertAll _)).get? input = _
  rw [get?_removeFrom, get?_insertAll, DiffSet.get]
  by_cases hconsumed : input ∈ block.fragment.utxo.consumed
  · simp [hconsumed, hblock hconsumed, onto]
  · cases block.fragment.utxo.produced.get? input <;> simp [hconsumed, onto]

/-! ### Pools -/

/-- A block registers each pool under its own name. -/
def VolatileFragment.NamesPools : Prop :=
  ∀ pool registrations, fragment.pools.registered.get? pool = some registrations →
    ∀ row ∈ registrations.toList, row.1.id = pool

/-- Whether a block of the series registers a pool. -/
def VolatileSeries.registersPool (series : VolatileSeries) (pool : PoolId) : Bool :=
  series.any fun block ↦ block.fragment.pools.registered.contains pool

/-- Whether a block of the series retires a pool. -/
def VolatileSeries.retiresPool (series : VolatileSeries) (pool : PoolId) : Bool :=
  series.any fun block ↦ block.fragment.pools.unregistered.contains pool

theorem resolvePool_aggregate (series : VolatileSeries) (pool : PoolId) :
    series.aggregate.resolvePool pool = (series.registersPool pool || series.retiresPool pool) := by
  induction series using reverseRecOn with
  | nil => rfl
  | append_singleton series block ih =>
    rw [aggregate_concat]
    refine (IndexedEpochReg.contains_foldl ..).trans ?_
    rw [show (aggregate series).pools.contains pool = _ from ih, registersPool, retiresPool, registersPool,
      retiresPool, any_append, any_append, Bool.eq_iff_iff]
    simp only [mem_keys_iff, SortedMap.contains, Bool.or_eq_true, decide_eq_true_iff, mem_append, any_cons,
      any_nil, Bool.or_false]
    tauto

theorem contains_foldl_poolsAddOne (pool : PoolId) :
    ∀ (rows : List (PoolParams × CertificatePointer × ℕ)) (pools : SortedMap PoolId PoolRow),
      (rows.foldl poolsAddOne pools).contains pool =
        (pools.contains pool || rows.any fun row ↦ decide (row.1.id = pool))
  | [], pools => by simp
  | row :: rows, pools => by
    have hone : (poolsAddOne pools row).contains pool =
        (pools.contains pool || decide (row.1.id = pool)) := by
      rw [SortedMap.contains, poolsAddOne, SortedMap.get?_alter, SortedMap.contains]
      by_cases h : pool = row.1.id
      · subst h
        cases pools.get? row.1.id <;> simp
      · simp [h, Ne.symm h]
    rw [foldl_cons, contains_foldl_poolsAddOne pool rows, hone, any_cons, Bool.or_assoc]

theorem contains_pools_of_applyBlock {block} (hnames : block.fragment.NamesPools)
    (hnew : block.point.isStale s.tip = false)
    (h : s.applyBlock eras pp activity block = .ok s') (pool : PoolId) :
    s'.pools.contains pool =
      (s.pools.contains pool || block.fragment.pools.registered.contains pool) := by
  obtain ⟨_, _, _, -, -, -, rfl⟩ := exists_of_applyBlock h hnew
  have hretire : ∀ pools : SortedMap PoolId PoolRow, ∀ rows : SortedMap PoolId ℕ,
      (poolsRemove pools rows).contains pool = pools.contains pool := fun pools rows ↦ by
    rw [SortedMap.contains, poolsRemove, SortedMap.get?_mergeWith]
    cases rows.get? pool <;> simp [SortedMap.contains]
  refine (hretire _ _).trans ?_
  rw [poolsAdd, contains_foldl_poolsAddOne]
  congr 1
  rw [Bool.eq_iff_iff, any_eq_true, SortedMap.contains, Option.isSome_iff_exists]
  simp only [mem_flatMap, decide_eq_true_eq, Prod.exists, mem_entries_iff]
  constructor
  · rintro ⟨_, _, _, ⟨name, registrations, hregistered, hrow⟩, rfl⟩
    rw [hnames name registrations hregistered _ hrow]
    exact ⟨registrations, hregistered⟩
  · rintro ⟨registrations, hregistered⟩
    have hcurrent : registrations.current ∈ registrations.toList := mem_cons_self
    exact ⟨_, _, _, ⟨pool, registrations, hregistered, hcurrent⟩,
      hnames pool registrations hregistered _ hcurrent⟩

theorem contains_pools_of_applyBlocks (hnewer : Store.Newer s.tip series)
    (hnames : ∀ block ∈ series, block.fragment.NamesPools)
    (h : s.applyBlocks eras pp activity series = .ok s')
    (pool : PoolId) :
    s'.pools.contains pool = (s.pools.contains pool || series.registersPool pool) := by
  revert hnames
  refine applyBlocks_invariant hnewer h (fun _ ↦ by simp [registersPool]) ?_
  intro done before after block hdone hnew h hnames
  rw [forall_mem_append] at hnames
  have hblock := hnames.2 block (mem_singleton_self _)
  rw [contains_pools_of_applyBlock hblock hnew h, hdone hnames.1, registersPool, registersPool,
    any_append, Bool.or_assoc, any_cons, any_nil, Bool.or_false]

/-! ### Delegate representatives -/

/-- What moves the expiry of a delegate representative: its votes, a new anchor, and a proposal, that
may end a dormant period. -/
def VolatileFragment.Refreshes (cred : Credential) : Prop :=
  cred ∈ votingDReps fragment.votes.produced ∨
    (∃ bind, fragment.dreps.get cred = .exists_ bind ∧ bind.value = none) ∨
    fragment.proposals.entries ≠ []

/-- What is read of a registration, and does not depend on its expiry. -/
def IgnoresExpiry {β : Type*} (read : DRepRegistration → β) : Prop :=
  ∀ (registration : DRepRegistration) (validUntil : ℕ),
    read { registration with validUntil } = read registration

section

variable {β : Type*} {read : DRepRegistration → β} {cred : Credential}
  {block : AnchoredVolatileFragment} {older : VolatileSeries}

/-- What is read of the registration of a delegate representative. -/
def readDRep (read : DRepRegistration → β) (dreps : SortedMap Credential DRepRow)
    (cred : Credential) : Option β :=
  (dreps.get? cred).map fun row ↦ read row.toDRepRegistration

theorem readDRep_setValidUntil {voting} (h : IgnoresExpiry read ∨ cred ∉ voting)
    (dreps : SortedMap Credential DRepRow) (validUntil : ℕ) :
    readDRep read (drepsSetValidUntil dreps voting validUntil) cred = readDRep read dreps cred := by
  rw [readDRep, readDRep, drepsSetValidUntil, get?_map, Option.map_map]
  congr 1
  funext row
  rcases h with h | h
  · by_cases hvoting : cred ∈ voting
    · simpa [hvoting] using h row.toDRepRegistration validUntil
    · simp [hvoting]
  · simp [h]

theorem readDRep_reactivate (h : IgnoresExpiry read) (dreps : SortedMap Credential DRepRow)
    (dormantEpochs currentEpoch : ℕ) :
    readDRep read (drepsReactivate dreps dormantEpochs currentEpoch) cred = readDRep read dreps cred := by
  rw [readDRep, readDRep, drepsReactivate, get?_map, Option.map_map]
  congr 1
  funext row
  simp only [Function.comp_apply]
  split_ifs
  · exact h row.toDRepRegistration _
  · rfl

theorem readDRep_add {rows} (h : IgnoresExpiry read ∨ ∀ bind, rows.get? cred = some bind → bind.value ≠ none)
    (dreps : SortedMap Credential DRepRow) (validUntil : ℕ) :
    readDRep read (drepsAdd dreps validUntil rows) cred =
      (((rows.get? cred).bind (·.value)).map read).or (readDRep read dreps cred) := by
  rw [readDRep, readDRep, drepsAdd, get?_mergeWith]
  rcases hrow : rows.get? cred with - | bind
  · rfl
  rcases hvalue : bind.value with - | registration
  · rcases h with h | h
    · rcases dreps.get? cred with - | row
      · simp [drepsAddRow, hvalue]
      · simpa [drepsAddRow, hvalue] using h row.toDRepRegistration validUntil
    · exact absurd hvalue (h bind hrow)
  · cases dreps.get? cred <;> simp [drepsAddRow, hvalue]

theorem mem_of_removeDReps {unregistered removed deregistrations}
    (h : removeDReps unregistered deregistrations = .ok removed) :
    cred ∈ removed ↔ cred ∈ unregistered ∧ deregistrations.get? cred ≠ some none := by
  rw [removeDReps] at h
  split_ifs at h with hall
  cases h
  rw [mem_iff, get?_filter, Option.filter_eq_some_iff, ← mem_iff]
  refine and_congr_right fun hmem ↦ ?_
  have hsome : deregistrations.contains cred :=
    all_eq_true.1 hall cred (mem_keys_iff.2 hmem)
  rw [SortedMap.contains] at hsome
  match deregistrations.get? cred, hsome with
  | some none, _ => simp
  | some (some _), _ => simp

theorem readDRep_withFragment (hread : IgnoresExpiry read ∨ ¬ block.fragment.Refreshes cred)
    (currentEpoch : ℕ) (accounts : SortedMap Credential AccountRow) (removed : SortedSet Credential) :
    readDRep read (s.withFragment pp activity block currentEpoch accounts removed).dreps cred =
      if cred ∈ removed then none
      else (((block.fragment.dreps.registered.get? cred).bind (·.value)).map read).or
        (readDRep read s.dreps cred) := by
  have hvotes : IgnoresExpiry read ∨ cred ∉ votingDReps block.fragment.votes.produced :=
    hread.imp_right fun h hvotes ↦ h (.inl hvotes)
  have hupdates : IgnoresExpiry read ∨ ∀ bind,
      block.fragment.dreps.registered.get? cred = some bind → bind.value ≠ none :=
    hread.imp_right fun h bind hbind hvalue ↦
      h (.inr (.inl ⟨bind, get_eq_exists_iff.2 hbind, hvalue⟩))
  have hdreps : ∀ validUntil, readDRep read (removed.removeFrom (drepsSetValidUntil
      (drepsAdd s.dreps validUntil block.fragment.dreps.registered)
      (votingDReps block.fragment.votes.produced) validUntil)) cred =
      if cred ∈ removed then none
      else (((block.fragment.dreps.registered.get? cred).bind (·.value)).map read).or
        (readDRep read s.dreps cred) := fun validUntil ↦ by
    rw [readDRep, get?_removeFrom]
    split_ifs
    · rfl
    · exact (readDRep_setValidUntil hvotes _ _).trans (readDRep_add hupdates _ _)
  rw [← hdreps (currentEpoch + pp.drepExpiry - activity.consecutiveDormantEpochs), withFragment]
  split_ifs with hreactivating
  · have hignores := hread.resolve_right fun h ↦
      h (.inr (.inr (of_decide_eq_true hreactivating).2))
    exact readDRep_reactivate hignores _ _ _
  · rfl

theorem readDRep_of_applyBlock (hread : IgnoresExpiry read ∨ ¬ block.fragment.Refreshes cred)
    (hnew : block.point.isStale s.tip = false)
    (h : s.applyBlock eras pp activity block = .ok s') :
    readDRep read s'.dreps cred = match block.fragment.dreps.get cred with
      | .exists_ bind => (bind.value.map read).or (readDRep read s.dreps cred)
      | .gone => if block.fragment.drepsDeregistrations.get? cred = some none then
          readDRep read s.dreps cred else none
      | .unknown => readDRep read s.dreps cred := by
  obtain ⟨currentEpoch, accounts, removed, -, -, hremoved, rfl⟩ := exists_of_applyBlock h hnew
  refine (readDRep_withFragment hread currentEpoch accounts removed).trans ?_
  simp only [mem_of_removeDReps hremoved]
  cases hverdict : block.fragment.dreps.get cred with
  | exists_ bind =>
    have hbind := get_eq_exists_iff.1 hverdict
    simp [notMem_unregistered_of_get hverdict, hbind]
  | gone =>
    have hun := get_eq_gone_iff.1 hverdict
    by_cases hpointer : block.fragment.drepsDeregistrations.get? cred = some none <;>
      simp [hun, hpointer, block.fragment.dreps.disjoint cred hun]
  | unknown =>
    obtain ⟨hregistered, hun⟩ := get_eq_unknown_iff.1 hverdict
    simp [hun, hregistered]

/-- The registration of a delegate representative in the store, as an entry that verdicts apply to. -/
def Store.drepEntry (s : Store) (cred : Credential) : Option (Bound Unit Unit DRepRegistration) :=
  (s.dreps.get? cred).map fun row ↦ ⟨none, none, row.toDRepRegistration⟩

/-- The registration of a delegate representative after a series of blocks. -/
def registrationAfter (s : Store) (series : VolatileSeries) (cred : Credential) :
    Option DRepRegistration :=
  (applyAll (series.aggregate.dreps.history cred) (s.drepEntry cred)).map (·.value)

/-- What validation lets the blocks do to a delegate representative: change it only while it is
registered, and remove it without a pointer only when it was not registered before the block. -/
def RespectsDReps (s : Store) (series : VolatileSeries) (cred : Credential) : Prop :=
  ∀ older block newer, series = older ++ block :: newer →
    (∀ bind, block.fragment.dreps.get cred = .exists_ bind → bind.value = none →
      (registrationAfter s older cred).isSome) ∧
    (block.fragment.dreps.get cred = .gone → block.fragment.drepsDeregistrations.get? cred = some none →
      registrationAfter s older cred = none)

theorem RespectsDReps.of_append {newer} (h : RespectsDReps s (older ++ newer) cred) :
    RespectsDReps s older cred :=
  fun before block after hsplit ↦ h before block (after ++ newer) (by simp [hsplit])

theorem history_dreps_concat (series : VolatileSeries) (block : AnchoredVolatileFragment)
    (cred : Credential) :
    (aggregate (series ++ [block])).dreps.history cred =
      ((block.fragment.dreps.get cred).map (Bind.mapLeft fun _ ↦ ())).conclusive ++
        series.aggregate.dreps.history cred := by
  rw [aggregate_concat]
  exact IndexedBind.history_extendWith _ _ _ _

theorem history_dreps_append (older : VolatileSeries) (cred : Credential) (newer : VolatileSeries) :
    (aggregate (older ++ newer)).dreps.history cred =
      newer.aggregate.dreps.history cred ++ older.aggregate.dreps.history cred := by
  induction newer using reverseRecOn with
  | nil => rw [append_nil]; rfl
  | append_singleton newer block ih =>
    rw [← append_assoc, history_dreps_concat, history_dreps_concat, ih, append_assoc]

theorem registrationAfter_concat (series : VolatileSeries) (block : AnchoredVolatileFragment) :
    registrationAfter s (series ++ [block]) cred = match block.fragment.dreps.get cred with
      | .exists_ bind => bind.value.or (registrationAfter s series cred)
      | .gone => none
      | .unknown => registrationAfter s series cred := by
  rw [registrationAfter, history_dreps_concat, registrationAfter]
  cases block.fragment.dreps.get cred with
  | gone | unknown => rfl
  | exists_ bind =>
    rcases hvalue : bind.value with - | registration
    · simp [Existence.map, conclusive, applyAll, apply, Bind.apply, Bind.mapLeft, hvalue, Function.comp_def]
    · simp [Existence.map, conclusive, applyAll, apply, Bind.apply, Bind.mapLeft, hvalue]

/-- **Saving a series leaves the registrations that its verdicts say**, as far as they are read. -/
theorem readDRep_of_applyBlocks {start : Store}
    (hstart : readDRep read start.dreps cred = (registrationAfter s older cred).map
      read) (hnewer : Store.Newer start.tip series)
    (hrespects : RespectsDReps s (older ++ series) cred)
    (hread : IgnoresExpiry read ∨ ∀ block ∈ series, ¬ block.fragment.Refreshes cred)
    (h : start.applyBlocks eras pp activity series = .ok s') :
    readDRep read s'.dreps cred = (registrationAfter s (older ++ series) cred).map read := by
  revert hrespects hread
  refine applyBlocks_invariant hnewer h (fun _ _ ↦ by rwa [append_nil]) ?_
  intro done before after block hdone hnew h hrespects hread
  rw [← append_assoc] at hrespects ⊢
  obtain ⟨-, hgone⟩ := hrespects (older ++ done) block [] rfl
  have hbefore := hdone hrespects.of_append
    (hread.imp_right fun h block hblock ↦ h block (mem_append_left _ hblock))
  rw [readDRep_of_applyBlock (hread.imp_right fun h ↦ h block (by simp)) hnew h, hbefore,
    registrationAfter_concat]
  cases hverdict : block.fragment.dreps.get cred with
  | exists_ bind => exact Option.map_or.symm
  | unknown => rfl
  | gone =>
    split_ifs with hpointer
    · rw [hgone hverdict hpointer]
    · rfl

theorem unknown_notMem_history_dreps (cred : Credential) (series : VolatileSeries) :
    unknown ∉ series.aggregate.dreps.history cred := by
  induction series using reverseRecOn with
  | nil => exact not_mem_nil
  | append_singleton series block ih =>
    rw [history_dreps_concat, mem_append, not_or]
    exact ⟨unknown_notMem_conclusive _, ih⟩

theorem grounded_of_respectsDReps (older series : VolatileSeries)
    (h : RespectsDReps s (older ++ series) cred) :
    Grounded (series.aggregate.dreps.history cred)
      (applyAll (older.aggregate.dreps.history cred) (s.drepEntry cred)) := by
  induction series using reverseRecOn with
  | nil => trivial
  | append_singleton series block ih =>
    rw [← append_assoc] at h
    have hgrounded := ih h.of_append
    obtain ⟨hexists, -⟩ := h (older ++ series) block [] rfl
    rw [history_dreps_concat]
    cases hverdict : block.fragment.dreps.get cred with
    | unknown | gone => exact hgrounded
    | exists_ bind =>
      refine ⟨fun hvalue ↦ ?_, hgrounded⟩
      have hsome := hexists bind hverdict hvalue
      rwa [registrationAfter, Option.isSome_map, history_dreps_append, applyAll, foldr_append] at hsome

variable {db : VolatileDB}

/-- Reading a delegate representative is applying the verdicts of both series. -/
theorem resolveDRep_eq (h : RespectsDReps s (db.draining ++ db.current) cred) :
    resolveDRep db s cred = registrationAfter s (db.draining ++ db.current) cred := by
  have hdraining : Grounded (db.draining.aggregate.dreps.history cred) (s.drepEntry cred) :=
    grounded_of_respectsDReps [] db.draining (RespectsDReps.of_append h)
  have hcurrent := grounded_of_respectsDReps db.draining db.current h
  have hfold : ∀ series : VolatileSeries, ∀ entry, Grounded (series.aggregate.dreps.history cred) entry →
      (series.aggregate.resolveDRep cred).apply entry =
        applyAll (series.aggregate.dreps.history cred) entry := fun series _ hg ↦
    apply_fold (unknown_notMem_history_dreps cred series) hg
  have happly : ((db.resolveDRep cred).apply (s.drepEntry cred)).map (·.value) =
      registrationAfter s (db.draining ++ db.current) cred := by
    rw [VolatileDB.resolveDRep, apply_chain, hfold db.draining _ hdraining, hfold db.current _ hcurrent,
      registrationAfter, history_dreps_append, applyAll, applyAll, applyAll, foldr_append]
    intro bind hbind hvalue
    rw [hfold db.draining _ hdraining]
    exact isSome_of_fold_eq (unknown_notMem_history_dreps cred db.current) hcurrent hbind hvalue
  rw [← happly, resolveDRep, drepEntry]
  rcases db.resolveDRep cred with ⟨_, _, - | _⟩ | - | -
  all_goals first | rfl | (cases s.dreps.get? cred <;> rfl)

end

end

/-! ### The four tables -/

/-- What validation has checked of the volatile blocks. -/
structure Validated (db : VolatileDB) (s : Store) : Prop where
  spendsOnce : ∀ block ∈ db.draining ++ db.current, block.fragment.SpendsOnce
  namesPools : ∀ block ∈ db.draining ++ db.current, block.fragment.NamesPools
  retires_draining : ∀ pool, db.draining.retiresPool pool →
    db.draining.registersPool pool ∨ s.pools.contains pool
  retires_current : ∀ pool, db.current.retiresPool pool → db.current.registersPool pool ∨
    (db.overlay.isPoolRetired pool = false ∧ (db.draining.registersPool pool ∨ s.pools.contains pool))
  respectsDReps : ∀ cred, RespectsDReps s (db.draining ++ db.current) cred

section

variable {db : VolatileDB} {eras : EraHistory} {s drained opened s' : Store}

section

variable (h : Flushed db eras s drained opened s')
include h

theorem Flushed.resolveInput_eq (hvalid : Validated db s) (input : TransactionInput) :
    resolveInput db s input = s'.utxo.get? input := by
  obtain ⟨hdraining, hcurrent⟩ := forall_mem_append.1 hvalid.spendsOnce
  have hread : resolveInput db s input = (db.resolveInput input).onto (s.utxo.get? input) := by
    rw [resolveInput]
    cases db.resolveInput input <;> rfl
  rw [hread, VolatileDB.resolveInput, orElse_onto,
    get?_utxo_of_applyBlocks h.newer_current hcurrent h.flushed_eq, h.crosses.utxo_eq,
    get?_utxo_of_applyBlocks h.newer_draining hdraining h.drained_eq]

theorem Flushed.resolvePool_eq (hvalid : Validated db s) (pool : PoolId) :
    resolvePool db s pool = s'.pools.contains pool := by
  obtain ⟨hdraining, hcurrent⟩ := forall_mem_append.1 hvalid.namesPools
  have hopened : opened.pools.contains pool =
      (!db.overlay.isPoolRetired pool && drained.pools.contains pool) := by
    rw [SortedMap.contains, h.crosses.get?_pools, SortedMap.contains]
    cases db.overlay.isPoolRetired pool <;> simp
  rw [contains_pools_of_applyBlocks h.newer_current hcurrent h.flushed_eq, hopened,
    contains_pools_of_applyBlocks h.newer_draining hdraining h.drained_eq, resolvePool,
    VolatileDB.resolvePool, resolvePool_aggregate, resolvePool_aggregate]
  have hretired := hvalid.retires_draining pool
  have hretired' := hvalid.retires_current pool
  revert hretired hretired'
  cases db.current.registersPool pool <;> cases db.current.retiresPool pool <;>
    cases db.overlay.isPoolRetired pool <;> cases db.draining.registersPool pool <;>
    cases db.draining.retiresPool pool <;> cases s.pools.contains pool <;> simp

theorem Flushed.resolveProposal_eq (id : ProposalId) : resolveProposal db s id =
    s'.proposals.get? id := by
  rw [h.get?_proposals, resolveProposal, VolatileDB.resolveProposal,
    VolatileAggregate.resolveProposal, VolatileAggregate.resolveProposal]
  rcases db.current.aggregate.proposals.get? id with - | proposal
  · rcases db.overlay.hasPrunedProposal id with - | -
    · cases db.draining.aggregate.proposals.get? id <;> rfl
    · rfl
  · rfl

theorem Flushed.readDRep_eq {β : Type*} {read : DRepRegistration → β} {cred : Credential}
    (hvalid : Validated db s) (hread : IgnoresExpiry read ∨
      ∀ block ∈ db.draining ++ db.current, ¬ block.fragment.Refreshes cred) :
    (resolveDRep db s cred).map read = readDRep read s'.dreps cred := by
  have hrespects := hvalid.respectsDReps cred
  have hstore : readDRep read s.dreps cred = (registrationAfter s [] cred).map read := by
    rw [registrationAfter, Option.map_map]
    change _ = (Option.map _ (s.dreps.get? cred)).map _
    rw [Option.map_map]
    rfl
  have hdrained := readDRep_of_applyBlocks hstore h.newer_draining hrespects.of_append
    (hread.imp_right fun h ↦ (forall_mem_append.1 h).1) h.drained_eq
  rw [← h.crosses.dreps_eq] at hdrained
  rw [resolveDRep_eq hrespects, readDRep_of_applyBlocks hdrained h.newer_current hrespects
    (hread.imp_right fun h ↦ (forall_mem_append.1 h).2) h.flushed_eq]
  rfl

end

end

/-- **Reading outputs, pools, proposals and delegate representatives gives what a flush would write**,
but for the expiry of a delegate representative that one of the volatile blocks refreshes. -/
theorem resolve_eq_flushed {eras : EraHistory} {s s' : Store}
    (hlayered : Layered db s) (hvalid : Validated db s)
    (hflush : db.flush eras s = .ok s') :
    (∀ input, resolveInput db s input = s'.utxo.get? input) ∧
    (∀ pool, resolvePool db s pool = s'.pools.contains pool) ∧
    (∀ id, resolveProposal db s id = s'.proposals.get? id) ∧
    (∀ cred,
      (resolveDRep db s cred).map (fun r ↦ (r.deposit, r.registeredAt)) =
        (s'.dreps.get? cred).map (fun r ↦ (r.deposit, r.registeredAt))) ∧
    (∀ cred, (∀ block ∈ db.draining ++ db.current, ¬ block.fragment.Refreshes cred) →
      resolveDRep db s cred = (s'.dreps.get? cred).map (·.toDRepRegistration)) := by
  obtain ⟨drained, opened, h⟩ := exists_flushed hlayered hflush
  refine ⟨h.resolveInput_eq hvalid, h.resolvePool_eq hvalid, h.resolveProposal_eq,
    fun cred ↦ ?_, fun cred hrefreshes ↦ ?_⟩
  · exact h.readDRep_eq hvalid (.inl fun _ _ ↦ rfl)
  · have hread : (resolveDRep db s cred).map id = _ :=
      h.readDRep_eq hvalid (.inr hrefreshes)
    rwa [Option.map_id, id_eq] at hread

/-- A store with one delegate representative. -/
def oneDRep : Store :=
  { blankStore with
    dreps := .ofList [(.keyHash 1, { deposit := 5, registeredAt := default, validUntil := 20 })] }

/-- A boundary that is pending, and after it a block in which the delegate representative votes. -/
def pendingVote : VolatileDB :=
  crossing {} quietBoundary
    { votes := { consumed := ∅, produced := .ofList [(⟨default, .dRepKey 1⟩, .yes)] } }

theorem validated_pendingVote : Validated pendingVote oneDRep where
  spendsOnce block hblock := by
    obtain rfl := mem_singleton.1 hblock
    exact fun input h ↦ absurd h (notMem_empty input)
  namesPools block hblock := by
    obtain rfl := mem_singleton.1 hblock
    exact nofun
  retires_draining pool h := by cases h
  retires_current pool h := by cases h
  respectsDReps cred older block newer hsplit := by
    have hmem : block ∈ pendingVote.draining ++ pendingVote.current := by rw [hsplit]; simp
    obtain rfl := mem_singleton.1 hmem
    exact ⟨nofun, nofun⟩

/-- **The vote postpones the expiry in the store, and not in what is read.** -/
theorem voting_expiry_is_not_read : ∃ s', Layered pendingVote oneDRep ∧ Validated pendingVote oneDRep ∧
    pendingVote.flush tenSlotEpochs oneDRep = .ok s' ∧
    (s'.dreps.get? (.keyHash 1)).map (·.validUntil) = some 1 ∧
    (resolveDRep pendingVote oneDRep (.keyHash 1)).map (·.validUntil) = some 20 :=
  ⟨_, layered_crossing _ _ _ rfl rfl, validated_pendingVote, rfl, rfl, rfl⟩

theorem resolve_eq_flushed_pendingVote : ∃ s', pendingVote.flush tenSlotEpochs oneDRep = .ok s' ∧
    (resolveDRep pendingVote oneDRep (.keyHash 1)).map (fun r ↦ (r.deposit, r.registeredAt)) =
      (s'.dreps.get? (.keyHash 1)).map (fun r ↦ (r.deposit, r.registeredAt)) := by
  obtain ⟨s', hflush⟩ : ∃ s', pendingVote.flush tenSlotEpochs oneDRep = .ok s' := ⟨_, rfl⟩
  have h := resolve_eq_flushed (layered_crossing _ _ _ rfl rfl) validated_pendingVote hflush
  exact ⟨s', hflush, h.2.2.2.1 (.keyHash 1)⟩

end Amaru
