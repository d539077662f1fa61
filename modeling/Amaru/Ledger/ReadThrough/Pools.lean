import Amaru.Ledger.ReadThrough.Tables
import Amaru.Ledger.Volatile.View

/-!
# Pools at a boundary, through the view

The updates of the pools are computed while the last blocks of the epoch are volatile, from the store
patched with their certificates. The patch is not what saving the blocks would leave: within an epoch
the view keeps the first registration of a pool, the latest one, and the latest retirement if no
registration follows it, where the store appends every certificate.

What the two have in common is what the certificates **come to**: the latest registration, and the
latest retirement after it (`Outstanding`). It decides which pools retire, and what becomes of the
others, except that a retirement at the new epoch which a later one replaces takes the registration
before it with it when the certificates are folded (`Displaces`). The view has merged the first of the
two retirements away, the store has both.
-/

namespace Amaru

open List SortedMap PoolRow PoolsEpochTransitionUpdates Option PendingPoolCertificates ProposalsForest
open VolatileView hiding extend

variable {certs : List PoolCertificate} {epoch : ℕ} {eras : EraHistory}
  {activity : GovernanceActivity} {pp : ProtocolParameters}
  {series : VolatileSeries} {store store' : Store} {params : PoolParams} {row' : PoolRow} {pool : PoolId}

/-! ### What certificates come to -/

/-- The certificates of a pool that nothing has replaced. -/
structure Outstanding where
  registration : Option PoolParams := none
  retirement : Option ℕ := none
deriving DecidableEq

namespace Outstanding

variable (outstanding : Outstanding)

/-- A registration cancels the retirement before it; a retirement replaces it. -/
def add : PoolCertificate → Outstanding
  | .registration params => { registration := some params }
  | .retirement epoch => { outstanding with retirement := some epoch }

/-- Certificates, one after the other. -/
def addAll (certs : List PoolCertificate) : Outstanding :=
  certs.foldl add outstanding

@[simp] theorem addAll_nil : outstanding.addAll [] = outstanding := rfl

@[simp] theorem addAll_cons (certificate : PoolCertificate) (certs : List PoolCertificate) :
    outstanding.addAll (certificate :: certs) =
      (outstanding.add certificate).addAll certs := rfl

theorem addAll_append (older newer : List PoolCertificate) :
    outstanding.addAll (older ++ newer) = (outstanding.addAll older).addAll newer :=
  foldl_append

/-- What certificates come to. -/
def of (certs : List PoolCertificate) : Outstanding := addAll {} certs

theorem of_append (older newer : List PoolCertificate) : of (older ++ newer) = (of older).addAll newer :=
  addAll_append _ _ _

/-- The retirement that stands is the last certificate. -/
theorem retirement_of_eq_some_iff {certs due} :
    (of certs).retirement = some due ↔ certs.getLast? = some (.retirement due) := by
  rcases eq_nil_or_concat certs with rfl | ⟨older, certificate, rfl⟩
  · exact ⟨nofun, nofun⟩
  · rw [concat_eq_append, getLast?_concat, of_append]
    cases certificate <;> simp [add]

end Outstanding

/-- Whether a certificate is a retirement. -/
def PoolCertificate.isRetirement : PoolCertificate → Bool
  | registration _ => false
  | retirement _ => true

/-- A retirement that is due replaced by a later one, over a registration. -/
def Displaces (epoch : ℕ) (certs : List PoolCertificate) : Prop :=
  ∃ older due newer, certs = older ++ .retirement due :: newer ∧ due ≤ epoch ∧
    (∃ params, .registration params ∈ older) ∧ newer ≠ [] ∧ ∀ c ∈ newer, c.isRetirement

/-- What folding the certificates gives, in terms of what they come to. -/
structure Folded (epoch : ℕ) (certs : List PoolCertificate)
    (folded : PendingPoolCertificates) : Prop where
  /-- The pool retires exactly when the retirement that stands is due. -/
  retires_iff : ∀ due, folded.certificate = some (.retirement due) ↔
    (Outstanding.of certs).retirement = some due ∧ due ≤ epoch
  /-- A registration takes effect only if it stands. -/
  registers : ∀ params, folded.certificate = some (.registration params) →
    (Outstanding.of certs).registration = some params
  /-- What stands later is kept. -/
  keeps : Outstanding.of folded.nextCertificates =
    { retirement := (Outstanding.of certs).retirement.filter (epoch < ·) }
  /-- A registration that stands takes effect unless it is displaced. -/
  loses : folded.certificate = none →
    (Outstanding.of certs).registration = none ∨ Displaces epoch certs
  sublist : folded.nextCertificates.Sublist certs

theorem Displaces.append (h : Displaces epoch certs) (due : ℕ) :
    Displaces epoch (certs ++ [.retirement due]) := by
  obtain ⟨older, due', newer, rfl, hdue, hparams, hnewer, hall⟩ := h
  refine ⟨older, due', newer ++ [.retirement due], by simp, hdue, hparams, by simp, ?_⟩
  intro c hc
  rcases mem_append.1 hc with hc | hc
  · exact hall c hc
  · rw [mem_singleton.1 hc]
    rfl

theorem exists_registration_of_outstanding (h : (Outstanding.of certs).registration = some params) :
    .registration params ∈ certs := by
  induction certs using reverseRecOn with
  | nil => cases h
  | append_singleton certs certificate ih =>
    rw [Outstanding.of_append] at h
    cases certificate with
    | registration params' =>
      cases h
      simp
    | retirement epoch => exact mem_append_left _ (ih h)

/-- A registration that is displaced does not take effect. -/
theorem Displaces.certificate_ne (h : Displaces epoch certs) (params : PoolParams) :
    (pendingAfter certs epoch).certificate ≠ some (.registration params) := by
  obtain ⟨older, due, newer, rfl, hdue, -, -, hall⟩ := h
  rw [pendingAfter, foldl_append, foldl_cons, fold, if_pos hdue]
  -- no retirement after the one that is due brings a registration back
  suffices hfold : ∀ folded : PendingPoolCertificates,
      (∀ params, folded.certificate ≠ some (.registration params)) → ∀ params,
      (newer.foldl (fold epoch) folded).certificate ≠
        some (.registration params) from hfold _ (by simp) params
  induction newer with
  | nil => exact fun folded h ↦ h
  | cons certificate newer ih =>
    intro folded hfolded
    refine ih (fun c hc ↦ hall c (mem_cons_of_mem _ hc)) _ ?_
    cases certificate with
    | registration params => exact absurd (hall _ mem_cons_self) Bool.false_ne_true
    | retirement due =>
      rw [fold]
      split_ifs
      · simp
      rcases hcertificate : folded.certificate with - | certificate
      · simp
      · cases certificate with
        | registration params => exact absurd hcertificate (hfolded params)
        | retirement due => simp

/-- A retirement that is due is displaced by the one after it. -/
theorem displaces_of_retirement {due : ℕ} (hdue : (Outstanding.of certs).retirement = some due)
    (hle : due ≤ epoch) (hparams : (Outstanding.of certs).registration = some params) (later : ℕ) :
    Displaces epoch (certs ++ [.retirement later]) := by
  obtain ⟨older, rfl⟩ := getLast?_eq_some_iff.1 (Outstanding.retirement_of_eq_some_iff.1 hdue)
  have hmem := exists_registration_of_outstanding hparams
  rw [mem_append, mem_singleton] at hmem
  exact ⟨older, due, [.retirement later], by simp, hle, ⟨params, hmem.resolve_right (by simp)⟩,
    by simp, by simp [PoolCertificate.isRetirement]⟩

/-- **What folding the certificates gives**, by induction from the first certificate on. -/
theorem folded_pendingAfter (epoch : ℕ) (certs : List PoolCertificate) :
    Folded epoch certs (pendingAfter certs epoch) := by
  induction certs using reverseRecOn with
  | nil =>
    exact ⟨by simp [pendingAfter, Outstanding.of], by simp [pendingAfter], rfl, fun _ ↦ .inl rfl,
      List.Sublist.refl _⟩
  | append_singleton certs certificate ih =>
    rw [pendingAfter, foldl_append, foldl_cons, foldl_nil, ← pendingAfter]
    generalize pendingAfter certs epoch = folded at ih
    cases certificate with
    | registration params =>
      have hof : Outstanding.of (certs ++ [.registration params]) =
          { registration := some params } := Outstanding.of_append _ _
      refine ⟨?_, ?_, ?_, ?_, nil_sublist _⟩ <;> rw [hof] <;> simp [fold, Outstanding.of]
    | retirement due =>
      have hof : Outstanding.of (certs ++ [.retirement due]) =
          { Outstanding.of certs with retirement := some due } := Outstanding.of_append _ _
      rw [fold]
      split_ifs with hdue
      · refine ⟨?_, ?_, ?_, ?_, nil_sublist _⟩ <;> rw [hof]
        · simp only [some.injEq, PoolCertificate.retirement.injEq]
          exact fun due' ↦ ⟨fun h ↦ ⟨h, h ▸ hdue⟩, And.left⟩
        · simp
        · simp [Outstanding.of, Option.filter, Nat.not_lt.2 hdue]
        · simp
      · have hlater : epoch < due := Nat.not_le.1 hdue
        have hsublist := ih.sublist.append (List.Sublist.refl [PoolCertificate.retirement due])
        have hkeeps : Outstanding.of (folded.nextCertificates ++ [.retirement due]) =
            { retirement := some due } := by
          rw [Outstanding.of_append, ih.keeps]
          rfl
        rcases hcertificate : folded.certificate with - | certificate
        · refine ⟨?_, ?_, ?_, fun _ ↦ ?_, hsublist⟩ <;> rw [hof]
          · simpa using hlater
          · simp
          · simpa [Option.filter, hlater] using hkeeps
          · exact (ih.loses hcertificate).imp_right (·.append due)
        · cases certificate with
          | registration params =>
            refine ⟨?_, ?_, ?_, ?_, hsublist⟩ <;> rw [hof]
            · simpa using hlater
            · simpa using ih.registers params hcertificate
            · simpa [Option.filter, hlater] using hkeeps
            · simp
          | retirement due' =>
            obtain ⟨hstands, hle⟩ := (ih.retires_iff due').1 hcertificate
            refine ⟨?_, ?_, ?_, fun _ ↦ ?_, hsublist⟩ <;> rw [hof]
            · simpa using hlater
            · simp
            · simpa [Option.filter, hlater] using hkeeps
            · -- the retirement that was due is gone, and so is the registration before it
              rcases hparams : (Outstanding.of certs).registration with - | params
              · exact .inl rfl
              · exact .inr (displaces_of_retirement hstands hle hparams due)

/-! ### The view and the store -/

/-- A registration: new parameters, where they were registered, and the deposit. -/
abbrev PoolRegistration := PoolParams × CertificatePointer × ℕ

/-- What was registered under a key, if anything, in order. -/
def Registrations.list {V : Type*} (regs : Option (Registrations V)) : List V :=
  (regs.map (·.toList)).getD []

namespace PoolRow

section

variable (row : Option PoolRow)

/-- The row of a pool with one more registration. -/
def register (registration : PoolRegistration) : Option PoolRow :=
  match row with
  | none => some
    { registeredAt := registration.2.1, deposit := registration.2.2, currentParams := registration.1 }
  | some existing => some { existing with
      pendingCertificates := existing.pendingCertificates ++ [.registration registration.1] }

/-- The row of a pool with registrations, and then a retirement. -/
def extend (regs : List PoolRegistration) (retirement : Option ℕ) : Option PoolRow :=
  (regs.foldl register row).map fun row ↦ { row with
    pendingCertificates := row.pendingCertificates ++ (retirement.map PoolCertificate.retirement).toList }

theorem extend_nil : extend row [] none = row := by
  cases row <;> simp [extend]

/-- What a row comes to. -/
structure Summary where
  registeredAt : CertificatePointer
  deposit : ℕ
  currentParams : PoolParams
  outstanding : Outstanding

/-- What a row comes to. -/
def summary (row : PoolRow) : Summary where
  registeredAt := row.registeredAt
  deposit := row.deposit
  currentParams := row.currentParams
  outstanding := .of row.pendingCertificates

/-- Rows that differ only in certificates that are replaced. -/
def Alike (row row' : Option PoolRow) : Prop := row.map summary = row'.map summary

namespace Summary

/-- What a row with one more registration comes to. -/
def register (summary : Option Summary) (registration : PoolRegistration) : Option Summary :=
  match summary with
  | none => some
    { registeredAt := registration.2.1
      deposit := registration.2.2
      currentParams := registration.1
      outstanding := {} }
  | some s => some { s with outstanding := s.outstanding.add (.registration registration.1) }

/-- What a row with registrations and then a retirement comes to. -/
def extend (summary : Option Summary) (regs : List PoolRegistration)
    (retirement : Option ℕ) : Option Summary :=
  (regs.foldl register summary).map fun s ↦ { s with
    outstanding := s.outstanding.addAll (retirement.map PoolCertificate.retirement).toList }

end Summary

theorem summary_register (registration : PoolRegistration) :
    (register row registration).map summary = Summary.register (row.map summary) registration := by
  rcases row with - | row
  · rfl
  · simp only [register, map_some, summary, Outstanding.of_append]
    rfl

end

theorem summary_foldl_register : ∀ (regs : List PoolRegistration) (row : Option PoolRow),
    (regs.foldl register row).map summary = regs.foldl Summary.register (row.map summary)
  | [], _ => rfl
  | registration :: regs, row => by
    rw [foldl_cons, summary_foldl_register regs, summary_register, foldl_cons]

theorem summary_extend (row : Option PoolRow) (regs : List PoolRegistration)
    (retirement : Option ℕ) :
    (extend row regs retirement).map summary =
      Summary.extend (row.map summary) regs retirement := by
  rw [extend, Summary.extend, ← summary_foldl_register, Option.map_map, Option.map_map]
  congr 1
  funext row
  simp only [Function.comp, summary, Outstanding.of_append]

namespace Summary

/-- **The registrations a view keeps stand for all of them**: the first of all and the latest of
all. -/
theorem extend_extend (summary : Option Summary)
    (older newer : Option (Registrations PoolRegistration)) (retirement later : Option ℕ) :
    extend (extend summary (Registrations.list older) retirement) (Registrations.list newer) later =
      extend summary
        (Registrations.list (match newer with
          | some r => some ((older.map fun o ↦ o.extend r).getD r)
          | none => older))
        (later.or (if newer.isSome then none else retirement)) := by
  rcases newer with - | r
  · cases later <;> cases retirement <;>
      simp [extend, Registrations.list, Outstanding.addAll, Outstanding.add, Function.comp_def]
  · obtain ⟨first, _ | next⟩ := r <;> rcases older with _ | ⟨first', _ | next'⟩ <;>
      cases summary <;> cases later <;> cases retirement <;> rfl

end Summary

end PoolRow

theorem VolatileView.get?_iterPools (view : VolatileView) (store : Store) (pool : PoolId) :
    (view.iterPools store).get? pool = PoolRow.extend (store.pools.get? pool)
      (Registrations.list (view.pools.registered.get? pool)) (view.pools.unregistered.get? pool) := by
  have hpending : ∀ (regs : List PoolRegistration) (row : PoolRow),
      regs.foldl register (some row) = some { row with
        pendingCertificates :=
          row.pendingCertificates ++ regs.map fun r ↦ .registration r.1 } := by
    intro regs
    induction regs with
    | nil => simp
    | cons registration regs ih =>
      intro row
      rw [foldl_cons, register, ih]
      simp
  rw [iterPools, get?_insertAll, get?_map, get?_filterMap,
    SortedMap.contains, PoolRow.extend]
  rcases store.pools.get? pool with - | row
  · rcases view.pools.registered.get? pool with _ | ⟨first, _ | next⟩ <;>
      simp [Registrations.list, Registrations.toList, register]
  · rw [hpending]
    cases view.pools.registered.get? pool <;> simp [Registrations.list]

namespace Store

theorem get?_foldl_poolsAddOne (pool : PoolId) :
    ∀ (rows : List PoolRegistration) (pools : SortedMap PoolId PoolRow),
      (rows.foldl poolsAddOne pools).get? pool =
        (rows.filter (·.1.id = pool)).foldl register (pools.get? pool)
  | [], _ => rfl
  | row :: rows, pools => by
    rw [foldl_cons, get?_foldl_poolsAddOne pool rows, poolsAddOne, get?_alter]
    by_cases hid : row.1.id = pool
    · subst hid
      rw [if_pos rfl, filter_cons_of_pos (by simp), foldl_cons]
      congr 1
    · rw [if_neg (Ne.symm hid), filter_cons_of_neg (by simpa using hid)]

/-- Among all that a block registers, what it registers for one pool. -/
theorem filter_flatMap_registered (pool : PoolId) :
    ∀ entries : List (PoolId × Registrations PoolRegistration),
      (∀ e ∈ entries, ∀ row ∈ e.2.toList, row.1.id = e.1) →
      (entries.flatMap fun e ↦ e.2.toList).filter (·.1.id = pool) =
        ((entries.filter (·.1 = pool)).map Prod.snd).flatMap (·.toList)
  | [], _ => rfl
  | e :: entries, hnames => by
    rw [flatMap_cons, filter_append,
      filter_flatMap_registered pool entries fun e he ↦ hnames e (mem_cons_of_mem _ he)]
    have he := hnames e mem_cons_self
    by_cases hpool : e.1 = pool
    · rw [filter_cons_of_pos (by simpa using hpool), map_cons, flatMap_cons,
        filter_eq_self.2 fun row hrow ↦ by simpa [hpool] using he row hrow]
    · rw [filter_cons_of_neg (by simpa using hpool),
        filter_eq_nil_iff.2 fun row hrow ↦ by simpa [he row hrow] using hpool, nil_append]

/-- The pools after a diff. -/
def poolsApply (pools : SortedMap PoolId PoolRow) (diff : DiffEpochReg PoolId PoolRegistration) :
    SortedMap PoolId PoolRow :=
  poolsRemove (poolsAdd pools diff.registered) diff.unregistered

theorem get?_poolsApply {diff : DiffEpochReg PoolId PoolRegistration} {pools : SortedMap PoolId PoolRow}
    {pool : PoolId} (hnames : VolatileFragment.NamesPools { pools := diff }) :
    (poolsApply pools diff).get? pool = extend (pools.get? pool)
      (Registrations.list (diff.registered.get? pool)) (diff.unregistered.get? pool) := by
  have hadd : (poolsAdd pools diff.registered).get? pool =
      (Registrations.list (diff.registered.get? pool)).foldl register (pools.get? pool) := by
    rw [poolsAdd, get?_foldl_poolsAddOne, filter_flatMap_registered, map_snd_filter_entries]
    · cases diff.registered.get? pool <;> simp [Registrations.list]
    · exact fun e he ↦ hnames e.1 e.2 (mem_entries_iff.1 he)
  rw [poolsApply, poolsRemove, get?_mergeWith, hadd, extend]
  cases diff.unregistered.get? pool <;> simp

/-- **The pool of the store after a block**, from the one before. -/
theorem get?_pools_of_applyBlock {block} (hnames : block.fragment.NamesPools)
    (hnew : block.point.isStale store.tip = false)
    (h : store.applyBlock eras pp activity block = .ok store') (pool : PoolId)
    :
    store'.pools.get? pool = extend (store.pools.get? pool)
      (Registrations.list (block.fragment.pools.registered.get? pool))
      (block.fragment.pools.unregistered.get? pool) := by
  obtain ⟨_, _, _, -, -, -, rfl⟩ := exists_of_applyBlock h hnew
  exact get?_poolsApply hnames

end Store

/-- **The pools of the view are those of the store after saving the blocks**, up to certificates that
are replaced. -/
theorem alike_iterPools (hnewer : Store.Newer store.tip series)
    (hnames : ∀ block ∈ series, block.fragment.NamesPools)
    (h : store.applyBlocks eras pp activity series = .ok store')
    (pool : PoolId) :
    PoolRow.Alike (((ofSeries series).iterPools store).get? pool) (store'.pools.get? pool) := by
  revert hnames
  refine Store.applyBlocks_invariant hnewer h ?_ fun done saved saved' block hsaved hnew happly hnames ↦ ?_
  · intro _
    rw [get?_iterPools]
    exact congrArg (Option.map summary) (extend_nil _)
  · rw [forall_mem_append] at hnames
    have halike := hsaved hnames.1
    have hblock := hnames.2 block (mem_singleton_self _)
    rw [PoolRow.Alike, get?_iterPools, summary_extend] at halike ⊢
    rw [Store.get?_pools_of_applyBlock hblock hnew happly, summary_extend, ← halike,
      PoolRow.Summary.extend_extend, ofSeries_concat, VolatileView.extend,
      DiffEpochReg.registered_extend, DiffEpochReg.unregistered_extend, SortedMap.contains]
    cases block.fragment.pools.registered.get? pool <;> rfl

/-- Every pool is held under its own name. -/
def Store.PoolsNamed (pools : SortedMap PoolId PoolRow) : Prop :=
  ∀ pool row, pools.get? pool = some row → row.currentParams.id = pool

theorem PoolRow.id_of_foldl_register : ∀ {regs : List PoolRegistration}
    {row} {row'}, (∀ r ∈ regs, r.1.id = pool) →
    (∀ existing, row = some existing → existing.currentParams.id = pool) →
    regs.foldl register row = some row' → row'.currentParams.id = pool
  | [], _, _, _, hrow, h => hrow _ h
  | registration :: regs, row, row', hnames, hrow, h => by
    refine id_of_foldl_register (fun r hr ↦ hnames r (mem_cons_of_mem _ hr)) ?_ h
    intro existing hexisting
    rcases row with - | row
    · cases hexisting
      exact hnames registration mem_cons_self
    · cases hexisting
      exact hrow row rfl

theorem Store.PoolsNamed.applyBlocks (hstore : PoolsNamed store.pools) (hnewer : Newer store.tip series)
    (hnames : ∀ block ∈ series, block.fragment.NamesPools)
    (h : store.applyBlocks eras pp activity series = .ok store') :
    PoolsNamed store'.pools := by
  revert hnames
  refine applyBlocks_invariant hnewer h (fun _ ↦ hstore) ?_
  intro done saved saved' block hsaved hnew happly hnames pool row hrow
  rw [forall_mem_append] at hnames
  have hblock := hnames.2 block (mem_singleton_self _)
  rw [get?_pools_of_applyBlock hblock hnew happly] at hrow
  obtain ⟨registered, hregistered, rfl⟩ := map_eq_some_iff.1 hrow
  change registered.currentParams.id = pool
  refine id_of_foldl_register (fun r hr ↦ ?_)
    (hsaved hnames.1 pool) hregistered
  rcases hget : block.fragment.pools.registered.get? pool with - | regs <;> rw [hget] at hr
  · cases hr
  · exact hblock pool regs hget r hr

theorem Store.PoolsNamed.of_alike {pools pools'}
    (halike : ∀ pool, PoolRow.Alike (pools.get? pool) (pools'.get? pool)) (hnamed : PoolsNamed pools') :
    PoolsNamed pools := by
  intro pool row hrow
  have hpool := halike pool
  rw [hrow, PoolRow.Alike] at hpool
  obtain ⟨row', hrow', hsummary⟩ := map_eq_some_iff.1 hpool.symm
  rw [← hnamed pool row' hrow']
  exact (congrArg (fun s ↦ s.currentParams.id) hsummary).symm

/-! ### The updates -/

namespace PoolRow

variable {row : PoolRow}

/-- When a pool is due to retire. -/
def due (epoch : ℕ) (row : PoolRow) : Option ℕ :=
  (Outstanding.of row.pendingCertificates).retirement.filter (· ≤ epoch)

/-- What becomes of a pool that does not retire, if anything. -/
def update (epoch : ℕ) (row : PoolRow) : Option PoolRow :=
  let pending := pendingAfter row.pendingCertificates epoch
  match pending.certificate with
  | some (.registration params) => some { row with
      currentParams := { params with id := row.currentParams.id }
      pendingCertificates := pending.nextCertificates }
  | _ => if pending.nextCertificates.length < row.pendingCertificates.length then
      some { row with pendingCertificates := pending.nextCertificates } else none

theorem due_eq_some_iff {due : ℕ} : row.due epoch = some due ↔
    (pendingAfter row.pendingCertificates epoch).certificate = some (.retirement due) := by
  rw [(folded_pendingAfter epoch row.pendingCertificates).retires_iff, PoolRow.due,
    filter_eq_some_iff, decide_eq_true_iff]

/-- In a pool that does not retire, the registration that stands takes effect unless it is
displaced. -/
theorem certificate_eq_registration_iff (hdue : row.due epoch = none) (params : PoolParams) :
    (pendingAfter row.pendingCertificates epoch).certificate = some (.registration params) ↔
      (Outstanding.of row.pendingCertificates).registration = some params ∧
        ¬Displaces epoch row.pendingCertificates := by
  have hfolded := folded_pendingAfter epoch row.pendingCertificates
  constructor
  · exact fun h ↦ ⟨hfolded.registers params h, fun hdisplaces ↦ hdisplaces.certificate_ne params h⟩
  · rintro ⟨hparams, hdisplaces⟩
    rcases hcertificate : (pendingAfter row.pendingCertificates epoch).certificate with - | certificate
    · have hlost := (hfolded.loses hcertificate).resolve_right hdisplaces
      rw [hparams] at hlost
      cases hlost
    cases certificate with
    | registration params' =>
      rw [hfolded.registers params' hcertificate] at hparams
      rw [some.inj hparams]
    | retirement due =>
      rw [← due_eq_some_iff, hdue] at hcertificate
      cases hcertificate

/-- The pool after the boundary, where it does not retire. -/
def after (epoch : ℕ) (row : PoolRow) : PoolRow := (row.update epoch).getD row

/-- What a pool comes to after the boundary: the registration that takes effect, and the retirement
that stands later. -/
theorem summary_after (hdue : row.due epoch = none) :
    (row.after epoch).summary =
      { row.summary with
        currentParams := match (pendingAfter row.pendingCertificates epoch).certificate with
          | some (.registration params) => { params with id := row.currentParams.id }
          | _ => row.currentParams
        outstanding :=
          { retirement := (Outstanding.of row.pendingCertificates).retirement.filter (epoch < ·) } } := by
  have hfolded := folded_pendingAfter epoch row.pendingCertificates
  rw [after, update]
  rcases hcertificate : (pendingAfter row.pendingCertificates epoch).certificate with - | certificate
  · split_ifs with hlength
    · simp only [getD_some, summary, hfolded.keeps]
    · -- nothing was dropped
      have hsame := hfolded.sublist.eq_of_length_le (Nat.not_lt.1 hlength)
      simp only [getD_none, summary, ← hfolded.keeps, hsame]
  · cases certificate with
    | registration params => simp only [getD_some, summary, hfolded.keeps]
    | retirement due =>
      rw [← due_eq_some_iff, hdue] at hcertificate
      cases hcertificate

/-- Pools that come to the same still do after the boundary, unless a registration is displaced in one
of them only. -/
theorem summary_after_eq (h : row.summary = row'.summary) (hdue : row.due epoch = none)
    (hdue' : row'.due epoch = none)
    (hdisplaces : Displaces epoch row.pendingCertificates ↔ Displaces epoch row'.pendingCertificates) :
    (row.after epoch).summary = (row'.after epoch).summary := by
  have houtstanding : Outstanding.of row.pendingCertificates = .of row'.pendingCertificates :=
    congrArg Summary.outstanding h
  have hparams : row.currentParams = row'.currentParams := congrArg Summary.currentParams h
  have hcertificate : ∀ params,
      (pendingAfter row.pendingCertificates epoch).certificate = some (.registration params) ↔
        (pendingAfter row'.pendingCertificates epoch).certificate = some (.registration params) :=
    fun params ↦ by
      rw [certificate_eq_registration_iff hdue, certificate_eq_registration_iff hdue', houtstanding,
        hdisplaces]
  rw [summary_after hdue, summary_after hdue', h, houtstanding, hparams]
  split
  · next params hregistration => rw [(hcertificate params).1 hregistration]
  next hregistration =>
  split
  · next params hregistration' =>
      exact absurd ((hcertificate params).2 hregistration') (hregistration params)
  · rfl

end PoolRow

namespace PoolsEpochTransitionUpdates

variable {row : PoolRow} {updates updates' : PoolsEpochTransitionUpdates} {pools : SortedMap PoolId PoolRow}

theorem tickPool_eq (epoch : ℕ) (updates : PoolsEpochTransitionUpdates) (row : PoolRow) :
    tickPool epoch updates row = match row.due epoch with
      | some due => if due = epoch then .ok (updates.retirePool row)
          else .error (.retiredAtAnotherEpoch row.currentParams.id)
      | none => .ok (((row.update epoch).map updates.updatePool).getD updates) := by
  rw [tickPool]
  rcases hdue : row.due epoch with - | due
  · have hnone : ∀ due, (pendingAfter row.pendingCertificates epoch).certificate ≠
        some (.retirement due) := fun due h ↦ by
      rw [← due_eq_some_iff, hdue] at h
      cases h
    rw [update]
    rcases hcertificate : (pendingAfter row.pendingCertificates epoch).certificate with - | certificate
    · split_ifs <;> rfl
    · cases certificate with
      | registration params => rfl
      | retirement due => exact absurd hcertificate (hnone due)
  · rw [due_eq_some_iff.1 hdue]

/-- What becomes of one pool. -/
structure Ticked (epoch : ℕ) (updates : PoolsEpochTransitionUpdates) (row : PoolRow) : Prop where
  retired_iff : row.currentParams.id ∈ updates.retired ↔ (row.due epoch).isSome
  updated_eq : updates.updated.get? row.currentParams.id =
    if (row.due epoch).isSome then none else row.update epoch

theorem id_of_update (h : row.update epoch = some row') : row'.currentParams.id = row.currentParams.id := by
  rw [update] at h
  split at h
  · cases h
    rfl
  · split_ifs at h
    cases h
    rfl

theorem of_tickPool (h : tickPool epoch updates row = .ok updates') (pool : PoolId) :
    (pool ∈ updates'.retired ↔
      pool = row.currentParams.id ∧ (row.due epoch).isSome ∨ pool ∈ updates.retired) ∧
    updates'.updated.get? pool =
      if pool = row.currentParams.id ∧ row.due epoch = none then
        (row.update epoch).or (updates.updated.get? pool) else updates.updated.get? pool := by
  rw [tickPool_eq] at h
  rcases hdue : row.due epoch with - | due <;> simp only [hdue] at h
  · cases h
    rcases hupdate : row.update epoch with - | row'
    · simp
    · simp [updatePool, id_of_update hupdate, get?_insert]
  · split_ifs at h
    cases h
    simp [retirePool]

/-- **What becomes of every pool**, where each is held under its own name. -/
theorem ticked_of_new (hids : ∀ pool row, pools.get? pool = some row → row.currentParams.id = pool)
    (h : new pools epoch = .ok updates) :
    ∀ pool row, pools.get? pool = some row → Ticked epoch updates row := by
  intro pool row hrow
  have hunique : ∀ other ∈ pools.values, other.currentParams.id = row.currentParams.id → other = row := by
    intro other hother hid
    obtain ⟨⟨pool', _⟩, hmem, rfl⟩ := mem_map.1 hother
    have hget := mem_entries_iff.1 hmem
    rw [hids _ _ hget, hids _ _ hrow] at hid
    subst hid
    exact some.inj (hget.symm.trans hrow)
  have hrun := Except.foldlM_invariant
    (P := fun (done : List PoolRow) (updates : PoolsEpochTransitionUpdates) ↦
      (∀ other ∈ done, other.currentParams.id = row.currentParams.id → other = row) →
      (row.currentParams.id ∈ updates.retired ↔ row ∈ done ∧ (row.due epoch).isSome) ∧
      updates.updated.get? row.currentParams.id =
        if row ∈ done ∧ row.due epoch = none then row.update epoch else none)
    h (fun _ ↦ ⟨by simp, by simp⟩) ?_ hunique
  · have hmem : row ∈ pools.values := mem_map.2 ⟨(pool, row), mem_entries_iff.2 hrow, rfl⟩
    refine ⟨by simpa [hmem] using hrun.1, ?_⟩
    cases hdue : row.due epoch <;> simpa [hmem, hdue] using hrun.2
  · intro done next updates updates' hdone htick hunique
    obtain ⟨hretired, hupdated⟩ := hdone fun other hother ↦ hunique other (mem_append_left _ hother)
    have hnext := hunique next (by simp)
    obtain ⟨hretired', hupdated'⟩ := of_tickPool htick row.currentParams.id
    rw [hretired', hupdated', hretired, hupdated]
    by_cases hid : next.currentParams.id = row.currentParams.id
    · obtain rfl := hnext hid
      refine ⟨by simp, ?_⟩
      split_ifs <;> simp_all
    · have hne : row ≠ next := fun heq ↦ hid (heq ▸ rfl)
      simp [Ne.symm hid, hne]

/-- The row of a pool once the updates are written. -/
def rowAfter (updates : PoolsEpochTransitionUpdates) (pools : SortedMap PoolId PoolRow)
    (pool : PoolId) : Option PoolRow :=
  if pool ∈ updates.retired then none else (updates.updated.get? pool).or (pools.get? pool)

theorem due_eq_of_summary_eq (h : row.summary = row'.summary) : row.due epoch = row'.due epoch := by
  have houtstanding : Outstanding.of row.pendingCertificates = .of row'.pendingCertificates :=
    congrArg PoolRow.Summary.outstanding h
  rw [due, due, houtstanding]

/-- **Pools that come to the same retire alike**, one after the other: the same pools retire with the
same refunds, or the source panics on the same pool. -/
theorem agree_of_foldlM : ∀ {rows rows' : List PoolRow} {updates updates'},
    rows.map summary = rows'.map summary →
    updates.retired = updates'.retired → updates.refunds = updates'.refunds →
    (∀ error, rows.foldlM (tickPool epoch) updates = .error error ↔
      rows'.foldlM (tickPool epoch) updates' = .error error) ∧
    ∀ ticked ticked', rows.foldlM (tickPool epoch) updates = .ok ticked →
      rows'.foldlM (tickPool epoch) updates' = .ok ticked' →
      ticked.retired = ticked'.retired ∧ ticked.refunds = ticked'.refunds
  | [], [], updates, updates', _, hretired, hrefunds => by
    refine ⟨fun error ↦ ⟨nofun, nofun⟩, fun ticked ticked' h h' ↦ ?_⟩
    cases h
    cases h'
    exact ⟨hretired, hrefunds⟩
  | [], _ :: _, _, _, h, _, _ => by cases h
  | _ :: _, [], _, _, h, _, _ => by cases h
  | row :: rows, row' :: rows', updates, updates', h, hretired, hrefunds => by
    obtain ⟨hrow, hrows⟩ := cons.inj h
    have hid : row.currentParams = row'.currentParams :=
      congrArg PoolRow.Summary.currentParams hrow
    have hdeposit : row.deposit = row'.deposit := congrArg PoolRow.Summary.deposit hrow
    rw [foldlM_cons, foldlM_cons, tickPool_eq, tickPool_eq, due_eq_of_summary_eq hrow, hid]
    rcases row'.due epoch with - | due
    · refine agree_of_foldlM hrows ?_ ?_
      · cases row.update epoch <;> cases row'.update epoch <;> exact hretired
      · cases row.update epoch <;> cases row'.update epoch <;> exact hrefunds
    dsimp only
    split_ifs
    · refine agree_of_foldlM hrows ?_ ?_
      · rw [retirePool, retirePool, hretired, hid]
      · rw [retirePool, retirePool, hrefunds, hid, hdeposit]
    · exact ⟨fun error ↦ Iff.rfl, nofun⟩

theorem rowAfter_eq (hnamed : Store.PoolsNamed pools) (h : new pools epoch = .ok updates)
    (hrow : pools.get? pool = some row) :
    updates.rowAfter pools pool = if (row.due epoch).isSome then none else some (row.after epoch) := by
  obtain ⟨hretired, hupdated⟩ := ticked_of_new hnamed h pool row hrow
  rw [hnamed pool row hrow] at hretired hupdated
  rw [rowAfter, if_congr hretired rfl rfl, hupdated, hrow]
  split_ifs
  · rfl
  · rw [PoolRow.after]
    cases row.update epoch <;> rfl

/-- **Tables of pools that come to the same are updated alike.** -/
theorem agree_of_alike {pools'} (hnamed : Store.PoolsNamed pools')
    (halike : ∀ pool, PoolRow.Alike (pools.get? pool) (pools'.get? pool)) (epoch : ℕ) :
    (∀ error, new pools epoch = .error error ↔ new pools' epoch = .error error) ∧
    ∀ before after, new pools epoch = .ok before → new pools' epoch = .ok after →
      before.retired = after.retired ∧ before.refunds = after.refunds ∧
      ∀ pool row row', pools.get? pool = some row → pools'.get? pool = some row' →
        (Displaces epoch row.pendingCertificates ↔ Displaces epoch row'.pendingCertificates) →
        PoolRow.Alike (before.rowAfter pools pool) (after.rowAfter pools' pool) := by
  have hvalues : pools.values.map summary = pools'.values.map summary := by
    rw [← values_map, ← values_map]
    congr 1
    refine ext_get? fun pool ↦ ?_
    rw [get?_map, get?_map]
    exact halike pool
  obtain ⟨herror, hagree⟩ := @agree_of_foldlM epoch _ _ {} {} hvalues rfl rfl
  refine ⟨herror, fun before after hbefore hafter ↦ ?_⟩
  obtain ⟨hretired, hrefunds⟩ := hagree before after hbefore hafter
  refine ⟨hretired, hrefunds, fun pool row row' hrow hrow' hdisplaces ↦ ?_⟩
  have hsummary : row.summary = row'.summary := by
    have hpool := halike pool
    rw [hrow, hrow'] at hpool
    exact some.inj hpool
  rw [rowAfter_eq (.of_alike halike hnamed) hbefore hrow, rowAfter_eq hnamed hafter hrow',
    ← due_eq_of_summary_eq hsummary]
  rcases hdue : row.due epoch with - | due
  · have hdue' : row'.due epoch = none := due_eq_of_summary_eq hsummary ▸ hdue
    exact congrArg some (summary_after_eq hsummary hdue hdue' hdisplaces)
  · rfl

end PoolsEpochTransitionUpdates

/-- **Ticking the pools of the view is ticking those of the store after saving the blocks.** The pools
are the same up to certificates that are replaced; the same pools retire with the same refunds; and
each other pool comes to the same, unless a registration of it is displaced in one of the two only. -/
theorem pools_ticked_through_view (hnamed : Store.PoolsNamed store.pools)
    (hnewer : Store.Newer store.tip series) (hnames : ∀ block ∈ series, block.fragment.NamesPools)
    (h : store.applyBlocks eras pp activity series = .ok store')
    (epoch : ℕ) :
    let pools := (ofSeries series).iterPools store
    (∀ pool, PoolRow.Alike (pools.get? pool) (store'.pools.get? pool)) ∧
    (∀ error, new pools epoch = .error error ↔ new store'.pools epoch = .error error) ∧
    ∀ before after, new pools epoch = .ok before → new store'.pools epoch = .ok after →
      before.retired = after.retired ∧ before.refunds = after.refunds ∧
      ∀ pool row row', pools.get? pool = some row → store'.pools.get? pool = some row' →
        (Displaces epoch row.pendingCertificates ↔ Displaces epoch row'.pendingCertificates) →
        PoolRow.Alike (before.rowAfter pools pool) (after.rowAfter store'.pools pool) :=
  have halike := alike_iterPools hnewer hnames h
  ⟨halike, agree_of_alike (hnamed.applyBlocks hnewer hnames h) halike epoch⟩

/-! ### One pool -/

/-- Parameters of the first pool. -/
def firstPool (cost : ℕ) : PoolParams where
  id := 1
  vrf := 0
  pledge := 0
  cost := cost
  margin := 0
  rewardAccount := default
  owners := ∅

/-- A store with one pool. -/
def onePool : Store :=
  { blankStore with
    pools := .ofList [(1, { registeredAt := default, deposit := 500, currentParams := firstPool 10 })] }

/-- A block that registers the pool again. -/
def registeringBlock (slot cost : ℕ) : AnchoredVolatileFragment where
  point := .specific slot slot slot
  issuer := 0
  fragment := { pools := (∅ : DiffEpochReg _ _).register 1 (firstPool cost, default, 500) }

/-- A block that retires the pool. -/
def retiringBlock (slot epoch : ℕ) : AnchoredVolatileFragment where
  point := .specific slot slot slot
  issuer := 0
  fragment := { pools := (∅ : DiffEpochReg _ _).unregister 1 epoch }

theorem namesPools_registeringBlock (slot cost : ℕ) : (registeringBlock slot cost).fragment.NamesPools := by
  intro pool regs h row hrow
  have hentry := mem_entries_iff.2 h
  obtain ⟨rfl, rfl⟩ := Prod.mk.inj (mem_singleton.1 hentry)
  rw [mem_singleton.1 hrow]
  rfl

theorem poolsNamed_onePool : Store.PoolsNamed onePool.pools := by
  intro pool row h
  obtain ⟨rfl, rfl⟩ := Prod.mk.inj (mem_singleton.1 (mem_entries_iff.2 h))
  rfl

theorem pools_ticked_through_view_onePool : ∃ store' before after,
    onePool.applyBlocks tenSlotEpochs default ⟨0⟩ [registeringBlock 11 20, retiringBlock 12 2] = .ok store' ∧
    new ((ofSeries
      [registeringBlock 11 20, retiringBlock 12 2]).iterPools onePool) 2 = .ok before ∧
    new store'.pools 2 = .ok after ∧
    before.retired = after.retired ∧ before.refunds = after.refunds := by
  have hnewer : Store.Newer onePool.tip [registeringBlock 11 20, retiringBlock 12 2] :=
    .cons_cons rfl (.cons_cons rfl (.singleton _))
  obtain ⟨-, -, hagree⟩ := pools_ticked_through_view poolsNamed_onePool hnewer
    (by simpa using ⟨namesPools_registeringBlock 11 20, nofun⟩)
    (rfl : onePool.applyBlocks tenSlotEpochs default ⟨0⟩ _ = .ok _) 2
  obtain ⟨hretired, hrefunds, -⟩ := hagree _ _ rfl rfl
  exact ⟨_, _, _, rfl, rfl, rfl, hretired, hrefunds⟩

/-- **The pools of the view are not those of the store.** The pool registers again, and then two
blocks retire it, in five epochs and then in three. The view has dropped the first retirement, and
with it the updates differ. -/
theorem replaced_retirement_is_not_in_view : ∃ store' before after,
    onePool.applyBlocks tenSlotEpochs default ⟨0⟩
      [registeringBlock 11 20, retiringBlock 12 6, retiringBlock 13 4] = .ok store' ∧
    new ((ofSeries
      [registeringBlock 11 20, retiringBlock 12 6, retiringBlock 13 4]).iterPools onePool) 2 = .ok before ∧
    new store'.pools 2 = .ok after ∧
    (((ofSeries [registeringBlock 11 20, retiringBlock 12 6,
      retiringBlock 13 4]).iterPools onePool).get? 1).map (·.pendingCertificates) =
        some [.registration (firstPool 20), .retirement 4] ∧
    (store'.pools.get? 1).map (·.pendingCertificates) =
      some [.registration (firstPool 20), .retirement 6, .retirement 4] ∧
    (before.updated.get? 1).map (·.pendingCertificates) = some [.retirement 4] ∧
    (after.updated.get? 1).map (·.pendingCertificates) = some [.retirement 6, .retirement 4] :=
  ⟨_, _, _, rfl, rfl, rfl, rfl, rfl, rfl, rfl⟩

end Amaru
