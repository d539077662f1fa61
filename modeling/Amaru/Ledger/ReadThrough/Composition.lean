import Amaru.Ledger.ReadThrough.Pools

/-!
# Merging diffs

The volatile series keeps the diffs of its blocks merged. **Applying what two diffs are merged to is applying
one and then the other**, and merging is associative (`merged_diffs_compose`), for valid blocks: nothing is
produced that was consumed before, and only an entry that is there is bound without a value.

The diff of a block records its operations. **Applying it is carrying them out one after the other**
(`DiffBind.recorded_is_carried_out`).

Of the pools this holds up to certificates that later ones replace, since only the first and the latest
registration and the latest retirement are kept (`replaced_certificates_are_dropped`).
-/

namespace Amaru

open SortedMap SortedSet Option

theorem Bind.andThen_assoc {L R V : Type*} (oldest older newer : Bind L R V) :
    (oldest.andThen older).andThen newer = oldest.andThen (older.andThen newer) := by
  obtain ⟨left, right, _ | value⟩ := newer <;> obtain ⟨left', right', _ | value'⟩ := older <;>
    cases left <;> cases right <;> rfl

namespace DiffBind

variable {K : Type*} [LinearOrder K] {L R V : Type*} {d d' newer newest : DiffBind K L R V}
  {m : SortedMap K (Bound L R V)} {k : K}

theorem ext_get (h : ∀ k, d.get k = d'.get k) : d = d' := by
  refine DiffBind.ext (ext_get? fun k ↦ Option.ext fun bind ↦ ?_) (ext_get? fun k ↦ Option.ext fun _ ↦ ?_)
  · rw [← get_eq_exists_iff, h, get_eq_exists_iff]
  · rw [← mem_iff, ← mem_iff, ← get_eq_gone_iff, h, get_eq_gone_iff]

/-- A table after a diff. -/
def applyTo (d : DiffBind K L R V) (m : SortedMap K (Bound L R V)) : SortedMap K (Bound L R V) :=
  d.unregistered.removeFrom (m.mergeWith d.registered fun _ bind ↦ bind.apply)

/-- Only entries that are there are bound without a value. -/
def Grounded (d : DiffBind K L R V) (m : SortedMap K (Bound L R V)) : Prop :=
  ∀ k bind, d.get k = .exists_ bind → bind.value = none → (m.get? k).isSome

theorem get?_applyTo : (d.applyTo m).get? k = (d.get k).apply (m.get? k) := by
  rw [applyTo, get?_removeFrom, get?_mergeWith]
  cases hverdict : d.get k with
  | exists_ bind =>
    rw [get_eq_exists_iff.1 hverdict, if_neg (notMem_unregistered_of_get hverdict)]
    rfl
  | gone => exact if_pos (get_eq_gone_iff.1 hverdict)
  | unknown =>
    obtain ⟨hreg, hun⟩ := get_eq_unknown_iff.1 hverdict
    rw [hreg, if_neg hun]
    rfl

theorem applyTo_extend (h : newer.Grounded (d.applyTo m)) :
    (d.extend newer).applyTo m = newer.applyTo (d.applyTo m) := by
  refine ext_get? fun k ↦ ?_
  have hground := h k
  rw [get?_applyTo, get?_applyTo, get_extend]
  rw [get?_applyTo] at hground ⊢
  cases hnewer : newer.get k with
  | gone | unknown => rfl
  | exists_ bind =>
    cases hverdict : d.get k with
    | exists_ older =>
      rw [get_eq_exists_iff.1 hverdict]
      exact Bind.apply_andThen older bind _
    | unknown =>
      rw [(get_eq_unknown_iff.1 hverdict).1]
      rfl
    | gone =>
      -- what is gone is not there to bind
      rw [hverdict] at hground
      rw [d.disjoint k (get_eq_gone_iff.1 hverdict)]
      cases hvalue : bind.value with
      | none => cases hground bind hnewer hvalue
      | some value => simp [Existence.apply, Bind.apply, hvalue]

theorem extend_assoc (h : newest.Grounded (newer.applyTo (d.applyTo m))) :
    (d.extend newer).extend newest = d.extend (newer.extend newest) := by
  refine ext_get fun k ↦ ?_
  simp only [get_extend, registered_extend]
  cases hnewest : newest.get k with
  | gone | unknown => rfl
  | exists_ bind =>
    cases hnewer : newer.get k with
    | exists_ older =>
      rw [get_eq_exists_iff.1 hnewer]
      cases d.registered.get? k <;> simp [Bind.andThen_assoc]
    | unknown =>
      rw [(get_eq_unknown_iff.1 hnewer).1]
      rfl
    | gone =>
      -- what is gone can only be registered again
      have hvalue : bind.value ≠ none := fun hvalue ↦ by
        have hsome := h k bind hnewest hvalue
        rw [get?_applyTo, hnewer] at hsome
        cases hsome
      rw [newer.disjoint k (get_eq_gone_iff.1 hnewer)]
      cases d.registered.get? k <;> simp [Bind.andThen, isSome_iff_ne_none.2 hvalue]

/-! ### The operations of a block -/

/-- What a block does to an entry. -/
inductive Op (L R V : Type*)
  | register (value : V) (left : Option L) (right : Option R)
  | bindLeft (left : Option L)
  | bindRight (right : Option R)
  | unregister

/-- The operation itself. -/
def Op.run : Op L R V → Option (Bound L R V) → Option (Bound L R V)
  | register value left right, _ => some ⟨left, right, value⟩
  | bindLeft left, entry => entry.map ({ · with left })
  | bindRight right, entry => entry.map ({ · with right })
  | unregister, _ => none

/-- The operation is recorded in a diff, unless it is refused. -/
def record (d : DiffBind K L R V) : K × Op L R V → Option (DiffBind K L R V)
  | (k, .register value left right) => d.register k value left right
  | (k, .bindLeft left) => d.bindLeft k left
  | (k, .bindRight right) => d.bindRight k right
  | (k, .unregister) => some (d.unregister k)

/-- An operation is recorded at its key, and what is recorded comes to the operation. -/
def Records (d : DiffBind K L R V) (k : K) (op : Op L R V) (d' : DiffBind K L R V) : Prop :=
  (∀ k', k' ≠ k → d'.get k' = d.get k') ∧ ∀ entry, (d'.get k).apply entry = op.run ((d.get k).apply entry)

theorem records_of_rebind {op : Op L R V} {f} (h : d.rebind k f = some d')
    (hf : ∀ bind entry, (f bind).apply entry = op.run (bind.apply entry)) : Records d k op d' := by
  rw [rebind] at h
  split_ifs at h with hgone
  cases h
  refine ⟨fun k' hk ↦ by simp [get, get?_insert_of_ne _ _ hk], fun entry ↦ ?_⟩
  simp only [get, get?_insert_self]
  refine (hf _ _).trans (congrArg op.run ?_)
  cases d.registered.get? k
  · rw [if_neg hgone]
    cases entry <;> rfl
  · rfl

theorem records_of_record {op : Op L R V} (h : d.record (k, op) = some d') : Records d k op d' := by
  cases op with
  | bindLeft left =>
    refine records_of_rebind (id h : d.bindLeft k left = _) fun bind entry ↦ ?_
    obtain ⟨_, _, _ | _⟩ := bind <;> cases entry <;> cases left <;> rfl
  | bindRight right =>
    refine records_of_rebind (id h : d.bindRight k right = _) fun bind entry ↦ ?_
    obtain ⟨_, _, _ | _⟩ := bind <;> cases entry <;> cases right <;> rfl
  | register value left right =>
    rw [record, register] at h
    split_ifs at h
    cases h
    refine ⟨fun k' hk ↦ by simp [get, get?_insert_of_ne _ _ hk, mem_erase, hk], fun entry ↦ ?_⟩
    cases left <;> cases right <;> simp [get] <;> rfl
  | unregister =>
    cases h
    refine ⟨fun k' hk ↦ by simp [get, unregister, get?_erase_of_ne _ hk, mem_add, hk], fun entry ↦ ?_⟩
    simp [get, unregister, mem_add, Existence.apply, Op.run]

/-- **What a block records is what it does**: applying the diff is carrying out its operations one after the
other. -/
theorem recorded_is_carried_out {ops : List (K × Op L R V)} (h : ops.foldlM record d = some d')
    (m : SortedMap K (Bound L R V)) :
    d'.applyTo m = ops.foldl (fun m op ↦ m.alter op.1 op.2.run) (d.applyTo m) := by
  induction ops generalizing d with
  | nil =>
    cases h
    rfl
  | cons op ops ih =>
    obtain ⟨next, hnext, h⟩ := bind_eq_some_iff.1 h
    obtain ⟨hother, hkey⟩ := records_of_record hnext
    rw [ih h, List.foldl_cons]
    congr 1
    refine ext_get? fun k ↦ ?_
    rw [get?_alter, get?_applyTo, get?_applyTo, get?_applyTo]
    split_ifs with hk
    · rw [hk, hkey]
    · rw [hother k hk]

/-- An entry is removed, registered again and bound. -/
theorem recorded_is_carried_out_again :
    let ops : List (ℕ × Op ℕ ℕ ℕ) := [(1, .unregister), (1, .register 5 none none), (1, .bindLeft (some 7))]
    ∃ d', ops.foldlM record ∅ = some d' ∧
      d'.applyTo (.ofList [(1, ⟨none, some 2, 3⟩)]) = .ofList [(1, ⟨some 7, none, 5⟩)] := by
  intro ops
  exact ⟨_, rfl, recorded_is_carried_out (rfl : ops.foldlM record ∅ = _) _⟩

end DiffBind

namespace DiffSet

variable {K : Type*} [LinearOrder K] {V : Type*} {d newer newest : DiffSet K V}

/-- A table after a diff. -/
def applyTo (d : DiffSet K V) (m : SortedMap K V) : SortedMap K V :=
  d.consumed.removeFrom (m.insertAll d.produced)

/-- Nothing is produced of what is consumed. -/
def Disjoint (d : DiffSet K V) (consumed : SortedSet K) : Prop := ∀ k ∈ consumed, d.produced.get? k = none

theorem extend_assoc : (d.extend newer).extend newest = d.extend (newer.extend newest) := by
  refine congrArg₂ DiffSet.mk (ext_get? fun k ↦ ?_) (ext_get? fun k ↦ ?_)
  · simp [extend, Option.or_assoc]
  · by_cases h : k ∈ newest.consumed <;> by_cases h' : k ∈ newer.consumed <;>
      simp [extend, h, h', Option.or_assoc]

theorem applyTo_extend (h : newer.Disjoint d.consumed) (m : SortedMap K V) :
    (d.extend newer).applyTo m = newer.applyTo (d.applyTo m) := by
  refine ext_get? fun k ↦ ?_
  simp only [applyTo, extend, get?_removeFrom, get?_insertAll, mem_insertAll]
  by_cases hnewer : k ∈ newer.consumed
  · simp [hnewer]
  · by_cases hd : k ∈ d.consumed
    · simp [hnewer, hd, h k hd]
    · simp [hnewer, hd, Option.or_assoc]

theorem disjoint_extend (h : d.Disjoint d.consumed) (h' : newer.Disjoint newer.consumed)
    (hnewer : newer.Disjoint d.consumed) : (d.extend newer).Disjoint (d.extend newer).consumed := by
  intro k hk
  rw [extend, mem_insertAll] at hk
  rw [extend, get?_insertAll, get?_removeFrom]
  rcases hk with hk | hk
  · simp [hnewer k hk, h k hk]
  · simp [h' k hk, hk]

end DiffSet

theorem DiffEpochReg.extend_assoc {K : Type*} [LinearOrder K] {V : Type*}
    {d newer newest : DiffEpochReg K V} :
    (d.extend newer).extend newest = d.extend (newer.extend newest) := by
  refine congrArg₂ mk (ext_get? fun k ↦ ?_) (ext_get? fun k ↦ ?_)
  · refine (registered_extend (d.extend newer) newest k).trans ?_
    refine .trans ?_ (registered_extend d (newer.extend newest) k).symm
    simp only [registered_extend]
    cases newest.registered.get? k <;> cases newer.registered.get? k <;> cases d.registered.get? k <;> rfl
  · refine (unregistered_extend (d.extend newer) newest k).trans ?_
    refine .trans ?_ (unregistered_extend d (newer.extend newest) k).symm
    have hcontains : (newer.extend newest).registered.contains k =
        (newest.registered.contains k || newer.registered.contains k) := by
      rw [contains, registered_extend, contains, contains]
      cases newest.registered.get? k <;> rfl
    simp only [unregistered_extend, hcontains]
    cases newest.registered.contains k <;> cases newer.registered.contains k <;> simp [Option.or_assoc]

section Pools

open PoolRow Store VolatileFragment

variable {d newer : DiffEpochReg PoolId PoolRegistration} (h : NamesPools { pools := d })
  (h' : NamesPools { pools := newer })
include h h'

theorem VolatileFragment.NamesPools.extend : NamesPools { pools := d.extend newer } := by
  intro pool registrations hget row hrow
  rw [DiffEpochReg.registered_extend] at hget
  rcases hd : d.registered.get? pool with - | earlier <;>
    rcases hnewer : newer.registered.get? pool with - | later <;> rw [hd, hnewer] at hget <;> cases hget
  · exact h' pool _ hnewer row hrow
  · exact h pool _ hd row hrow
  · rcases List.mem_cons.1 hrow with rfl | hrow
    · exact h pool _ hd _ List.mem_cons_self
    · refine h' pool _ hnewer row ?_
      rw [List.mem_singleton.1 hrow]
      obtain ⟨current, _ | next⟩ := later <;> simp [Registrations.last, Registrations.toList]

theorem alike_poolsApply_extend (pools : SortedMap PoolId PoolRow) (pool : PoolId) :
    Alike ((poolsApply pools (d.extend newer)).get? pool)
      ((poolsApply (poolsApply pools d) newer).get? pool) := by
  rw [Alike, get?_poolsApply (h.extend h'), get?_poolsApply h', get?_poolsApply h, summary_extend,
    summary_extend, summary_extend, Summary.extend_extend, DiffEpochReg.registered_extend,
    DiffEpochReg.unregistered_extend, SortedMap.contains]
  cases newer.registered.get? pool <;> rfl

end Pools

open VolatileFragment Store

/-- **Applying merged diffs is applying one after the other**, and merging is associative, with no entry both
produced and consumed, or both registered and removed; for the pools, up to certificates that are
replaced. -/
theorem merged_diffs_compose {K L R V : Type} [LinearOrder K] :
    (∀ d newer newest : DiffSet K V, (d.extend newer).extend newest = d.extend (newer.extend newest) ∧
      (d.Disjoint d.consumed → newer.Disjoint newer.consumed → newer.Disjoint d.consumed →
        (d.extend newer).Disjoint (d.extend newer).consumed ∧
        ∀ m, (d.extend newer).applyTo m = newer.applyTo (d.applyTo m))) ∧
    (∀ (d newer newest : DiffBind K L R V) m, newer.Grounded (d.applyTo m) →
      (d.extend newer).applyTo m = newer.applyTo (d.applyTo m) ∧
      (∀ k ∈ (d.extend newer).unregistered, (d.extend newer).registered.get? k = none) ∧
      (newest.Grounded (newer.applyTo (d.applyTo m)) →
        (d.extend newer).extend newest = d.extend (newer.extend newest))) ∧
    ∀ d newer newest : DiffEpochReg PoolId PoolRegistration,
      (d.extend newer).extend newest = d.extend (newer.extend newest) ∧
      (NamesPools { pools := d } → NamesPools { pools := newer } → ∀ pools pool, PoolRow.Alike
        ((poolsApply pools (d.extend newer)).get? pool)
        ((poolsApply (poolsApply pools d) newer).get? pool)) :=
  ⟨fun _ _ _ ↦ ⟨DiffSet.extend_assoc, fun h h' hnewer ↦
      ⟨DiffSet.disjoint_extend h h' hnewer, DiffSet.applyTo_extend hnewer⟩⟩,
    fun _ _ _ _ h ↦ ⟨DiffBind.applyTo_extend h, DiffBind.disjoint _, DiffBind.extend_assoc⟩,
    fun _ _ _ ↦ ⟨DiffEpochReg.extend_assoc, alike_poolsApply_extend⟩⟩

/-- What one block produces and registers, the next consumes and binds; a pool retires in both. -/
theorem merged_diffs_compose_twoBlocks :
    let produced : DiffSet ℕ ℕ := .produce ∅ 1 10
    let consumed : DiffSet ℕ ℕ := .consume ∅ 1
    let registered : DiffBind ℕ ℕ ℕ ℕ := ⟨.ofList [(1, { value := some 5 })], ∅, by simp⟩
    let bound : DiffBind ℕ ℕ ℕ ℕ := ⟨.ofList [(1, { left := .set 7 })], ∅, by simp⟩
    let retired : ℕ → DiffEpochReg PoolId PoolRegistration := .unregister ∅ 1
    (produced.extend consumed).applyTo ∅ = consumed.applyTo (produced.applyTo ∅) ∧
      (registered.extend bound).applyTo ∅ = bound.applyTo (registered.applyTo ∅) ∧
      PoolRow.Alike ((poolsApply onePool.pools ((retired 6).extend (retired 4))).get? 1)
        ((poolsApply (poolsApply onePool.pools (retired 6)) (retired 4)).get? 1) := by
  intro produced consumed registered bound retired
  obtain ⟨hset, hbind, hpools⟩ := merged_diffs_compose (K := ℕ) (L := ℕ) (R := ℕ) (V := ℕ)
  refine ⟨((hset produced consumed ∅).2 ?_ ?_ ?_).2 ∅, (hbind registered bound bound ∅ ?_).1,
    (hpools (retired 6) (retired 4) (retired 4)).2 ?_ ?_ onePool.pools 1⟩
  · exact fun _ hk ↦ absurd hk (notMem_empty _)
  · exact fun _ _ ↦ rfl
  · exact fun _ _ ↦ rfl
  · intro k bind hget _
    cases List.mem_singleton.1 (mem_entries_iff.2 (DiffBind.get_eq_exists_iff.1 hget))
    rfl
  · exact fun _ _ hget ↦ by cases hget
  · exact fun _ _ hget ↦ by cases hget

/-- **Certificates that are replaced are dropped from merged diffs.** The pool registers again and retires in
the sixth epoch, and then in the fourth: the first retirement is in the store only. The pool is also both
registered and retired. -/
theorem replaced_certificates_are_dropped :
    let d := ((∅ : DiffEpochReg _ _).register 1 (firstPool 20, default, 500)).unregister 1 6
    let newer := (∅ : DiffEpochReg _ _).unregister 1 4
    ((poolsApply onePool.pools (d.extend newer)).get? 1).map (·.pendingCertificates) =
        some [.registration (firstPool 20), .retirement 4] ∧
      ((poolsApply (poolsApply onePool.pools d) newer).get? 1).map (·.pendingCertificates) =
        some [.registration (firstPool 20), .retirement 6, .retirement 4] ∧
      (d.extend newer).registered.contains 1 ∧ (d.extend newer).unregistered.contains 1 :=
  ⟨rfl, rfl, rfl, rfl⟩

end Amaru
