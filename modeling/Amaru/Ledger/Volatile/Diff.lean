import Amaru.Data.SortedMap

/-!
# Diffs

What a block changes in a table, before it is applied to it. A diff says for each key it knows
whether the entry exists, is gone, or is **unknown** and must be looked up below.

A binding may be partial: without a value it only rebinds an entry that lives below. So reading a
key through several diffs folds them, from the newest to the oldest, until the answer is conclusive.
The fold stops at the first verdict under a partial one that is not itself a binding, be it gone or
unknown; the layers below are then not looked at.
-/

namespace Amaru

open SortedMap SortedSet Option
open List hiding contains

/-! ### Resettable -/

/-- A pending update to an optional field. -/
inductive Resettable (A : Type*)
  | set (a : A)
  | reset
  | unchanged
deriving DecidableEq, Repr

namespace Resettable

variable {A : Type*}

instance : Inhabited (Resettable A) := ⟨unchanged⟩

/-- The update that makes a field equal to an option. -/
def ofOption : Option A → Resettable A
  | none => reset
  | some a => set a

/-- The field after the update. -/
def intoOption : Resettable A → Option A → Option A
  | set a, _ => some a
  | reset, _ => none
  | unchanged, whenUnchanged => whenUnchanged

/-- One update and then a newer one. -/
def andThen : Resettable A → Resettable A → Resettable A
  | older, unchanged => older
  | _, newer => newer

end Resettable

/-! ### Bindings -/

/-- An optional value with two optional bindings. -/
structure Bind (L R V : Type*) where
  left : Resettable L := .unchanged
  right : Resettable R := .unchanged
  value : Option V := none
deriving DecidableEq, Repr

namespace Bind

variable {L R V : Type*}

/-- One binding and then a newer one: a value supersedes wholesale. -/
def andThen (older newer : Bind L R V) : Bind L R V :=
  if newer.value.isSome then newer
  else
    { left := older.left.andThen newer.left
      right := older.right.andThen newer.right
      value := older.value }

/-- Transform what is bound on the left. -/
def mapLeft {L' : Type*} (f : L → L') (bind : Bind L R V) : Bind L' R V where
  left := match bind.left with
    | .set a => .set (f a)
    | .reset => .reset
    | .unchanged => .unchanged
  right := bind.right
  value := bind.value

end Bind

/-- An entry that bindings apply to. -/
structure Bound (L R V : Type*) where
  left : Option L
  right : Option R
  value : V
deriving DecidableEq, Repr

namespace Bind

variable {L R V : Type*}

/-- The entry after a binding: a value makes a new entry, bindings alone change one that exists. -/
def apply (bind : Bind L R V) (entry : Option (Bound L R V)) : Option (Bound L R V) :=
  match bind.value with
  | some value => some ⟨bind.left.intoOption none, bind.right.intoOption none, value⟩
  | none => entry.map fun entry ↦
    ⟨bind.left.intoOption entry.left, bind.right.intoOption entry.right, entry.value⟩

theorem apply_andThen (older newer : Bind L R V) (entry : Option (Bound L R V)) :
    (older.andThen newer).apply entry = newer.apply (older.apply entry) := by
  obtain ⟨left, right, value⟩ := newer
  rcases value with - | value
  · obtain ⟨left', right', value'⟩ := older
    cases value' <;> cases entry <;> cases left <;> cases right <;> rfl
  · rfl

end Bind

/-! ### Existence -/

/-- What a layer says of an entry. -/
inductive Existence (T : Type*)
  | exists_ (t : T)
  | gone
  | unknown
deriving DecidableEq, Repr

namespace Existence

variable {T L R V : Type*}

/-- The verdict, unless it is not conclusive. -/
def conclusive : Existence T → List (Existence T)
  | unknown => []
  | verdict => [verdict]

theorem unknown_notMem_conclusive (verdict : Existence T) : unknown ∉ verdict.conclusive := by
  cases verdict <;> simp [conclusive]

/-- Transform what exists. -/
def map {T' : Type*} (f : T → T') : Existence T → Existence T'
  | exists_ t => exists_ (f t)
  | gone => gone
  | unknown => unknown

/-- The verdict, if conclusive, or else that of an older layer. -/
def orElse : Existence T → Existence T → Existence T
  | unknown, older => older
  | newer, _ => newer

/-- The entry after a verdict that says all there is to say. -/
def onto : Existence T → Option T → Option T
  | exists_ t, _ => some t
  | gone, _ => none
  | unknown, entry => entry

theorem orElse_onto (newer older : Existence T) (entry : Option T) :
    (newer.orElse older).onto entry = newer.onto (older.onto entry) := by
  cases newer <;> rfl

/-- Complete a binding with the older verdicts, as long as it has no value of its own. -/
def foldBind (newer : Bind L R V) : List (Existence (Bind L R V)) → Existence (Bind L R V)
  | exists_ older :: rest =>
    if newer.value.isNone then foldBind (older.andThen newer) rest else exists_ newer
  | _ => exists_ newer

/-- Fold verdicts on a binding, newest first. -/
def fold : List (Existence (Bind L R V)) → Existence (Bind L R V)
  | [] => unknown
  | unknown :: older => fold older
  | gone :: _ => gone
  | exists_ newer :: older => foldBind newer older

/-- A verdict over an older one. -/
def chain (newer older : Existence (Bind L R V)) : Existence (Bind L R V) := fold [newer, older]

/-- The entry after a verdict. -/
def apply : Existence (Bind L R V) → Option (Bound L R V) → Option (Bound L R V)
  | exists_ bind, entry => bind.apply entry
  | gone, _ => none
  | unknown, entry => entry

/-- The entry after verdicts, the first of which is the newest. -/
def applyAll (verdicts : List (Existence (Bind L R V))) (entry : Option (Bound L R V)) :
    Option (Bound L R V) :=
  verdicts.foldr apply entry

/-- A binding without a value never meets a missing entry. -/
def Grounded : List (Existence (Bind L R V)) → Option (Bound L R V) → Prop
  | [], _ => True
  | exists_ bind :: older, entry =>
    (bind.value = none → (applyAll older entry).isSome) ∧ Grounded older entry
  | _ :: older, entry => Grounded older entry

/-- Whether some verdict makes a new entry. -/
def creates : List (Existence (Bind L R V)) → Bool
  | [] => false
  | exists_ bind :: older => bind.value.isSome || creates older
  | _ :: older => creates older

theorem creates_cons (newer : Existence (Bind L R V)) (older : List (Existence (Bind L R V))) :
    creates (newer :: older) = (creates [newer] || creates older) := by
  cases newer <;> simp [creates]

theorem exists_foldBind : ∀ (older : List (Existence (Bind L R V))) (newer : Bind L R V),
    ∃ bind, foldBind newer older = exists_ bind
  | [], newer => ⟨newer, rfl⟩
  | unknown :: _, newer => ⟨newer, rfl⟩
  | gone :: _, newer => ⟨newer, rfl⟩
  | exists_ older :: rest, newer => by
    rw [foldBind]
    split_ifs
    · exact exists_foldBind rest _
    · exact ⟨newer, rfl⟩

/-- What a binding is completed to comes to the binding over the older verdicts, and has a value exactly
when some verdict makes a new entry. -/
theorem exists_foldBind_eq : ∀ {older : List (Existence (Bind L R V))} {newer : Bind L R V}
    {entry : Option (Bound L R V)}, unknown ∉ older →
    (newer.value = none → (applyAll older entry).isSome) → Grounded older entry →
    ∃ bind, foldBind newer older = exists_ bind ∧ bind.value.isSome = creates (exists_ newer :: older) ∧
      bind.apply entry = newer.apply (applyAll older entry)
  | [], newer, _, _, _, _ => ⟨newer, rfl, by simp [creates], rfl⟩
  | unknown :: _, _, _, h, _, _ => absurd (mem_cons_self ..) h
  | gone :: _, newer, _, _, hnewer, _ => by
    -- the fold stops here, which is right only for a binding with a value
    rcases hvalue : newer.value with - | value
    · exact absurd (hnewer hvalue) (by simp [applyAll, apply])
    · exact ⟨newer, rfl, by simp [creates, hvalue], by simp [Bind.apply, hvalue]⟩
  | exists_ bind :: older, newer, _, h, _, hg => by
    rw [foldBind]
    split_ifs with hvalue
    · have hnew : newer.value = none := by simpa using hvalue
      have hbind : (bind.andThen newer).value = bind.value := by simp [Bind.andThen, hnew]
      obtain ⟨result, hresult, hcreates, happly⟩ := exists_foldBind_eq
        (fun h' ↦ h (mem_cons_of_mem _ h')) (fun hv ↦ hg.1 (hbind ▸ hv)) hg.2
      refine ⟨result, hresult, by simp [hcreates, creates, hbind, hnew], ?_⟩
      rw [happly, Bind.apply_andThen]
      rfl
    · obtain ⟨value, hvalue⟩ : ∃ value, newer.value = some value := by
        simpa [ne_none_iff_exists'] using hvalue
      exact ⟨newer, rfl, by simp [creates, hvalue], by simp [Bind.apply, hvalue]⟩

variable {entry : Option (Bound L R V)} {verdicts : List (Existence (Bind L R V))} {bind : Bind L R V}

theorem isSome_value_of_fold_eq (h : unknown ∉ verdicts)
    (hg : Grounded verdicts entry) (hfold : fold verdicts = exists_ bind) :
    bind.value.isSome = creates verdicts := by
  match verdicts, h, hg, hfold with
  | unknown :: _, h, _, _ => exact absurd (mem_cons_self ..) h
  | exists_ newer :: older, h, hg, hfold =>
    obtain ⟨result, hresult, hcreates, -⟩ :=
      exists_foldBind_eq (fun h' ↦ h (mem_cons_of_mem _ h')) hg.1 hg.2
    obtain rfl := Existence.exists_.inj (hresult.symm.trans hfold)
    exact hcreates

theorem eq_nil_of_fold_eq_unknown (h : unknown ∉ verdicts) (hfold : fold verdicts = unknown) :
    verdicts = [] := by
  match verdicts, h, hfold with
  | [], _, _ => rfl
  | unknown :: _, h, _ => exact absurd (mem_cons_self ..) h
  | exists_ newer :: older, _, hfold =>
    obtain ⟨bind, hbind⟩ := exists_foldBind older newer
    cases hbind.symm.trans hfold

/-- **Folding verdicts is applying them**, where no binding without a value meets a missing
entry. -/
theorem apply_fold : ∀ {verdicts : List (Existence (Bind L R V))} {entry : Option (Bound L R V)},
    unknown ∉ verdicts → Grounded verdicts entry →
    (fold verdicts).apply entry = applyAll verdicts entry
  | [], _, _, _ => rfl
  | unknown :: _, _, h, _ => absurd (mem_cons_self ..) h
  | gone :: _, _, _, _ => rfl
  | exists_ _ :: _, _, h, hg => by
    obtain ⟨bind, hbind, -, happly⟩ :=
      exists_foldBind_eq (fun h' ↦ h (mem_cons_of_mem _ h')) hg.1 hg.2
    rw [fold, hbind]
    exact happly

theorem creates_fold (h : unknown ∉ verdicts) (hg : Grounded verdicts entry) (hgone : fold verdicts ≠ gone) :
    creates [fold verdicts] = creates verdicts := by
  match hfold : fold verdicts with
  | exists_ bind => rw [← isSome_value_of_fold_eq h hg hfold, creates, creates, Bool.or_false]
  | gone => exact absurd hfold hgone
  | unknown => rw [eq_nil_of_fold_eq_unknown h hfold]; rfl

variable {newer older : Existence (Bind L R V)}

theorem creates_chain (hnewer : newer ≠ gone) (holder : older ≠ gone) :
    creates [newer.chain older] = creates [newer, older] := by
  match newer, older, hnewer, holder with
  | unknown, unknown, _, _ => rfl
  | unknown, exists_ _, _, _ => rfl
  | exists_ _, unknown, _, _ => rfl
  | exists_ bind, exists_ older, _, _ =>
    rw [chain, fold, foldBind]
    cases hvalue : bind.value <;> simp [foldBind, creates, Bind.andThen, hvalue]

theorem creates_chain_of_newer (h : creates [newer]) : creates [newer.chain older] := by
  match newer, h with
  | exists_ bind, h =>
    have hvalue : bind.value.isSome := by simpa [creates] using h
    have hchain : (exists_ bind).chain older = exists_ bind := by
      cases older <;> simp [chain, fold, foldBind, isSome_iff_ne_none.1 hvalue]
    rw [hchain]
    exact h

theorem isSome_of_applyAll : ∀ (verdicts : List (Existence (Bind L R V)))
    {entry : Option (Bound L R V)}, creates verdicts = false → (applyAll verdicts entry).isSome →
    entry.isSome
  | [], _, _, h => h
  | unknown :: older, _, hcreates, h => isSome_of_applyAll older hcreates h
  | gone :: _, _, _, h => by cases h
  | exists_ bind :: older, entry, hcreates, h => by
    rw [creates, Bool.or_eq_false_iff] at hcreates
    refine isSome_of_applyAll older hcreates.2 ?_
    have hvalue : bind.value = none := by simpa using hcreates.1
    change (bind.apply (applyAll older entry)).isSome at h
    simpa [Bind.apply, hvalue] using h

theorem isSome_of_fold_eq (h : unknown ∉ verdicts) (hg : Grounded verdicts entry)
    (hfold : fold verdicts = exists_ bind) (hvalue : bind.value = none) : entry.isSome := by
  have hcreates := isSome_value_of_fold_eq h hg hfold
  rw [hvalue, isSome_none] at hcreates
  match verdicts, h, hg, hfold, hcreates with
  | unknown :: _, h, _, _, _ => exact absurd (mem_cons_self ..) h
  | exists_ newer :: older, _, hg, _, hcreates =>
    obtain ⟨hnewer, holder⟩ := Bool.or_eq_false_iff.1 hcreates.symm
    exact isSome_of_applyAll older holder (hg.1 (by simpa using hnewer))

/-- Chaining two verdicts is applying one after the other, unless the newer is a binding without a
value and the older leaves nothing to bind. -/
theorem apply_chain (h : ∀ bind, newer = exists_ bind → bind.value = none → (older.apply entry).isSome) :
    (newer.chain older).apply entry = newer.apply (older.apply entry) := by
  match newer, older with
  | unknown, exists_ _ => rfl
  | unknown, gone => rfl
  | unknown, unknown => rfl
  | gone, _ => rfl
  | exists_ bind, unknown => rfl
  | exists_ bind, gone =>
    rcases hvalue : bind.value with - | value
    · exact absurd (h bind rfl hvalue) (by simp [apply])
    · simp [chain, fold, foldBind, apply, Bind.apply, hvalue]
  | exists_ bind, exists_ older =>
    rw [chain, fold, foldBind]
    split_ifs with hvalue
    · exact Bind.apply_andThen older bind entry
    · obtain ⟨value, hvalue⟩ : ∃ value, bind.value = some value := by
        simpa [ne_none_iff_exists'] using hvalue
      simp [apply, Bind.apply, hvalue]

end Existence

/-! ### Diffs of bindings -/

/-- The bindings a block changes: entries it registers or rebinds, and entries it removes. No entry
is both. -/
@[ext]
structure DiffBind (K : Type*) [LinearOrder K] (L R V : Type*) where
  registered : SortedMap K (Bind L R V)
  unregistered : SortedSet K
  disjoint : ∀ k ∈ unregistered, registered.get? k = none

namespace DiffBind

variable {K : Type*} [LinearOrder K] {L R V : Type*}

instance : EmptyCollection (DiffBind K L R V) := ⟨⟨∅, ∅, by simp⟩⟩

/-- What the diff says of a key. -/
def get (d : DiffBind K L R V) (k : K) : Existence (Bind L R V) :=
  match d.registered.get? k with
  | some bind => .exists_ bind
  | none => if k ∈ d.unregistered then .gone else .unknown

variable {d : DiffBind K L R V} {k : K} {bind : Bind L R V}

theorem get_eq_exists_iff :
    d.get k = .exists_ bind ↔ d.registered.get? k = some bind := by
  rw [get]
  rcases d.registered.get? k with - | bind
  · split_ifs <;> simp
  · simp

theorem get_eq_gone_iff : d.get k = .gone ↔ k ∈ d.unregistered := by
  rw [get]
  rcases h : d.registered.get? k with - | bind
  · simp
  · have hk : k ∉ d.unregistered := fun hk ↦ by rw [d.disjoint k hk] at h; cases h
    simp [hk]

theorem notMem_unregistered_of_get (h : d.get k = .exists_ bind) :
    k ∉ d.unregistered := fun hk ↦ by
  rw [get_eq_gone_iff.2 hk] at h
  cases h

theorem get_eq_unknown_iff : d.get k = .unknown ↔ d.registered.get? k = none ∧ k ∉ d.unregistered := by
  rw [get]
  cases h : d.registered.get? k <;> simp

section

variable (d : DiffBind K L R V)

/-- Register a key that has no pending registration. -/
def register (k : K) (value : V) (left : Option L) (right : Option R) : Option (DiffBind K L R V) :=
  if d.registered.contains k then none
  else
    some
      { registered := d.registered.insert k ⟨.ofOption left, .ofOption right, some value⟩
        unregistered := d.unregistered.erase k
        disjoint := fun x hx ↦ by
          obtain ⟨hne, hx⟩ := mem_erase.1 hx
          rw [get?_insert_of_ne _ _ hne]
          exact d.disjoint x hx }

/-- Remove a key, with anything pending for it. -/
def unregister (k : K) : DiffBind K L R V where
  registered := d.registered.erase k
  unregistered := d.unregistered.add k
  disjoint x hx := by
    rw [get?_erase]
    split_ifs with hk
    · rfl
    · exact d.disjoint x ((mem_add.1 hx).resolve_left hk)

/-- Change the pending binding of a key that was not removed. -/
def rebind (k : K) (f : Bind L R V → Bind L R V) : Option (DiffBind K L R V) :=
  if h : k ∈ d.unregistered then none
  else
    some
      { registered := d.registered.insert k (f ((d.registered.get? k).getD {}))
        unregistered := d.unregistered
        disjoint := fun x hx ↦ by
          have hne : x ≠ k := fun hxk ↦ h (hxk ▸ hx)
          rw [get?_insert_of_ne _ _ hne]
          exact d.disjoint x hx }

/-- Bind on the left. -/
def bindLeft (k : K) (left : Option L) : Option (DiffBind K L R V) :=
  d.rebind k fun bind ↦ { bind with left := .ofOption left }

/-- Bind on the right. -/
def bindRight (k : K) (right : Option R) : Option (DiffBind K L R V) :=
  d.rebind k fun bind ↦ { bind with right := .ofOption right }

end

section

variable (d newer : DiffBind K L R V)

/-- Merge a newer diff into this one. -/
def extend : DiffBind K L R V where
  registered := (newer.unregistered.removeFrom d.registered).mergeWith
    newer.registered fun _ bind older ↦ some ((older.map (·.andThen bind)).getD bind)
  unregistered := (d.unregistered.insertAll newer.unregistered).filter fun k _ ↦
    !newer.registered.contains k
  disjoint k hk := by
    rw [mem_iff, get?_filter, filter_eq_some_iff, ← mem_iff] at hk
    have hnew : newer.registered.get? k = none := by simpa [contains] using hk.2
    rw [get?_mergeWith_of_none _ hnew, get?_removeFrom]
    rcases mem_insertAll.1 hk.1 with hk | hk
    · rw [d.disjoint k hk, ite_self]
    · rw [if_pos hk]

theorem registered_extend (k : K) :
    (d.extend newer).registered.get? k = match newer.get k with
      | .exists_ bind => some (((d.registered.get? k).map (·.andThen bind)).getD bind)
      | .gone => none
      | .unknown => d.registered.get? k := by
  rw [extend, get?_mergeWith, get?_removeFrom]
  cases hverdict : newer.get k with
  | exists_ bind =>
    rw [get_eq_exists_iff.1 hverdict, if_neg (notMem_unregistered_of_get hverdict)]
  | gone =>
    have hun := get_eq_gone_iff.1 hverdict
    rw [newer.disjoint k hun, if_pos hun]
  | unknown =>
    obtain ⟨hreg, hun⟩ := get_eq_unknown_iff.1 hverdict
    rw [hreg, if_neg hun]

theorem mem_unregistered_extend (k : K) :
    k ∈ (d.extend newer).unregistered ↔
      newer.registered.get? k = none ∧ (k ∈ d.unregistered ∨ k ∈ newer.unregistered) := by
  rw [mem_iff, extend, get?_filter, filter_eq_some_iff, ← mem_iff, mem_insertAll, contains]
  simp [and_comm]

theorem get_extend (k : K) :
    (d.extend newer).get k = match newer.get k with
      | .exists_ bind => .exists_ (((d.registered.get? k).map (·.andThen bind)).getD bind)
      | .gone => .gone
      | .unknown => d.get k := by
  have hreg := registered_extend d newer k
  cases hverdict : newer.get k with
  | exists_ bind =>
    rw [hverdict] at hreg
    exact get_eq_exists_iff.2 hreg
  | gone =>
    have hun := get_eq_gone_iff.1 hverdict
    exact get_eq_gone_iff.2 ((mem_unregistered_extend d newer k).2 ⟨newer.disjoint k hun, .inr hun⟩)
  | unknown =>
    rw [hverdict] at hreg
    obtain ⟨hnewer, hun⟩ := get_eq_unknown_iff.1 hverdict
    rw [get, get, hreg]
    simp [mem_unregistered_extend, hnewer, hun]

end

end DiffBind

/-! ### Diffs of sets -/

/-- The entries a block consumes and produces. -/
structure DiffSet (K : Type*) [LinearOrder K] (V : Type*) where
  consumed : SortedSet K
  produced : SortedMap K V

namespace DiffSet

variable {K : Type*} [LinearOrder K] {V : Type*}

instance : EmptyCollection (DiffSet K V) := ⟨⟨∅, ∅⟩⟩

/-- What the diff says of a key. -/
def get (d : DiffSet K V) (k : K) : Existence V :=
  match d.produced.get? k with
  | some v => .exists_ v
  | none => if k ∈ d.consumed then .gone else .unknown

/-- Produce an entry. -/
def produce (d : DiffSet K V) (k : K) (v : V) : DiffSet K V :=
  { d with produced := d.produced.insert k v }

/-- Consume an entry, cancelling its production. -/
def consume (d : DiffSet K V) (k : K) : DiffSet K V where
  consumed := d.consumed.add k
  produced := d.produced.erase k

/-- Merge a newer diff into this one. -/
def extend (d newer : DiffSet K V) : DiffSet K V where
  consumed := d.consumed.insertAll newer.consumed
  produced := (newer.consumed.removeFrom d.produced).insertAll newer.produced

theorem get_extend (d newer : DiffSet K V) (k : K) :
    (d.extend newer).get k = (newer.get k).orElse (d.get k) := by
  rw [get, extend, get?_insertAll, get?_removeFrom, get, get]
  rcases newer.produced.get? k with - | v
  · by_cases hnewer : k ∈ newer.consumed
    · simp [hnewer, Existence.orElse]
    · cases d.produced.get? k <;> simp [hnewer, Existence.orElse]
  · rfl

end DiffSet

/-! ### Diffs of epoch-based registrations -/

/-- The registrations of one key within an epoch: the first, and the latest after it. -/
structure Registrations (V : Type*) where
  current : V
  next : Option V := none
deriving DecidableEq

namespace Registrations

variable {V : Type*}

/-- The registrations, in order. -/
def toList (r : Registrations V) : List V := r.current :: r.next.toList

/-- The latest registration. -/
def last (r : Registrations V) : V := r.next.getD r.current

/-- Registrations, and then later ones: the first of all and the latest of all. -/
def extend (older newer : Registrations V) : Registrations V :=
  { older with next := some newer.last }

end Registrations

/-- The registrations and retirements of a block. -/
structure DiffEpochReg (K : Type*) [LinearOrder K] (V : Type*) where
  registered : SortedMap K (Registrations V)
  unregistered : SortedMap K ℕ

namespace DiffEpochReg

variable {K : Type*} [LinearOrder K] {V : Type*}

instance : EmptyCollection (DiffEpochReg K V) := ⟨⟨∅, ∅⟩⟩

section

variable (d : DiffEpochReg K V)

/-- Register a key, which cancels its retirement. -/
def register (k : K) (v : V) : DiffEpochReg K V where
  registered := d.registered.alter k fun
    | none => some { current := v }
    | some registrations => some { registrations with next := some v }
  unregistered := d.unregistered.erase k

/-- Retire a key at an epoch. -/
def unregister (k : K) (epoch : ℕ) : DiffEpochReg K V :=
  { d with unregistered := d.unregistered.insert k epoch }

/-- Merge a newer diff of the same epoch into this one. -/
def extend (d newer : DiffEpochReg K V) : DiffEpochReg K V :=
  let d := newer.registered.entries.foldl (fun d e ↦ e.2.toList.foldl (fun d v ↦ d.register e.1 v) d) d
  newer.unregistered.entries.foldl (fun d e ↦ d.unregister e.1 e.2) d

theorem registered_foldl_register (k : K) (r : Registrations V) :
    (r.toList.foldl (fun d v ↦ d.register k v) d).registered =
      d.registered.alter k fun older ↦ some ((older.map (·.extend r)).getD r) := by
  refine ext_get? fun k' ↦ ?_
  obtain ⟨current, _ | next⟩ := r <;>
    simp only [Registrations.toList, toList, foldl_cons, foldl_nil, register, get?_alter] <;>
    split_ifs <;> cases d.registered.get? k <;> rfl

theorem unregistered_foldl_register (k k' : K) (r : Registrations V) :
    (r.toList.foldl (fun d v ↦ d.register k v) d).unregistered.get? k' =
      if k' = k then none else d.unregistered.get? k' := by
  obtain ⟨current, _ | next⟩ := r <;>
    simp only [Registrations.toList, toList, foldl_cons, foldl_nil, register, get?_erase]
  split_ifs <;> rfl

end

theorem registered_foldl_registerAll : ∀ (l : List (K × Registrations V)) (d : DiffEpochReg K V),
    (l.foldl (fun d e ↦ e.2.toList.foldl (fun d v ↦ d.register e.1 v) d) d).registered =
      l.foldl (fun m e ↦ m.alter e.1 fun older ↦ some ((older.map (·.extend e.2)).getD e.2)) d.registered
  | [], _ => rfl
  | e :: l, d => by
    rw [foldl_cons, registered_foldl_registerAll l, registered_foldl_register, foldl_cons]

theorem unregistered_foldl_registerAll (k : K) :
    ∀ (l : List (K × Registrations V)) (d : DiffEpochReg K V),
      (l.foldl (fun d e ↦ e.2.toList.foldl (fun d v ↦ d.register e.1 v) d) d).unregistered.get? k =
        if k ∈ l.map Prod.fst then none else d.unregistered.get? k
  | [], _ => rfl
  | e :: l, d => by
    rw [foldl_cons, unregistered_foldl_registerAll k l, unregistered_foldl_register, map_cons]
    by_cases hk : k = e.1
    · simp [hk]
    · rw [if_neg hk, if_congr (mem_cons.trans (or_iff_right hk)) rfl rfl]

theorem foldl_unregister : ∀ (l : List (K × ℕ)) (d : DiffEpochReg K V),
    l.foldl (fun d e ↦ d.unregister e.1 e.2) d =
      { d with unregistered := l.foldl (fun m e ↦ m.insert e.1 e.2) d.unregistered }
  | [], _ => rfl
  | e :: l, d => by
    rw [foldl_cons, foldl_unregister l]
    rfl

theorem registered_extend (d newer : DiffEpochReg K V) (k : K) :
    (d.extend newer).registered.get? k = match newer.registered.get? k with
      | some r => some (((d.registered.get? k).map (·.extend r)).getD r)
      | none => d.registered.get? k := by
  rw [extend, foldl_unregister, registered_foldl_registerAll]
  refine (get?_mergeWith d.registered newer.registered
    (fun _ r older ↦ some ((older.map (·.extend r)).getD r)) k).trans ?_
  cases newer.registered.get? k <;> rfl

/-- The retirements of a merge: a newer registration cancels the retirement before it. -/
theorem unregistered_extend (d newer : DiffEpochReg K V) (k : K) :
    (d.extend newer).unregistered.get? k =
      (newer.unregistered.get? k).or
        (if newer.registered.contains k then none else d.unregistered.get? k) := by
  rw [extend, foldl_unregister]
  refine (get?_insertAll _ newer.unregistered k).trans ?_
  rw [unregistered_foldl_registerAll, ← SortedMap.keys]
  congr 1
  exact if_congr mem_keys_iff rfl rfl

end DiffEpochReg

end Amaru
