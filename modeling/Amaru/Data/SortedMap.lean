import Amaru.Data.Except
import Mathlib.Algebra.BigOperators.Group.List.Basic
import Mathlib.Data.List.Nodup
import Mathlib.Order.Lattice
import Mathlib.Tactic.Abel

/-!
# Finite maps with sorted keys

A finite map over a linear order, kept as the list of its entries with **strictly increasing
keys**. The representation is canonical, so two maps with the same lookups are equal
(`SortedMap.ext_get?`), iteration has a definite order, and every operation is a structural
recursion on a list: small maps evaluate in the kernel.

The interface is the lookup `get?`. Each operation comes with one lemma saying what `get?` reads
after it, and nothing outside this module looks at how entries are arranged, except through

* `mem_entries_iff`: an entry is listed exactly when it is what the lookup returns;
* `get?_mergeWith`, `get?_of_mergeWithM`: a loop over a map of edits that touches one key of an
  accumulator per entry acts pointwise. This is the rule for every loop that saves one table into
  another;
* `sumBy_insert`, `sumBy_erase`: changing one key changes a sum over the entries by the difference
  at that key.
-/

/-- The linear order that compares the values of an injective key. Unlike `LinearOrder.lift'` it
keeps the equality test the type already has, so that a test written for the type and one written
for its order are the same. -/
abbrev LinearOrder.ofKey {α β : Type*} [DecidableEq α] [LinearOrder β] (key : α → β)
    (hkey : Function.Injective key) : LinearOrder α where
  le a b := key a ≤ key b
  lt a b := key a < key b
  le_refl a := le_refl (key a)
  le_trans a b c := le_trans (a := key a)
  lt_iff_le_not_ge a b := lt_iff_le_not_ge (a := key a)
  le_antisymm a b hab hba := hkey (le_antisymm hab hba)
  le_total a b := le_total (key a) (key b)
  toDecidableLE a b := inferInstanceAs (Decidable (key a ≤ key b))
  toDecidableEq := inferInstance
  toDecidableLT a b := inferInstanceAs (Decidable (key a < key b))

/-- A finite map: its entries, in strictly increasing order of keys. -/
structure SortedMap (K V : Type*) [LT K] where
  /-- The entries, by increasing key. -/
  entries : List (K × V)
  /-- Keys strictly increase along the entries. -/
  sorted : entries.Pairwise fun a b ↦ a.1 < b.1

namespace SortedMap

open List

variable {K V W : Type*} [LinearOrder K]

instance [DecidableEq V] : DecidableEq (SortedMap K V) := fun m n ↦
  decidable_of_iff (m.entries = n.entries) <| by cases m; cases n; simp

/-- The map without entries. -/
def empty : SortedMap K V := ⟨[], List.Pairwise.nil⟩

instance : EmptyCollection (SortedMap K V) := ⟨empty⟩

instance : Inhabited (SortedMap K V) := ⟨∅⟩

@[simp] theorem entries_empty : (∅ : SortedMap K V).entries = [] := rfl

section

variable (m : SortedMap K V)

/-- The value held at a key, if any. -/
def get? (k : K) : Option V :=
  (m.entries.find? fun e ↦ decide (e.1 = k)).map Prod.snd

/-- Whether a key is held. -/
def contains (k : K) : Bool := (m.get? k).isSome

/-- The keys, in increasing order. -/
def keys : List K := m.entries.map Prod.fst

/-- The values, by increasing key. -/
def values : List V := m.entries.map Prod.snd

theorem pairwise_keys : m.keys.Pairwise (· < ·) :=
  pairwise_map.2 m.sorted

theorem nodup_keys : m.keys.Nodup :=
  m.pairwise_keys.imp ne_of_lt

end

/-! ### Entries and lookups -/

variable {k : K} {m : SortedMap K V} {v : V}

theorem eq_of_mem_entries {w : V} (hv : (k, v) ∈ m.entries) (hw : (k, w) ∈ m.entries) : v = w :=
  congrArg Prod.snd (inj_on_of_nodup_map m.nodup_keys hv hw rfl)

theorem mem_entries_iff : (k, v) ∈ m.entries ↔ m.get? k = some v := by
  constructor
  · intro hmem
    have hsome : (m.entries.find? fun e ↦ decide (e.1 = k)).isSome := by
      rw [find?_isSome]
      exact ⟨(k, v), hmem, by simp⟩
    obtain ⟨⟨k', w⟩, hfind⟩ := Option.isSome_iff_exists.1 hsome
    have hk : k' = k := by simpa using find?_some hfind
    subst hk
    have hw : (k', w) ∈ m.entries := mem_of_find?_eq_some hfind
    simp [get?, hfind, eq_of_mem_entries hw hmem]
  · intro hget
    obtain ⟨⟨k', w⟩, hfind, hw⟩ := Option.map_eq_some_iff.1 hget
    have hk : k' = k := by simpa using find?_some hfind
    have hwv : w = v := hw
    subst hk hwv
    exact mem_of_find?_eq_some hfind

theorem get?_eq_of_forall {o : Option V} (h : ∀ v, (k, v) ∈ m.entries ↔ o = some v) : m.get? k = o :=
  Option.ext fun v ↦ by rw [← mem_entries_iff, h v]

theorem mem_keys_iff : k ∈ m.keys ↔ (m.get? k).isSome := by
  simp only [keys, mem_map, Option.isSome_iff_exists, ← mem_entries_iff]
  exact ⟨fun ⟨⟨_, v⟩, hv, hk⟩ ↦ ⟨v, hk ▸ hv⟩, fun ⟨v, hv⟩ ↦ ⟨(k, v), hv, rfl⟩⟩

theorem getLast?_keys_eq_some_iff : m.keys.getLast? = some k ↔ k ∈ m.keys ∧ ∀ x ∈ m.keys, x ≤ k := by
  have hmax : ∀ last, m.keys.getLast? = some last → ∀ x ∈ m.keys, x ≤ last := by
    intro last hlast x hx
    obtain ⟨init, hinit⟩ := getLast?_eq_some_iff.1 hlast
    have hpairwise := hinit ▸ m.pairwise_keys
    rw [hinit, mem_append, mem_singleton] at hx
    rcases hx with hx | rfl
    · exact ((pairwise_append.1 hpairwise).2.2 x hx last (mem_singleton_self _)).le
    · exact le_rfl
  constructor
  · exact fun h ↦ ⟨mem_of_getLast? h, hmax k h⟩
  · rintro ⟨hmem, hle⟩
    rcases hlast : m.keys.getLast? with - | last
    · exact absurd hmem (by rw [getLast?_eq_none_iff.1 hlast]; exact not_mem_nil)
    · rw [le_antisymm (hle last (mem_of_getLast? hlast)) (hmax last hlast k hmem)]

/-- **Extensionality.** The representation is canonical. -/
theorem ext_get? {n : SortedMap K V} (h : ∀ k, m.get? k = n.get? k) : m = n := by
  have hmem : ∀ e, e ∈ m.entries ↔ e ∈ n.entries := by
    rintro ⟨k, v⟩
    rw [mem_entries_iff, mem_entries_iff, h k]
  have hnodup : ∀ p : SortedMap K V, p.entries.Nodup := fun p ↦
    p.sorted.imp fun hlt heq ↦ ne_of_lt hlt (congrArg Prod.fst heq)
  have hperm : m.entries.Perm n.entries :=
    (perm_ext_iff_of_nodup (hnodup m) (hnodup n)).2 hmem
  have heq : m.entries = n.entries :=
    hperm.eq_of_pairwise (fun a b _ _ hab hba ↦ absurd hab (not_lt.2 hba.le)) m.sorted n.sorted
  cases m; cases n; simpa using heq

@[simp] theorem get?_empty (k : K) : (∅ : SortedMap K V).get? k = none := rfl

/-! ### Insertion and removal -/

/-- Insertion into a sorted list of entries, replacing an entry of the same key. -/
def insertEntry (k : K) (v : V) : List (K × V) → List (K × V)
  | [] => [(k, v)]
  | e :: l =>
    if k < e.1 then (k, v) :: e :: l
    else if k = e.1 then (k, v) :: l
    else e :: insertEntry k v l

theorem mem_insertEntry {e : K × V} : ∀ {l : List (K × V)}, e ∈ insertEntry k v l → e = (k, v) ∨ e ∈ l
  | [], h => .inl (by simpa [insertEntry] using h)
  | a :: l, h => by
    simp only [insertEntry] at h
    split_ifs at h with hlt heq
    · simpa using h
    · rcases mem_cons.1 h with h | h
      · exact .inl h
      · exact .inr (mem_cons_of_mem _ h)
    · rcases mem_cons.1 h with h | h
      · exact .inr (h ▸ mem_cons_self)
      · exact (mem_insertEntry h).imp_right (mem_cons_of_mem _)

theorem pairwise_insertEntry (k : K) (v : V) :
    ∀ {l : List (K × V)}, l.Pairwise (fun a b ↦ a.1 < b.1) → (insertEntry k v l).Pairwise fun a b ↦ a.1 < b.1
  | [], _ => pairwise_singleton _ _
  | a :: l, h => by
    obtain ⟨ha, hl⟩ := pairwise_cons.1 h
    simp only [insertEntry]
    split_ifs with hlt heq
    · refine pairwise_cons.2 ⟨fun b hb ↦ ?_, h⟩
      rcases mem_cons.1 hb with rfl | hb
      · exact hlt
      · exact hlt.trans (ha b hb)
    · exact pairwise_cons.2 ⟨fun b hb ↦ heq ▸ ha b hb, hl⟩
    · refine pairwise_cons.2 ⟨fun b hb ↦ ?_, pairwise_insertEntry k v hl⟩
      rcases mem_insertEntry hb with rfl | hb
      · exact lt_of_le_of_ne (not_lt.1 hlt) (Ne.symm heq)
      · exact ha b hb

theorem insertEntry_of_lt (v : V) : ∀ {l : List (K × V)}, (∀ e ∈ l, e.1 < k) →
    insertEntry k v l = l ++ [(k, v)]
  | [], _ => rfl
  | a :: l, h => by
    have ha := h a mem_cons_self
    rw [insertEntry, if_neg ha.not_gt, if_neg ha.ne',
      insertEntry_of_lt v fun e he ↦ h e (mem_cons_of_mem _ he), cons_append]

/-- Set the value at a key. -/
def insert (m : SortedMap K V) (k : K) (v : V) : SortedMap K V :=
  ⟨insertEntry k v m.entries, pairwise_insertEntry k v m.sorted⟩

theorem entries_foldl_insert {α : Type*} (key : α → K) (value : α → V) (xs : List α) (m : SortedMap K V)
    (h : (m.entries.map Prod.fst ++ xs.map key).Pairwise (· < ·)) :
    (xs.foldl (fun m x ↦ m.insert (key x) (value x)) m).entries =
      m.entries ++ xs.map fun x ↦ (key x, value x) := by
  induction xs generalizing m with
  | nil => exact (append_nil _).symm
  | cons x xs ih =>
    rw [map_cons, append_cons] at h
    have hinsert : (m.insert (key x) (value x)).entries = m.entries ++ [(key x, value x)] := by
      refine insertEntry_of_lt _ fun e he ↦ ?_
      exact (pairwise_append.1 (pairwise_append.1 h).1).2.2 e.1 (mem_map_of_mem he) _ (mem_singleton.2 rfl)
    rw [foldl_cons, ih _ (by rwa [hinsert, map_append]), hinsert, append_assoc]
    rfl

/-- Forget a key. -/
def erase (m : SortedMap K V) (k : K) : SortedMap K V :=
  ⟨m.entries.filter fun e ↦ decide (e.1 ≠ k), m.sorted.filter _⟩

theorem find?_insertEntry (k k' : K) (v : V) : ∀ l : List (K × V),
    ((insertEntry k v l).find? fun e ↦ decide (e.1 = k')).map Prod.snd =
      if k' = k then some v else (l.find? fun e ↦ decide (e.1 = k')).map Prod.snd
  | [] => by by_cases h : k = k' <;> simp [insertEntry, h, eq_comm]
  | a :: l => by
    have ih := find?_insertEntry k k' v l
    rcases lt_trichotomy k a.1 with hlt | heq | hgt
    · rw [insertEntry, if_pos hlt]
      by_cases hk : k = k' <;> simp [hk, eq_comm]
    · rw [insertEntry, if_neg heq.not_lt, if_pos heq]
      by_cases hk : k = k'
      · simp [hk]
      · have ha : a.1 ≠ k' := heq ▸ hk
        simp [hk, Ne.symm hk, ha]
    · rw [insertEntry, if_neg hgt.not_gt, if_neg hgt.ne']
      by_cases ha : a.1 = k'
      · simp [ha, show k' ≠ k from ha ▸ hgt.ne]
      · simpa [ha] using ih

section

variable (m : SortedMap K V) {k' : K}

theorem get?_insert (k k' : K) (v : V) : (m.insert k v).get? k' = if k' = k then some v else m.get? k' :=
  find?_insertEntry k k' v m.entries

@[simp] theorem get?_insert_self (k : K) (v : V) : (m.insert k v).get? k = some v := by
  rw [get?_insert, if_pos rfl]

theorem get?_insert_of_ne (v : V) (h : k' ≠ k) : (m.insert k v).get? k' = m.get? k' := by
  rw [get?_insert, if_neg h]

theorem get?_erase (k k' : K) : (m.erase k).get? k' = if k' = k then none else m.get? k' := by
  refine get?_eq_of_forall fun v ↦ ?_
  simp only [erase, mem_filter, mem_entries_iff]
  by_cases h : k' = k <;> simp [h]

@[simp] theorem get?_erase_self (k : K) : (m.erase k).get? k = none := by
  rw [get?_erase, if_pos rfl]

theorem get?_erase_of_ne (h : k' ≠ k) : (m.erase k).get? k' = m.get? k' := by
  rw [get?_erase, if_neg h]

end

section

variable (m : SortedMap K V)

/-- Rewrite what is held at one key: a value to set it, `none` to forget it. -/
def alter (k : K) (f : Option V → Option V) : SortedMap K V :=
  match f (m.get? k) with
  | some v => m.insert k v
  | none => m.erase k

theorem get?_alter (k k' : K) (f : Option V → Option V) :
    (m.alter k f).get? k' = if k' = k then f (m.get? k) else m.get? k' := by
  rw [alter]
  rcases h : f (m.get? k) with - | v
  · exact m.get?_erase k k'
  · exact m.get?_insert k k' v

theorem insert_eq_alter (k : K) (v : V) : m.insert k v = m.alter k fun _ ↦ some v := rfl

/-! ### Rewriting every entry -/

/-- Rewrite or drop every entry. -/
def filterMap (f : K → V → Option W) (m : SortedMap K V) : SortedMap K W where
  entries := m.entries.filterMap fun e ↦ (f e.1 e.2).map (Prod.mk e.1)
  sorted := by
    refine pairwise_filterMap.2 (m.sorted.imp ?_)
    rintro ⟨k, v⟩ ⟨k', v'⟩ hlt ⟨a, w⟩ ha ⟨b, w'⟩ hb
    obtain ⟨_, -, ha⟩ := Option.map_eq_some_iff.1 ha
    obtain ⟨_, -, hb⟩ := Option.map_eq_some_iff.1 hb
    cases ha
    cases hb
    exact hlt

theorem get?_filterMap (f : K → V → Option W) (m : SortedMap K V) (k : K) :
    (m.filterMap f).get? k = (m.get? k).bind (f k) := by
  refine get?_eq_of_forall fun w ↦ ?_
  simp only [filterMap, mem_filterMap, Option.bind_eq_some_iff, ← mem_entries_iff]
  constructor
  · rintro ⟨⟨k', v⟩, hv, hw⟩
    obtain ⟨_, hf, hw⟩ := Option.map_eq_some_iff.1 hw
    cases hw
    exact ⟨v, hv, hf⟩
  · rintro ⟨v, hv, hf⟩
    exact ⟨(k, v), hv, by simp [hf]⟩

/-- Rewrite every value. -/
def map (f : K → V → W) (m : SortedMap K V) : SortedMap K W :=
  m.filterMap fun k v ↦ some (f k v)

@[simp] theorem get?_map (f : K → V → W) (m : SortedMap K V) (k : K) :
    (m.map f).get? k = (m.get? k).map (f k) := by
  rw [map, get?_filterMap]
  cases m.get? k <;> rfl

theorem values_map (f : V → W) (m : SortedMap K V) : (m.map fun _ ↦ f).values = m.values.map f := by
  simp [values, map, filterMap]

/-- Keep the entries that satisfy a test. -/
def filter (p : K → V → Bool) (m : SortedMap K V) : SortedMap K V :=
  m.filterMap fun k v ↦ if p k v then some v else none

theorem entries_filter (p : K → V → Bool) (m : SortedMap K V) :
    (m.filter p).entries = m.entries.filter fun e ↦ p e.1 e.2 := by
  rw [filter, filterMap, ← filterMap_eq_filter]
  refine filterMap_congr fun e _ ↦ ?_
  rw [Option.guard]
  split_ifs <;> rfl

@[simp] theorem get?_filter (p : K → V → Bool) (m : SortedMap K V) (k : K) :
    (m.filter p).get? k = (m.get? k).filter (p k) := by
  rw [filter, get?_filterMap]
  cases m.get? k <;> rfl

/-- Change the value held under a key, if there is one. -/
def modify (k : K) (f : V → V) : SortedMap K V := m.alter k (Option.map f)

theorem get?_modify (k k' : K) (f : V → V) :
    (m.modify k f).get? k' = if k' = k then (m.get? k).map f else m.get? k' :=
  get?_alter m k k' _

end

/-! ### Loops -/

/-- A loop that changes one value per item: each key goes through the items that name it. -/
theorem get?_foldl_modify {α : Type*} (key : α → K) (g : α → V → V) (k : K) :
    ∀ (l : List α) (m : SortedMap K V),
      (l.foldl (fun m a ↦ m.modify (key a) (g a)) m).get? k =
        (m.get? k).map fun v ↦ (l.filter fun a ↦ key a = k).foldl (fun v a ↦ g a v) v
  | [], m => by simp
  | a :: l, m => by
    rw [foldl_cons, get?_foldl_modify key g k l, get?_modify]
    by_cases hk : key a = k
    · subst hk
      rw [if_pos rfl, filter_cons_of_pos (by simp), Option.map_map]
      rfl
    · rw [if_neg (Ne.symm hk), filter_cons_of_neg (by simpa using hk)]

/-- A loop that touches one key of an accumulator per item, on items of distinct keys, acts
pointwise: the value read at a key depends only on the item of that key. -/
theorem get?_foldl_alter {α : Type*} (key : α → K) (g : α → Option V → Option V) (k : K) :
    ∀ (l : List α) (m : SortedMap K V), (l.map key).Nodup →
      (l.foldl (fun m a ↦ m.alter (key a) (g a)) m).get? k = match l.find? fun a ↦ decide (key a = k) with
        | some a => g a (m.get? k)
        | none => m.get? k
  | [], _, _ => rfl
  | a :: l, m, hnodup => by
    obtain ⟨ha, hl⟩ := nodup_cons.1 hnodup
    rw [foldl_cons, get?_foldl_alter key g k l _ hl, get?_alter]
    by_cases hk : key a = k
    · have hnone : l.find? (fun a ↦ decide (key a = k)) = none := by
        rw [find?_eq_none]
        intro b hb
        simpa using fun h ↦ ha (mem_map.2 ⟨b, hb, h.trans hk.symm⟩)
      simp [hnone, hk]
    · simp [hk, Ne.symm hk]

/-- Merge a map of edits into a map: the loop over the edits, each applied to what is held at its
key. -/
def mergeWith (m : SortedMap K V) (edits : SortedMap K W) (g : K → W → Option V → Option V) : SortedMap K V :=
  edits.entries.foldl (fun m e ↦ m.alter e.1 (g e.1 e.2)) m

/-- Edits are merged key by key. -/
theorem get?_mergeWith (m : SortedMap K V) (edits : SortedMap K W) (g : K → W → Option V → Option V) (k : K) :
    (m.mergeWith edits g).get? k = match edits.get? k with
      | some w => g k w (m.get? k)
      | none => m.get? k := by
  rw [mergeWith, get?_foldl_alter Prod.fst (fun e ↦ g e.1 e.2) k edits.entries m edits.nodup_keys]
  cases h : edits.entries.find? fun e ↦ decide (e.1 = k) with
  | none => simp [show edits.get? k = none by rw [get?, h]; rfl]
  | some e =>
    have hk : e.1 = k := by simpa using find?_some h
    simp [show edits.get? k = some e.2 by rw [get?, h]; rfl, hk]

variable {edits : SortedMap K W}

theorem get?_mergeWith_of_none (g : K → W → Option V → Option V) (h : edits.get? k = none) :
    (m.mergeWith edits g).get? k = m.get? k := by
  rw [get?_mergeWith, h]

/-- Set every entry of another map. -/
def insertAll (m edits : SortedMap K V) : SortedMap K V := m.mergeWith edits fun _ v _ ↦ some v

@[simp] theorem get?_insertAll (m edits : SortedMap K V) (k : K) :
    (m.insertAll edits).get? k = (edits.get? k).or (m.get? k) := by
  rw [insertAll, get?_mergeWith]
  cases edits.get? k <;> rfl

/-- Merge edits that may fail. -/
def mergeWithM {ε : Type*} (m : SortedMap K V) (edits : SortedMap K W)
    (g : K → W → Option V → Except ε (Option V)) : Except ε (SortedMap K V) :=
  edits.entries.foldlM (fun m e ↦ (g e.1 e.2 (m.get? e.1)).map fun v ↦ m.alter e.1 fun _ ↦ v) m

theorem get?_of_foldlM_alter {ε : Type*} (g : K → W → Option V → Except ε (Option V)) (k : K) :
    ∀ (l : List (K × W)) (m m' : SortedMap K V), (l.map Prod.fst).Nodup →
      l.foldlM (fun m e ↦ (g e.1 e.2 (m.get? e.1)).map fun v ↦ m.alter e.1 fun _ ↦ v) m = .ok m' →
      match l.find? fun e ↦ decide (e.1 = k) with
      | some e => g k e.2 (m.get? k) = .ok (m'.get? k)
      | none => m'.get? k = m.get? k
  | [], m, m', _, h => by
    cases h
    rfl
  | (x, w) :: l, m, m', hnodup, h => by
    obtain ⟨hx, hl⟩ := nodup_cons.1 hnodup
    rw [foldlM_cons, Except.bind_eq_ok_iff] at h
    obtain ⟨t, ht, h⟩ := h
    obtain ⟨v, hv, rfl⟩ : ∃ v, g x w (m.get? x) = .ok v ∧ (m.alter x fun _ ↦ v) = t := by
      rcases hv : g x w (m.get? x) with e | v <;> rw [hv] at ht
      · cases ht
      · exact ⟨v, rfl, Except.ok.inj ht⟩
    have hrest := get?_of_foldlM_alter g k l _ m' hl h
    rw [get?_alter] at hrest
    by_cases hk : x = k
    · subst hk
      have hnone : l.find? (fun e ↦ decide (e.1 = x)) = none := by
        rw [find?_eq_none]
        intro e he
        simpa using fun h ↦ hx (mem_map.2 ⟨e, he, h⟩)
      rw [hnone, if_pos rfl] at hrest
      rw [find?_cons_of_pos (by simp), hrest]
      exact hv
    · rw [find?_cons_of_neg (by simpa using hk)]
      rwa [if_neg (Ne.symm hk)] at hrest

/-- A merge that succeeds did every edit on what was held at its key before the loop. -/
theorem get?_of_mergeWithM {ε : Type*} {m' : SortedMap K V} {g : K → W → Option V → Except ε (Option V)}
    (h : m.mergeWithM edits g = .ok m') (k : K) :
    match edits.get? k with
    | some w => g k w (m.get? k) = .ok (m'.get? k)
    | none => m'.get? k = m.get? k := by
  have hloop := get?_of_foldlM_alter g k edits.entries m m' edits.nodup_keys h
  rw [get?]
  cases hk : edits.entries.find? fun e ↦ decide (e.1 = k) <;> rwa [hk] at hloop

/-- The map of a list of entries; a later entry replaces an earlier one of the same key. -/
def ofList (l : List (K × V)) : SortedMap K V :=
  l.foldl (fun m e ↦ m.insert e.1 e.2) ∅

theorem mem_of_get?_ofList {l : List (K × V)} (h : (ofList l).get? k = some v) : (k, v) ∈ l := by
  suffices hfold : ∀ (l : List (K × V)) (m : SortedMap K V),
      (l.foldl (fun m e ↦ m.insert e.1 e.2) m).get? k = some v → (k, v) ∈ l ∨ m.get? k = some v by
    exact (hfold l ∅ h).resolve_right (by simp)
  intro l
  induction l with
  | nil => exact fun m h ↦ .inr h
  | cons e l ih =>
    intro m h
    rcases ih _ h with hmem | hget
    · exact .inl (mem_cons_of_mem _ hmem)
    rw [get?_insert] at hget
    split_ifs at hget with heq
    · cases hget
      exact .inl (heq ▸ mem_cons_self)
    · exact .inr hget

/-- The values of a list of entries, by key and in order. -/
def group (l : List (K × V)) : SortedMap K (List V) :=
  l.foldl (fun m e ↦ m.alter e.1 fun values ↦ some (values.getD [] ++ [e.2])) ∅

theorem getD_foldl_group (k : K) : ∀ (l : List (K × V)) (m : SortedMap K (List V)),
    ((l.foldl (fun m e ↦ m.alter e.1 fun values ↦ some (values.getD [] ++ [e.2])) m).get? k).getD []
      = (m.get? k).getD [] ++ (l.filter (·.1 = k)).map Prod.snd
  | [], m => by simp
  | e :: l, m => by
    rw [foldl_cons, getD_foldl_group k l, get?_alter]
    by_cases hk : e.1 = k
    · simp [hk]
    · simp [hk, Ne.symm hk]

/-- A group has the values of its key, in order. -/
theorem getD_group (l : List (K × V)) (k : K) :
    ((group l).get? k).getD [] = (l.filter (·.1 = k)).map Prod.snd := by
  rw [group, getD_foldl_group]
  rfl

/-! ### Sets -/

end SortedMap

/-- A finite set with sorted elements: a map to nothing. -/
abbrev SortedSet (K : Type*) [LT K] := SortedMap K Unit

namespace SortedSet

variable {K V : Type*} [LinearOrder K]

instance : Membership K (SortedSet K) := ⟨fun s k ↦ (s.get? k).isSome⟩

instance (k : K) (s : SortedSet K) : Decidable (k ∈ s) :=
  inferInstanceAs (Decidable ((s.get? k).isSome = true))

variable {s : SortedSet K} {k : K}

theorem mem_iff : k ∈ s ↔ s.get? k = some () := by
  rw [← Option.isSome_iff_exists.trans ⟨fun ⟨_, h⟩ ↦ h, fun h ↦ ⟨_, h⟩⟩]
  rfl

theorem notMem_iff : k ∉ s ↔ s.get? k = none := by
  rw [mem_iff]
  cases s.get? k <;> simp

@[simp] theorem notMem_empty (k : K) : k ∉ (∅ : SortedSet K) := notMem_iff.2 rfl

/-- Add an element. -/
def add (s : SortedSet K) (k : K) : SortedSet K := s.insert k ()

variable {x : K}

@[simp] theorem mem_add : x ∈ s.add k ↔ x = k ∨ x ∈ s := by
  rw [mem_iff, mem_iff, add, SortedMap.get?_insert]
  split_ifs with h <;> simp [h]

@[simp] theorem mem_erase : x ∈ (s.erase k : SortedSet K) ↔ x ≠ k ∧ x ∈ s := by
  rw [mem_iff, mem_iff, SortedMap.get?_erase]
  split_ifs with h <;> simp [h]

@[simp] theorem mem_insertAll {t : SortedSet K} : x ∈ (s.insertAll t : SortedSet K) ↔ x ∈ s ∨ x ∈ t := by
  rw [mem_iff, mem_iff, mem_iff, SortedMap.get?_insertAll]
  cases t.get? x <;> simp

/-- Forget in a map every key of a set. -/
def removeFrom (s : SortedSet K) (m : SortedMap K V) : SortedMap K V :=
  m.filter fun k _ ↦ decide (k ∉ s)

@[simp] theorem get?_removeFrom (s : SortedSet K) (m : SortedMap K V) (k : K) :
    (s.removeFrom m).get? k = if k ∈ s then none else m.get? k := by
  rw [removeFrom, SortedMap.get?_filter]
  split_ifs with h <;> cases m.get? k <;> simp [h]

end SortedSet

namespace SortedMap

variable {K V W : Type*} [LinearOrder K]

theorem filter_eq_toList_find? (k : K) : ∀ l : List (K × V), (l.map Prod.fst).Nodup →
    l.filter (·.1 = k) = (l.find? fun e ↦ decide (e.1 = k)).toList
  | [], _ => rfl
  | e :: l, hnodup => by
    obtain ⟨he, hl⟩ := List.nodup_cons.1 hnodup
    by_cases hk : e.1 = k
    · have hnil : l.filter (·.1 = k) = [] := by
        rw [List.filter_eq_nil_iff]
        intro x hx
        simpa using fun h : x.1 = k ↦ he (List.mem_map.2 ⟨x, hx, h.trans hk.symm⟩)
      simp [hk, hnil]
    · rw [List.filter_cons_of_neg (by simpa using hk), List.find?_cons_of_neg (by simpa using hk)]
      exact filter_eq_toList_find? k l hl

theorem map_snd_filter_entries (m : SortedMap K V) (k : K) :
    (m.entries.filter (·.1 = k)).map Prod.snd = (m.get? k).toList := by
  rw [filter_eq_toList_find? k m.entries m.nodup_keys, get?]
  cases m.entries.find? fun e ↦ decide (e.1 = k) <;> rfl

theorem map_snd_filter_map_entries (f : K → V → W) (m : SortedMap K V) (k : K) :
    ((m.entries.map fun e ↦ (e.1, f e.1 e.2)).filter (·.1 = k)).map Prod.snd =
      (m.get? k).toList.map (f k) := by
  have hentries : m.entries.map (fun e ↦ (e.1, f e.1 e.2)) = (m.map f).entries := by
    simp [map, filterMap]
  rw [hentries, map_snd_filter_entries, get?_map]
  cases m.get? k <;> rfl

/-- The rule for a loop over the entries that is to be shown to succeed: each of them is what the lookup
returns, and its key is not among those before it. -/
theorem exists_foldlM_entries {ε σ : Type*} {m : SortedMap K V} {f : σ → K × V → Except ε σ}
    (P : List (K × V) → σ → Prop) {s : σ} (hstart : P [] s)
    (step : ∀ before entry s, m.get? entry.1 = some entry.2 → entry.1 ∉ before.map Prod.fst →
      P before s → ∃ s', f s entry = .ok s' ∧ P (before ++ [entry]) s') :
    ∃ s', m.entries.foldlM f s = .ok s' ∧ P m.entries s' := by
  refine Except.exists_foldlM_of_invariant hstart fun before entry after s hsplit hbefore ↦ ?_
  have hnodup := m.nodup_keys
  rw [keys, hsplit, List.map_append, List.map_cons, List.nodup_append] at hnodup
  exact step before entry s (mem_entries_iff.1 (by simp [hsplit]))
    (fun hmem ↦ hnodup.2.2 _ hmem _ List.mem_cons_self rfl) hbefore

/-! ### Sums over the entries -/

section Sums

variable {M : Type*} [AddCommMonoid M] {k : K} {m : SortedMap K V} {v : V}

/-- The sum of a quantity over the entries. -/
def sumBy (f : K → V → M) (m : SortedMap K V) : M :=
  (m.entries.map fun e ↦ f e.1 e.2).sum

theorem nodup_entries (m : SortedMap K V) : m.entries.Nodup :=
  m.sorted.imp fun hlt heq ↦ ne_of_lt hlt (congrArg Prod.fst heq)

/-- Forgetting a key that holds `v` takes exactly the entry of `v` away. -/
theorem entries_perm_erase (h : m.get? k = some v) :
    m.entries.Perm ((k, v) :: (m.erase k).entries) := by
  have hnot : (k, v) ∉ (m.erase k).entries := by simp [erase]
  refine (List.perm_ext_iff_of_nodup m.nodup_entries (List.nodup_cons.2 ⟨hnot, nodup_entries _⟩)).2 ?_
  rintro ⟨k', v'⟩
  rw [List.mem_cons, mem_entries_iff, mem_entries_iff, get?_erase]
  by_cases hk : k' = k
  · subst hk
    simp [h, eq_comm]
  · simp [hk]

theorem sumBy_erase (f : K → V → M) (h : m.get? k = some v) :
    m.sumBy f = f k v + (m.erase k).sumBy f := by
  rw [sumBy, ((entries_perm_erase h).map _).sum_eq, List.map_cons, List.sum_cons, sumBy]

theorem erase_eq_self (h : m.get? k = none) : m.erase k = m :=
  ext_get? fun k' ↦ by
    rw [get?_erase]
    split_ifs with hk
    · rw [hk, h]
    · rfl

/-- Setting a key adds its quantity to what the other keys hold. -/
theorem sumBy_insert (m : SortedMap K V) (k : K) (v : V) (f : K → V → M) :
    (m.insert k v).sumBy f = f k v + (m.erase k).sumBy f := by
  have herase : (m.insert k v).erase k = m.erase k := ext_get? fun k' ↦ by
    rw [get?_erase, get?_erase, get?_insert]
    split_ifs <;> rfl
  rw [sumBy_erase f (m.get?_insert_self k v), herase]

theorem sumBy_insert_of_none (v : V) (f : K → V → M) (h : m.get? k = none) :
    (m.insert k v).sumBy f = f k v + m.sumBy f := by
  rw [sumBy_insert, erase_eq_self h]

end Sums

end SortedMap
