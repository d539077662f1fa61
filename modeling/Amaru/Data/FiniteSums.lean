import Amaru.Data.SortedMap
import Mathlib.Algebra.BigOperators.Ring.Finset
import Mathlib.Algebra.BigOperators.Ring.List
import Mathlib.Algebra.Order.BigOperators.Group.Finset
import Mathlib.Algebra.Order.BigOperators.Group.List

/-!
# Sums over a sorted map

A sum over the entries of a map is a finite sum over its keys, so that finite sums can be split,
exchanged and compared with Mathlib's lemmas.
-/

namespace SortedMap

open Finset List

variable {K V M : Type*} [LinearOrder K] [AddCommMonoid M]

/-- **A sum over the entries is a sum over the keys.** -/
theorem sumBy_eq_sum (m : SortedMap K V) (f : K → V → M) :
    m.sumBy f = ∑ k ∈ m.keys.toFinset, (m.get? k).elim 0 (f k) := by
  rw [List.sum_toFinset _ m.nodup_keys, sumBy, keys, List.map_map]
  refine congrArg List.sum (map_congr_left fun e he ↦ ?_)
  simp [mem_entries_iff.1 he]

variable {m : SortedMap K V} {R : Type*}

theorem mem_toFinset_keys {k : K} : k ∈ m.keys.toFinset ↔ (m.get? k).isSome := by
  rw [mem_toFinset, mem_keys_iff]

/-- The keys that a sum runs over may be any that include those of the map. -/
theorem sumBy_eq_sum_of_subset (m : SortedMap K V) (f : K → V → M) {s : Finset K}
    (h : ∀ k, (m.get? k).isSome → k ∈ s) : m.sumBy f = ∑ k ∈ s, (m.get? k).elim 0 (f k) := by
  rw [sumBy_eq_sum]
  refine sum_subset (fun k hk ↦ h k (mem_toFinset_keys.1 hk)) fun k _ hk ↦ ?_
  rw [mem_toFinset_keys, Option.not_isSome_iff_eq_none] at hk
  rw [hk]
  rfl

/-- Looking keys up and adding what they hold is adding over the map what these keys hold. -/
theorem sum_get?_eq_sumBy (m : SortedMap K V) (f : K → V → M) (s : Finset K) :
    ∑ k ∈ s, (m.get? k).elim 0 (f k) = m.sumBy fun k v ↦ if k ∈ s then f k v else 0 := by
  rw [sumBy_eq_sum_of_subset m _ (s := s ∪ m.keys.toFinset)
    fun k hk ↦ mem_union_right _ (mem_toFinset_keys.2 hk),
    ← sum_subset subset_union_left]
  · refine sum_congr rfl fun k hk ↦ ?_
    simp [hk]
  · intro k _ hk
    cases m.get? k <;> simp [hk]

theorem sumBy_congr {f g : K → V → M} (h : ∀ k v, m.get? k = some v → f k v = g k v) :
    m.sumBy f = m.sumBy g :=
  congrArg List.sum (map_congr_left fun e he ↦ h e.1 e.2 (mem_entries_iff.1 he))

theorem sumBy_add (m : SortedMap K V) (f g : K → V → M) :
    (m.sumBy fun k v ↦ f k v + g k v) = m.sumBy f + m.sumBy g :=
  sum_map_add

theorem sumBy_map {W : Type*} (m : SortedMap K V) (g : K → V → W) (f : K → W → M) :
    (m.map g).sumBy f = m.sumBy fun k v ↦ f k (g k v) := by
  have hentries : (m.map g).entries = m.entries.map fun e ↦ (e.1, g e.1 e.2) := by
    simp [map, filterMap]
  rw [sumBy, hentries, List.map_map]
  rfl

/-- **Sums may be exchanged.** -/
theorem sumBy_sum {ι : Type*} (m : SortedMap K V) (s : Finset ι) (f : ι → K → V → M) :
    (m.sumBy fun k v ↦ ∑ i ∈ s, f i k v) = ∑ i ∈ s, m.sumBy (f i) := by
  simp only [sumBy]
  induction m.entries with
  | nil => simp
  | cons e l ih => simp [ih, sum_add_distrib]

theorem sumBy_le_sumBy [Preorder M] [AddLeftMono M] [AddRightMono M] {f g : K → V → M}
    (h : ∀ k v, m.get? k = some v → f k v ≤ g k v) : m.sumBy f ≤ m.sumBy g :=
  sum_le_sum fun e he ↦ h e.1 e.2 (mem_entries_iff.1 he)

theorem sumBy_mul_left [Semiring R] (m : SortedMap K V) (c : R) (f : K → V → R) :
    (m.sumBy fun k v ↦ c * f k v) = c * m.sumBy f :=
  sum_map_mul_left _ _ _

theorem cast_sumBy [Semiring R] (m : SortedMap K V) (f : K → V → ℕ) :
    ((m.sumBy f : ℕ) : R) = m.sumBy fun k v ↦ (f k v : R) := by
  simp [sumBy, Nat.cast_list_sum, List.map_map, Function.comp_def]

/-! ### Sharing out a map -/

/-- What the keys of a map are given and what the keys of a set are kept for, when these share out the
keys that hold something. -/
theorem sumBy_add_sumBy_of_partition {amounts : SortedMap K ℕ} {reached : SortedMap K V}
    {missed : SortedSet K} (hpartition : ∀ k amount, amounts.get? k = some amount → 0 < amount →
      (reached.contains k = true ↔ k ∉ missed)) :
    (reached.sumBy fun k _ ↦ if k ∈ missed then 0 else (amounts.get? k).getD 0) +
        (missed.sumBy fun k _ ↦ (amounts.get? k).getD 0) =
      amounts.sumBy fun _ amount ↦ amount := by
  set s := reached.keys.toFinset ∪ missed.keys.toFinset ∪ amounts.keys.toFinset with hs
  rw [reached.sumBy_eq_sum_of_subset _ (s := s) fun k hk ↦ by simp [hs, mem_keys_iff, hk],
    missed.sumBy_eq_sum_of_subset _ (s := s) fun k hk ↦ by simp [hs, mem_keys_iff, hk],
    amounts.sumBy_eq_sum_of_subset _ (s := s) fun k hk ↦ by simp [hs, mem_keys_iff, hk],
    ← sum_add_distrib]
  refine sum_congr rfl fun k _ ↦ ?_
  rcases hamount : amounts.get? k with - | amount
  · cases reached.get? k <;> cases missed.get? k <;> simp
  have hk := hpartition k amount hamount
  by_cases hmissed : k ∈ missed
  · rw [SortedSet.mem_iff.1 hmissed]
    cases reached.get? k <;> simp [hmissed]
  rw [SortedSet.notMem_iff.1 hmissed]
  rcases Nat.eq_zero_or_pos amount with rfl | hpos
  · cases reached.get? k <;> simp
  · obtain ⟨v, hreached⟩ := Option.isSome_iff_exists.1 ((hk hpos).2 hmissed)
    simp [hreached, hmissed]

end SortedMap
