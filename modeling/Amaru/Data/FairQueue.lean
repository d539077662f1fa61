import Mathlib.Data.Nat.Find

/-!
# Queues along infinite runs

A run is seen through functions of time. A queue along a run loses its first message at some times, and
gains messages at its end at any time (`FifoRun`). If it is never left alone for good while there are
messages, then **every message gets its turn** (`FifoRun.served`).

A property that is only given up for another one holds until the other does (`holds_or_exists_of_unless`).
-/

namespace Amaru

open List Nat

/-- A queue along a run, and the times at which its first message is taken. -/
structure FifoRun {M : Type*} (queue : ℕ → List M) (pops : ℕ → Prop) : Prop where
  keep : ∀ {n}, ¬pops n → ∃ new, queue (n + 1) = queue n ++ new
  pop : ∀ {n msg rest}, pops n → queue n = msg :: rest → ∃ new, queue (n + 1) = rest ++ new
  fair : ∀ {n}, queue n ≠ [] → ∃ m, n ≤ m ∧ pops m

namespace FifoRun

variable {M : Type*} {queue : ℕ → List M} {pops : ℕ → Prop} {n m : ℕ}

/-- Until something is taken the queue only grows. -/
theorem exists_append (h : FifoRun queue pops) (hle : n ≤ m) (hnone : ∀ j, n ≤ j → j < m → ¬pops j) :
    ∃ new, queue m = queue n ++ new := by
  induction m, hle using le_induction with
  | base => exact ⟨[], (append_nil _).symm⟩
  | succ m hle ih =>
    obtain ⟨new, hnew⟩ := ih fun j hj hlt ↦ hnone j hj (lt_succ_of_lt hlt)
    obtain ⟨more, hmore⟩ := h.keep (hnone m hle (lt_succ_self m))
    exact ⟨new ++ more, by rw [hmore, hnew, append_assoc]⟩

/-- There is a next time that something is taken. -/
theorem exists_next (h : FifoRun queue pops) (hne : queue n ≠ []) :
    ∃ m, n ≤ m ∧ pops m ∧ ∀ j, n ≤ j → j < m → ¬pops j := by
  classical
  have hexists := h.fair hne
  refine ⟨Nat.find hexists, (Nat.find_spec hexists).1, (Nat.find_spec hexists).2, fun j hj hlt hpop ↦ ?_⟩
  exact Nat.find_min hexists hlt ⟨hj, hpop⟩

/-- **Every message gets its turn.** -/
theorem served (h : FifoRun queue pops) {msg : M} (hmem : msg ∈ queue n) :
    ∃ m, n ≤ m ∧ pops m ∧ ∃ rest, queue m = msg :: rest := by
  obtain ⟨front, back, hqueue⟩ := append_of_mem hmem
  clear hmem
  -- each time a message is taken, one fewer is before this one
  induction front generalizing n back with
  | nil =>
    have hne : queue n ≠ [] := by simp [hqueue]
    obtain ⟨m, hle, hpop, hnone⟩ := h.exists_next hne
    obtain ⟨new, hnew⟩ := h.exists_append hle hnone
    exact ⟨m, hle, hpop, back ++ new, by rw [hnew, hqueue]; rfl⟩
  | cons first front ih =>
    have hne : queue n ≠ [] := by simp [hqueue]
    obtain ⟨m, hle, hpop, hnone⟩ := h.exists_next hne
    obtain ⟨new, hnew⟩ := h.exists_append hle hnone
    rw [hqueue, cons_append, cons_append] at hnew
    obtain ⟨more, hmore⟩ := h.pop hpop hnew
    rw [append_assoc, append_assoc, cons_append] at hmore
    obtain ⟨m', hle', hserved⟩ := ih _ hmore
    exact ⟨m', by omega, hserved⟩

end FifoRun

/-- What is only given up for something else holds until then. -/
theorem holds_or_exists_of_unless (P Q : ℕ → Prop) (hstep : ∀ n, P n → P (n + 1) ∨ Q (n + 1)) {n m : ℕ}
    (h : P n) (hle : n ≤ m) : P m ∨ ∃ j, n ≤ j ∧ j ≤ m ∧ Q j := by
  induction m, hle using le_induction with
  | base => exact .inl h
  | succ m hle ih =>
    rcases ih with hm | ⟨j, hj, hjm, hQ⟩
    · exact (hstep m hm).imp_right fun hQ ↦ ⟨m + 1, by omega, le_rfl, hQ⟩
    · exact .inr ⟨j, hj, by omega, hQ⟩

end Amaru
