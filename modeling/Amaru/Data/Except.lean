import Mathlib.Init

/-!
# Computations that may fail

Inversion of a successful computation, and the rule for loops: a loop that may fail and did not has
run all its iterations, so what one iteration preserves holds at its end.
-/

namespace Except

open List

universe u v

variable {ε : Type u} {α β σ : Type v}

variable {x : Except ε α} {f : α → Except ε β} {e : ε} {b : β} {a : α}

theorem bind_eq_ok_iff : (x >>= f) = .ok b ↔ ∃ a, x = .ok a ∧ f a = .ok b := by
  rcases x with e | a
  · exact ⟨nofun, nofun⟩
  · exact ⟨fun h ↦ ⟨a, rfl, h⟩, fun ⟨_, h, hf⟩ ↦ by cases h; exact hf⟩

theorem map_eq_ok_iff {f : α → β} : f <$> x = .ok b ↔ ∃ a, x = .ok a ∧ f a = b := by
  rcases x with e | a
  · exact ⟨nofun, nofun⟩
  · exact ⟨fun h ↦ ⟨a, rfl, ok.inj h⟩, fun ⟨_, h, hf⟩ ↦ by cases h; exact congrArg _ hf⟩

theorem map_eq_error_iff {f : α → β} : f <$> x = .error e ↔ x = .error e := by
  rcases x with e' | a
  · exact ⟨fun h ↦ congrArg _ (error.inj h), fun h ↦ congrArg _ (error.inj h)⟩
  · exact ⟨nofun, nofun⟩

theorem mapError_eq_ok_iff {ε' : Type*} {f : ε → ε'} : x.mapError f = .ok a ↔ x = .ok a := by
  rcases x with e | a
  · exact ⟨nofun, nofun⟩
  · exact ⟨fun h ↦ congrArg _ (ok.inj h), fun h ↦ congrArg _ (ok.inj h)⟩

theorem toOption_eq_some_iff : x.toOption = some a ↔ x = .ok a := by
  rcases x with e | a'
  · exact ⟨nofun, nofun⟩
  · exact ⟨fun h ↦ congrArg _ (Option.some.inj h), fun h ↦ congrArg _ (ok.inj h)⟩

theorem bind_eq_error_iff : (x >>= f) = .error e ↔ x = .error e ∨ ∃ a, x = .ok a ∧ f a = .error e := by
  rcases x with e' | a
  · exact ⟨fun h ↦ .inl (congrArg _ (error.inj h)), fun h ↦ h.elim
      (fun h ↦ congrArg _ (error.inj h)) nofun⟩
  · exact ⟨fun h ↦ .inr ⟨a, rfl, h⟩, fun h ↦ h.elim nofun fun ⟨_, h, hf⟩ ↦ by cases h; exact hf⟩

/-- **The rule for loops.** An invariant of the items done so far and the state, preserved by every
successful iteration, holds at the end of a successful loop. -/
@[elab_as_elim]
theorem foldlM_invariant {f : σ → α → Except ε σ} :
    ∀ {P : List α → σ → Prop} {l : List α} {s s' : σ}, l.foldlM f s = .ok s' → P [] s →
      (∀ done a s s', P done s → f s a = .ok s' → P (done ++ [a]) s') → P l s'
  | _, [], s, s', hf, h, _ => by
    rw [foldlM_nil] at hf
    cases hf
    exact h
  | P, a :: l, s, s', hf, h, step => by
    rw [foldlM_cons, bind_eq_ok_iff] at hf
    obtain ⟨t, ht, hf⟩ := hf
    exact foldlM_invariant (P := fun done ↦ P (a :: done)) hf (step [] a s t h ht)
      fun done ↦ step (a :: done)

/-- The same rule, for a loop that is to be shown to succeed: every iteration does, from a state of the
invariant. -/
theorem exists_foldlM_of_invariant {α : Type*} {f : σ → α → Except ε σ} :
    ∀ {P : List α → σ → Prop} {l : List α} {s : σ}, P [] s →
      (∀ before a after s, l = before ++ a :: after → P before s →
        ∃ s', f s a = .ok s' ∧ P (before ++ [a]) s') →
      ∃ s', l.foldlM f s = .ok s' ∧ P l s'
  | _, [], s, h, _ => ⟨s, rfl, h⟩
  | P, a :: l, s, h, step => by
    obtain ⟨t, ht, hnext⟩ := step [] a l s rfl h
    obtain ⟨s', hs', hend⟩ := exists_foldlM_of_invariant (P := fun done ↦ P (a :: done)) hnext
      fun before b after s hl ↦ step (a :: before) b after s (congrArg _ hl)
    refine ⟨s', ?_, hend⟩
    rw [foldlM_cons, ht]
    exact hs'

/-- A loop that fails does so in an iteration whose predecessors all succeeded. -/
theorem exists_of_foldlM_eq_error {f : σ → α → Except ε σ} :
    ∀ {l : List α} {s : σ}, l.foldlM f s = .error e →
      ∃ done a rest s', l = done ++ a :: rest ∧ done.foldlM f s = .ok s' ∧ f s' a = .error e
  | [], s, h => by cases h
  | a :: l, s, h => by
    rw [foldlM_cons, bind_eq_error_iff] at h
    rcases h with h | ⟨t, ht, h⟩
    · exact ⟨[], a, l, s, rfl, rfl, h⟩
    · obtain ⟨done, b, rest, s', rfl, hdone, hb⟩ := exists_of_foldlM_eq_error h
      refine ⟨a :: done, b, rest, s', rfl, ?_, hb⟩
      rw [foldlM_cons, ht]
      exact hdone

end Except
