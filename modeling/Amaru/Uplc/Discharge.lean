import Amaru.Uplc.Simulation

/-!
# Reading values back

A value is reported as a term (`valueAsTerm`), with the environment of a closure put into its body. The
traversal of the body stops at constructors and cases: **a variable in one of them is left as it is**, and
the term is not closed (`variable_left_in_constructor`). Nothing else goes wrong (`values_read_back_iff`).
-/

namespace Amaru.Uplc

open List Term Machine MachineState Uplc.Value

variable {Fun Atom : Type} {depth : ℕ} {env : List (Term Fun Atom)} {t : Term Fun Atom}
  {v part : Value Fun Atom} {bs : Builtins Fun Atom}

namespace Term

/-- No variable that is free under `depth` binders stands in a constructor or a case. -/
def Reached (depth : ℕ) : Term Fun Atom → Prop
  | .lambda body => Reached (depth + 1) body
  | .apply function argument => Reached depth function ∧ Reached depth argument
  | .delay body => Reached depth body
  | .force body => Reached depth body
  | .constr tag fields => ClosedAt depth (.constr tag fields)
  | .case scrutinee branches => ClosedAt depth (.case scrutinee branches)
  | .var _ | .constant _ | .builtin _ | .error => True

/-- The traversal puts the environment in if it reaches all variables. -/
theorem withEnv_eq_bind (h : Reached depth t) : withEnv depth env t = bind env depth t := by
  induction t generalizing depth with
  | var index =>
    rw [withEnv, bind]
    split_ifs with hbound
    · rfl
    · obtain ⟨j, rfl⟩ : ∃ j, index = depth + (j + 1) := ⟨index - depth - 1, by omega⟩
      rw [Nat.add_sub_cancel_left, Env.lookup_succ, Nat.add_sub_cancel]
  | lambda body ih => rw [withEnv, bind, ih h]
  | apply function argument ihf iha => rw [withEnv, bind, ihf h.1, iha h.2]
  | delay body ih | force body ih => rw [withEnv, bind, ih h]
  | constr | case => rw [withEnv, bind_of_closedAt h]
  | constant | builtin | error => rfl

/-- The traversal closes a term only if it reaches all variables. -/
theorem reached_of_closedAt_withEnv (h : ClosedAt depth (withEnv depth env t)) : Reached depth t := by
  induction t generalizing depth with
  | lambda body ih | delay body ih | force body ih => exact ih h
  | apply function argument ihf iha => exact ⟨ihf h.1, iha h.2⟩
  | constr | case => exact h
  | var | constant | builtin | error => trivial

end Term

namespace Value

/-- The values that a value holds. -/
def parts : Value Fun Atom → List (Value Fun Atom)
  | .con _ => []
  | .lambda _ env | .delay _ env => env
  | .builtin _ _ args => args
  | .constr _ fields => fields

/-- A value, and all that is held in it. -/
def Holds : Value Fun Atom → Value Fun Atom → Prop :=
  Relation.ReflTransGen fun v part ↦ part ∈ v.parts

/-- No variable of the environment stands in a constructor or a case. -/
def Reached : Value Fun Atom → Prop
  | .lambda body _ => body.lambda.Reached 0
  | .delay body _ => body.delay.Reached 0
  | .con _ | .builtin _ _ _ | .constr _ _ => True

/-- The parts of a good value are good. -/
theorem Good.of_holds (h : v.Good bs) (hpart : v.Holds part) :
    part.Good bs := by
  induction hpart with
  | refl => exact h
  | tail _ hmem ih => cases ih with
    | con => cases hmem
    | lambda hparts | delay hparts | builtin _ hparts | constr _ hparts => exact hparts _ hmem

/-- A value is read back as the substitution, if its parts are. -/
theorem valueAsTerm_eq_of_parts (h : v.Reached)
    (hparts : v.parts.map valueAsTerm = v.parts.map toTerm) : valueAsTerm v = v.toTerm := by
  cases v with
  | con => rfl
  | lambda body env | delay body env =>
    rw [valueAsTerm, toTerm, asTerm, asTerm, allAsTerms_eq_map, allAsTerms_eq_map, withEnv_eq_bind h]
    exact congrArg (bind · 0 _) hparts
  | builtin f forces args =>
    rw [valueAsTerm, toTerm, asTerm, asTerm, allAsTerms_eq_map, allAsTerms_eq_map]
    exact congrArg (ofSpine f forces ·.reverse) hparts
  | constr tag fields =>
    rw [valueAsTerm, toTerm, asTerm, asTerm, allAsTerms_eq_map, allAsTerms_eq_map]
    exact congrArg (Term.constr tag) hparts

/-- A value whose variables are all reached is read back as the term that it stands for. -/
theorem Good.valueAsTerm_eq (h : v.Good bs) (hreached : ∀ part, v.Holds part → part.Reached) :
    valueAsTerm v = v.toTerm := by
  induction h with
  | con => rfl
  | lambda _ _ ih | delay _ _ ih | builtin _ _ ih | constr _ _ ih =>
    refine valueAsTerm_eq_of_parts (hreached _ .refl) (map_congr_left fun part hpart ↦ ?_)
    exact ih part hpart fun p hp ↦ hreached p (.head hpart hp)

end Value

/-- **Values are read back right exactly if the traversal reaches their variables**: each value that is held
in the value of a closed term is reported as a closed term, in which the environment is put in for the
variables, if and only if no variable of an environment stands in a constructor or a case. -/
theorem values_read_back_iff (bs : Builtins Fun Atom) (costs : CostModel Fun Atom) (budget : ExBudget)
    (fuel : ℕ) {m : Meter} (hclosed : t.ClosedAt 0)
    (hrun : (new bs costs).run fuel (.new budget) t = some (.ok (m, v))) :
    (∀ part, v.Holds part → (valueAsTerm part).ClosedAt 0 ∧ valueAsTerm part = part.toTerm) ↔
      ∀ part, v.Holds part → part.Reached := by
  have hgood : v.Good bs := by
    have hstart : (compute [] [] t).Good bs := ⟨nofun, nofun, hclosed⟩
    rw [run] at hrun
    split at hrun
    · cases hrun
    · obtain ⟨charges, htrace, -⟩ := loop_eq_ok_iff.1 hrun
      exact (htrace.simulates hstart).good
  constructor
  · intro h part hpart
    obtain ⟨hpartClosed, -⟩ := h part hpart
    cases part with
    | lambda | delay => exact reached_of_closedAt_withEnv hpartClosed
    | con | builtin | constr => trivial
  · intro h part hpart
    have hpartGood := hgood.of_holds hpart
    have heq := hpartGood.valueAsTerm_eq fun p hp ↦ h p (hpart.trans hp)
    exact ⟨heq ▸ hpartGood.closedAt, heq⟩

/-- A function that is applied to a unit, and yields a function of the body. -/
def keepUnit (body : Term Empty Empty) : Term Empty Empty := .apply (.lambda (.lambda body)) (.constant .unit)

theorem values_read_back_of_variable : (keepUnit (.var 2)).ClosedAt 0 ∧
    valueAsTerm (.lambda (.var 2) [.con .unit] : Value Empty Empty) = .lambda (.constant .unit) := by
  have hclosed : (keepUnit (.var 2)).ClosedAt 0 := ⟨⟨by decide, by decide⟩, trivial⟩
  have hread := @values_read_back_iff _ _ _ (.lambda (.var 2) [.con .unit]) noBuiltins
    (flatCosts ⟨1, 1⟩ ⟨1, 1⟩) ⟨1000, 1000⟩ 20 _ hclosed rfl
  refine ⟨hclosed, (hread.2 (fun part hpart ↦ ?_) _ .refl).2⟩
  rcases hpart.cases_head with rfl | ⟨unit, hunit, hpart⟩
  · trivial
  cases mem_singleton.1 hunit
  rcases hpart.cases_head with rfl | ⟨_, hnone, -⟩
  · trivial
  · cases hnone

/-- **A variable in a constructor is left as it is**: the term that is reported is not closed. -/
theorem variable_left_in_constructor : ∃ m v, (keepUnit (.constr 0 [.var 2])).ClosedAt 0 ∧
    (new noBuiltins (flatCosts ⟨1, 1⟩ ⟨1, 1⟩)).run 20 (.new ⟨1000, 1000⟩) (keepUnit (.constr 0 [.var 2])) =
      some (.ok (m, v)) ∧
    valueAsTerm v = .lambda (.constr 0 [.var 2]) ∧ ¬(valueAsTerm v).ClosedAt 0 ∧
    v.toTerm = .lambda (.constr 0 [.constant .unit]) :=
  ⟨_, .lambda (.constr 0 [.var 2]) [.con .unit], ⟨⟨⟨by decide, by decide⟩, trivial⟩, trivial⟩, rfl, rfl,
    fun h ↦ absurd h.1.2 (by decide), rfl⟩

end Amaru.Uplc
