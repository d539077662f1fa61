import Amaru.Data.Except
import Mathlib.Algebra.BigOperators.Ring.Finset
import Mathlib.Algebra.Order.BigOperators.Group.Finset
import Mathlib.Data.Rat.Floor

/-!
# Unsigned ratios

The source computes with ratios of unsigned integers of any size. A subtraction that goes below zero
and a division by zero **panic**; here they are errors, so that a computation that returns has met
neither.
-/

namespace Amaru

/-- Why an operation on unsigned numbers has no result. -/
inductive ArithmeticError
  | divisionByZero
  | underflow
deriving DecidableEq, Repr

/-- A ratio of unsigned integers. -/
def safeRatio (numerator denominator : ℕ) : Except ArithmeticError ℚ :=
  if denominator = 0 then .error .divisionByZero else .ok (numerator / denominator)

/-- A ratio, unless it is by zero. -/
theorem safeRatio_eq_ok (numerator : ℕ) {denominator : ℕ} (h : denominator ≠ 0) :
    safeRatio numerator denominator = .ok (numerator / denominator) :=
  if_neg h

namespace SafeRatio

/-- Division of unsigned ratios. -/
def div (a b : ℚ) : Except ArithmeticError ℚ :=
  if b = 0 then .error .divisionByZero else .ok (a / b)

/-- Subtraction of unsigned ratios. -/
def sub (a b : ℚ) : Except ArithmeticError ℚ :=
  if b ≤ a then .ok (a - b) else .error .underflow

/-- A quotient, unless it is by zero. -/
theorem div_eq_ok (a : ℚ) {b : ℚ} (h : b ≠ 0) : div a b = .ok (a / b) := if_neg h

/-- A difference that does not underflow. -/
theorem sub_eq_ok {a b : ℚ} (h : b ≤ a) : sub a b = .ok (a - b) := if_pos h

end SafeRatio

/-- Subtraction of unsigned integers. -/
def checkedSub (a b : ℕ) : Except ArithmeticError ℕ :=
  if b ≤ a then .ok (a - b) else .error .underflow

theorem checkedSub_eq_ok {a b : ℕ} (h : b ≤ a) : checkedSub a b = .ok (a - b) := if_pos h

/-- A checked difference is what adds up. -/
theorem checkedSub_eq_ok_iff {a b c : ℕ} : checkedSub a b = .ok c ↔ c + b = a := by
  rw [checkedSub]
  split_ifs with h
  · rw [Except.ok.injEq]
    omega
  · exact ⟨nofun, fun h ↦ by omega⟩

/-- The integer part of a ratio. -/
def floorToLovelace (ratio : ℚ) : ℕ := ⌊ratio⌋₊

/-- Rounding goes down. -/
theorem floorToLovelace_le {ratio : ℚ} (h : 0 ≤ ratio) : (floorToLovelace ratio : ℚ) ≤ ratio :=
  Nat.floor_le h

theorem floorToLovelace_le_of_le {ratio : ℚ} {n : ℕ} (h : ratio ≤ n) : floorToLovelace ratio ≤ n :=
  Nat.floor_le_of_le h

end Amaru
