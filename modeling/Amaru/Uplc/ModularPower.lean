import Mathlib.Data.Int.GCD
import Mathlib.Data.Int.ModEq
import Mathlib.RingTheory.Coprime.Lemmas

/-!
# Modular powers

The built-in power of an integer modulo another, without the budget that a call spends before it computes.
**It is the power of the base, or of its inverse if the exponent is negative** (`expModInteger_eq_ok_iff`):
fast exponentiation keeps the product of its result with the power that is left, and the extended Euclidean
algorithm keeps two combinations of its arguments.
-/

namespace Amaru.Uplc

/-- Why there is no modular power. -/
inductive PowerError
  | divisionByZero (numerator denominator : ℤ)
  | explicitErrorTerm
deriving DecidableEq

/-- The loop of the extended Euclidean algorithm. -/
def extendedGcdLoop (oldR r oldS s oldT t : ℤ) : ℕ × ℤ × ℤ :=
  if r = 0 then (oldR.natAbs, oldS, oldT)
  else
    let quotient := oldR.tdiv r
    extendedGcdLoop r (oldR - quotient * r) s (oldS - quotient * s) t (oldT - quotient * t)
termination_by r.natAbs
decreasing_by
  rw [mul_comm, ← Int.tmod_def, Int.natAbs_tmod]
  exact Nat.mod_lt _ (Int.natAbs_pos.2 ‹_›)

/-- The greatest common divisor, and its coefficients. -/
def extendedGcd (first second : ℤ) : ℕ × ℤ × ℤ := extendedGcdLoop first second 1 0 0 1

/-- The loop of fast exponentiation. -/
def modPowLoop (modulus base exponent result : ℕ) : ℕ :=
  if exponent = 0 then result
  else modPowLoop modulus (base * base % modulus) (exponent / 2)
    (if exponent.testBit 0 then result * base % modulus else result)

/-- The power of a natural number, without the full power. -/
def modPow (base exponent modulus : ℕ) : ℕ := modPowLoop modulus base exponent (1 % modulus)

/-- The built-in modular power. -/
def expModInteger (base exponent modulus : ℤ) : Except PowerError ℤ :=
  if modulus < 0 ∨ modulus = 0 then .error (.divisionByZero base modulus)
  else
    let normalizedBase := base % modulus
    if exponent < 0 then
      let (gcd, inverse, _) := extendedGcd normalizedBase modulus
      if gcd ≠ 1 then .error .explicitErrorTerm
      else .ok (modPow (inverse % modulus).natAbs exponent.natAbs modulus.natAbs)
    else .ok (modPow normalizedBase.natAbs exponent.natAbs modulus.natAbs)

/-- The loop multiplies its result by the power that is left. -/
theorem modPowLoop_eq (modulus base exponent result : ℕ) :
    modPowLoop modulus base exponent (result % modulus) = result * base ^ exponent % modulus := by
  induction exponent using Nat.strong_induction_on generalizing base result with
  | _ exponent ih =>
    have hsquare := (Nat.mod_modEq (base * base) modulus).pow (exponent / 2)
    rw [modPowLoop]
    split_ifs with hzero hbit
    · rw [hzero, pow_zero, mul_one]
    · have hodd : exponent = 2 * (exponent / 2) + 1 := by simp at hbit; omega
      rw [ih _ (by omega)]
      conv_rhs => rw [hodd, pow_succ', pow_mul, sq, ← mul_assoc]
      exact ((Nat.mod_modEq result modulus).mul_right base).mul hsquare
    · have heven : exponent = 2 * (exponent / 2) := by simp at hbit; omega
      rw [ih _ (by omega)]
      conv_rhs => rw [heven, pow_mul, sq]
      exact hsquare.mul_left result

/-- The power of natural numbers is that of integers. -/
theorem modPow_natAbs {base modulus : ℤ} (exponent : ℕ) (hpos : 0 < modulus) :
    (modPow (base % modulus).natAbs exponent modulus.natAbs : ℤ) = base ^ exponent % modulus := by
  rw [modPow, modPowLoop_eq, one_mul]
  push_cast [Int.natAbs_of_nonneg (Int.emod_nonneg base hpos.ne'), abs_of_pos hpos]
  exact (Int.mod_modEq base modulus).pow _

/-- What the Euclidean loop keeps: its two numbers are combinations of the arguments, and have their greatest
common divisor. -/
theorem extendedGcdLoop_spec (a b : ℤ) {oldR r oldS s oldT t : ℤ} (hold : 0 ≤ oldR) (hr : 0 ≤ r)
    (holdR : oldR = a * oldS + b * oldT) (hnext : r = a * s + b * t) :
    ∃ gcd x y, extendedGcdLoop oldR r oldS s oldT t = (gcd, x, y) ∧ gcd = Int.gcd oldR r ∧
      (gcd : ℤ) = a * x + b * y := by
  fun_induction extendedGcdLoop oldR r oldS s oldT t with
  | case1 => exact ⟨_, _, _, rfl, by simp, by rw [← holdR, Int.natAbs_of_nonneg hold]⟩
  | case2 oldR r oldS s oldT t hne quotient ih =>
    have hmod : oldR - quotient * r = oldR % r := by
      rw [mul_comm, ← Int.tmod_def, Int.tmod_eq_emod_of_nonneg hold]
    rw [hmod] at ih ⊢
    rw [Int.gcd_comm r, Int.gcd_emod] at ih
    exact ih hr (Int.emod_nonneg _ hne) hnext (by rw [← hmod, holdR, hnext]; ring)

theorem emod_eq_iff {x modulus r : ℤ} (hpos : 0 < modulus) :
    x % modulus = r ↔ 0 ≤ r ∧ r < modulus ∧ r ≡ x [ZMOD modulus] := by
  constructor
  · rintro rfl
    exact ⟨Int.emod_nonneg x hpos.ne', Int.emod_lt_of_pos x hpos, Int.mod_modEq x modulus⟩
  · rintro ⟨hnonneg, hlt, hmod⟩
    rw [← hmod, Int.emod_eq_of_lt hnonneg hlt]

/-- **The modular power is the power.** It fails for a modulus that is not positive, and for a negative
exponent of a base that is not coprime to the modulus. -/
theorem expModInteger_eq_ok_iff (base exponent modulus r : ℤ) :
    expModInteger base exponent modulus = .ok r ↔
      0 < modulus ∧ 0 ≤ r ∧ r < modulus ∧
        if 0 ≤ exponent then r ≡ base ^ exponent.natAbs [ZMOD modulus]
        else IsCoprime base modulus ∧
          ∃ inverse, base * inverse ≡ 1 [ZMOD modulus] ∧ r ≡ inverse ^ exponent.natAbs [ZMOD modulus] := by
  rw [expModInteger]
  by_cases hmodulus : modulus < 0 ∨ modulus = 0
  · rw [if_pos hmodulus]
    exact iff_of_false (by simp) fun h ↦ by omega
  have hpos : 0 < modulus := by omega
  rw [if_neg hmodulus]
  rcases lt_or_ge exponent 0 with hneg | hnonneg
  · obtain ⟨gcd, inverse, other, heq, hgcd, hcomb⟩ := extendedGcdLoop_spec (base % modulus) modulus
      (Int.emod_nonneg base hpos.ne') hpos.le (by rw [mul_one, mul_zero, add_zero])
      (by rw [mul_zero, mul_one, zero_add])
    rw [if_pos hneg, if_neg hneg.not_ge, extendedGcd, heq, Int.isCoprime_iff_gcd_eq_one, ← Int.gcd_emod,
      ← hgcd]
    dsimp only
    split_ifs with hone
    · exact iff_of_false (by simp) fun h ↦ hone h.2.2.2.1
    rw [not_not.1 hone, Nat.cast_one] at hcomb
    have hinverse : base * inverse ≡ 1 [ZMOD modulus] := by
      refine ((Int.mod_modEq base modulus).symm.mul_right inverse).trans ?_
      exact Int.modEq_iff_dvd.2 ⟨other, sub_eq_of_eq_add' hcomb⟩
    rw [Except.ok.injEq, modPow_natAbs _ hpos, emod_eq_iff hpos]
    refine ⟨fun h ↦ ⟨hpos, h.1, h.2.1, not_not.1 hone, inverse, hinverse, h.2.2⟩, ?_⟩
    rintro ⟨_, hnonneg, hlt, _, inverse', hinverse', hr⟩
    refine ⟨hnonneg, hlt, hr.trans (.pow _ ?_)⟩
    -- inverses are congruent
    calc inverse' = 1 * inverse' := (one_mul _).symm
      _ ≡ base * inverse * inverse' [ZMOD modulus] := hinverse.symm.mul_right _
      _ = base * inverse' * inverse := by ring
      _ ≡ 1 * inverse [ZMOD modulus] := hinverse'.mul_right _
      _ = inverse := one_mul _
  · rw [if_neg hnonneg.not_gt, if_pos hnonneg, Except.ok.injEq, modPow_natAbs _ hpos, emod_eq_iff hpos]
    exact ⟨fun h ↦ ⟨hpos, h⟩, And.right⟩

end Amaru.Uplc
