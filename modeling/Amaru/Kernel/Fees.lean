import Amaru.Kernel.ProtocolParameters
import Amaru.Kernel.SafeRatio

/-!
# Fees

What a transaction pays for its size, for the execution of scripts and for the scripts that it refers to. The
last is tiered: each further stride of bytes costs more than the one before.
-/

namespace Amaru

/-- What is paid for the size. -/
def sizeFee (size perByteCoefficient fixedFee : ℕ) : ℕ := perByteCoefficient * size + fixedFee

/-- What is paid for the execution of scripts. -/
def plutusExecutionFee (units : ExUnits) (prices : ExUnitPrices) : ℕ :=
  floorToLovelace ⌈(units.mem : ℚ) * prices.memPrice + (units.steps : ℚ) * prices.stepPrice⌉

/-- Add up the tiers. There are not more than bytes. -/
def tieredFee (stride : ℕ) (multiplier : ℚ) : ℕ → ℕ → ℚ → ℚ → ℚ
  | 0, size, rate, fee => fee + rate * size
  | tiers + 1, size, rate, fee =>
    if stride ≤ size then tieredFee stride multiplier tiers (size - stride) (rate * multiplier)
      (fee + rate * stride)
    else fee + rate * size

/-- What is paid for the scripts that are referred to. The integer part is taken once, at the end. -/
def referenceScriptsFee (size stride : ℕ) (baseRate multiplier : ℚ) : ℕ :=
  floorToLovelace (tieredFee stride multiplier size size baseRate 0)

-- the tests of the source
example : referenceScriptsFee 250 100 10 2 = 5000 := by decide +kernel

example : referenceScriptsFee 10 5 (1 / 3) 1 = 3 := by decide +kernel

end Amaru
