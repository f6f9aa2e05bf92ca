import Calculator.Arithmetic.Binary
import Calculator.Decimal.Scaled

/-!
The exact remainder of a division whose quotient is cut toward zero.
-/

namespace Calculator

def notANumber : Float :=
  Float.ofBits 0x7FF8000000000000

namespace Binary

def mantissaAt (number : Binary) (exponent : Int) : Nat :=
  number.mantissa * Nat.pow 2 (number.exponent - exponent).toNat

/-- The remainder is smaller than both mantissas at their own exponents, so it is a double. -/
def remainder (dividend divisor : Binary) : Binary :=
  let exponent := min dividend.exponent divisor.exponent
  ⟨dividend.mantissaAt exponent % divisor.mantissaAt exponent, exponent⟩

end Binary

def remainder (dividend divisor : Float) : Float :=
  if !dividend.isFinite || divisor.isNaN || divisor == 0 then notANumber
  else if !divisor.isFinite then dividend
  else withSign ((Binary.ofFloat dividend).remainder (Binary.ofFloat divisor)).toFloat dividend

end Calculator
