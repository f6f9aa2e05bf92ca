import Calculator.Arithmetic.Binary
import Calculator.Decimal.Plain
import Calculator.Decimal.Shortest
import Calculator.Literal

/-!
Rounding to decimal places. A number is rounded through its shortest decimal, a half away from zero, so
that `0.1 + 0.2` at ten places is `0.3`.
-/

namespace Calculator

namespace Digits

def bump : List Nat → Bool × List Nat
  | [] => (true, [])
  | digit :: rest =>
      match bump rest with
      | (false, tail) => (false, digit :: tail)
      | (true, tail) => if digit = 9 then (true, 0 :: tail) else (false, (digit + 1) :: tail)

end Digits

namespace Plain

def ofText (text : List Char) : Plain :=
  ⟨(text.takeWhile (· != '.')).map Digits.ofChar, (text.dropWhile (· != '.')).tail.map Digits.ofChar⟩

def pointed (size : Nat) (digits : List Nat) : Plain :=
  ⟨digits.take size, digits.drop size⟩

def kept (decimal : Plain) (places : Nat) : List Nat :=
  decimal.whole ++ decimal.fraction.take places

/-- A first digit cut off from five on adds one to the last one kept, and a carry out of the first one kept
is a digit in front of it. -/
def round (decimal : Plain) (places : Nat) (more : places < decimal.fraction.length) : Plain :=
  let size := decimal.whole.length
  if decimal.fraction[places] < 5 then pointed size (decimal.kept places)
  else match Digits.bump (decimal.kept places) with
    | (false, digits) => pointed size digits
    | (true, digits) => pointed (size + 1) (1 :: digits)

end Plain

class Printed (Value : Type) where
  isFinite : Value → Bool
  abs : Value → Value
  /-- The plain decimal of a magnitude. -/
  print : Value → List Char
  read? : List Char → Option Value
  isZero : Value → Bool
  zero : Value
  /-- The magnitude of the first number with the sign of the second. -/
  withSign : Value → Value → Value

instance : Printed Float where
  isFinite := Float.isFinite
  abs := Float.abs
  print x := (Plain.ofScaled (Scaled.shortest .up x)).toText
  read? text := (Literal.read? text).map Literal.toFloat
  isZero x := x == 0
  zero := 0
  withSign := withSign

/-- Rounds to `places` decimal places. A number that has no more places, or is not finite, is left as
it is; what is rounded to zero loses its sign. -/
def roundHalfUp {Value : Type} [Printed Value] (places : Nat) (value : Value) : Value :=
  if !Printed.isFinite value then value
  else
    let decimal := Plain.ofText (Printed.print (Printed.abs value))
    if more : places < decimal.fraction.length then
      match Printed.read? (decimal.round places more).toText with
      | some magnitude => if Printed.isZero magnitude then Printed.zero else Printed.withSign magnitude value
      | none => value
    else value

end Calculator
