import Calculator.Arithmetic.Binary
import Calculator.Decimal.Plain
import Calculator.Decimal.Shortest

/-!
The written form of a double.
-/

namespace Calculator

def specialText (x : Float) : Option String :=
  if x.isNaN then some "NaN"
  else if x.isInf then some (if signBit x then "-inf" else "inf")
  else none

def signText (x : Float) : String :=
  if signBit x then "-" else ""

def plainText (x : Float) : String :=
  match specialText x with
  | some text => text
  | none => signText x ++ String.ofList (Plain.ofScaled (Scaled.shortest .up x)).toText

end Calculator
