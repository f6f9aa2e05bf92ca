import Calculator.Decimal.Digits
import Calculator.Decimal.Scaled

/-!
Plain decimals: digits before and after a point, without an exponent.
-/

namespace Calculator

structure Plain where
  whole : List Nat
  fraction : List Nat
deriving DecidableEq, Repr

namespace Plain

def digits (decimal : Plain) : List Nat :=
  decimal.whole ++ decimal.fraction

def ofScaled (number : Scaled) : Plain :=
  let digits := Digits.ofNat number.coefficient
  if 0 ≤ number.power then ⟨digits ++ List.replicate number.power.toNat 0, []⟩
  else
    let places := (-number.power).toNat
    if places < digits.length then
      ⟨digits.take (digits.length - places), digits.drop (digits.length - places)⟩
    else ⟨[0], List.replicate (places - digits.length) 0 ++ digits⟩

def toText (decimal : Plain) : List Char :=
  match decimal.fraction with
  | [] => Digits.toText decimal.whole
  | fraction => Digits.toText decimal.whole ++ '.' :: Digits.toText fraction

end Plain

end Calculator
