/-!
Decimal digits, most significant first, as a list of numbers below ten.
-/

namespace Calculator.Digits

def value (digits : List Nat) : Nat :=
  digits.foldl (fun sum digit => 10 * sum + digit) 0

def ofChar (char : Char) : Nat :=
  char.toNat - '0'.toNat

def toChar (digit : Nat) : Char :=
  Char.ofNat ('0'.toNat + digit)

def ofNat (number : Nat) : List Nat :=
  if number < 10 then [number] else ofNat (number / 10) ++ [number % 10]
termination_by number

def toText (digits : List Nat) : List Char :=
  digits.map toChar

def read (text : List Char) : Nat :=
  value (text.map ofChar)

end Calculator.Digits
