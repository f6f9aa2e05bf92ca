import Calculator.Decimal.Digits
import Calculator.Decimal.Scaled
import Calculator.Fault
import Calculator.Text.Blank

/-!
Numeric literals: `digits [. [digits]]` or `. digits`, then perhaps an exponent `e` or `E` with an optional
sign and at least one digit. A sign in front is an operator and no part of a literal.
-/

namespace Calculator

structure Exponent where
  mark : Char
  sign : Option Char
  digits : List Char
deriving DecidableEq, Repr

structure Literal where
  whole : List Char
  fraction : Option (List Char)
  exponent : Option Exponent
deriving DecidableEq, Repr

namespace Exponent

def Valid (exponent : Exponent) : Prop :=
  (exponent.mark = 'e' ∨ exponent.mark = 'E') ∧
    (∀ sign ∈ exponent.sign, sign = '+' ∨ sign = '-') ∧
    exponent.digits ≠ [] ∧ ∀ char ∈ exponent.digits, char.isDigit = true

def toText (exponent : Exponent) : List Char :=
  exponent.mark :: exponent.sign.toList ++ exponent.digits

def isMark (char : Char) : Bool :=
  char == 'e' || char == 'E'

def isSign (char : Char) : Bool :=
  char == '+' || char == '-'

def splitSign : List Char → Option Char × List Char
  | [] => (none, [])
  | char :: rest => if isSign char then (some char, rest) else (none, char :: rest)

def read? : List Char → Option (Option Exponent)
  | [] => some none
  | mark :: rest =>
      let (sign, digits) := splitSign rest
      if isMark mark && !digits.isEmpty && digits.all Char.isDigit then
        some (some ⟨mark, sign, digits⟩)
      else none

def value (exponent : Exponent) : Int :=
  if exponent.sign = some '-' then -(Digits.read exponent.digits : Int) else Digits.read exponent.digits

end Exponent

namespace Literal

def digits (literal : Literal) : List Char :=
  literal.whole ++ literal.fraction.getD []

def Valid (literal : Literal) : Prop :=
  (∀ char ∈ literal.whole, char.isDigit = true) ∧
    (∀ fraction ∈ literal.fraction, ∀ char ∈ fraction, char.isDigit = true) ∧
    literal.digits ≠ [] ∧ ∀ exponent ∈ literal.exponent, exponent.Valid

def fractionText : Option (List Char) → List Char
  | none => []
  | some digits => '.' :: digits

def toText (literal : Literal) : List Char :=
  literal.whole ++ fractionText literal.fraction ++ (literal.exponent.map Exponent.toText).getD []

def splitFraction : List Char → Option (List Char) × List Char
  | '.' :: rest => (some (rest.takeWhile Char.isDigit), rest.dropWhile Char.isDigit)
  | text => (none, text)

def read? (text : List Char) : Option Literal :=
  let whole := text.takeWhile Char.isDigit
  let (fraction, rest) := splitFraction (text.dropWhile Char.isDigit)
  if (whole ++ fraction.getD []).isEmpty then none
  else (Exponent.read? rest).map fun exponent => ⟨whole, fraction, exponent⟩

def toScaled (literal : Literal) : Scaled where
  coefficient := Digits.read literal.digits
  power := (literal.exponent.map Exponent.value).getD 0 - (literal.fraction.getD []).length

def toFloat (literal : Literal) : Float :=
  literal.toScaled.nearest

end Literal

def isLiteral (text : List Char) : Bool :=
  (Literal.read? (Text.trim text)).isSome

def readNumber? (text : List Char) : Option Float :=
  (Literal.read? (Text.trim text)).map Literal.toFloat

def parseNumber (text : List Char) : Except Fault Float :=
  match readNumber? text with
  | some value => .ok value
  | none => .error (.of .invalidExpression)

end Calculator
