import Calculator.Command

/-!
How the program prints documents: as JSON objects, with a member a line and numbers in their shortest form.
-/

namespace Calculator

namespace Text

def hexDigit (digit : Nat) : Char :=
  if digit < 10 then Char.ofNat ('0'.toNat + digit) else Char.ofNat ('a'.toNat + digit - 10)

def controlEscape (char : Char) : List Char :=
  ['\\', 'u', '0', '0', hexDigit (char.toNat / 16), hexDigit (char.toNat % 16)]

def escape (char : Char) : List Char :=
  if char = '"' then ['\\', '"']
  else if char = '\\' then ['\\', '\\']
  else if char.toNat = 0x08 then ['\\', 'b']
  else if char.toNat = 0x09 then ['\\', 't']
  else if char.toNat = 0x0A then ['\\', 'n']
  else if char.toNat = 0x0C then ['\\', 'f']
  else if char.toNat = 0x0D then ['\\', 'r']
  else if char.toNat < 0x20 then controlEscape char
  else [char]

def quote (text : List Char) : List Char :=
  '"' :: text.flatMap escape ++ ['"']

end Text

/-- How a JSON document writes numbers: plain, with at least one decimal, while the exponent of the first
digit lies between the two bounds, and with a signed exponent otherwise. -/
structure NumberLayout where
  tie : Tie
  least : Int
  greatest : Int

def NumberLayout.document : NumberLayout :=
  ⟨.even, -5, 15⟩

def exponentText (exponent : Int) : String :=
  if exponent < 0 then "e-" ++ toString exponent.natAbs else "e+" ++ toString exponent.natAbs

def NumberLayout.write (layout : NumberLayout) (number : Scaled) : String :=
  let digits := Digits.ofNat number.coefficient
  let exponent := number.power + digits.length - 1
  if layout.least ≤ exponent ∧ exponent ≤ layout.greatest then
    let decimal := Plain.ofScaled number
    let fraction := if decimal.fraction.isEmpty then [0] else decimal.fraction
    String.ofList (Plain.toText ⟨decimal.whole, fraction⟩)
  else String.ofList (Plain.toText ⟨digits.take 1, digits.drop 1⟩) ++ exponentText exponent

def jsonNumber (x : Float) : String :=
  signText x ++ NumberLayout.document.write (Scaled.shortest NumberLayout.document.tie x)

def Command.Document.text (document : Document) : String :=
  let result := match specialText document.value with
    | some text => "\"" ++ text ++ "\""
    | none => jsonNumber document.value
  "\x7b\n" ++
  "  \"config\": \x7b\n" ++
  "    \"precision\": " ++ toString document.settings.precision.toNat ++ "\n" ++
  "  \x7d,\n" ++
  "  \"execution_time\": " ++ String.ofList (Text.quote document.elapsed.toList) ++ ",\n" ++
  "  \"expression\": " ++ String.ofList (Text.quote document.expression.toList) ++ ",\n" ++
  "  \"result\": " ++ result ++ "\n" ++
  "\x7d"

end Calculator
