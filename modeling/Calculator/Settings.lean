import Calculator.Decimal.Digits
import Calculator.Text.Blank

/-!
Settings of a calculation, and how they are read from the environment.
-/

namespace Calculator

structure Settings where
  precision : UInt32
deriving DecidableEq, Repr

/-- An event for the log. Whether and how it is written is up to the log. -/
structure Warning where
  message : String
  value : String
deriving DecidableEq, Repr

def readCount? (text : List Char) : Option UInt32 :=
  let digits := match text with
    | '+' :: rest => rest
    | text => text
  if digits.isEmpty || !digits.all Char.isDigit then none
  else
    let count := Digits.read digits
    if count < UInt32.size then some (UInt32.ofNat count) else none

namespace Settings

def variableName : String :=
  "SHUNT_PRECISION"

def standard : Settings :=
  ⟨10⟩

def ofEnvironment (value : Option String) : Settings :=
  match value.bind fun text => readCount? (Text.trim text.toList) with
  | some precision => ⟨precision⟩
  | none => standard

def warning? (value : Option String) : Option Warning :=
  value.bind fun text =>
    if (readCount? (Text.trim text.toList)).isSome then none
    else some ⟨"ignoring invalid " ++ variableName, text⟩

end Settings

end Calculator
