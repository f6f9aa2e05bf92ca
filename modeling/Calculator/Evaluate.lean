import Calculator.Decimal.Rounding
import Calculator.Machine
import Calculator.Predefined
import Calculator.Text.Spacing

/-!
Evaluation of infix expressions.
-/

namespace Calculator

def run {Value : Type} (vocabulary : Vocabulary Value) (read : List Char → Option Value)
    (text : List Char) : Except Fault Value :=
  let text := Text.normalize text
  if text.isEmpty then .error (.of .emptyExpression)
  else do
    let scan := Scan.ofText vocabulary text
    let machine ← scan.tokens.foldlM (Machine.step vocabulary read) Machine.initial
    if scan.rest.isEmpty then machine.finish
    else .error ⟨.unrecognizedToken, some (text.length - scan.rest.length)⟩

def evaluateExact (vocabulary : Vocabulary Float) (expression : String) : Except Fault Float :=
  run vocabulary readNumber? expression.toList

def evaluate (vocabulary : Vocabulary Float) (places : Nat) (expression : String) :
    Except Fault Float :=
  (evaluateExact vocabulary expression).map (roundHalfUp places)

end Calculator
