import Calculator.Document
import Calculator.Evaluate
import Calculator.Predefined

/-!
The program: runs one command line. It asks for the precision of the environment, a random number and the
time that the evaluation takes.
-/

namespace Calculator

def elapsedText (nanoseconds : Nat) : String :=
  let hundredths := (nanoseconds + 5000) / 10000
  let decimals := hundredths % 100
  toString (hundredths / 100) ++ "." ++ (if decimals < 10 then "0" else "") ++ toString decimals ++ " ms"

def drawNumber : IO Float := do
  let number ← IO.rand 0 0x1FFFFFFFFFFFFF
  return (Float.ofNat number).scaleB (-53)

-- As the log shows warnings where nothing else is asked of it, but for the time in front.
def Warning.line (warning : Warning) : String :=
  " WARN " ++ warning.message ++ " value=" ++ warning.value.quote ++ "\n"

def host (vocabulary : Vocabulary Float) (precision : Option String) : Command.Host where
  precision
  log := Warning.line
  evaluate settings := evaluate vocabulary settings.precision.toNat
  document := Command.Document.text

/-- The evaluation runs before the outcome is put together, so that a document can tell the time that it took. -/
def answer (vocabulary : Vocabulary Float) (host : Command.Host) (arguments : List String) :
    IO Command.Outcome := do
  let .ok request := Command.Request.ofArguments (.ofEnvironment host.precision) arguments
    | return Command.run vocabulary host "" arguments
  let some expression := request.expression
    | return Command.run vocabulary host "" arguments
  let started ← IO.monoNanosNow
  let result ← IO.lazyPure fun _ => host.evaluate request.settings expression
  let finished ← IO.monoNanosNow
  return Command.run vocabulary { host with evaluate := fun _ _ => result } (elapsedText (finished - started))
    arguments

def respond (arguments : List String) : IO Command.Outcome := do
  let precision ← IO.getEnv Settings.variableName
  let vocabulary := Vocabulary.standard (← drawNumber)
  answer vocabulary (host vocabulary precision) arguments

end Calculator

def main (arguments : List String) : IO UInt32 := do
  let outcome ← Calculator.respond arguments
  (← IO.getStdout).putStr outcome.output
  (← IO.getStderr).putStr outcome.errors
  return outcome.code
