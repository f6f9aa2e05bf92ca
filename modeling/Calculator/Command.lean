import Calculator.Decimal.Layout
import Calculator.Fault
import Calculator.Settings
import Calculator.Vocabulary

/-!
The command line: an expression and options in any order. A command ends with code 0 if all went well,
with 1 if it cannot be understood, and with 2 if the expression has no value.
-/

namespace Calculator.Command

structure Outcome where
  code : UInt32
  output : String
  errors : String
deriving DecidableEq, Repr

inductive Argument where
  | expression (text : String)
  | json
  | list
  | precision (places : UInt32)
  | badPrecision
deriving DecidableEq, Repr

inductive Complaint where
  | incomplete
  | badPrecision
  | unexpected (argument : String)
deriving DecidableEq, Repr

structure Request where
  expression : Option String
  settings : Settings
  json : Bool
  list : Bool
deriving DecidableEq, Repr

structure Document where
  expression : String
  value : Float
  settings : Settings
  elapsed : String

/-- What a command finds around it. The log may drop what it is told; `evaluate` is the one evaluation of a run, with
whatever numbers are drawn in it. -/
structure Host where
  precision : Option String
  log : Warning → String
  evaluate : Settings → String → Except Fault Float
  document : Document → String

def usage : String :=
  "Usage: shunt \"expression\" [options]\n" ++
  "       shunt --list\n" ++
  "\n" ++
  "Options:\n" ++
  "  --precision N    Round the result to N decimal places (default 10, or $SHUNT_PRECISION)\n" ++
  "  --output-json    Output result in JSON format with timing and the active config\n" ++
  "  --list           Print every known operator, function and constant\n" ++
  "\n" ++
  "Examples:\n" ++
  "  shunt \"2 + 3 * 4\"\n" ++
  "  shunt \"5+3/cos(sin(-6))^0.25\" --output-json\n" ++
  "  shunt \"mean(1, 2, 3, 4)\" --precision 2\n"

def Complaint.message : Complaint → String
  | .incomplete => usage
  | .badPrecision => "Error: --precision requires a non-negative integer\n"
  | .unexpected argument => "Unexpected argument: '" ++ argument ++ "'\n" ++ usage

def Complaint.outcome (complaint : Complaint) : Outcome :=
  ⟨1, "", complaint.message⟩

def Argument.cut : List String → List Argument
  | [] => []
  | word :: rest =>
      if word = "--output-json" then .json :: cut rest
      else if word = "--list" then .list :: cut rest
      else if word = "--precision" then
        match rest with
        | [] => [.badPrecision]
        | value :: rest =>
            match readCount? value.toList with
            | some places => .precision places :: cut rest
            | none => [.badPrecision]
      else .expression word :: cut rest

namespace Request

def initial (settings : Settings) : Request :=
  ⟨none, settings, false, false⟩

def accept (request : Request) : Argument → Except Complaint Request
  | .json => .ok { request with json := true }
  | .list => .ok { request with list := true }
  | .precision places => .ok { request with settings := ⟨places⟩ }
  | .badPrecision => .error .badPrecision
  | .expression text =>
      if request.expression.isSome then .error (.unexpected text)
      else .ok { request with expression := some text }

def ofArguments (settings : Settings) (arguments : List String) : Except Complaint Request := do
  let request ← (Argument.cut arguments).foldlM accept (initial settings)
  if request.expression.isNone && !request.list then .error .incomplete else .ok request

def listing (request : Request) (vocabulary : Vocabulary Float) : String :=
  if request.list then
    String.join (vocabulary.words.map fun word => String.ofList word ++ "\n")
  else ""

def resultText (request : Request) (host : Host) (expression : String) (value : Float) (elapsed : String) :
    String :=
  if request.json then host.document ⟨expression, value, request.settings, elapsed⟩ else plainText value

def report (request : Request) (vocabulary : Vocabulary Float) (host : Host) (expression elapsed : String) :
    Except Fault Float → Outcome
  | .ok value =>
      ⟨0, request.listing vocabulary ++ request.resultText host expression value elapsed ++ "\n", ""⟩
  | .error fault => ⟨2, request.listing vocabulary, "Error: " ++ fault.message ++ "\n"⟩

def outcome (request : Request) (vocabulary : Vocabulary Float) (host : Host) (elapsed : String) : Outcome :=
  match request.expression with
  | none => ⟨0, request.listing vocabulary, ""⟩
  | some expression =>
      request.report vocabulary host expression elapsed (host.evaluate request.settings expression)

end Request

def Host.notes (host : Host) : String :=
  ((Settings.warning? host.precision).map host.log).getD ""

def Outcome.behind (outcome : Outcome) (notes : String) : Outcome :=
  { outcome with errors := notes ++ outcome.errors }

-- The environment is read, and the log told of it, only where there are arguments.
def run (vocabulary : Vocabulary Float) (host : Host) (elapsed : String) (arguments : List String) : Outcome :=
  if arguments.isEmpty then Complaint.incomplete.outcome
  else
    match Request.ofArguments (.ofEnvironment host.precision) arguments with
    | .ok request => (request.outcome vocabulary host elapsed).behind host.notes
    | .error complaint => complaint.outcome.behind host.notes

end Calculator.Command
