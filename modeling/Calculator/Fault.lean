/-!
What can go wrong when an expression is evaluated or the vocabulary is changed, and where.
-/

namespace Calculator

inductive Cause where
  | emptyExpression
  | unrecognizedToken
  | invalidExpression
  | unmatchedParenthesis
  | misplacedComma
  | misusedParenthesis
  | invalidName (name : String)
  | overridesPredefined (name : String)
  | removesPredefined (name : String)
  | unknownFunction (name : String)
  /-- What a function says about its arguments. -/
  | refusal (message : String)
deriving DecidableEq, Repr

/-- A position counts the characters of the normalized expression from zero. -/
structure Fault where
  cause : Cause
  position : Option Nat
deriving DecidableEq, Repr

def Cause.message : Cause → String
  | .emptyExpression => "Invalid expression: expression is empty"
  | .unrecognizedToken => "Invalid expression: unrecognized token"
  | .invalidExpression => "Invalid expression"
  | .unmatchedParenthesis => "Unmatched number of parenthesis"
  | .misplacedComma => "Invalid expression: misplaced comma"
  | .misusedParenthesis => "Invalid use of parenthesis"
  | .invalidName name => "Not a valid function name: " ++ name
  | .overridesPredefined name => "Cannot override predefined function: " ++ name
  | .removesPredefined name => "Cannot remove predefined function: " ++ name
  | .unknownFunction name => "Function not found: " ++ name
  | .refusal message => message

namespace Fault

def of (cause : Cause) : Fault :=
  ⟨cause, none⟩

def refusal (message : String) : Fault :=
  of (.refusal message)

def located (position : Nat) (fault : Fault) : Fault :=
  { fault with position := fault.position.or (some position) }

def message (fault : Fault) : String :=
  match fault.position with
  | none => fault.cause.message
  | some position => fault.cause.message ++ " at position " ++ toString position

end Fault

def located {Result : Type} (position : Nat) : Except Fault Result → Except Fault Result
  | .ok result => .ok result
  | .error fault => .error (fault.located position)

end Calculator
