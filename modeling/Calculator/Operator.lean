import Calculator.Fault

/-!
Operators: how many operands they take, how tightly they bind, and what they compute. Functions and
constants are operators too; a constant is a function without operands.
-/

namespace Calculator

inductive Arity where
  | fixed (count : Nat)
  /-- As many operands as the argument list of the call has. -/
  | variadic
deriving DecidableEq, Repr

inductive Associativity where
  | left
  | right
  | neither
deriving DecidableEq, Repr

/-- Arguments stand in the order of the expression. -/
abbrev Body (Value : Type) := List Value → Except Fault Value

inductive Action (Value : Type) where
  | arithmetic (compute : List Value → Value)
  | function (body : Body Value)
  /-- Parentheses and commas, which compute nothing. -/
  | mark

structure Operator (Value : Type) where
  arity : Arity
  precedence : Nat
  associativity : Associativity
  action : Action Value

namespace Arity

def declared : Arity → Nat
  | .fixed count => count
  | .variadic => 0

def ofCall (arity : Arity) (commas : Nat) : Nat :=
  match arity with
  | .fixed count => count
  | .variadic => commas + 1

def admitsComma : Arity → Nat → Bool
  | .fixed count, commas => commas + 1 < count
  | .variadic, _ => true

def describe : Arity → String
  | .fixed count => "Fixed(" ++ toString count ++ ")"
  | .variadic => "Variadic"

end Arity

def Associativity.describe : Associativity → String
  | .left => "Left"
  | .right => "Right"
  | .neither => "No"

namespace Operator

variable {Value : Type}

def functionPrecedence : Nat := 4

def constantPrecedence : Nat := 5

def mark : Operator Value :=
  ⟨.fixed 0, 0, .left, .mark⟩

def arithmetic (count precedence : Nat) (associativity : Associativity)
    (compute : List Value → Value) : Operator Value :=
  ⟨.fixed count, precedence, associativity, .arithmetic compute⟩

def function (arity : Arity) (body : Body Value) : Operator Value :=
  ⟨arity, functionPrecedence, .left, .function body⟩

def constant (value : Value) : Operator Value :=
  ⟨.fixed 0, constantPrecedence, .left, .function fun _ => .ok value⟩

def isFunction (operator : Operator Value) : Bool :=
  match operator.action with
  | .function _ => true
  | _ => false

def isConstant (operator : Operator Value) : Bool :=
  operator.isFunction && operator.arity == .fixed 0

def apply (operator : Operator Value) (operands : List Value) : Except Fault Value :=
  match operator.action with
  | .arithmetic compute => .ok (compute operands)
  | .function body => body operands
  | .mark => .error (.of .invalidExpression)

/-- Whether a waiting operator is applied before an incoming one takes its place. -/
def bindsBefore (waiting incoming : Operator Value) : Bool :=
  incoming.precedence < waiting.precedence ||
    (waiting.precedence == incoming.precedence && waiting.associativity == .left)

def actionName (operator : Operator Value) : String :=
  match operator.action with
  | .arithmetic _ => "builtin"
  | .function _ => "function"
  | .mark => "marker"

def describe (operator : Operator Value) : String :=
  "Properties \x7b arity: " ++ operator.arity.describe ++
    ", precedence: " ++ toString operator.precedence ++
    ", associativity: " ++ operator.associativity.describe ++
    ", action: \"" ++ operator.actionName ++ "\" \x7d"

end Operator

end Calculator
