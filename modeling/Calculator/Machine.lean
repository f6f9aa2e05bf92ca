import Calculator.Token

/-!
The machine that evaluates an expression while it is read. Operands wait on one stack, and operators on
another until no operator that follows can bind tighter. Opening parentheses stand between the operators;
a call has two of them, so that its commas end one argument after the other within the outer one.
-/

namespace Calculator

inductive Previous where
  | operand
  | constant (word : Word)
  /-- Any other word, as written. -/
  | operator (word : Word)
deriving DecidableEq, Repr

/-- An operator on the stack. A function without a fixed number of operands gets its `count` when the
call is closed. -/
structure Waiting (Value : Type) where
  word : Word
  operator : Operator Value
  count : Nat

inductive Entry (Value : Type) where
  | opening
  | waiting (operator : Waiting Value)

/-- What an open parenthesis is for: the arguments of a call, with the commas so far and the operands
that were there before, or a group within a call. -/
inductive Frame where
  | call (arity : Arity) (commas base : Nat)
  | group
deriving DecidableEq, Repr

/-- The tops of the stacks stand first. -/
structure Machine (Value : Type) where
  operands : List Value
  entries : List (Entry Value)
  frames : List Frame
  previous : Option Previous

namespace Word

/-- A `+` or `-` without a space after it is a sign unless an operand stands before it. -/
def isSignAt (word : Word) (next : Option Char) (previous : Option Previous) : Bool :=
  (word == ['+'] || word == ['-']) && next != some ' ' &&
    match previous with
    | none => true
    | some (.operator before) => before != [')']
    | some _ => false

def key (word : Word) (next : Option Char) (previous : Option Previous) : Word :=
  if word.isSignAt next previous then (if word = ['-'] then negative else positive) else word

end Word

section

variable {Value : Type}

def Waiting.reduce (waiting : Waiting Value) (operands : List Value) : Except Fault (List Value) :=
  if operands.length < waiting.count then .error (.of .invalidExpression)
  else do
    let value ← waiting.operator.apply (operands.take waiting.count).reverse
    .ok (value :: operands.drop waiting.count)

end

namespace Machine

section

variable {Value : Type}

def flush : List (Entry Value) → List Value → Except Fault (List (Entry Value) × List Value)
  | [], _ => .error (.of .unmatchedParenthesis)
  | .opening :: rest, operands => .ok (rest, operands)
  | .waiting top :: rest, operands => do
      let operands ← top.reduce operands
      flush rest operands

def makeWay (incoming : Operator Value) :
    List (Entry Value) → List Value → Except Fault (List (Entry Value) × List Value)
  | .waiting top :: rest, operands =>
      if top.operator.bindsBefore incoming then do
        let operands ← top.reduce operands
        makeWay incoming rest operands
      else .ok (.waiting top :: rest, operands)
  | entries, operands => .ok (entries, operands)

def drain : List (Entry Value) → List Value → Except Fault (List Value)
  | [], operands => .ok operands
  | .opening :: _, _ => .error (.of .unmatchedParenthesis)
  | .waiting top :: rest, operands => do
      let operands ← top.reduce operands
      drain rest operands

end

variable {Value : Type} (vocabulary : Vocabulary Value)

def initial : Machine Value :=
  ⟨[], [], [], none⟩

def push (value : Value) (previous : Previous) (machine : Machine Value) : Machine Value :=
  { machine with operands := value :: machine.operands, previous := some previous }

def comma (machine : Machine Value) : Except Fault (Machine Value) :=
  match machine.frames with
  | .call arity commas base :: outer =>
      if arity.admitsComma commas then do
        let (entries, operands) ← flush machine.entries machine.operands
        .ok { machine with
          operands := operands
          entries := .opening :: entries
          frames := .call arity (commas + 1) base :: outer }
      else .error (.of .misplacedComma)
  | _ => .error (.of .misplacedComma)

def opensCall (machine : Machine Value) : Bool :=
  match machine.previous with
  | some (.operator word) => vocabulary.isFunction word
  | _ => false

def admitsEmpty (machine : Machine Value) : Bool :=
  match machine.previous with
  | some (.constant _) => true
  | some (.operator word) => word == ['('] || vocabulary.isFunction word
  | _ => false

/-- Groups need a frame only within a call, where they keep its commas apart. -/
def openParenthesis (next : Option Char) (machine : Machine Value) :
    Except Fault (Machine Value) :=
  if next == some ')' && !machine.admitsEmpty vocabulary then .error (.of .misusedParenthesis)
  else if machine.opensCall vocabulary then
    match machine.entries with
    | .waiting top :: _ =>
        .ok { machine with
          entries := .opening :: .opening :: machine.entries
          frames := .call top.operator.arity 0 machine.operands.length :: machine.frames }
    | _ => .error (.of .invalidExpression)
  else
    .ok { machine with
      entries := .opening :: machine.entries
      frames := if machine.frames.isEmpty then [] else .group :: machine.frames }

def applyCall (arity : Arity) (commas base : Nat) (entries : List (Entry Value))
    (operands : List Value) : Except Fault (List (Entry Value) × List Value) := do
  let (entries, operands) ← flush entries operands
  let supplied := operands.length - base
  let expected := arity.ofCall commas
  if supplied ≠ commas + 1 ∨ supplied ≠ expected then .error (.of .invalidExpression)
  else match entries with
    | .waiting top :: rest => do
        let operands ← { top with count := expected }.reduce operands
        .ok (rest, operands)
    | _ => .error (.of .invalidExpression)

def closeParenthesis (machine : Machine Value) : Except Fault (Machine Value) := do
  let (entries, operands) ← flush machine.entries machine.operands
  match machine.frames with
  | .call arity commas base :: outer => do
      let (entries, operands) ← applyCall arity commas base entries operands
      .ok { machine with entries := entries, operands := operands, frames := outer }
  | frames => .ok { machine with entries := entries, operands := operands, frames := frames.drop 1 }

def pushOperator (word : Word) (operator : Operator Value) (machine : Machine Value) :
    Except Fault (Machine Value) := do
  let (entries, operands) ← makeWay operator machine.entries machine.operands
  .ok { machine with
    operands := operands
    entries := .waiting ⟨word, operator, operator.arity.declared⟩ :: entries }

def remember (word : Word) (machine : Machine Value) : Machine Value :=
  { machine with previous := some (.operator word) }

/-- Constants have their value at once and count as operands from then on. -/
def readWord (word : Word) (next : Option Char) (machine : Machine Value) :
    Except Fault (Machine Value) :=
  let key := word.key next machine.previous
  match vocabulary.get? key with
  | none => .error (.of .invalidExpression)
  | some operator =>
      if key = [','] then machine.comma.map (remember word)
      else if key = ['('] then (machine.openParenthesis vocabulary next).map (remember word)
      else if key = [')'] then machine.closeParenthesis.map (remember word)
      else if operator.isConstant then do
        let value ← operator.apply []
        .ok (machine.push value (.constant key))
      else (machine.pushOperator key operator).map (remember word)

def readNumber (read : List Char → Option Value) (text : List Char) (machine : Machine Value) :
    Except Fault (Machine Value) :=
  match read text with
  | some value => .ok (machine.push value .operand)
  | none => .error (.of .invalidExpression)

def step (read : List Char → Option Value) (machine : Machine Value) (placed : Placed) :
    Except Fault (Machine Value) :=
  located placed.last <|
    match placed.token with
    | .word word => machine.readWord vocabulary word placed.next
    | .number text => machine.readNumber read text

def finish (machine : Machine Value) : Except Fault Value := do
  match ← drain machine.entries machine.operands with
  | [value] => .ok value
  | _ => .error (.of .invalidExpression)

end Machine

end Calculator
