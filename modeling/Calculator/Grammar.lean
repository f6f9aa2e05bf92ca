import Calculator.Machine

/-!
The language of expressions, given by its rules alone: which token sequences are phrases, and what each of
them amounts to. Operands are worked out from left to right and before the operator that takes them.
-/

namespace Calculator

inductive Phrase where
  | sum
  | product
  | power
  | signed
  | atom
  | arguments (count : Nat)
deriving DecidableEq, Repr

abbrev Yield (Value : Type) := Except Fault (List Value)

section

variable {Value : Type}

/-- Stated by the action alone: what the machine applies is to agree with it. -/
def Operator.yield (operator : Operator Value) (operands : Yield Value) : Yield Value :=
  Except.bind operands fun operands =>
    match operator.action with
    | .arithmetic compute => .ok [compute operands]
    | .function body => (body operands).map fun value => [value]
    | .mark => .error (.of .invalidExpression)

theorem Operator.yield_apply (operator : Operator Value) (operands : List Value) :
    operator.yield (.ok operands) = (operator.apply operands).map fun value => [value] := by
  unfold Operator.yield Operator.apply
  cases operator.action <;> rfl

/-- The first phrase is worked out first; nothing comes of the second if that fails. -/
def Yield.append (first second : Yield Value) : Yield Value :=
  Except.bind first fun first => Except.map (first ++ ·) second

def Arity.admits : Arity → Nat → Prop
  | .fixed count, supplied => supplied = count
  | .variadic, supplied => 0 < supplied

inductive Derives (vocabulary : Vocabulary Value) (read : List Char → Option Value) :
    Phrase → List Token → Yield Value → Prop where
  | number {literal : Literal} {value : Value} (valid : literal.Valid)
      (reading : read literal.toText = some value) :
      Derives vocabulary read .atom [.number literal.toText] (.ok [value])
  | constant {word : Word} {operator : Operator Value} (known : vocabulary.get? word = some operator)
      (constant : operator.isConstant = true) :
      Derives vocabulary read .atom [.word word] (operator.yield (.ok []))
  | constantCall {word : Word} {operator : Operator Value}
      (known : vocabulary.get? word = some operator) (constant : operator.isConstant = true) :
      Derives vocabulary read .atom [.word word, .word ['('], .word [')']]
        (operator.yield (.ok []))
  | call {word : Word} {operator : Operator Value} {count : Nat} {tokens : List Token}
      {values : Yield Value} (known : vocabulary.get? word = some operator)
      (function : operator.isFunction = true) (takesArguments : operator.isConstant = false)
      (admitted : operator.arity.admits count)
      (inner : Derives vocabulary read (.arguments count) tokens values) :
      Derives vocabulary read .atom (.word word :: .word ['('] :: tokens ++ [.word [')']])
        (operator.yield values)
  | group {tokens : List Token} {values : Yield Value}
      (inner : Derives vocabulary read .sum tokens values) :
      Derives vocabulary read .atom (.word ['('] :: tokens ++ [.word [')']]) values
  | argument {tokens : List Token} {values : Yield Value}
      (only : Derives vocabulary read .sum tokens values) :
      Derives vocabulary read (.arguments 1) tokens values
  | oneMore {count : Nat} {before tokens : List Token} {first values : Yield Value}
      (left : Derives vocabulary read (.arguments count) before first)
      (right : Derives vocabulary read .sum tokens values) :
      Derives vocabulary read (.arguments (count + 1)) (before ++ .word [','] :: tokens)
        (first.append values)
  | unsigned {tokens : List Token} {values : Yield Value}
      (inner : Derives vocabulary read .atom tokens values) :
      Derives vocabulary read .signed tokens values
  | negative {operator : Operator Value} {tokens : List Token} {values : Yield Value}
      (known : vocabulary.get? Word.negative = some operator)
      (inner : Derives vocabulary read .signed tokens values) :
      Derives vocabulary read .signed (.word ['-'] :: tokens) (operator.yield values)
  | positive {operator : Operator Value} {tokens : List Token} {values : Yield Value}
      (known : vocabulary.get? Word.positive = some operator)
      (inner : Derives vocabulary read .signed tokens values) :
      Derives vocabulary read .signed (.word ['+'] :: tokens) (operator.yield values)
  | base {tokens : List Token} {values : Yield Value}
      (inner : Derives vocabulary read .signed tokens values) :
      Derives vocabulary read .power tokens values
  | raise {operator : Operator Value} {base exponent : List Token} {first second : Yield Value}
      (known : vocabulary.get? ['^'] = some operator)
      (left : Derives vocabulary read .signed base first)
      (right : Derives vocabulary read .power exponent second) :
      Derives vocabulary read .power (base ++ .word ['^'] :: exponent)
        (operator.yield (first.append second))
  | factor {tokens : List Token} {values : Yield Value}
      (inner : Derives vocabulary read .power tokens values) :
      Derives vocabulary read .product tokens values
  | multiply {word : Word} {operator : Operator Value} {before tokens : List Token}
      {first second : Yield Value} (infixed : word ∈ [['*'], ['/'], ['%']])
      (known : vocabulary.get? word = some operator)
      (left : Derives vocabulary read .product before first)
      (right : Derives vocabulary read .power tokens second) :
      Derives vocabulary read .product (before ++ .word word :: tokens)
        (operator.yield (first.append second))
  | term {tokens : List Token} {values : Yield Value}
      (inner : Derives vocabulary read .product tokens values) :
      Derives vocabulary read .sum tokens values
  | add {word : Word} {operator : Operator Value} {before tokens : List Token}
      {first second : Yield Value} (infixed : word ∈ [['+'], ['-']])
      (known : vocabulary.get? word = some operator)
      (left : Derives vocabulary read .sum before first)
      (right : Derives vocabulary read .product tokens second) :
      Derives vocabulary read .sum (before ++ .word word :: tokens)
        (operator.yield (first.append second))

end

end Calculator
