import Calculator.Arithmetic.Elementary
import Calculator.Arithmetic.Gamma
import Calculator.Arithmetic.Remainder
import Calculator.Vocabulary

/-!
The predefined words. An operator that is applied to fewer numbers than it takes reads the missing ones as
not a number, and one that is applied to more ignores the rest; the evaluator does neither.
-/

namespace Calculator

namespace Predefined

def argument (numbers : List Float) (index : Nat) : Float :=
  numbers.getD index notANumber

def binary (precedence : Nat) (associativity : Associativity) (compute : Float → Float → Float) :
    Operator Float :=
  .arithmetic 2 precedence associativity fun numbers =>
    compute (argument numbers 0) (argument numbers 1)

def sign (compute : Float → Float) : Operator Float :=
  .arithmetic 1 Operator.functionPrecedence .neither fun numbers => compute (argument numbers 0)

def unary (compute : Float → Float) : Operator Float :=
  .function (.fixed 1) fun numbers => .ok (compute (argument numbers 0))

def dyadic (compute : Float → Float → Float) : Operator Float :=
  .function (.fixed 2) fun numbers => .ok (compute (argument numbers 0) (argument numbers 1))

def marks : List (Word × Operator Float) :=
  [(['('], .mark), ([')'], .mark), ([','], .mark)]

def operators : List (Word × Operator Float) :=
  [(['+'], binary 1 .left (· + ·)),
   (['-'], binary 1 .left (· - ·)),
   (['*'], binary 2 .left (· * ·)),
   (['/'], binary 2 .left (· / ·)),
   (['%'], binary 2 .left remainder),
   (['^'], binary 3 .right Float.pow),
   (Word.negative, sign (- ·)),
   (Word.positive, sign id)]

def functions : List (Word × Operator Float) :=
  [("abs".toList, unary Float.abs),
   ("sin".toList, unary Float.sin),
   ("cos".toList, unary Float.cos),
   ("tan".toList, unary Float.tan),
   ("asin".toList, unary Float.asin),
   ("acos".toList, unary Float.acos),
   ("atan".toList, unary Float.atan),
   ("sinh".toList, unary Float.sinh),
   ("cosh".toList, unary Float.cosh),
   ("tanh".toList, unary Float.tanh),
   ("asinh".toList, unary arsinh),
   ("acosh".toList, unary arcosh),
   ("atanh".toList, unary artanh),
   ("deg".toList, unary toDegrees),
   ("rad".toList, unary toRadians),
   ("round".toList, unary nearestWhole),
   ("floor".toList, unary Float.floor),
   ("ceil".toList, unary Float.ceil),
   ("ln".toList, unary Float.log),
   ("log10".toList, unary Float.log10),
   ("log".toList, dyadic logarithm),
   ("sqrt".toList, unary Float.sqrt),
   ("cbrt".toList, unary Float.cbrt),
   ("fact".toList, unary factorial),
   ("max".toList, dyadic larger),
   ("min".toList, dyadic smaller),
   ("mean".toList, .function .variadic fun numbers => .ok (mean numbers))]

/-- `draw` is the random number, from zero up to one, that `rand` stands for. Assumed: one draw for all uses of a
vocabulary, where a program draws anew at each. What compares two runs gives both the same draws. -/
def constants (draw : Float) : List (Word × Operator Float) :=
  [("rand".toList, .constant draw),
   ("pi".toList, .constant pi),
   (['e'], .constant euler)]

def table (draw : Float) : List (Word × Operator Float) :=
  marks ++ operators ++ functions ++ constants draw

end Predefined

def Vocabulary.standard (draw : Float) : Vocabulary Float :=
  .ofTable (Predefined.table draw)

def Vocabulary.Reachable (vocabulary : Vocabulary Float) : Prop :=
  ∃ draw edits, vocabulary = Edit.applyAll (.standard draw) edits

end Calculator
