import Calculator.Arithmetic.Elementary

/-!
The gamma function in the approximation of Lanczos, and the factorial that it extends.
-/

namespace Calculator

namespace Gamma

def parameter : Float := 7

def leading : Float := 0.9999999999998099

def coefficients : List Float :=
  [676.5203681218851, -1259.1392167224028, 771.3234287776531, -176.6150291621406,
    12.507343278686905, -0.13857109526572012, 9.984369578019572e-6, 1.5056327351493116e-7]

def series (x : Float) : Nat → Float → List Float → Float
  | _, sum, [] => sum
  | index, sum, c :: rest => series x (index + 1) (sum + c / (x + Float.ofNat index)) rest

def approximate (x : Float) : Float :=
  let x := x - 1
  let t := x + parameter + 0.5
  (2 * pi).sqrt * t.pow (x + 0.5) * (-t).exp * series x 1 leading coefficients

end Gamma

def gamma (x : Float) : Float :=
  if x < 0.5 then pi / ((pi * x).sin * Gamma.approximate (1 - x)) else Gamma.approximate x

def isWhole (x : Float) : Bool :=
  x.isFinite && x.floor == x

def product (count : Nat) : Float :=
  (List.range count).foldl (fun result index => result * Float.ofNat (index + 1)) 1

/-- Exact for small whole numbers; without a value at the negative ones, the poles of `gamma`. -/
def factorial (x : Float) : Float :=
  if x < 0 && isWhole x then notANumber
  else if isWhole x && x ≤ 170 then product x.toUInt32.toNat
  else gamma (x + 1)

end Calculator
