import Calculator.Arithmetic.Binary
import Calculator.Arithmetic.Remainder

/-!
Functions of one or two numbers that the vocabulary offers beside those of the float type itself.
-/

namespace Calculator

def pi : Float := 3.14159265358979323846

def euler : Float := 2.71828182845904523536

def logTwo : Float := 0.69314718055994530942

def toDegrees (x : Float) : Float :=
  x * (180 / pi)

def toRadians (x : Float) : Float :=
  x * (pi / 180)

/-- The nearest whole number, a half upward. The distance to the floor is exact, `x + 1/2` is not. -/
def nearestWhole (x : Float) : Float :=
  let floor := x.floor
  if x - floor ≥ 0.5 then floor + 1 else floor

def larger (x y : Float) : Float :=
  if x.isNaN then y else if x < y then y else x

def smaller (x y : Float) : Float :=
  if x.isNaN then y else if y < x then y else x

def logarithm (value base : Float) : Float :=
  value.log / base.log

/-- `ln (1 + x)`, also where `1 + x` keeps few digits of `x`: what the sum is too large by is taken off
again, divided by the slope of the logarithm there. -/
def logOnePlus (x : Float) : Float :=
  let sum := 1 + x
  if sum == 1 then x
  else if sum == 0 || sum == Scaled.infinity then sum.log
  else sum.log - ((sum - 1) - x) / sum

def logTwice (x : Float) : Float :=
  x.log + logTwo

def arsinh (x : Float) : Float :=
  let size := x.abs
  let inverse := 1 / size
  let sum := size + size / ((1 + inverse * inverse).sqrt + inverse)
  withSign (if sum.isInf then logTwice size else logOnePlus sum) x

def arcosh (x : Float) : Float :=
  let sum := x + (x - 1).sqrt * (x + 1).sqrt
  if x < 1 then notANumber else if sum.isInf then logTwice x else sum.log

def artanh (x : Float) : Float :=
  0.5 * logOnePlus (2 * x / (1 - x))

/-- The sum starts from the zero that leaves a negative zero as it is. -/
def total (values : List Float) : Float :=
  values.foldl (· + ·) (-0)

def mean (values : List Float) : Float :=
  total values / Float.ofNat values.length

end Calculator
