/-!
Numbers `coefficient · 10 ^ power`, and the double nearest to one.
-/

namespace Calculator

structure Scaled where
  coefficient : Nat
  power : Int
deriving DecidableEq, Repr

namespace Scaled

def infinity : Float :=
  Float.ofBits 0x7FF0000000000000

/-- The nearest double, ties to the even one. A power beyond the reach of doubles is answered before
its digits are written out: from `10 ^ 400` on all is infinite, and below `10 ^ -400` all is zero. -/
def nearest (number : Scaled) : Float :=
  if number.coefficient = 0 then 0
  else if 400 < number.power then infinity
  else if number.power + number.coefficient.log2 < -400 then 0
  else Float.ofScientific number.coefficient (number.power < 0) number.power.natAbs

end Scaled

end Calculator
