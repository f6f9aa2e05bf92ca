/-!
The parts of a double: its sign, and its magnitude as `mantissa · 2 ^ exponent`.
-/

namespace Calculator

structure Binary where
  mantissa : Nat
  exponent : Int
deriving DecidableEq, Repr

namespace Binary

def leadingOne : Nat := 0x10000000000000

def fraction (x : Float) : Nat :=
  x.toBits.toNat % leadingOne

def biased (x : Float) : Nat :=
  x.toBits.toNat / leadingOne % 0x800

def ofFloat (x : Float) : Binary where
  mantissa := if biased x = 0 then fraction x else leadingOne + fraction x
  exponent := (max (biased x) 1 : Nat) - 1075

def toFloat (number : Binary) : Float :=
  (Float.ofNat number.mantissa).scaleB number.exponent

end Binary

def signBit (x : Float) : Bool :=
  x.toBits.toNat / 0x8000000000000000 == 1

def withSign (x sign : Float) : Float :=
  if signBit sign then -x.abs else x.abs

end Calculator
