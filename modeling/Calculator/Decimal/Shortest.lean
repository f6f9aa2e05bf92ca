import Calculator.Arithmetic.Binary
import Calculator.Decimal.Scaled

/-!
The shortest decimal of a double: of all decimals that read back as the double, one with the fewest
digits, and of those the nearest. A decimal has fewer digits the coarser its grid `10 ^ power` is, so the
grids are tried from the coarsest on; on each one only the two neighbours of the double can be nearest.
-/

namespace Calculator

inductive Tie where
  | up
  | even
deriving DecidableEq, Repr

/-- The reals that round to a double, in units of `2 ^ unit`: those between `low` and `high` around
`middle`, with the two ends if `closed`. -/
structure Span where
  low : Nat
  middle : Nat
  high : Nat
  unit : Int
  closed : Bool
deriving DecidableEq, Repr

namespace Span

/-- The next double below is half as far away when the mantissa is the least of its exponent. -/
def ofFloat (x : Float) : Span :=
  let number := Binary.ofFloat x
  let narrow := Binary.fraction x = 0 ∧ 1 < Binary.biased x
  { low := 4 * number.mantissa - (if narrow then 1 else 2)
    middle := 4 * number.mantissa
    high := 4 * number.mantissa + 2
    unit := number.exponent - 2
    closed := number.mantissa % 2 == 0 }

def scale (span : Span) (power : Int) (count : Nat) : Nat :=
  count * Nat.pow 2 span.unit.toNat * Nat.pow 10 (-power).toNat

def step (span : Span) (power : Int) : Nat :=
  Nat.pow 2 (-span.unit).toNat * Nat.pow 10 power.toNat

def covers (span : Span) (power : Int) (point : Nat) : Bool :=
  let place := point * span.step power
  let low := span.scale power span.low
  let high := span.scale power span.high
  if span.closed then low ≤ place && place ≤ high else low < place && place < high

def point? (span : Span) (tie : Tie) (power : Int) : Option Nat :=
  let step := span.step power
  let middle := span.scale power span.middle
  let below := middle / step
  let excess := 2 * (middle % step)
  match span.covers power below, span.covers power (below + 1) with
  | false, false => none
  | true, false => some below
  | false, true => some (below + 1)
  | true, true =>
      if excess < step then some below
      else if step < excess then some (below + 1)
      else match tie with
        | .up => some (below + 1)
        | .even => some (if below % 2 == 0 then below else below + 1)

def coarsest (span : Span) (tie : Tie) : (count : Nat) → (power : Int) → Option Scaled
  | 0, _ => none
  | count + 1, power =>
      match span.point? tie power with
      | some point => some ⟨point, power⟩
      | none => span.coarsest tie count (power - 1)

end Span

namespace Scaled

/-- The shortest decimal of the magnitude of a finite double. Every double but zero lies below
`10 ^ 309`, and its span is wider than `10 ^ -324`. -/
def shortest (tie : Tie) (x : Float) : Scaled :=
  if (Binary.ofFloat x).mantissa = 0 then ⟨0, 0⟩
  else ((Span.ofFloat x).coarsest tie 634 309).getD ⟨0, 0⟩

end Scaled

end Calculator
