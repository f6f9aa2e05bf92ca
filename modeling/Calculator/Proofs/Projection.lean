import Calculator.Proofs.Packing
import Calculator.Proofs.Rounding
import Calculator.Proofs.Shortest

/-!
Rounding as a projection. What is rounded has few enough places to stay as it is when it is rounded again, also to
more places. The order of numbers is kept, and so are their signs. All of this rests on three facts about reading
and printing: a magnitude is read back from its print, larger decimals are read as larger numbers, and no print has
more places than a decimal that is read as the same number. They hold of doubles, which are read as the nearest ones and
printed as the shortest decimals.
-/

namespace Calculator

/-- Magnitudes, signs and the order of numbers go together, as those of doubles do. Two zeros differ in nothing but
their sign. -/
class Printed.Ordered (Value : Type) [Printed Value] [LE Value] [Neg Value] : Prop where
  abs_abs : ∀ a : Value, abs (abs a) = abs a
  abs_neg : ∀ a : Value, abs (-a) = abs a
  abs_zero : abs (zero : Value) = zero
  neg_neg : ∀ a : Value, - -a = a
  isFinite_abs : ∀ a : Value, isFinite (abs a) = isFinite a
  isZero_iff : ∀ a : Value, isZero a = true ↔ abs a = zero
  /-- A finite number hands on the sign that it has before its magnitude. -/
  signed : ∀ a : Value, isFinite a = true →
    a = abs a ∧ (∀ b, withSign b a = abs b) ∨ a = -abs a ∧ ∀ b, withSign b a = -abs b
  withSign_neg : ∀ a b : Value, isFinite a = true → withSign b (-a) = -withSign b a
  read_abs : ∀ (text : List Char) (a : Value), read? text = some a → abs a = a
  le_trans : ∀ a b c : Value, a ≤ b → b ≤ c → a ≤ c
  le_antisymm : ∀ a b : Value, abs a ≤ abs b → abs b ≤ abs a → abs a = abs b
  neg_le_neg : ∀ a b : Value, a ≤ b → -b ≤ -a
  zero_le_abs : ∀ a : Value, a ≤ a → zero ≤ abs a
  zero_le_neg : (zero : Value) ≤ -zero
  neg_le_zero : -(zero : Value) ≤ zero

class Printed.Faithful (Value : Type) [Printed Value] [LE Value] : Prop where
  back : ∀ {value : Value} {decimal : Plain}, isFinite value = true → decimal.Valid →
    print (abs value) = decimal.toText → read? decimal.toText = some (abs value)
  monotone : ∀ {first second : Plain} {low high : Value}, first.Valid → second.Valid →
    first.number ≤ second.number → read? first.toText = some low → read? second.toText = some high → low ≤ high
  short : ∀ {decimal printed : Plain} {magnitude : Value}, decimal.Valid →
    read? decimal.toText = some magnitude → isFinite magnitude = true → printed.Valid →
    print (abs magnitude) = printed.toText → printed.fraction.length ≤ decimal.fraction.length

namespace Plain

theorem toText_inj {first second : Plain} (firstValid : first.Valid) (secondValid : second.Valid)
    (same : first.toText = second.toText) : first = second := by
  rw [← ofText_toText firstValid, same, ofText_toText secondValid]

/-- A decimal that is smaller before rounding is not larger behind it. -/
theorem rounded_mono {first second : Plain} (firstValid : first.Valid) (secondValid : second.Valid)
    (less : first.number ≤ second.number) (places : Nat) :
    (first.rounded places).number ≤ (second.rounded places).number := by
  rw [rounded_number firstValid, rounded_number secondValid]
  gcongr

theorem rounded_places {decimal : Plain} (valid : decimal.Valid) (places : Nat) :
    (decimal.rounded places).fraction.length ≤ places := by
  unfold rounded
  split
  · next more => exact (round_kept valid more).2.1.le
  · next short => exact Nat.le_of_not_lt short

end Plain

namespace Printed

section

variable {Value : Type} [Printed Value] {places further : Nat} {x y magnitude : Value} {decimal : Plain}

def Fits (places : Nat) (x : Value) : Prop :=
  isFinite x = true → ∀ decimal : Plain, decimal.Valid → print (abs x) = decimal.toText →
    decimal.fraction.length ≤ places

theorem Fits.mono (fits : Fits places x) (more : places ≤ further) : Fits further x := by
  intro finite decimal valid printed
  exact (fits finite decimal valid printed).trans more

theorem roundHalfUp_short (valid : decimal.Valid) (printed : print (abs x) = decimal.toText)
    (short : decimal.fraction.length ≤ places) : roundHalfUp places x = x := by
  unfold roundHalfUp
  rw [printed, Plain.ofText_toText valid]
  cases isFinite x with
  | false => rfl
  | true => simp [Nat.not_lt.mpr short]

theorem roundHalfUp_long (finite : isFinite x = true) (valid : decimal.Valid)
    (printed : print (abs x) = decimal.toText) (more : places < decimal.fraction.length)
    (read : read? (decimal.rounded places).toText = some magnitude) :
    roundHalfUp places x = if isZero magnitude then zero else withSign magnitude x := by
  rw [Plain.rounded, dif_pos more] at read
  unfold roundHalfUp
  rw [finite, printed, Plain.ofText_toText valid]
  simp [more, read]

theorem Fits.round [Lawful Value] (fits : Fits places x) : roundHalfUp places x = x := by
  cases finite : isFinite x with
  | false => simp [roundHalfUp, finite]
  | true =>
      rcases Lawful.prints x finite with ⟨decimal, valid, printed⟩
      exact roundHalfUp_short valid printed (fits finite decimal valid printed)

variable [LE Value] [Neg Value] [Lawful Value] [Ordered Value] [Faithful Value]

omit [Lawful Value] [Faithful Value] in
theorem isZero_eq (isMagnitude : abs magnitude = magnitude) (empty : isZero magnitude = true) :
    magnitude = zero := by
  rw [← isMagnitude]
  exact (Ordered.isZero_iff magnitude).mp empty

omit [Lawful Value] [Faithful Value] in
theorem eq_zero (atLeast : zero ≤ abs x) (atMost : abs x ≤ zero) : abs x = zero := by
  rw [← Ordered.abs_zero] at atLeast atMost
  rw [Ordered.le_antisymm _ _ atMost atLeast, Ordered.abs_zero]

omit [Lawful Value] in
theorem print_mono {first second : Plain} (xFinite : isFinite x = true) (yFinite : isFinite y = true)
    (firstValid : first.Valid) (secondValid : second.Valid) (firstPrinted : print (abs x) = first.toText)
    (secondPrinted : print (abs y) = second.toText) (less : abs x ≤ abs y) : first.number ≤ second.number := by
  have firstBack := Faithful.back xFinite firstValid firstPrinted
  have secondBack := Faithful.back yFinite secondValid secondPrinted
  by_contra greater
  have other := Faithful.monotone secondValid firstValid (not_le.mp greater).le secondBack firstBack
  rw [Ordered.le_antisymm x y less other, secondPrinted] at firstPrinted
  rw [Plain.toText_inj secondValid firstValid firstPrinted] at greater
  exact greater le_rfl

theorem abs_nonneg (finite : isFinite x = true) : zero ≤ abs x := by
  rcases Lawful.prints x finite with ⟨decimal, valid, printed⟩
  have back := Faithful.back finite valid printed
  have self := Faithful.monotone valid valid le_rfl back back
  rw [← Ordered.abs_abs]
  exact Ordered.zero_le_abs _ self

/-- Nothing stands behind the point of a zero: the decimal `0` is read as no more. -/
theorem fits_zero (isZero : abs x = zero) (places : Nat) : Fits places x := by
  intro finite decimal valid printed
  have zeroValid : Plain.Valid ⟨[0], []⟩ := ⟨by decide, by decide⟩
  have least : Plain.number ⟨[0], []⟩ ≤ decimal.number := by
    have none : Plain.number ⟨[0], []⟩ = 0 := by simp [Plain.number, Plain.digits, Digits.value]
    rw [none, Plain.number]
    positivity
  rcases @Lawful.reads Value _ _ _ zeroValid with ⟨magnitude, read⟩
  have isMagnitude := Ordered.read_abs _ _ read
  have below := Faithful.monotone zeroValid valid least read (Faithful.back finite valid printed)
  have above := Ordered.zero_le_abs magnitude (Faithful.monotone zeroValid zeroValid le_rfl read read)
  rw [isZero, ← isMagnitude] at below
  have same := eq_zero above below
  rw [isMagnitude] at same
  have magnitudeFinite : isFinite magnitude = true := by
    rw [same, ← isZero, Ordered.isFinite_abs, finite]
  have none := Faithful.short zeroValid read magnitudeFinite valid (by rw [isMagnitude, same, ← isZero, printed])
  exact none.trans (Nat.zero_le places)

theorem fits_round (places : Nat) (finite : isFinite x = true) : Fits places (roundHalfUp places x) := by
  rcases Lawful.prints x finite with ⟨decimal, valid, printed⟩
  rcases Nat.lt_or_ge places decimal.fraction.length with more | short
  · have rounded := Plain.rounded_valid valid places
    rcases @Lawful.reads Value _ _ _ rounded with ⟨magnitude, read⟩
    rw [roundHalfUp_long finite valid printed more read]
    split
    · exact fits_zero Ordered.abs_zero places
    · have own : abs (withSign magnitude x) = abs magnitude := by
        rcases Ordered.signed x finite with ⟨_, sign⟩ | ⟨_, sign⟩
        · rw [sign, Ordered.abs_abs]
        · rw [sign, Ordered.abs_neg, Ordered.abs_abs]
      intro resultFinite other otherValid otherPrinted
      rw [← Ordered.isFinite_abs, own, Ordered.isFinite_abs] at resultFinite
      rw [own] at otherPrinted
      exact (Faithful.short rounded read resultFinite otherValid otherPrinted).trans
        (Plain.rounded_places valid places)
  · rw [roundHalfUp_short valid printed short]
    intro _ other otherValid otherPrinted
    rw [printed] at otherPrinted
    rwa [← Plain.toText_inj valid otherValid otherPrinted]

def RoundsTo (places : Nat) (x magnitude : Value) : Prop :=
  ∃ decimal : Plain, decimal.Valid ∧ print (abs x) = decimal.toText ∧
    read? (decimal.rounded places).toText = some magnitude

omit [LE Value] [Neg Value] [Ordered Value] [Faithful Value] in
theorem exists_roundsTo (places : Nat) (finite : isFinite x = true) :
    ∃ magnitude, RoundsTo places x magnitude := by
  rcases Lawful.prints x finite with ⟨decimal, valid, printed⟩
  rcases @Lawful.reads Value _ _ _ (Plain.rounded_valid valid places) with ⟨magnitude, read⟩
  exact ⟨magnitude, decimal, valid, printed, read⟩

omit [Lawful Value] in
theorem RoundsTo.mono {low high : Value} (xFinite : isFinite x = true) (yFinite : isFinite y = true)
    (first : RoundsTo places x low) (second : RoundsTo places y high) (less : abs x ≤ abs y) : low ≤ high := by
  rcases first with ⟨first, firstValid, firstPrinted, firstRead⟩
  rcases second with ⟨second, secondValid, secondPrinted, secondRead⟩
  have ordered := print_mono xFinite yFinite firstValid secondValid firstPrinted secondPrinted less
  exact Faithful.monotone (Plain.rounded_valid firstValid places) (Plain.rounded_valid secondValid places)
    (Plain.rounded_mono firstValid secondValid ordered places) firstRead secondRead

omit [Lawful Value] in
theorem RoundsTo.nonneg (rounds : RoundsTo places x magnitude) : zero ≤ magnitude := by
  rcases rounds with ⟨decimal, valid, _, read⟩
  have rounded := Plain.rounded_valid valid places
  have self := Faithful.monotone rounded rounded le_rfl read read
  rw [← Ordered.read_abs _ _ read]
  exact Ordered.zero_le_abs magnitude self

/-- The result of rounding is the magnitude with the sign, but for the sign of a zero. -/
theorem RoundsTo.round (rounds : RoundsTo places x magnitude) (finite : isFinite x = true) :
    roundHalfUp places x = withSign magnitude x ∨ roundHalfUp places x = zero ∧ magnitude = zero := by
  rcases rounds with ⟨decimal, valid, printed, read⟩
  rcases Nat.lt_or_ge places decimal.fraction.length with more | short
  · have result := roundHalfUp_long finite valid printed more read
    split at result
    · next isZero => exact .inr ⟨result, isZero_eq (Ordered.read_abs _ _ read) isZero⟩
    · exact .inl result
  · rw [Plain.rounded, dif_neg (Nat.not_lt.mpr short), Faithful.back finite valid printed] at read
    cases read
    rw [roundHalfUp_short valid printed short, Lawful.signs x finite]
    exact .inl rfl

theorem RoundsTo.round_positive (rounds : RoundsTo places x magnitude) (finite : isFinite x = true)
    (sign : ∀ b, withSign b x = abs b) : roundHalfUp places x = magnitude := by
  have isMagnitude : abs magnitude = magnitude := by
    rcases rounds with ⟨_, _, _, read⟩
    exact Ordered.read_abs _ _ read
  rcases rounds.round finite with result | ⟨result, isZero⟩
  · rw [result, sign, isMagnitude]
  · rw [result, isZero]

theorem RoundsTo.round_negative (rounds : RoundsTo places x magnitude) (finite : isFinite x = true)
    (sign : ∀ b, withSign b x = -abs b) :
    roundHalfUp places x ≤ -magnitude ∧ -magnitude ≤ roundHalfUp places x := by
  have facts : abs magnitude = magnitude ∧ magnitude ≤ magnitude := by
    rcases rounds with ⟨_, valid, _, read⟩
    have rounded := Plain.rounded_valid valid places
    exact ⟨Ordered.read_abs _ _ read, Faithful.monotone rounded rounded le_rfl read read⟩
  rcases rounds.round finite with result | ⟨result, isZero⟩
  · have self := Ordered.neg_le_neg _ _ facts.2
    rw [result, sign, facts.1]
    exact ⟨self, self⟩
  · rw [result, isZero]
    exact ⟨Ordered.zero_le_neg, Ordered.neg_le_zero⟩

theorem round_mono (places : Nat) (xFinite : isFinite x = true) (yFinite : isFinite y = true) (less : x ≤ y) :
    roundHalfUp places x ≤ roundHalfUp places y := by
  rcases exists_roundsTo places xFinite with ⟨low, first⟩
  rcases exists_roundsTo places yFinite with ⟨high, second⟩
  rcases Ordered.signed x xFinite with ⟨xOwn, xSign⟩ | ⟨xOwn, xSign⟩
  · rcases Ordered.signed y yFinite with ⟨yOwn, ySign⟩ | ⟨yOwn, ySign⟩
    · rw [first.round_positive xFinite xSign, second.round_positive yFinite ySign]
      rw [xOwn, yOwn] at less
      exact first.mono xFinite yFinite second less
    · -- At least zero and at most zero: both are zeros, and stay as they are.
      rw [xOwn, yOwn] at less
      have below := Ordered.le_trans _ _ _ (abs_nonneg xFinite) less
      have yAtMost := Ordered.neg_le_neg _ _ below
      rw [Ordered.neg_neg] at yAtMost
      have yZero := eq_zero (abs_nonneg yFinite) (Ordered.le_trans _ _ _ yAtMost Ordered.neg_le_zero)
      have xAtMost := less
      rw [yZero] at xAtMost
      have xZero := eq_zero (abs_nonneg xFinite) (Ordered.le_trans _ _ _ xAtMost Ordered.neg_le_zero)
      rwa [(fits_zero xZero places).round, (fits_zero yZero places).round, xOwn, yOwn]
  · have bounds := first.round_negative xFinite xSign
    rcases Ordered.signed y yFinite with ⟨yOwn, ySign⟩ | ⟨yOwn, ySign⟩
    · rw [second.round_positive yFinite ySign]
      have negative := Ordered.neg_le_neg _ _ first.nonneg
      exact Ordered.le_trans _ _ _ bounds.1 (Ordered.le_trans _ _ _ negative
        (Ordered.le_trans _ _ _ Ordered.neg_le_zero second.nonneg))
    · rw [xOwn, yOwn] at less
      have magnitudes := Ordered.neg_le_neg _ _ less
      rw [Ordered.neg_neg, Ordered.neg_neg] at magnitudes
      have ordered := Ordered.neg_le_neg _ _ (second.mono yFinite xFinite first magnitudes)
      exact Ordered.le_trans _ _ _ bounds.1 (Ordered.le_trans _ _ _ ordered
        (second.round_negative yFinite ySign).2)

omit [Faithful Value] in
/-- Rounding to the opposite is the opposite of rounding, but for the sign of a zero. -/
theorem round_neg (places : Nat) (finite : isFinite x = true) :
    roundHalfUp places (-x) = -roundHalfUp places x ∨
      isZero (roundHalfUp places (-x)) = true ∧ isZero (-roundHalfUp places x) = true := by
  rcases Lawful.prints x finite with ⟨decimal, valid, printed⟩
  have oppositeFinite : isFinite (-x) = true := by
    rw [← Ordered.isFinite_abs, Ordered.abs_neg, Ordered.isFinite_abs, finite]
  have oppositePrinted : print (abs (-x)) = decimal.toText := by rw [Ordered.abs_neg, printed]
  rcases Nat.lt_or_ge places decimal.fraction.length with more | short
  · rcases @Lawful.reads Value _ _ _ (Plain.rounded_valid valid places) with ⟨magnitude, read⟩
    rw [roundHalfUp_long finite valid printed more read, roundHalfUp_long oppositeFinite valid oppositePrinted more read]
    split
    · refine .inr ⟨?_, ?_⟩
      · rw [Ordered.isZero_iff, Ordered.abs_zero]
      · rw [Ordered.isZero_iff, Ordered.abs_neg, Ordered.abs_zero]
    · exact .inl (Ordered.withSign_neg x magnitude finite)
  · rw [roundHalfUp_short valid printed short, roundHalfUp_short valid oppositePrinted short]
    exact .inl rfl

/-- Rounding is a projection, also with respect to more places, that keeps the order and the signs of numbers. -/
theorem projects (places : Nat) :
    (∀ x : Value, isFinite x = true → roundHalfUp places (roundHalfUp places x) = roundHalfUp places x) ∧
    (∀ x y : Value, isFinite x = true → isFinite y = true → x ≤ y → roundHalfUp places x ≤ roundHalfUp places y) ∧
    (∀ x : Value, isFinite x = true → roundHalfUp places (-x) = -roundHalfUp places x ∨
      isZero (roundHalfUp places (-x)) = true ∧ isZero (-roundHalfUp places x) = true) ∧
    ∀ (further : Nat) (x : Value), places ≤ further → isFinite x = true →
      roundHalfUp further (roundHalfUp places x) = roundHalfUp places x := by
  refine ⟨?_, ?_, ?_, ?_⟩
  · intro x finite
    exact (fits_round places finite).round
  · intro x y xFinite yFinite less
    exact round_mono places xFinite yFinite less
  · intro x finite
    exact round_neg places finite
  · intro further x more finite
    exact ((fits_round places finite).mono more).round

end

end Printed

instance : Printed.Ordered Float where
  abs_abs := abs_abs
  abs_neg := abs_neg
  abs_zero := abs_eq_zero.mpr rank_zero
  neg_neg := neg_neg_own
  isFinite_abs x := by
    change x.abs.isFinite = x.isFinite
    rw [Bool.eq_iff_iff, isFinite_iff, isFinite_iff, rank_abs]
  isZero_iff _ := beq_zero_iff.trans abs_eq_zero.symm
  signed x _ := withSign_cases x
  withSign_neg _ y finite := withSign_neg (isFinite_iff.mp finite).le y
  read_abs text x read := by
    rcases Option.map_eq_some_iff.mp read with ⟨literal, _, rfl⟩
    exact abs_nearest literal.toScaled
  le_trans x y z less more := by
    rw [le_iff_order] at *
    exact ⟨less.1, more.2.1, less.2.2.trans more.2.2⟩
  le_antisymm x y less more := by
    have below := le_abs_iff.mp less
    have above := le_abs_iff.mp more
    exact abs_ext below.1 (Nat.le_antisymm below.2.2 above.2.2)
  neg_le_neg _ _ := neg_le_neg
  zero_le_abs _ self := zero_le_abs (le_iff_order.mp self).1
  zero_le_neg := by decide
  neg_le_zero := by decide

namespace Plain

theorem read_rank {decimal : Plain} {x : Float} (valid : decimal.Valid) (read : Printed.read? decimal.toText = some x) :
    rank x = min (nearestRank decimal.number) lastRank ∧ signOf x = .positive := by
  have literal := Literal.read?_toText valid.toLiteral
  rw [toLiteral_toText] at literal
  have own : some decimal.toLiteral.toFloat = some x := (congrArg (Option.map Literal.toFloat) literal).symm.trans read
  cases own
  rw [← toLiteral_number valid]
  exact nearest_rank decimal.toLiteral.toScaled

end Plain

theorem read_shortest {x : Float} (finite : x.isFinite = true) :
    Printed.read? (Plain.ofScaled (Scaled.shortest .up x)).toText = some x.abs := by
  have valid := Plain.ofScaled_valid (Scaled.shortest .up x)
  rcases @Printed.Lawful.reads Float _ _ _ valid with ⟨magnitude, read⟩
  have placed := Plain.read_rank valid read
  have below := isFinite_iff.mp finite
  rw [Plain.ofScaled_number, Scaled.shortest_nearest, Nat.min_eq_left below.le] at placed
  rw [read, ← abs_own placed.2, abs_ext (placed.1 ▸ below.le) placed.1]

instance : Printed.Faithful Float where
  back {x decimal} finite valid printed := by
    have own := Plain.toText_inj (Plain.ofScaled_valid _) valid printed
    have magnitude : x.abs.isFinite = true := (Printed.Ordered.isFinite_abs x).trans finite
    rw [← own]
    exact (read_shortest magnitude).trans (congrArg some (abs_abs x))
  monotone {first second low high} firstValid secondValid less lowRead highRead := by
    have lowPlaced := Plain.read_rank firstValid lowRead
    have highPlaced := Plain.read_rank secondValid highRead
    have ranks := nearestRank_mono Plain.number_nonneg less
    rw [← abs_own lowPlaced.2, ← abs_own highPlaced.2, le_abs_iff]
    omega
  short {decimal printed magnitude} valid read finite printedValid print := by
    have placed := Plain.read_rank valid read
    have below := isFinite_iff.mp finite
    have own := Plain.toText_inj (Plain.ofScaled_valid _) printedValid print
    have nearest : nearestRank decimal.number = rank magnitude.abs := by
      rw [rank_abs]
      omega
    rw [Plain.number_scaled] at nearest
    rw [← own, Plain.ofScaled_places]
    exact Scaled.shortest_places .up nearest

/-- Doubles are rounded by a projection that keeps their order and their signs, and rounding to more places afterwards
changes nothing. -/
theorem rounding_projects (places : Nat) :
    (∀ x : Float, x.isFinite = true → roundHalfUp places (roundHalfUp places x) = roundHalfUp places x) ∧
    (∀ x y : Float, x.isFinite = true → y.isFinite = true → x ≤ y → roundHalfUp places x ≤ roundHalfUp places y) ∧
    (∀ x : Float, x.isFinite = true → roundHalfUp places (-x) = -roundHalfUp places x ∨
      (roundHalfUp places (-x) == 0) = true ∧ (-roundHalfUp places x == 0) = true) ∧
    ∀ (further : Nat) (x : Float), places ≤ further → x.isFinite = true →
      roundHalfUp further (roundHalfUp places x) = roundHalfUp places x :=
  Printed.projects places

/-- A half is rounded away from zero, and stays what it is then; what is rounded to zero has no sign left. -/
theorem rounding_projects_halves :
    roundHalfUp 0 (roundHalfUp 0 (-2.5 : Float)) = -3 ∧ roundHalfUp 0 (-2.5 : Float) ≤ roundHalfUp 0 (-2.25 : Float) ∧
      (roundHalfUp 0 (-0.25 : Float) == 0) = true ∧ roundHalfUp 3 (roundHalfUp 0 (-2.5 : Float)) = -3 := by
  rcases rounding_projects 0 with ⟨again, order, signs, further⟩
  have half : roundHalfUp 0 (-2.5 : Float) = -3 := by decide +kernel
  have zeros := (signs 0.25 (by decide)).resolve_left (by decide +kernel)
  exact ⟨(again (-2.5) (by decide)).trans half, order (-2.5) (-2.25) (by decide) (by decide) (by decide), zeros.1,
    (further 3 (-2.5) (by decide) (by decide)).trans half⟩

end Calculator
