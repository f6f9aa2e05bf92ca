import Calculator.Decimal.Shortest
import Calculator.Proofs.Nearest

/-!
The shortest decimal of a double. The span of a double holds just the numbers that it is nearest to, and the coarsest
grid with a point in the span is found. So the decimal denotes a number that the double is nearest to, and no such
decimal has fewer places.
-/

namespace Calculator

namespace Span

section

variable {span : Span} {tie : Tie} {power place : ℤ} {point count : ℕ} {y z : ℚ}

def Holds (span : Span) (y : ℚ) : Prop :=
  if span.closed then span.low ≤ y / 2 ^ span.unit ∧ y / 2 ^ span.unit ≤ span.high
  else span.low < y / 2 ^ span.unit ∧ y / 2 ^ span.unit < span.high

theorem Holds.of_inside (low : span.low < y / 2 ^ span.unit) (high : y / 2 ^ span.unit < span.high) : span.Holds y := by
  unfold Holds
  split
  · exact ⟨low.le, high.le⟩
  · exact ⟨low, high⟩

def Inside (span : Span) : Prop :=
  span.low < span.middle ∧ span.middle < span.high

/-- What lies between a number of the span and the middle is in the span as well. -/
theorem Holds.toward (holds : span.Holds y) (inside : span.Inside)
    (between : y ≤ z ∧ z / 2 ^ span.unit ≤ span.middle ∨ span.middle ≤ z / 2 ^ span.unit ∧ z ≤ y) : span.Holds z := by
  have low : (span.low : ℚ) < span.middle := by exact_mod_cast inside.1
  have high : (span.middle : ℚ) < span.high := by exact_mod_cast inside.2
  have unit : (0 : ℚ) < 2 ^ span.unit := by positivity
  unfold Holds at *
  rcases between with ⟨less, near⟩ | ⟨near, less⟩
  · have scaled := div_le_div_of_nonneg_right less unit.le
    split_ifs at *
    · exact ⟨holds.1.trans scaled, near.trans high.le⟩
    · exact ⟨holds.1.trans_le scaled, near.trans_lt high⟩
  · have scaled := div_le_div_of_nonneg_right less unit.le
    split_ifs at *
    · exact ⟨low.le.trans near, scaled.trans holds.2⟩
    · exact ⟨low.trans_le near, scaled.trans_lt holds.2⟩

def denominator (span : Span) (power : ℤ) : ℚ :=
  2 ^ (-span.unit).toNat * 10 ^ (-power).toNat

theorem denominator_pos : 0 < span.denominator power := by
  unfold denominator
  positivity

theorem pow_toNat {base : ℚ} (nonzero : base ≠ 0) (exponent : ℤ) :
    base ^ exponent.toNat = base ^ exponent * base ^ (-exponent).toNat := by
  have parts : (exponent.toNat : ℤ) = exponent + (-exponent).toNat := by omega
  rw [← zpow_natCast, ← zpow_natCast base (-exponent).toNat, ← zpow_add₀ nonzero, ← parts]

theorem scale_value : (span.scale power count : ℚ) = count * 2 ^ span.unit * span.denominator power := by
  simp only [scale, denominator, Nat.pow_eq, Nat.cast_mul, Nat.cast_pow, Nat.cast_ofNat]
  rw [pow_toNat two_ne_zero span.unit]
  ring

theorem place_value : ((point * span.step power : ℕ) : ℚ) = point * 10 ^ power * span.denominator power := by
  simp only [step, denominator, Nat.pow_eq, Nat.cast_mul, Nat.cast_pow, Nat.cast_ofNat]
  rw [pow_toNat (by norm_num : (10 : ℚ) ≠ 0) power]
  ring

theorem scale_le_place :
    span.scale power count ≤ point * span.step power ↔ (count : ℚ) ≤ point * 10 ^ power / 2 ^ span.unit := by
  rw [le_div_iff₀ (by positivity), ← mul_le_mul_iff_of_pos_right (@denominator_pos span power), ← scale_value,
    ← place_value, Nat.cast_le]

theorem place_le_scale :
    point * span.step power ≤ span.scale power count ↔ point * 10 ^ power / 2 ^ span.unit ≤ (count : ℚ) := by
  rw [div_le_iff₀ (by positivity), ← mul_le_mul_iff_of_pos_right (@denominator_pos span power), ← scale_value,
    ← place_value, Nat.cast_le]

theorem covers_iff : span.covers power point = true ↔ span.Holds (point * 10 ^ power) := by
  unfold covers Holds
  dsimp only
  split
  · rw [Bool.and_eq_true, decide_eq_true_iff, decide_eq_true_iff, scale_le_place, place_le_scale]
  · rw [Bool.and_eq_true, decide_eq_true_iff, decide_eq_true_iff, ← Nat.not_le, ← Nat.not_le, scale_le_place,
      place_le_scale, not_le, not_le]

theorem step_pos : 0 < span.step power :=
  Nat.mul_pos (Nat.pow_pos (by decide)) (Nat.pow_pos (by decide))

/-- A neighbour of the middle is found unless both of them are outside the span. -/
theorem point?_cases (span : Span) (tie : Tie) (power : ℤ) :
    (span.point? tie power = none ∧
      span.covers power (span.scale power span.middle / span.step power) = false ∧
      span.covers power (span.scale power span.middle / span.step power + 1) = false) ∨
    ∃ point, span.point? tie power = some point ∧ span.covers power point = true := by
  unfold point?
  dsimp only
  generalize span.scale power span.middle / span.step power = below
  cases first : span.covers power below with
  | false =>
      cases second : span.covers power (below + 1) with
      | false => exact .inl ⟨rfl, rfl, rfl⟩
      | true => exact .inr ⟨below + 1, rfl, second⟩
  | true =>
      cases second : span.covers power (below + 1) with
      | false => exact .inr ⟨below, rfl, first⟩
      | true =>
          -- Whatever the tie, it is one of the two.
          refine .inr ?_
          cases tie <;> dsimp only <;> split_ifs <;>
            first
              | exact ⟨below, rfl, first⟩
              | exact ⟨below + 1, rfl, second⟩

/-- A grid with a point in the span has one next to the middle. -/
theorem exists_point (inside : span.Inside) (tie : Tie) (covered : span.covers power point = true) :
    ∃ point, span.point? tie power = some point ∧ span.covers power point = true := by
  refine (span.point?_cases tie power).resolve_left ?_
  rintro ⟨_, noneBelow, noneAbove⟩
  have lower := Nat.div_mul_le_self (span.scale power span.middle) (span.step power)
  have upper := (Nat.lt_mul_div_succ (span.scale power span.middle) (@step_pos span power)).le
  rw [Nat.mul_comm] at upper
  rw [place_le_scale] at lower
  rw [scale_le_place] at upper
  rw [covers_iff] at covered
  rcases Nat.lt_or_ge (span.scale power span.middle / span.step power) point with more | less
  · have holds := covered.toward inside (.inr ⟨upper, by gcongr; exact more⟩)
    rw [covers_iff.mpr holds] at noneAbove
    cases noneAbove
  · have holds := covered.toward inside (.inl ⟨by gcongr, lower⟩)
    rw [covers_iff.mpr holds] at noneBelow
    cases noneBelow

/-- A grid with steps that are shorter than a span has a point in it. -/
theorem exists_covered (wide : span.low < span.high) (short : (10 : ℚ) ^ power < 2 ^ span.unit) :
    ∃ point, span.covers power point = true := by
  have grid : (0 : ℚ) < 10 ^ power := by positivity
  have unit : (0 : ℚ) < 2 ^ span.unit := by positivity
  have ends : (span.low : ℚ) + 1 ≤ span.high := by exact_mod_cast wide
  have behind := Nat.lt_floor_add_one ((span.low : ℚ) * 2 ^ span.unit / 10 ^ power)
  have before := Nat.floor_le (by positivity : 0 ≤ (span.low : ℚ) * 2 ^ span.unit / 10 ^ power)
  generalize ⌊(span.low : ℚ) * 2 ^ span.unit / 10 ^ power⌋₊ = point at behind before
  rw [div_lt_iff₀ grid] at behind
  rw [le_div_iff₀ grid] at before
  refine ⟨point + 1, covers_iff.mpr (.of_inside ?_ ?_)⟩
  · rwa [lt_div_iff₀ unit, Nat.cast_add, Nat.cast_one]
  · rw [div_lt_iff₀ unit]
    calc
      ((point + 1 : ℕ) : ℚ) * 10 ^ power = point * 10 ^ power + 10 ^ power := by
        rw [Nat.cast_add, Nat.cast_one, add_mul, one_mul]
      _ < span.low * 2 ^ span.unit + 2 ^ span.unit := add_lt_add_of_le_of_lt before short
      _ = (span.low + 1) * 2 ^ span.unit := by ring
      _ ≤ span.high * 2 ^ span.unit := mul_le_mul_of_nonneg_right ends unit.le

/-- No grid is passed over that has a point in the span. -/
theorem coarsest_finds (inside : span.Inside) (tie : Tie) (covered : span.covers place point = true) (count : ℕ) :
    ∀ power, place ≤ power → power < place + count → ∃ number, span.coarsest tie count power = some number ∧
      place ≤ number.power ∧ span.Holds (number.coefficient * 10 ^ number.power) := by
  induction count with
  | zero =>
      intro power least reach
      omega
  | succ count ih =>
      intro power least reach
      unfold coarsest
      split
      · next point found =>
          refine ⟨⟨point, power⟩, rfl, least, ?_⟩
          rcases span.point?_cases tie power with ⟨none, _⟩ | ⟨other, some, inSpan⟩
          · rw [none] at found
            cases found
          · rw [some] at found
            cases found
            exact covers_iff.mp inSpan
      · next none =>
          have other : place ≠ power := by
            rintro rfl
            rcases exists_point inside tie covered with ⟨point, found, _⟩
            rw [none] at found
            cases found
          exact ih (power - 1) (by omega) (by push_cast at reach; omega)

end

/-- The least mantissa of an exponent that is not the least: the next smaller double is half as far away as the next
larger one. -/
def Narrow (mantissa : ℕ) (exponent : ℤ) : Prop :=
  mantissa = Binary.leadingOne ∧ -1074 < exponent

instance (mantissa : ℕ) (exponent : ℤ) : Decidable (Narrow mantissa exponent) :=
  inferInstanceAs (Decidable (_ ∧ _))

section

variable {x : Float} {y : ℚ} {mantissa : ℕ} {exponent : ℤ}

theorem ofFloat_parts (canonical : Binary.Canonical (rank x) mantissa exponent) :
    ofFloat x = {
      low := 4 * mantissa - if Narrow mantissa exponent then 1 else 2
      middle := 4 * mantissa
      high := 4 * mantissa + 2
      unit := exponent - 2
      closed := mantissa % 2 == 0 } := by
  have narrow : (Binary.fraction x = 0 ∧ 1 < Binary.biased x) ↔ Narrow mantissa exponent := by
    have parts := canonical.parts
    rw [Binary.fraction_rank, Binary.biased_rank, Narrow]
    rcases Nat.lt_or_ge (rank x) Binary.leadingOne with low | high
    · rw [Binary.ofRank_low low] at parts
      cases parts
      simp only [Binary.leadingOne] at low ⊢
      omega
    · rw [Binary.ofRank_high high] at parts
      cases parts
      simp only [Binary.leadingOne] at high ⊢
      omega
  simp only [ofFloat, Binary.ofFloat_rank, canonical.parts, narrow]

theorem low_cast (some : 0 < mantissa) : ((4 * mantissa - (if Narrow mantissa exponent then 1 else 2) : ℕ) : ℚ) =
    4 * mantissa - if Narrow mantissa exponent then 1 else 2 := by
  split_ifs
  · rw [Nat.cast_sub (by omega)]
    push_cast
    rfl
  · rw [Nat.cast_sub (by omega)]
    push_cast
    rfl

theorem holds_parts (canonical : Binary.Canonical (rank x) mantissa exponent) (some : 0 < mantissa) :
    (ofFloat x).Holds y ↔ Rounds (y / 2 ^ exponent) mantissa ∧
      (Narrow mantissa exponent → (2 : ℚ) ^ 52 - 1 / 4 ≤ y / 2 ^ exponent) := by
  have quarters : y / 2 ^ (exponent - 2) = 4 * (y / 2 ^ exponent) := by
    rw [zpow_sub₀ two_ne_zero]
    field_simp
    norm_num
  rw [ofFloat_parts canonical, Holds]
  simp only [quarters, beq_iff_eq, low_cast some]
  push_cast
  by_cases even : mantissa % 2 = 0
  · rw [if_pos even, rounds_even even]
    by_cases narrow : Narrow mantissa exponent
    · have leading : (mantissa : ℚ) = 2 ^ 52 := by
        rw [narrow.1, Binary.leadingOne]
        norm_num
      rw [if_pos narrow, forall_prop_of_true narrow, leading]
      constructor
      · rintro ⟨low, high⟩
        exact ⟨⟨by linarith, by linarith⟩, by linarith⟩
      · rintro ⟨⟨_, high⟩, low⟩
        exact ⟨by linarith, by linarith⟩
    · rw [if_neg narrow, forall_prop_of_false narrow, and_true]
      constructor
      · rintro ⟨low, high⟩
        exact ⟨by linarith, by linarith⟩
      · rintro ⟨low, high⟩
        exact ⟨by linarith, by linarith⟩
  · have wide : ¬ Narrow mantissa exponent := by
      rintro ⟨rfl, _⟩
      exact even (by decide)
    rw [if_neg even, rounds_odd even, if_neg wide, forall_prop_of_false wide, and_true]
    constructor
    · rintro ⟨low, high⟩
      exact ⟨by linarith, by linarith⟩
    · rintro ⟨low, high⟩
      exact ⟨by linarith, by linarith⟩

theorem next_place (y : ℚ) (place : ℤ) : y / 2 ^ place = 2 * (y / 2 ^ (place + 1)) := by
  rw [zpow_add_one₀ two_ne_zero]
  field_simp

theorem nearest_of_holds (pos : 0 < y) (some : 0 < rank x) (holds : (ofFloat x).Holds y) : nearestRank y = rank x := by
  rcases Binary.exists_canonical some with ⟨mantissa, exponent, canonical, mantissaPos⟩
  rcases (holds_parts canonical mantissaPos).mp holds with ⟨rounds, narrow⟩
  have bounds := rounds.bounds
  have most : (mantissa : ℚ) + 1 ≤ 2 ^ 53 := by exact_mod_cast canonical.most
  by_cases started : exponent = -1074 ∨ (2 : ℚ) ^ 52 ≤ y / 2 ^ exponent
  · have same := lastPlace_eq pos canonical.least (by linarith) started
    rw [nearestRank_pos pos, same, rounds.eq (by positivity)]
    exact canonical.own.symm
  · -- Below its power of two a number is read at the next lower place, and carried up.
    obtain ⟨above, less⟩ := not_or.mp started
    obtain ⟨place, rfl⟩ : ∃ place, exponent = place + 1 := ⟨exponent - 1, by ring⟩
    have atLeast := canonical.full.resolve_left above
    have leading : mantissa = Binary.leadingOne := by
      by_contra other
      have next : (2 : ℚ) ^ 52 + 1 ≤ mantissa := by
        exact_mod_cast (lt_of_le_of_ne atLeast (Ne.symm other) : 2 ^ 52 < mantissa)
      linarith
    have least := canonical.least
    have low := narrow ⟨leading, by omega⟩
    have twice := next_place y place
    have same : lastPlace y = place := lastPlace_eq pos (by omega) (by linarith) (.inr (by linarith))
    have carried : Rounds (y / 2 ^ place) (2 ^ 53) := by
      rw [rounds_even (by decide), twice]
      push_cast
      exact ⟨by linarith, by linarith⟩
    rw [nearestRank_pos pos, same, carried.eq (by positivity), canonical.own, leading]
    simp only [Binary.leadingOne]
    omega

theorem holds_of_nearest (pos : 0 < y) (some : 0 < rank x) (nearest : nearestRank y = rank x) :
    (ofFloat x).Holds y := by
  rcases Binary.exists_canonical some with ⟨mantissa, exponent, canonical, mantissaPos⟩
  have rounds := halfEven_rounds (by positivity : 0 ≤ y / 2 ^ lastPlace y)
  have parts := canonical.parts
  rw [holds_parts canonical mantissaPos]
  rcases (halfEven_bounds pos).1.lt_or_eq with fits | carried
  · rw [← nearest, ofRank_nearest pos fits] at parts
    cases parts
    refine ⟨rounds, ?_⟩
    rintro ⟨_, more⟩
    have started := (scaled_bounds pos).2 more.ne'
    linarith
  · have below := (scaled_bounds pos).1
    have twice := next_place y (lastPlace y)
    rw [← nearest, ofRank_carried pos carried] at parts
    cases parts
    rw [carried, rounds_even (by decide)] at rounds
    rw [rounds_even (by decide)]
    push_cast at rounds ⊢
    exact ⟨⟨by linarith, by linarith⟩, fun _ => by linarith⟩

theorem inside_ofFloat (some : 0 < rank x) : (ofFloat x).Inside ∧ 0 < (ofFloat x).low := by
  rcases Binary.exists_canonical some with ⟨mantissa, exponent, canonical, mantissaPos⟩
  rw [ofFloat_parts canonical, Inside]
  dsimp only
  split_ifs <;> omega

theorem Holds.pos (some : 0 < rank x) (holds : (ofFloat x).Holds y) : 0 < y := by
  have low : (0 : ℚ) < (ofFloat x).low := Nat.cast_pos.mpr (inside_ofFloat some).2
  have scaled : 0 < y / 2 ^ (ofFloat x).unit := by
    unfold Holds at holds
    split_ifs at holds
    · exact low.trans_le holds.1
    · exact low.trans holds.1
  exact (div_pos_iff_of_pos_right (by positivity)).mp scaled

/-- A span holds the numbers that its double is nearest to. -/
theorem holds_iff (some : 0 < rank x) : (ofFloat x).Holds y ↔ 0 < y ∧ nearestRank y = rank x :=
  ⟨fun holds => ⟨holds.pos some, nearest_of_holds (holds.pos some) some holds⟩,
    fun nearest => holds_of_nearest nearest.1 some nearest.2⟩

/-- The steps of the finest grid are shorter than any span. -/
theorem finest_covered (some : 0 < rank x) : ∃ point, (ofFloat x).covers (-324) point = true := by
  rcases Binary.exists_canonical some with ⟨mantissa, exponent, canonical, _⟩
  have inside := (inside_ofFloat some).1
  have least := canonical.least
  apply exists_covered (inside.1.trans inside.2)
  calc
    (10 : ℚ) ^ (-324 : ℤ) < 2 ^ (-1076 : ℤ) := by
      rw [zpow_neg, zpow_neg, inv_lt_inv₀ (by positivity) (by positivity)]
      exact_mod_cast (by decide +kernel : 2 ^ 1076 < 10 ^ 324)
    _ ≤ 2 ^ (exponent - 2) := zpow_le_zpow_right₀ one_le_two (by omega)
    _ = 2 ^ (ofFloat x).unit := by rw [ofFloat_parts canonical]

end

end Span

namespace Scaled

section

variable {x : Float}

theorem shortest_zero (none : rank x = 0) (tie : Tie) : shortest tie x = ⟨0, 0⟩ := by
  rw [shortest, if_pos]
  rw [Binary.ofFloat_rank, none]
  rfl

theorem shortest_finds (some : 0 < rank x) (tie : Tie) {place : ℤ} {point : ℕ} (least : -324 ≤ place)
    (most : place ≤ 309) (covered : (Span.ofFloat x).covers place point = true) :
    place ≤ (shortest tie x).power ∧
      (Span.ofFloat x).Holds ((shortest tie x).coefficient * 10 ^ (shortest tie x).power) := by
  have mantissa : (Binary.ofFloat x).mantissa ≠ 0 := by
    rw [Binary.ofFloat_rank]
    exact (Binary.ofRank_pos some).ne'
  rcases Span.coarsest_finds (Span.inside_ofFloat some).1 tie covered 634 309 most (by omega)
    with ⟨number, found, facts⟩
  rw [shortest, if_neg mantissa, found]
  exact facts

/-- The double is the nearest one to its shortest decimal. -/
theorem shortest_nearest (tie : Tie) (x : Float) :
    nearestRank ((shortest tie x).coefficient * 10 ^ (shortest tie x).power) = rank x := by
  rcases (rank x).eq_zero_or_pos with none | some
  · rw [shortest_zero none, Nat.cast_zero, zero_mul, nearestRank, if_pos rfl, none]
  · rcases Span.finest_covered some with ⟨point, covered⟩
    have holds := (shortest_finds some tie le_rfl (by decide) covered).2
    exact ((Span.holds_iff some).mp holds).2

/-- Any decimal that the double is nearest to has at least as many places as the shortest one. -/
theorem shortest_places {coefficient places : ℕ} (tie : Tie)
    (same : nearestRank (coefficient * 10 ^ (-(places : ℤ))) = rank x) : (-(shortest tie x).power).toNat ≤ places := by
  rcases (rank x).eq_zero_or_pos with none | some
  · rw [shortest_zero none]
    exact Nat.zero_le places
  · have pos : (0 : ℚ) < coefficient * 10 ^ (-(places : ℤ)) := by
      refine lt_of_le_of_ne (by positivity) ?_
      intro zero
      rw [← zero, nearestRank, if_pos rfl] at same
      omega
    rcases Nat.lt_or_ge 324 places with far | near
    · rcases Span.finest_covered some with ⟨point, covered⟩
      have least := (shortest_finds some tie le_rfl (by decide) covered).1
      omega
    · have covered := Span.covers_iff.mpr ((Span.holds_iff some).mpr ⟨pos, same⟩)
      have least := (shortest_finds some tie (by omega) (by omega) covered).1
      omega

end

end Scaled

end Calculator
