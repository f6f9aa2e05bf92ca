import Calculator.Decimal.Scaled
import Calculator.Proofs.Nearest

/-!
What packing makes of a mantissa and an exponent: the double nearest to their value. So are the product and the
quotient of two doubles, and the double of a decimal.
-/

namespace Calculator

open Float.Model Float.Model.UnpackedFloat

/-- The mantissa is the whole part, and the two bits tell whether the rest is a half, less or more. -/
def Represents (extended : ExtendedMantissa) (x : ℚ) : Prop :=
  match extended.roundBit, extended.stickyBit with
  | false, false => x = extended.mantissa
  | false, true => extended.mantissa < x ∧ x < extended.mantissa + 1 / 2
  | true, false => x = extended.mantissa + 1 / 2
  | true, true => extended.mantissa + 1 / 2 < x ∧ x < extended.mantissa + 1

theorem ofMantissaAndAccuracy_mantissa (mantissa : ℕ) (accuracy : Accuracy) :
    (ExtendedMantissa.ofMantissaAndAccuracy mantissa accuracy).mantissa = mantissa := by
  rcases accuracy with _ | _ | _ | _ <;> rfl

namespace Represents

variable {extended : ExtendedMantissa} {x : ℚ}

theorem bounds (represents : Represents extended x) : extended.mantissa ≤ x ∧ x < extended.mantissa + 1 := by
  rcases extended with ⟨mantissa, _ | _, _ | _⟩ <;> simp only [Represents] at represents
  · rw [represents]
    exact ⟨le_rfl, by linarith⟩
  · exact ⟨by linarith, by linarith⟩
  · rw [represents]
    exact ⟨by linarith, by linarith⟩
  · exact ⟨by linarith, by linarith⟩

theorem floor (represents : Represents extended x) : ⌊x⌋₊ = extended.mantissa := by
  have bounds := represents.bounds
  rw [Nat.floor_eq_iff ((Nat.cast_nonneg _).trans bounds.1)]
  exact bounds

theorem rounded (represents : Represents extended x) : extended.roundedMantissa = halfEven x := by
  have floor := represents.floor
  unfold halfEven
  rw [floor]
  rcases extended with ⟨mantissa, _ | _, _ | _⟩ <;> simp only [Represents] at represents
  · rw [represents, if_pos (by norm_num)]
    rfl
  · rw [if_pos (by linarith)]
    rfl
  · rw [represents, if_neg (by linarith), if_pos (by ring)]
    rfl
  · rw [if_neg (by linarith), if_neg (by linarith)]
    rfl

theorem shiftRightOne (represents : Represents extended x) : Represents extended.shiftRightOne (x / 2) := by
  have halves : (extended.mantissa : ℚ) = 2 * (extended.mantissa / 2 : ℕ) + (extended.mantissa % 2 : ℕ) := by
    exact_mod_cast (Nat.div_add_mod extended.mantissa 2).symm
  rcases extended with ⟨mantissa, round, sticky⟩
  rcases Nat.mod_two_eq_zero_or_one mantissa with even | odd
  · simp only [even, Nat.cast_zero, add_zero] at halves
    cases round <;> cases sticky <;>
      simp only [Represents, ExtendedMantissa.shiftRightOne, even, bne_self_eq_false, Bool.or_false,
        Bool.or_true] at represents ⊢
    · linarith
    all_goals constructor <;> linarith
  · have set : (1 != 0) = true := rfl
    simp only [odd, Nat.cast_one] at halves
    cases round <;> cases sticky <;>
      simp only [Represents, ExtendedMantissa.shiftRightOne, odd, set, Bool.or_false, Bool.or_true] at represents ⊢
    · linarith
    all_goals constructor <;> linarith

theorem shiftRight (represents : Represents extended x) (count : ℕ) :
    Represents (extended >>> count) (x / 2 ^ count) := by
  change Represents (count.repeat ExtendedMantissa.shiftRightOne extended) _
  induction count with
  | zero =>
      rw [pow_zero, div_one]
      exact represents
  | succ count ih =>
      rw [pow_succ, ← div_div]
      exact ih.shiftRightOne

theorem exact (mantissa : ℕ) :
    Represents (.ofMantissaAndAccuracy mantissa .exact) mantissa :=
  rfl

/-- A quotient with the accuracy that its remainder stands for. -/
theorem quotient (dividend : ℕ) {divisor : ℕ} (pos : 0 < divisor) :
    Represents (.ofMantissaAndAccuracy (dividend / divisor) (accuracyOfFraction (dividend % divisor) divisor))
      (dividend / divisor) := by
  have positive : (0 : ℚ) < divisor := Nat.cast_pos.mpr pos
  have below : ((dividend % divisor : ℕ) : ℚ) < divisor := by exact_mod_cast Nat.mod_lt dividend pos
  have parts : (dividend : ℚ) / divisor = (dividend / divisor : ℕ) + (dividend % divisor : ℕ) / divisor := by
    have whole : (dividend : ℚ) = divisor * (dividend / divisor : ℕ) + (dividend % divisor : ℕ) := by
      exact_mod_cast (Nat.div_add_mod dividend divisor).symm
    field_simp
    linarith
  rw [parts]
  generalize dividend / divisor = whole
  generalize dividend % divisor = rest at *
  have least : (rest : ℚ) / divisor < 1 := (div_lt_one positive).mpr below
  unfold accuracyOfFraction
  by_cases none : rest = 0
  · rw [if_pos none, none, Nat.cast_zero, zero_div, add_zero]
    exact .exact whole
  · have some : (0 : ℚ) < rest / divisor := by
      have more : (0 : ℚ) < rest := Nat.cast_pos.mpr (Nat.pos_of_ne_zero none)
      positivity
    rw [if_neg none]
    rcases Nat.lt_trichotomy (2 * rest) divisor with less | half | more
    · have below : (rest : ℚ) / divisor < 1 / 2 := by
        rw [div_lt_div_iff₀ positive two_pos]
        exact_mod_cast (by omega : rest * 2 < 1 * divisor)
      have low : (whole : ℚ) < whole + rest / divisor := by linarith
      have high : whole + (rest : ℚ) / divisor < whole + 1 / 2 := by linarith
      rw [Nat.compare_eq_lt.mpr less]
      exact ⟨low, high⟩
    · have same : (rest : ℚ) / divisor = 1 / 2 := by
        rw [div_eq_div_iff positive.ne' two_ne_zero]
        exact_mod_cast (by omega : rest * 2 = 1 * divisor)
      rw [Nat.compare_eq_eq.mpr half, same]
      rfl
    · have above : 1 / 2 < (rest : ℚ) / divisor := by
        rw [div_lt_div_iff₀ two_pos positive]
        exact_mod_cast (by omega : 1 * divisor < rest * 2)
      have low : (whole : ℚ) + 1 / 2 < whole + rest / divisor := by linarith
      have high : whole + (rest : ℚ) / divisor < whole + 1 := by linarith
      rw [Nat.compare_eq_gt.mpr more]
      exact ⟨low, high⟩

end Represents

theorem targetExponent_eq (exponent : ℤ) :
    Format.binary64.targetExponent exponent = max (exponent - 53) (-1074) := by
  simp only [Format.targetExponent]
  rfl

section

variable {mantissa : ℕ} {exponent : ℤ}

theorem shift_small (small : mantissa < 2 ^ 53) (least : -1074 ≤ exponent) :
    shiftToTargetExponent .binary64 mantissa exponent .exact = (⟨mantissa, false, false⟩, exponent) := by
  have bits : mantissa.log2 ≤ 52 := by
    rcases mantissa.eq_zero_or_pos with rfl | pos
    · decide
    · exact Nat.lt_succ_iff.mp ((Nat.log2_lt pos.ne').mpr small)
  have none : (Format.binary64.targetExponent (totalExponent mantissa exponent) - exponent).toNat = 0 := by
    rw [targetExponent_eq, totalExponent]
    omega
  simp only [shiftToTargetExponent, shiftToExponent, none, Nat.cast_zero, add_zero]
  rfl

theorem shift_carry (least : -1074 ≤ exponent) :
    shiftToTargetExponent .binary64 (2 ^ 53) exponent .exact = (⟨2 ^ 52, false, false⟩, exponent + 1) := by
  have one : (Format.binary64.targetExponent (totalExponent (2 ^ 53) exponent) - exponent).toNat = 1 := by
    rw [targetExponent_eq, totalExponent, Nat.log2_two_pow]
    omega
  simp only [shiftToTargetExponent, shiftToExponent, one, Nat.cast_one]
  rfl

theorem pack_finite (pos : 0 < mantissa) (small : mantissa < 2 ^ 53) (least : -1074 ≤ exponent)
    (canonical : exponent = -1074 ∨ 2 ^ 52 ≤ mantissa) :
    (UnpackedFloat.pack .binary64 (.finite .positive mantissa exponent pos)).toNat =
      min ((exponent + 1074).toNat * Binary.leadingOne + mantissa) lastRank := by
  have bias : exponent + (Format.binary64.exponentBias : ℤ) + Format.binary64.mantissaBitsWithoutImplicit =
      exponent + 1075 := by
    change exponent + 1023 + 52 = _
    ring
  unfold UnpackedFloat.pack
  simp only [bias]
  split
  · next large =>
      change 2048 ≤ _ at large
      change 0x7FF0000000000000 = _
      rw [Nat.min_eq_right]
      · rfl
      · simp only [lastRank, Binary.leadingOne]
        omega
  · next fits =>
      change ¬ 2048 ≤ _ at fits
      have below : (exponent + 1074).toNat * Binary.leadingOne + mantissa ≤ lastRank := by
        simp only [lastRank, Binary.leadingOne]
        omega
      rw [Nat.min_eq_left below]
      split
      · next normal =>
          have bits : mantissa.log2 = 52 := Nat.succ_injective normal
          have leading : 2 ^ 52 ≤ mantissa := bits ▸ Nat.log2_self_le pos.ne'
          rw [toNat_packComponents, BitVec.toNat_ofNat, BitVec.toNat_ofNat]
          change 0 * _ + _ % 2048 * _ + mantissa % 2 ^ 52 = _
          simp only [Binary.leadingOne]
          omega
      · next subnormal =>
          have low : mantissa < 2 ^ 52 := by
            rw [← Nat.log2_lt pos.ne']
            have bits := (Nat.log2_lt pos.ne').mpr small
            change ¬ mantissa.log2 + 1 = 53 at subnormal
            omega
          have place : exponent = -1074 := canonical.resolve_right (Nat.not_le.mpr low)
          rw [toNat_packComponents, BitVec.toNat_ofNat, place]
          change 0 * _ + 0 * _ + mantissa % 2 ^ 52 = 0 * _ + _
          rw [Nat.mod_eq_of_lt low]
          omega

/-- Where the places of the result are as coarse as those that are read, packing gives the nearest double. -/
theorem pack_round {accuracy : Accuracy} {x : ℚ} (exponent : ℤ)
    (represents : Represents (.ofMantissaAndAccuracy mantissa accuracy) x) (pos : 0 < x)
    (target : Format.binary64.targetExponent (totalExponent mantissa exponent) = lastPlace (x * 2 ^ exponent))
    (coarse : exponent ≤ lastPlace (x * 2 ^ exponent)) :
    (UnpackedFloat.pack .binary64 (roundWithAccuracy .binary64 .positive mantissa exponent accuracy)).toNat =
      min (nearestRank (x * 2 ^ exponent)) lastRank := by
  have positive : 0 < x * 2 ^ exponent := by positivity
  have least : -1074 ≤ lastPlace (x * 2 ^ exponent) := le_max_right _ _
  have bounds := halfEven_bounds positive
  have whole : exponent + ((lastPlace (x * 2 ^ exponent) - exponent).toNat : ℤ) = lastPlace (x * 2 ^ exponent) := by
    omega
  have shifted : (shiftToTargetExponent .binary64 mantissa exponent accuracy).2 = lastPlace (x * 2 ^ exponent) := by
    simp only [shiftToTargetExponent, shiftToExponent, target]
    exact whole
  have rounded : (shiftToTargetExponent .binary64 mantissa exponent accuracy).1.roundedMantissa =
      halfEven (x * 2 ^ exponent / 2 ^ lastPlace (x * 2 ^ exponent)) := by
    have scaled : x / 2 ^ (lastPlace (x * 2 ^ exponent) - exponent).toNat =
        x * 2 ^ exponent / 2 ^ lastPlace (x * 2 ^ exponent) := by
      generalize lastPlace (x * 2 ^ exponent) = place at whole ⊢
      rw [← whole, zpow_add₀ two_ne_zero, add_sub_cancel_left, Int.toNat_natCast, zpow_natCast]
      field_simp
    rw [← scaled]
    simp only [shiftToTargetExponent, shiftToExponent, target]
    exact (represents.shiftRight _).rounded
  rw [nearestRank_pos positive]
  unfold roundWithAccuracy
  simp only [shifted, rounded]
  generalize halfEven (x * 2 ^ exponent / 2 ^ lastPlace (x * 2 ^ exponent)) = count at *
  generalize lastPlace (x * 2 ^ exponent) = place at *
  rcases bounds.1.lt_or_eq with small | rfl
  · simp only [shift_small small least]
    rcases count.eq_zero_or_pos with rfl | some
    · have first : place = -1074 := by
        by_contra more
        exact absurd (bounds.2 more) (by decide)
      rw [dif_pos rfl, first]
      rfl
    · rw [dif_neg some.ne']
      exact pack_finite some small least (or_iff_not_imp_left.mpr bounds.2)
  · simp only [shift_carry least]
    rw [Binary.rank_carried least]
    exact pack_finite (by decide) (by decide) (by omega) (.inr le_rfl)

end

section

variable {x y : ℚ} {exponent : ℤ}

/-- The whole part of a number decides its last place, unless it is zero. -/
theorem target_floor {mantissa : ℕ} (exponent : ℤ) (floor : ⌊x⌋₊ = mantissa) (some : 0 < mantissa) :
    Format.binary64.targetExponent (totalExponent mantissa exponent) = lastPlace (x * 2 ^ exponent) := by
  have one : 1 ≤ x := Nat.floor_pos.mp (floor ▸ some)
  have low := Nat.log2_self_le some.ne'
  have high := @Nat.lt_log2_self mantissa
  have atLeast : (2 : ℚ) ^ mantissa.log2 ≤ x := by
    calc
      (2 : ℚ) ^ mantissa.log2 ≤ mantissa := by exact_mod_cast low
      _ ≤ x := floor ▸ Nat.floor_le (zero_le_one.trans one)
  have below : x < 2 ^ (mantissa.log2 + 1) := by
    have next : (mantissa : ℚ) + 1 ≤ 2 ^ (mantissa.log2 + 1) := by exact_mod_cast high
    exact (Nat.lt_floor_add_one x).trans_le (floor ▸ next)
  have unit : (0 : ℚ) < 2 ^ exponent := by positivity
  have log : Int.log 2 (x * 2 ^ exponent) = mantissa.log2 + exponent := by
    apply log_eq
    · rw [← two_pow_zpow]
      exact mul_le_mul_of_nonneg_right atLeast unit.le
    · rw [show (mantissa.log2 : ℤ) + exponent + 1 = (mantissa.log2 + 1 : ℕ) + exponent by push_cast; ring,
        ← two_pow_zpow]
      exact mul_lt_mul_of_pos_right below unit
  rw [targetExponent_eq, totalExponent, lastPlace, log]
  omega

theorem value_natural (count : ℕ) : Binary.value ⟨count, 0⟩ = count := by
  rw [Binary.value, zpow_zero, mul_one]

theorem value_shifted (count bits : ℕ) : Binary.value ⟨count <<< bits, -(bits : ℤ)⟩ = count := by
  rw [Binary.value, Nat.shiftLeft_eq, zpow_neg, zpow_natCast]
  push_cast
  field_simp

theorem shifted_pos {count : ℕ} (pos : 0 < count) (bits : ℕ) : 0 < count <<< bits := by
  rw [Nat.shiftLeft_eq]
  positivity

theorem pack_mul {first second : Binary} (firstPos : 0 < first.mantissa) (secondPos : 0 < second.mantissa)
    (coarse : first.exponent + second.exponent ≤ lastPlace (first.value * second.value)) :
    (UnpackedFloat.pack .binary64 (UnpackedFloat.mul .binary64
      (.finite .positive first.mantissa first.exponent firstPos)
      (.finite .positive second.mantissa second.exponent secondPos))).toNat =
      min (nearestRank (first.value * second.value)) lastRank := by
  have some := Nat.mul_pos firstPos secondPos
  have product : first.value * second.value =
      ((first.mantissa * second.mantissa : ℕ) : ℚ) * 2 ^ (first.exponent + second.exponent) := by
    rw [Binary.value, Binary.value, zpow_add₀ two_ne_zero]
    push_cast
    ring
  rw [product] at coarse ⊢
  exact pack_round _ (.exact _) (Nat.cast_pos.mpr some) (target_floor _ (Nat.floor_natCast _) some) coarse

theorem quotient_log {first second : Binary} (firstPos : 0 < first.mantissa) (secondPos : 0 < second.mantissa) :
    totalExponent first.mantissa first.exponent - totalExponent second.mantissa second.exponent - 1 ≤
      Int.log 2 (first.value / second.value) := by
  have low : (2 : ℚ) ^ first.mantissa.log2 ≤ first.mantissa := by exact_mod_cast Nat.log2_self_le firstPos.ne'
  have high : (second.mantissa : ℚ) < 2 ^ (second.mantissa.log2 + 1) := by exact_mod_cast Nat.lt_log2_self
  have positive : (0 : ℚ) < second.mantissa := Nat.cast_pos.mpr secondPos
  have firstPositive : (0 : ℚ) < first.mantissa := Nat.cast_pos.mpr firstPos
  have valuePos : 0 < first.value / second.value := by
    unfold Binary.value
    positivity
  apply le_log valuePos
  unfold totalExponent Binary.value
  rw [le_div_iff₀ (by positivity)]
  generalize first.mantissa.log2 = firstBits at *
  generalize second.mantissa.log2 = secondBits at *
  generalize scale : (firstBits : ℤ) + 1 + first.exponent - (secondBits + 1 + second.exponent) - 1 = bits
  calc
    (2 : ℚ) ^ bits * (second.mantissa * 2 ^ second.exponent) ≤
        2 ^ bits * (2 ^ (secondBits + 1) * 2 ^ second.exponent) := by gcongr
    _ = 2 ^ firstBits * 2 ^ first.exponent := by
      rw [two_pow_zpow, two_pow_zpow, ← zpow_add₀ two_ne_zero]
      congr 1
      push_cast
      omega
    _ ≤ first.mantissa * 2 ^ first.exponent := by gcongr

theorem pack_div {first second : Binary} (firstPos : 0 < first.mantissa) (secondPos : 0 < second.mantissa) :
    (UnpackedFloat.pack .binary64 (UnpackedFloat.div .binary64
      (.finite .positive first.mantissa first.exponent firstPos)
      (.finite .positive second.mantissa second.exponent secondPos))).toNat =
      min (nearestRank (first.value / second.value)) lastRank := by
  have log := quotient_log firstPos secondPos
  rcases first with ⟨dividend, above⟩
  rcases second with ⟨divisor, below⟩
  unfold UnpackedFloat.div divCore
  dsimp only at firstPos secondPos log ⊢
  rw [targetExponent_eq]
  generalize totalExponent dividend above - totalExponent divisor below = total at *
  generalize target : min (above - below) (max (total - 53) (-1074)) = place
  -- The dividend is moved until it is read in units of this place.
  have moved : ((above - below - place).toNat : ℤ) + place = above - below := by omega
  generalize (above - below - place).toNat = bits at moved
  rw [Nat.shiftLeft_eq]
  have represents := Represents.quotient (dividend * 2 ^ bits) secondPos
  have same : ((dividend * 2 ^ bits : ℕ) : ℚ) / divisor * 2 ^ place =
      Binary.value ⟨dividend, above⟩ / Binary.value ⟨divisor, below⟩ := by
    have scaled : (2 : ℚ) ^ bits * 2 ^ place = 2 ^ above / 2 ^ below := by
      rw [two_pow_zpow, moved, zpow_sub₀ two_ne_zero]
    unfold Binary.value
    push_cast
    calc
      (dividend : ℚ) * 2 ^ bits / divisor * 2 ^ place = dividend / divisor * (2 ^ bits * 2 ^ place) := by ring
      _ = dividend * 2 ^ above / (divisor * 2 ^ below) := by
        rw [scaled]
        field_simp
  have pos : 0 < ((dividend * 2 ^ bits : ℕ) : ℚ) / divisor := by positivity
  have coarse : place ≤ lastPlace (((dividend * 2 ^ bits : ℕ) : ℚ) / divisor * 2 ^ place) := by
    rw [same, lastPlace]
    omega
  rw [← same] at log ⊢
  refine pack_round _ represents pos ?_ coarse
  rcases (dividend * 2 ^ bits / divisor).eq_zero_or_pos with none | some
  · -- Nothing is left above the last place only where that is the least of all.
    have bounds := represents.bounds.2
    rw [ofMantissaAndAccuracy_mantissa, none, Nat.cast_zero, zero_add] at bounds
    have less : ((dividend * 2 ^ bits : ℕ) : ℚ) / divisor * 2 ^ place < 2 ^ place :=
      mul_lt_of_lt_one_left (by positivity) bounds
    have small := log_lt (by positivity) less
    rw [none, targetExponent_eq, totalExponent, lastPlace, Nat.log2_zero]
    push_cast at log small ⊢
    omega
  · refine target_floor _ ?_ some
    rw [represents.floor, ofMantissaAndAccuracy_mantissa]

end

structure Leading (number : Binary) (y : ℚ) : Prop where
  value : number.value = y
  leading : 2 ^ 52 ≤ number.mantissa

theorem Leading.coarse {first second : Binary} {x y : ℚ} (firstLeading : Leading first x)
    (secondLeading : Leading second y) :
    first.exponent + second.exponent ≤ lastPlace (first.value * second.value) := by
  have firstLow : (2 : ℚ) ^ 52 ≤ first.mantissa := by exact_mod_cast firstLeading.leading
  have secondLow : (1 : ℚ) ≤ second.mantissa := by
    exact_mod_cast (Nat.one_le_two_pow.trans secondLeading.leading)
  have atLeast : (2 : ℚ) ^ ((52 : ℕ) + (first.exponent + second.exponent)) ≤ first.value * second.value := by
    rw [← two_pow_zpow, zpow_add₀ two_ne_zero, Binary.value, Binary.value]
    calc
      (2 : ℚ) ^ 52 * (2 ^ first.exponent * 2 ^ second.exponent) ≤
          first.mantissa * second.mantissa * (2 ^ first.exponent * 2 ^ second.exponent) := by
        gcongr
        nlinarith
      _ = _ := by ring
  have log := le_log (lt_of_lt_of_le (by positivity) atLeast) atLeast
  unfold lastPlace
  omega

section

variable {x : Float}

theorem rank_of_bits {bits : ℕ} (same : x.toBits.toNat = min bits lastRank) :
    rank x = min bits lastRank ∧ signOf x = .positive := by
  have small : x.toBits.toNat < ranks := same ▸ (min_le_right _ _).trans_lt (by decide)
  constructor
  · rw [rank, Nat.mod_eq_of_lt small, same]
  · unfold signOf signBit
    rw [if_neg]
    rw [beq_iff_eq]
    simp only [ranks] at small
    omega

theorem unpack_finite (pos : 0 < rank x) (below : rank x < lastRank) (sign : signOf x = .positive) :
    x.toModel.unpack = .finite .positive (Binary.ofRank (rank x)).mantissa (Binary.ofRank (rank x)).exponent
      (Binary.ofRank_pos pos) := by
  rw [unpack_number below.le, sign]
  exact placed_finite below rfl (Binary.ofRank_pos pos)

theorem natural_place {count : ℕ} (pos : 0 < count) (small : count < 2 ^ 53) :
    lastPlace count = -((52 - count.log2 : ℕ) : ℤ) := by
  have bits : count.log2 < 53 := (Nat.log2_lt pos.ne').mpr small
  rw [lastPlace, Int.log_natCast, ← Nat.log2_eq_log_two]
  omega

theorem natural_bits {count : ℕ} (pos : 0 < count) (small : count < 2 ^ 53) :
    count.toUInt64.toFloat.toBits.toNat = min (nearestRank count) lastRank := by
  have own : count.toUInt64.toNat = count := Nat.mod_eq_of_lt (small.trans (by decide))
  have target : Format.binary64.targetExponent (totalExponent count 0) = lastPlace count := by
    have floor := target_floor 0 (Nat.floor_natCast (R := ℚ) count) pos
    rwa [zpow_zero, mul_one] at floor
  have place := natural_place pos small
  generalize 52 - count.log2 = shift at place
  have some := shifted_pos pos shift
  have same : ((count <<< shift : ℕ) : ℚ) * 2 ^ (-(shift : ℤ)) = count := value_shifted count shift
  have rounds := pack_round (-(shift : ℤ)) (.exact (count <<< shift)) (Nat.cast_pos.mpr some)
    (target_floor _ (Nat.floor_natCast _) some) (by rw [same, place])
  rw [same] at rounds
  have decreased : decreaseExponent count 0 (lastPlace count) = (count <<< shift, -(shift : ℤ)) := by
    rw [decreaseExponent, place]
    simp
  rw [← rounds]
  change (UnpackedFloat.pack .binary64 (UnpackedFloat.normalize .binary64 count.toUInt64.toNat 0 .positive)).toNat = _
  rw [own, UnpackedFloat.normalize, Int.compare_eq_gt.mpr (Int.natCast_pos.mpr pos)]
  simp only [Int.toNat_natCast, UnpackedFloat.round, target, decreased]

/-- A whole number of no more than the bits of a mantissa is a double itself. -/
theorem natural_leading {count : ℕ} (pos : 0 < count) (small : count < 2 ^ 53) :
    ∃ number, ∃ some : 0 < number.mantissa, Leading number count ∧
      count.toUInt64.toFloat.toModel.unpack = .finite .positive number.mantissa number.exponent some := by
  have positive : (0 : ℚ) < count := Nat.cast_pos.mpr pos
  have place := natural_place pos small
  have whole : (count : ℚ) / 2 ^ lastPlace count = (count * 2 ^ (52 - count.log2) : ℕ) := by
    rw [place, zpow_neg, zpow_natCast, div_inv_eq_mul]
    push_cast
    rfl
  have high : Binary.leadingOne ≤ nearestRank count ∧ nearestRank count < lastRank := by
    have bound := (halfEven_bounds positive).1
    rw [nearestRank_pos positive]
    generalize halfEven (count / 2 ^ lastPlace count) = rounded at bound
    rw [place]
    simp only [Binary.leadingOne, lastRank]
    omega
  have placed := rank_of_bits (natural_bits pos small)
  rw [Nat.min_eq_left high.2.le] at placed
  have some : 0 < nearestRank count := lt_of_lt_of_le (by decide) high.1
  refine ⟨Binary.ofRank (nearestRank count), Binary.ofRank_pos some, ⟨value_exact positive whole, ?_⟩, ?_⟩
  · rw [Binary.ofRank_high high.1]
    exact Nat.le_add_right _ _
  · rw [unpack_number (placed.1 ▸ high.2.le), placed.1, placed.2]
    exact placed_finite high.2 rfl (Binary.ofRank_pos some)

theorem value_whole {number : Binary} {whole : ℕ}
    (same : number.mantissa * 2 ^ number.exponent.toNat = whole * 2 ^ (-number.exponent).toNat) :
    number.value = whole := by
  have cast : (number.mantissa : ℚ) * 2 ^ number.exponent.toNat = whole * 2 ^ (-number.exponent).toNat := by
    exact_mod_cast same
  unfold Binary.value
  rcases number.exponent.eq_nat_or_neg with ⟨places, up | down⟩
  · rw [up] at cast ⊢
    simpa using cast
  · rw [down] at cast ⊢
    rw [zpow_neg, zpow_natCast, ← div_eq_mul_inv, div_eq_iff (by positivity)]
    simpa using cast

def storedPower (power : ℕ) (small : power < Float.exactlyRepresentablePowersOfTen.size) : Float :=
  Float.exactlyRepresentablePowersOfTen[power]

theorem stored_powers : ∀ power : Fin 23,
    let bits := (storedPower power power.isLt).toBits.toNat
    let number := Binary.ofRank bits
    Binary.leadingOne ≤ bits ∧ bits < lastRank ∧
      number.mantissa * 2 ^ number.exponent.toNat = 10 ^ power.val * 2 ^ (-number.exponent).toNat := by
  decide +kernel

/-- The powers of ten that are stored are doubles. -/
theorem power_leading {power : ℕ} (small : power < 23) :
    ∃ number, ∃ some : 0 < number.mantissa, Leading number ((10 ^ power : ℕ) : ℚ) ∧
      (storedPower power small).toModel.unpack =
        .finite .positive number.mantissa number.exponent some := by
  have high := stored_powers ⟨power, small⟩
  dsimp only at high
  generalize stored : storedPower power small = x at high
  have placed := rank_of_bits (Nat.min_eq_left high.2.1.le).symm
  rw [Nat.min_eq_left high.2.1.le] at placed
  rw [← placed.1] at high
  have some : 0 < rank x := lt_of_lt_of_le (by decide) high.1
  refine ⟨Binary.ofRank (rank x), Binary.ofRank_pos some, ⟨?_, ?_⟩, unpack_finite some high.2.1 placed.2⟩
  · exact value_whole high.2.2
  · rw [Binary.ofRank_high high.1]
    exact Nat.le_add_right _ _

end

section

variable {coefficient : ℕ} {power : ℤ}

theorem ten_zpow (power : ℤ) : (10 : ℚ) ^ power =
    if power < 0 then ((10 ^ power.natAbs : ℕ) : ℚ)⁻¹ else ((10 ^ power.natAbs : ℕ) : ℚ) := by
  by_cases down : power < 0
  · have same : power = -(power.natAbs : ℤ) := by omega
    rw [if_pos down]
    conv_lhs => rw [same, zpow_neg, zpow_natCast]
    push_cast
    rfl
  · have same : power = (power.natAbs : ℤ) := by omega
    rw [if_neg down]
    conv_lhs => rw [same, zpow_natCast]
    push_cast
    rfl

theorem quick_bits (pos : 0 < coefficient) (small : coefficient < 2 ^ 53) (few : power.natAbs < 23) :
    let stored := storedPower power.natAbs few
    (if power < 0 then coefficient.toUInt64.toFloat / stored else coefficient.toUInt64.toFloat * stored).toBits.toNat =
      min (nearestRank (coefficient * 10 ^ power)) lastRank := by
  rcases natural_leading pos small with ⟨first, firstPos, firstLeading, firstUnpacked⟩
  rcases power_leading few with ⟨second, secondPos, secondLeading, secondUnpacked⟩
  intro stored
  rw [ten_zpow]
  split
  · have quotient := pack_div firstPos secondPos
    rw [← firstUnpacked, ← secondUnpacked, firstLeading.value, secondLeading.value] at quotient
    exact quotient
  · have product := pack_mul firstPos secondPos (firstLeading.coarse secondLeading)
    rw [← firstUnpacked, ← secondUnpacked, firstLeading.value, secondLeading.value] at product
    exact product

/-- A whole number and a power of ten have a product of at least one. -/
theorem digits_coarse (pos : 0 < coefficient) (digits : ℕ) :
    -((53 : ℕ) : ℤ) + 0 ≤ lastPlace (coefficient * (10 ^ digits : ℕ)) := by
  have one : 1 ≤ coefficient * 10 ^ digits := Nat.mul_pos pos (Nat.pow_pos (by decide))
  have atLeast : (2 : ℚ) ^ (0 : ℤ) ≤ coefficient * (10 ^ digits : ℕ) := by
    rw [zpow_zero]
    exact_mod_cast one
  have log := le_log (lt_of_lt_of_le (by positivity) atLeast) atLeast
  unfold lastPlace
  omega

theorem long_bits (pos : 0 < coefficient) (high : power ≤ 400) (low : -400 ≤ power + coefficient.log2) :
    (UnpackedFloat.pack .binary64 (UnpackedFloat.ofScientific .binary64 coefficient power)).toNat =
      min (nearestRank (coefficient * 10 ^ power)) lastRank := by
  have notHigh : ¬ power > 2 ^ Format.binary64.exponentBits := by
    change ¬ power > 2048
    omega
  have notLow : ¬ power < -((2 ^ Format.binary64.exponentBits : Int) + coefficient.log2) := by
    change ¬ power < -(2048 + _)
    omega
  unfold UnpackedFloat.ofScientific
  rw [dif_neg pos.ne', if_neg notHigh, if_neg notLow, ten_zpow]
  split
  · next up =>
      have digits : power.natAbs = power.toNat := by omega
      have coarse := digits_coarse pos power.toNat
      rw [← value_shifted coefficient 53, ← value_natural (10 ^ power.toNat)] at coarse
      have product := @pack_mul ⟨coefficient <<< 53, -((53 : ℕ) : ℤ)⟩ ⟨10 ^ power.toNat, 0⟩ (shifted_pos pos 53)
        (Nat.pow_pos (by decide)) coarse
      rw [value_shifted, value_natural] at product
      rw [if_neg (Int.not_lt.mpr up), digits]
      exact product
  · next down =>
      have digits : power.natAbs = (-power).toNat := by omega
      have quotient := @pack_div ⟨coefficient, 0⟩ ⟨10 ^ (-power).toNat, 0⟩ pos (Nat.pow_pos (by decide))
      rw [value_natural, value_natural, div_eq_mul_inv] at quotient
      rw [if_pos (Int.not_le.mp down), digits]
      exact quotient

theorem scientific_bits (pos : 0 < coefficient) (high : power ≤ 400) (low : -400 ≤ power + coefficient.log2) :
    (Float.ofScientific coefficient (power < 0) power.natAbs).toBits.toNat =
      min (nearestRank (coefficient * 10 ^ power)) lastRank := by
  unfold Float.ofScientific
  by_cases quick : coefficient < 2 ^ 53 ∧ power.natAbs ≤ 22
  · rw [dif_pos quick, ← quick_bits pos quick.1 (Nat.lt_succ_of_le quick.2)]
    simp only [decide_eq_true_eq]
    rfl
  · have same : (if decide (power < 0) = true then Int.negOfNat power.natAbs else Int.ofNat power.natAbs) = power := by
      split
      · next down =>
          have negative := of_decide_eq_true down
          rw [Int.negOfNat_eq, Int.ofNat_eq_natCast]
          omega
      · next up =>
          have positive : ¬ power < 0 := fun negative => up (decide_eq_true negative)
          rw [Int.ofNat_eq_natCast]
          omega
    rw [dif_neg quick, ← long_bits pos high low]
    simp only [same]
    rfl

theorem beyond (pos : 0 < coefficient) (high : 400 < power) : (2 : ℚ) ^ 1024 ≤ coefficient * 10 ^ power := by
  have one : (1 : ℚ) ≤ coefficient := by exact_mod_cast pos
  calc
    (2 : ℚ) ^ 1024 ≤ 10 ^ (400 : ℕ) := by exact_mod_cast (by decide +kernel : 2 ^ 1024 ≤ 10 ^ 400)
    _ = 10 ^ (400 : ℤ) := (zpow_natCast _ _).symm
    _ ≤ 10 ^ power := zpow_le_zpow_right₀ (by norm_num) high.le
    _ ≤ coefficient * 10 ^ power := le_mul_of_one_le_left (by positivity) one

theorem vanishing (low : power + coefficient.log2 < -400) :
    (coefficient : ℚ) * 10 ^ power < 2 ^ (-1075 : ℤ) := by
  have digits : (coefficient : ℚ) < 10 ^ (coefficient.log2 + 1) := by
    have bits : coefficient < 10 ^ (coefficient.log2 + 1) :=
      Nat.lt_log2_self.trans_le (Nat.pow_le_pow_left (by decide) _)
    exact_mod_cast bits
  calc
    (coefficient : ℚ) * 10 ^ power < 10 ^ (coefficient.log2 + 1) * 10 ^ power :=
      mul_lt_mul_of_pos_right digits (by positivity)
    _ = 10 ^ ((coefficient.log2 + 1 : ℕ) + power) := by rw [zpow_add₀ (by norm_num), zpow_natCast]
    _ ≤ 10 ^ (-400 : ℤ) := zpow_le_zpow_right₀ (by norm_num) (by push_cast; omega)
    _ ≤ 2 ^ (-1075 : ℤ) := by
      rw [zpow_neg, zpow_neg, inv_le_inv₀ (by positivity) (by positivity)]
      exact_mod_cast (by decide +kernel : 2 ^ 1075 ≤ 10 ^ 400)

/-- The double of a decimal is the nearest one, and infinity from the last rank on. -/
theorem nearest_bits (number : Scaled) :
    number.nearest.toBits.toNat = min (nearestRank (number.coefficient * 10 ^ number.power)) lastRank := by
  rcases number with ⟨coefficient, power⟩
  unfold Scaled.nearest
  dsimp only
  split
  · next none =>
      rw [none, Nat.cast_zero, zero_mul, nearestRank, if_pos rfl]
      decide
  · next some =>
      have pos := Nat.pos_of_ne_zero some
      split
      · next high =>
          rw [Nat.min_eq_right (nearestRank_large (beyond pos high))]
          decide
      · next high =>
          split
          · next low =>
              rw [nearestRank_small (by positivity) (vanishing low)]
              decide
          · next low => exact scientific_bits pos (by omega) (by omega)

/-- A double that is read is a magnitude, with the rank of the nearest one. -/
theorem nearest_rank (number : Scaled) :
    rank number.nearest = min (nearestRank (number.coefficient * 10 ^ number.power)) lastRank ∧
      signOf number.nearest = .positive :=
  rank_of_bits (nearest_bits number)

theorem abs_nearest (number : Scaled) : number.nearest.abs = number.nearest :=
  abs_own (nearest_rank number).2

end

end Calculator
