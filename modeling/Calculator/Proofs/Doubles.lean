import Calculator.Proofs.Signs

/-!
Doubles in their order. The bits of a magnitude, read as a number, are its rank: each double has the rank behind that
of the next smaller one, and infinity has the last. Only what is not a number ranks above that.
-/

namespace Calculator

open Float.Model Float.Model.UnpackedFloat

def lastRank : Nat := 0x7FF0000000000000

def ranks : Nat := 0x8000000000000000

def rank (x : Float) : Nat :=
  x.toBits.toNat % ranks

namespace Binary

def ofRank (rank : Nat) : Binary where
  mantissa := if rank / leadingOne = 0 then rank else leadingOne + rank % leadingOne
  exponent := (max (rank / leadingOne) 1 : Nat) - 1075

theorem biased_rank (x : Float) : biased x = rank x / leadingOne := by
  have small := x.toBits.toNat_lt
  simp only [biased, rank, leadingOne, ranks]
  omega

theorem fraction_rank (x : Float) : fraction x = rank x % leadingOne := by
  simp only [fraction, rank, leadingOne, ranks]
  omega

theorem ofFloat_rank (x : Float) : ofFloat x = ofRank (rank x) := by
  have own := Nat.div_add_mod (rank x) leadingOne
  simp only [ofFloat, ofRank, biased_rank, fraction_rank, mk.injEq, and_true]
  by_cases none : rank x / leadingOne = 0
  · rw [none, Nat.mul_zero, Nat.zero_add] at own
    rw [if_pos none, if_pos none, own]
  · rw [if_neg none, if_neg none]

theorem ofRank_low {rank : Nat} (low : rank < leadingOne) : ofRank rank = ⟨rank, -1074⟩ := by
  have none := Nat.div_eq_of_lt low
  rw [ofRank, if_pos none, none]
  rfl

theorem ofRank_high {rank : Nat} (high : leadingOne ≤ rank) :
    ofRank rank = ⟨leadingOne + rank % leadingOne, (rank / leadingOne : Nat) - 1075⟩ := by
  have some : 0 < rank / leadingOne := Nat.div_pos high (by decide)
  rw [ofRank, if_neg some.ne', Nat.max_eq_left some]

theorem ofRank_pos {rank : Nat} (pos : 0 < rank) : 0 < (ofRank rank).mantissa := by
  rcases Nat.lt_or_ge rank leadingOne with low | high
  · rwa [ofRank_low low]
  · rw [ofRank_high high]
    exact Nat.add_pos_left (by decide) _

end Binary

def placed (sign : Sign) (rank : Nat) : UnpackedFloat :=
  if rank = lastRank then .infinity sign
  else if pos : 0 < rank then
    .finite sign (Binary.ofRank rank).mantissa (Binary.ofRank rank).exponent (Binary.ofRank_pos pos)
  else .zero sign

theorem placed_finite {sign : Sign} {rank mantissa : Nat} {exponent : Int} (below : rank < lastRank)
    (parts : Binary.ofRank rank = ⟨mantissa, exponent⟩) (pos : 0 < mantissa) :
    placed sign rank = .finite sign mantissa exponent pos := by
  have some : 0 < rank := by
    by_contra none
    rw [Nat.eq_zero_of_not_pos none] at parts
    cases parts
    exact absurd pos (by decide)
  rw [placed, if_neg (Nat.ne_of_lt below), dif_pos some]
  simp only [parts]

section

variable (bits : BitVec Format.binary64.numBits)

theorem toNat_mantissa : (@unpackMantissa .binary64 bits).toNat = bits.toNat % Binary.leadingOne := by
  rw [unpackMantissa_def, BitVec.extractLsb'_toNat, Nat.shiftRight_zero]
  rfl

theorem toNat_exponent : (@unpackExponent .binary64 bits).toNat = bits.toNat / Binary.leadingOne % 0x800 := by
  rw [unpackExponent_def, BitVec.extractLsb'_toNat, Nat.shiftRight_eq_div_pow]
  rfl

theorem toNat_leading (mantissa : BitVec 52) : (1#1 ++ mantissa).toNat = Binary.leadingOne + mantissa.toNat := by
  rw [BitVec.toNat_append, ← Nat.shiftLeft_add_eq_or_of_lt mantissa.isLt]
  rfl

theorem rank_fields : bits.toNat % ranks =
    (@unpackExponent .binary64 bits).toNat * Binary.leadingOne + (@unpackMantissa .binary64 bits).toNat := by
  rw [toNat_mantissa, toNat_exponent]
  simp only [ranks, Binary.leadingOne]
  omega

theorem mantissa_lt : (@unpackMantissa .binary64 bits).toNat < Binary.leadingOne :=
  (unpackMantissa bits).isLt

theorem unpack_last (last : @unpackExponent .binary64 bits = -1#_) (number : bits.toNat % ranks ≤ lastRank) :
    UnpackedFloat.unpack .binary64 bits = placed (.ofBitVec (unpackSign bits)) (bits.toNat % ranks) := by
  have biased : (@unpackExponent .binary64 bits).toNat = 0x7FF := by
    rw [last]
    rfl
  rw [rank_fields, biased] at number ⊢
  have none : (@unpackMantissa .binary64 bits).toNat = 0 := by
    simp only [lastRank, Binary.leadingOne] at number
    omega
  unfold UnpackedFloat.unpack
  dsimp only
  rw [if_pos last, if_pos (BitVec.eq_of_toNat_eq none), none]
  rfl

theorem unpack_first (first : @unpackExponent .binary64 bits = 0#_) :
    UnpackedFloat.unpack .binary64 bits = placed (.ofBitVec (unpackSign bits)) (bits.toNat % ranks) := by
  have biased : (@unpackExponent .binary64 bits).toNat = 0 := by
    rw [first]
    rfl
  have low := mantissa_lt bits
  have notLast : @unpackExponent .binary64 bits ≠ -1#_ := by
    rw [first]
    decide
  rw [rank_fields, biased, Nat.zero_mul, Nat.zero_add]
  unfold UnpackedFloat.unpack
  dsimp only
  rw [if_neg notLast, if_pos first]
  by_cases none : @unpackMantissa .binary64 bits = 0#_
  · rw [dif_pos none, none]
    rfl
  · rw [dif_neg none]
    refine (placed_finite (low.trans (by decide)) ?_ _).symm
    rw [Binary.ofRank_low low, biased]
    rfl

theorem unpack_between (notFirst : @unpackExponent .binary64 bits ≠ 0#_)
    (notLast : @unpackExponent .binary64 bits ≠ -1#_) :
    UnpackedFloat.unpack .binary64 bits = placed (.ofBitVec (unpackSign bits)) (bits.toNat % ranks) := by
  have some : (@unpackExponent .binary64 bits).toNat ≠ 0 := fun same => notFirst (BitVec.eq_of_toNat_eq same)
  have below : (@unpackExponent .binary64 bits).toNat ≠ 0x7FF := fun same => notLast (BitVec.eq_of_toNat_eq same)
  have small : (@unpackExponent .binary64 bits).toNat < 0x800 := (unpackExponent bits).isLt
  have fraction := mantissa_lt bits
  rw [rank_fields]
  unfold UnpackedFloat.unpack
  dsimp only
  rw [if_neg notLast, if_neg notFirst]
  refine (placed_finite ?_ ?_ _).symm
  · simp only [lastRank, Binary.leadingOne] at fraction ⊢
    omega
  · have bias : ((Format.binary64.exponentBias : Int) + Format.binary64.mantissaBitsWithoutImplicit) = 1075 := rfl
    rw [toNat_leading, bias]
    generalize (@unpackMantissa .binary64 bits).toNat = mantissa at fraction ⊢
    generalize (@unpackExponent .binary64 bits).toNat = exponent at some ⊢
    have quotient : (exponent * Binary.leadingOne + mantissa) / Binary.leadingOne = exponent := by
      simp only [Binary.leadingOne] at fraction ⊢
      omega
    have remainder : (exponent * Binary.leadingOne + mantissa) % Binary.leadingOne = mantissa := by
      simp only [Binary.leadingOne] at fraction ⊢
      omega
    rw [Binary.ofRank, quotient, remainder, if_neg some, Nat.max_eq_left (Nat.pos_of_ne_zero some)]

/-- Up to infinity, bits are unpacked to the number of their sign and rank. -/
theorem unpack_placed (number : bits.toNat % ranks ≤ lastRank) :
    UnpackedFloat.unpack .binary64 bits = placed (.ofBitVec (unpackSign bits)) (bits.toNat % ranks) := by
  by_cases last : @unpackExponent .binary64 bits = -1#_
  · exact unpack_last bits last number
  by_cases first : @unpackExponent .binary64 bits = 0#_
  · exact unpack_first bits first
  · exact unpack_between bits first last

end

namespace Binary

/-- A mantissa with all its bits, or with the least exponent, makes up the rank with the exponent. -/
theorem ofRank_parts {mantissa : Nat} {exponent : Int} (least : -1074 ≤ exponent) (most : mantissa < 2 ^ 53)
    (full : exponent = -1074 ∨ leadingOne ≤ mantissa) :
    ofRank ((exponent + 1074).toNat * leadingOne + mantissa) = ⟨mantissa, exponent⟩ := by
  rcases Nat.lt_or_ge ((exponent + 1074).toNat * leadingOne + mantissa) leadingOne with low | high
  · rw [ofRank_low low]
    simp only [leadingOne, mk.injEq] at low full ⊢
    omega
  · rw [ofRank_high high]
    simp only [leadingOne, mk.injEq] at high full ⊢
    omega

/-- A carry out of the mantissa goes into the exponent. -/
theorem rank_carried {exponent : Int} (least : -1074 ≤ exponent) :
    (exponent + 1074).toNat * leadingOne + 2 ^ 53 = (exponent + 1 + 1074).toNat * leadingOne + 2 ^ 52 := by
  simp only [leadingOne]
  omega

/-- The parts of a rank: the mantissa has all its bits, or the exponent is the least of all. -/
structure Canonical (rank mantissa : Nat) (exponent : Int) : Prop where
  parts : ofRank rank = ⟨mantissa, exponent⟩
  own : rank = (exponent + 1074).toNat * leadingOne + mantissa
  least : -1074 ≤ exponent
  most : mantissa < 2 ^ 53
  full : exponent = -1074 ∨ leadingOne ≤ mantissa

theorem exists_canonical {rank : Nat} (some : 0 < rank) :
    ∃ mantissa exponent, Canonical rank mantissa exponent ∧ 0 < mantissa := by
  rcases Nat.lt_or_ge rank leadingOne with low | high
  · exact ⟨rank, -1074, ⟨ofRank_low low, by simp, le_rfl, low.trans (by decide), .inl rfl⟩, some⟩
  · refine ⟨_, _, ⟨ofRank_high high, ?_, ?_, ?_, .inr (Nat.le_add_right _ _)⟩, Nat.add_pos_left (by decide) _⟩ <;>
      · simp only [leadingOne] at high ⊢
        omega

theorem ofRank_lt {low high : Nat} (less : low < high) : (ofRank low).exponent < (ofRank high).exponent ∨
    (ofRank low).exponent = (ofRank high).exponent ∧ (ofRank low).mantissa < (ofRank high).mantissa := by
  rcases Nat.lt_or_ge low leadingOne with first | first
  · rw [ofRank_low first]
    rcases Nat.lt_or_ge high leadingOne with second | second
    · rw [ofRank_low second]
      exact .inr ⟨rfl, less⟩
    · rw [ofRank_high second]
      simp only [leadingOne] at first second ⊢
      omega
  · rw [ofRank_high first, ofRank_high (first.trans less.le)]
    simp only [leadingOne] at first ⊢
    omega

/-- Magnitudes are in the order of their ranks: by the exponent, and by the mantissa where that is the same. -/
theorem compare_ofRank (first second : Nat) :
    (compare (ofRank first).exponent (ofRank second).exponent).then
      (compare (ofRank first).mantissa (ofRank second).mantissa) = compare (first : Int) second := by
  rcases Nat.lt_trichotomy first second with less | rfl | greater
  · rw [Int.compare_eq_lt.mpr (Int.ofNat_lt.mpr less)]
    rcases ofRank_lt less with exponent | ⟨exponent, mantissa⟩
    · rw [Int.compare_eq_lt.mpr exponent]
      rfl
    · rw [Int.compare_eq_eq.mpr exponent, Nat.compare_eq_lt.mpr mantissa]
      rfl
  · rw [Int.compare_eq_eq.mpr rfl, Nat.compare_eq_eq.mpr rfl, Int.compare_eq_eq.mpr rfl]
    rfl
  · rw [Int.compare_eq_gt.mpr (Int.ofNat_lt.mpr greater)]
    rcases ofRank_lt greater with exponent | ⟨exponent, mantissa⟩
    · rw [Int.compare_eq_gt.mpr exponent]
      rfl
    · rw [Int.compare_eq_eq.mpr exponent.symm, Nat.compare_eq_gt.mpr mantissa]
      rfl

end Binary

theorem placed_cases (sign : Sign) {rank : Nat} (number : rank ≤ lastRank) :
    (rank = lastRank ∧ placed sign rank = .infinity sign) ∨ (rank = 0 ∧ placed sign rank = .zero sign) ∨
      ∃ pos : 0 < rank, rank < lastRank ∧ placed sign rank =
        .finite sign (Binary.ofRank rank).mantissa (Binary.ofRank rank).exponent (Binary.ofRank_pos pos) := by
  rcases Nat.lt_or_eq_of_le number with below | rfl
  · rcases Nat.eq_zero_or_pos rank with rfl | pos
    · exact .inr (.inl ⟨rfl, rfl⟩)
    · exact .inr (.inr ⟨pos, below, by rw [placed, if_neg below.ne, dif_pos pos]⟩)
  · exact .inl ⟨rfl, rfl⟩

def signedRank (sign : Sign) (rank : Nat) : Int :=
  match sign with
  | .positive => rank
  | .negative => -rank

/-- Numbers are in the order of their ranks and signs; the two zeros have one rank. -/
theorem compare_placed {first second : Nat} (firstNumber : first ≤ lastRank) (secondNumber : second ≤ lastRank)
    (sign other : Sign) : (placed sign first).compare (placed other second) =
      some (compare (signedRank sign first) (signedRank other second)) := by
  have big : 0 < lastRank := by decide
  -- Only for two finite numbers of one sign is there more to compare than their kinds.
  rcases placed_cases sign firstNumber with ⟨rfl, one⟩ | ⟨rfl, one⟩ | ⟨onePos, oneBelow, one⟩ <;>
    rcases placed_cases other secondNumber with ⟨rfl, two⟩ | ⟨rfl, two⟩ | ⟨twoPos, twoBelow, two⟩ <;>
    rw [one, two] <;> cases sign <;> cases other <;> simp only [UnpackedFloat.compare, signedRank]
  case inr.inr.inr.inr.positive.positive =>
    rw [Binary.compare_ofRank]
  case inr.inr.inr.inr.negative.negative =>
    rw [Binary.compare_ofRank, Int.compare_swap, Int.compare_eq_ite_lt, Int.compare_eq_ite_lt (-_)]
    simp only [Int.neg_lt_neg_iff]
  all_goals first
    | exact congrArg some (Int.compare_eq_lt.mpr (by omega)).symm
    | exact congrArg some (Int.compare_eq_gt.mpr (by omega)).symm
    | exact congrArg some (Int.compare_eq_eq.mpr (by omega)).symm

theorem toNat_packComponents (sign : Sign) (exponent : BitVec 11) (mantissa : BitVec 52) :
    (packComponents .binary64 sign exponent mantissa).toNat =
      sign.toBitVec.toNat * ranks + exponent.toNat * Binary.leadingOne + mantissa.toNat := by
  have below : exponent.toNat < 2 ^ 11 := exponent.isLt
  unfold packComponents
  rw [BitVec.toNat_append, ← Nat.shiftLeft_add_eq_or_of_lt mantissa.isLt, BitVec.toNat_append,
    ← Nat.shiftLeft_add_eq_or_of_lt below, Nat.shiftLeft_eq, Nat.shiftLeft_eq]
  simp only [ranks, Binary.leadingOne]
  omega

section

variable {x y : Float}

def signOf (x : Float) : Sign :=
  if signBit x then .negative else .positive

def order (x : Float) : Int :=
  signedRank (signOf x) (rank x)

theorem unpack_number (number : rank x ≤ lastRank) : x.toModel.unpack = placed (signOf x) (rank x) := by
  rw [signOf, ← signBit_sign]
  exact unpack_placed _ number

theorem unpack_above (above : lastRank < rank x) : x.toModel.unpack = .notANumber := by
  have small : rank x < ranks := Nat.mod_lt _ (by decide)
  have parts : rank x = _ := rank_fields x.toModel.toBits.toBitVec
  have below := mantissa_lt x.toModel.toBits.toBitVec
  have last : @unpackExponent .binary64 x.toModel.toBits.toBitVec = -1#_ := by
    apply BitVec.eq_of_toNat_eq
    change _ = 0x7FF
    simp only [ranks, Binary.leadingOne, lastRank] at *
    omega
  have some : @unpackMantissa .binary64 x.toModel.toBits.toBitVec ≠ 0#_ := by
    intro none
    rw [last, none] at parts
    rw [parts] at above
    exact absurd above (by decide)
  exact unpack_nan (decide_eq_true ⟨last, some⟩)

theorem isFinite_iff : x.isFinite = true ↔ rank x < lastRank := by
  change x.toModel.unpack.isFinite = true ↔ _
  rcases Nat.lt_or_ge lastRank (rank x) with above | number
  · rw [unpack_above above]
    exact iff_of_false Bool.false_ne_true (Nat.not_lt.mpr above.le)
  · rw [unpack_number number]
    rcases placed_cases (signOf x) number with ⟨same, last⟩ | ⟨same, zero⟩ | ⟨_, below, finite⟩
    · rw [last]
      exact iff_of_false Bool.false_ne_true (Nat.not_lt.mpr same.ge)
    · rw [zero, same]
      exact iff_of_true rfl (by decide)
    · rw [finite]
      exact iff_of_true rfl below

theorem isFinite_of (number : x.isNaN = false) (bounded : x.isInf = false) : x.isFinite = true := by
  change x.toModel.unpack.isNaN = false at number
  change x.toModel.unpack.isInf = false at bounded
  change x.toModel.unpack.isFinite = true
  cases unpacked : x.toModel.unpack with
  | notANumber =>
      rw [unpacked] at number
      cases number
  | infinity _ =>
      rw [unpacked] at bounded
      cases bounded
  | zero _ => rfl
  | finite => rfl

theorem compare_number (xNumber : rank x ≤ lastRank) (yNumber : rank y ≤ lastRank) :
    x.toModel.unpack.compare y.toModel.unpack = some (compare (order x) (order y)) := by
  rw [unpack_number xNumber, unpack_number yNumber]
  exact compare_placed xNumber yNumber _ _

theorem compare_above (above : lastRank < rank x ∨ lastRank < rank y) :
    x.toModel.unpack.compare y.toModel.unpack = none := by
  rcases above with above | above
  · rw [unpack_above above]
    rfl
  · rw [unpack_above above]
    cases x.toModel.unpack <;> rfl

theorem le_iff_order : x ≤ y ↔ rank x ≤ lastRank ∧ rank y ≤ lastRank ∧ order x ≤ order y := by
  have meaning : x ≤ y ↔ (x.toModel.unpack.compare y.toModel.unpack).any (·.isLE) = true := by
    change decide (_ = true) = true ↔ _
    exact decide_eq_true_iff
  rw [meaning]
  by_cases numbers : rank x ≤ lastRank ∧ rank y ≤ lastRank
  · rw [compare_number numbers.1 numbers.2, ← Int.compare_ne_gt]
    simp only [Option.any_some, numbers.1, numbers.2, true_and]
    cases compare (order x) (order y) <;> simp
  · have above : lastRank < rank x ∨ lastRank < rank y := by omega
    rw [compare_above above]
    exact iff_of_false Bool.false_ne_true (fun both => numbers ⟨both.1, both.2.1⟩)

theorem beq_iff_order : (x == y) = true ↔ rank x ≤ lastRank ∧ rank y ≤ lastRank ∧ order x = order y := by
  change (x.toModel.unpack.compare y.toModel.unpack == some .eq) = true ↔ _
  by_cases numbers : rank x ≤ lastRank ∧ rank y ≤ lastRank
  · rw [compare_number numbers.1 numbers.2, ← Int.compare_eq_eq]
    simp [numbers.1, numbers.2]
  · have above : lastRank < rank x ∨ lastRank < rank y := by omega
    rw [compare_above above]
    exact iff_of_false Bool.false_ne_true (fun both => numbers ⟨both.1, both.2.1⟩)

def resign (sign : Sign) (x : Float) : Float :=
  Float.ofModel (Float.Model.pack (signed sign x.toModel.unpack))

theorem unpack_resign (sign : Sign) : (resign sign x).toModel.unpack = signed sign x.toModel.unpack :=
  unpack_signed sign x.toModel

theorem float_ext (same : x.toModel.unpack = y.toModel.unpack) : x = y := by
  have models := model_ext same
  cases x
  exact congrArg Float.ofModel models

theorem resign_above (above : lastRank < rank x) (sign : Sign) : resign sign x = x := by
  apply float_ext
  rw [unpack_resign, unpack_above above]
  rfl

theorem pack_signed {bits : BitVec Format.binary64.numBits} (sign : Sign)
    (noNaN : UnpackedFloat.unpack .binary64 bits ≠ .notANumber) :
    UnpackedFloat.pack .binary64 (signed sign (UnpackedFloat.unpack .binary64 bits)) = resigned sign bits := by
  have own : isNaNBits (resigned sign bits) = false := by
    rw [← Bool.not_eq_true]
    intro nan
    have unpacked := unpack_nan nan
    rw [unpack_resigned] at unpacked
    have back := congrArg (signed (.ofBitVec (unpackSign bits))) unpacked
    rw [signed_signed, signed_own] at back
    exact noNaN back
  rw [← unpack_resigned, pack_unpack, own]
  rfl

theorem toNat_resigned (sign : Sign) (bits : BitVec Format.binary64.numBits) :
    (resigned sign bits).toNat = sign.toBitVec.toNat * ranks + bits.toNat % ranks := by
  rw [resigned, toNat_packComponents, toNat_exponent, toNat_mantissa]
  simp only [ranks, Binary.leadingOne]
  omega

theorem toNat_resign (number : rank x ≤ lastRank) (sign : Sign) :
    (resign sign x).toBits.toNat = sign.toBitVec.toNat * ranks + rank x := by
  have noNaN : x.toModel.unpack ≠ .notANumber := by
    rw [unpack_number number]
    rcases placed_cases (signOf x) number with ⟨_, other⟩ | ⟨_, other⟩ | ⟨_, _, other⟩ <;>
      · rw [other]
        simp
  have packed := congrArg BitVec.toNat (pack_signed sign noNaN)
  rw [toNat_resigned] at packed
  exact packed

@[simp]
theorem rank_resign (sign : Sign) (x : Float) : rank (resign sign x) = rank x := by
  rcases Nat.lt_or_ge lastRank (rank x) with above | number
  · rw [resign_above above]
  · have small : rank x < ranks := Nat.mod_lt _ (by decide)
    rw [rank, toNat_resign number, Nat.mul_comm, Nat.mul_add_mod, Nat.mod_eq_of_lt small]

theorem signOf_resign (number : rank x ≤ lastRank) (sign : Sign) : signOf (resign sign x) = sign := by
  have small : rank x < ranks := Nat.mod_lt _ (by decide)
  have bits := toNat_resign number sign
  simp only [ranks] at small bits
  unfold signOf signBit
  cases sign with
  | positive =>
      change _ = 0 * 0x8000000000000000 + _ at bits
      rw [if_neg]
      rw [beq_iff_eq]
      omega
  | negative =>
      change _ = 1 * 0x8000000000000000 + _ at bits
      rw [if_pos]
      rw [beq_iff_eq]
      omega

theorem number_ext (number : rank x ≤ lastRank) (sameRank : rank x = rank y) (sameSign : signOf x = signOf y) :
    x = y := by
  apply float_ext
  rw [unpack_number number, unpack_number (sameRank ▸ number), sameRank, sameSign]

theorem resign_resign (sign other : Sign) (x : Float) : resign sign (resign other x) = resign sign x := by
  apply float_ext
  rw [unpack_resign, unpack_resign, unpack_resign, signed_signed]

theorem resign_own (x : Float) : resign (signOf x) x = x := by
  rcases Nat.lt_or_ge lastRank (rank x) with above | number
  · exact resign_above above _
  · have numbered : rank (resign (signOf x) x) ≤ lastRank := by rwa [rank_resign]
    exact number_ext numbered (rank_resign _ _) (signOf_resign number _)

theorem abs_resign (x : Float) : x.abs = resign .positive x :=
  congrArg (fun number => Float.ofModel (Float.Model.pack number)) (abs_signed x.toModel.unpack)

theorem neg_resign (x : Float) : -x = resign (-signOf x) x := by
  have opposite : x.toModel.unpack.neg = signed (-signOf x) x.toModel.unpack := by
    rcases Nat.lt_or_ge lastRank (rank x) with above | number
    · rw [unpack_above above]
      rfl
    · rw [unpack_number number]
      rcases placed_cases (signOf x) number with ⟨_, kind⟩ | ⟨_, kind⟩ | ⟨_, _, kind⟩ <;>
        · rw [kind]
          rfl
  exact congrArg (fun number => Float.ofModel (Float.Model.pack number)) opposite

theorem order_abs (number : rank x ≤ lastRank) : order x.abs = rank x := by
  rw [abs_resign, order, signOf_resign number, rank_resign]
  rfl

theorem order_neg (number : rank x ≤ lastRank) : order (-x) = -order x := by
  rw [neg_resign, order, signOf_resign number, rank_resign, order]
  cases signOf x with
  | positive => rfl
  | negative => exact (Int.neg_neg _).symm

@[simp]
theorem rank_abs (x : Float) : rank x.abs = rank x := by
  rw [abs_resign, rank_resign]

@[simp]
theorem rank_neg (x : Float) : rank (-x) = rank x := by
  rw [neg_resign, rank_resign]

@[simp]
theorem rank_zero : rank 0 = 0 := by
  decide

@[simp]
theorem order_zero : order 0 = 0 := by
  decide

theorem order_eq_zero : order x = 0 ↔ rank x = 0 := by
  unfold order
  cases signOf x <;> simp [signedRank]

theorem beq_zero_iff : (x == 0) = true ↔ rank x = 0 := by
  rw [beq_iff_order, rank_zero, order_zero, order_eq_zero]
  constructor
  · rintro ⟨_, _, none⟩
    exact none
  · intro none
    exact ⟨none ▸ Nat.zero_le _, Nat.zero_le _, none⟩

theorem signOf_neg (number : rank x ≤ lastRank) : signOf (-x) = -signOf x := by
  rw [neg_resign, signOf_resign number]

theorem signBit_neg (number : rank x ≤ lastRank) : signBit (-x) = !signBit x := by
  have opposite := signOf_neg number
  unfold signOf at opposite
  cases own : signBit x <;> cases other : signBit (-x) <;> rw [own, other] at opposite <;>
    first
      | rfl
      | cases opposite

theorem abs_own (sign : signOf x = .positive) : x.abs = x := by
  rw [abs_resign, ← sign, resign_own]

@[simp]
theorem abs_abs (x : Float) : x.abs.abs = x.abs := by
  rw [abs_resign x.abs, abs_resign x, resign_resign]

@[simp]
theorem abs_neg (x : Float) : (-x).abs = x.abs := by
  rw [abs_resign, abs_resign, neg_resign, resign_resign]

theorem abs_ext (number : rank x ≤ lastRank) (same : rank x = rank y) : x.abs = y.abs := by
  refine number_ext (by rwa [rank_abs]) (by rw [rank_abs, rank_abs, same]) ?_
  rw [abs_resign, abs_resign, signOf_resign number, signOf_resign (same ▸ number)]

theorem abs_eq_zero : x.abs = 0 ↔ rank x = 0 := by
  constructor
  · intro same
    rw [← rank_abs, same, rank_zero]
  · intro none
    rw [abs_ext (none ▸ Nat.zero_le _) (none.trans rank_zero.symm)]
    decide

theorem neg_neg_own (x : Float) : - -x = x := by
  rw [neg_resign (-x), neg_resign x, resign_resign]
  rcases Nat.lt_or_ge lastRank (rank x) with above | number
  · exact resign_above above _
  · have twice : - -signOf x = signOf x := by cases signOf x <;> rfl
    rw [signOf_resign number, twice, resign_own]

theorem le_abs_iff : x.abs ≤ y.abs ↔ rank x ≤ lastRank ∧ rank y ≤ lastRank ∧ rank x ≤ rank y := by
  rw [le_iff_order, rank_abs, rank_abs]
  constructor
  · rintro ⟨first, second, less⟩
    rw [order_abs first, order_abs second] at less
    exact ⟨first, second, Int.ofNat_le.mp less⟩
  · rintro ⟨first, second, less⟩
    rw [order_abs first, order_abs second]
    exact ⟨first, second, Int.ofNat_le.mpr less⟩

theorem zero_le_abs (number : rank x ≤ lastRank) : 0 ≤ x.abs := by
  rw [le_iff_order, rank_zero, order_zero, rank_abs, order_abs number]
  exact ⟨Nat.zero_le _, number, Int.natCast_nonneg _⟩

theorem neg_le_neg (less : x ≤ y) : -y ≤ -x := by
  rw [le_iff_order] at *
  rw [rank_neg, rank_neg, order_neg less.1, order_neg less.2.1]
  exact ⟨less.2.1, less.1, Int.neg_le_neg less.2.2⟩

theorem withSign_cases (x : Float) :
    x = x.abs ∧ (∀ y, withSign y x = y.abs) ∨ x = -x.abs ∧ ∀ y, withSign y x = -y.abs := by
  have own := withSign_abs x
  unfold withSign at own ⊢
  rw [abs_abs] at own
  cases negative : signBit x with
  | true =>
      rw [negative, if_pos rfl] at own
      exact .inr ⟨own.symm, fun _ => if_pos rfl⟩
  | false =>
      rw [negative, if_neg Bool.false_ne_true] at own
      exact .inl ⟨own.symm, fun _ => if_neg Bool.false_ne_true⟩

theorem withSign_neg (number : rank x ≤ lastRank) (y : Float) : withSign y (-x) = -withSign y x := by
  unfold withSign
  rw [signBit_neg number]
  cases signBit x with
  | true => exact (neg_neg_own y.abs).symm
  | false => rfl

end

end Calculator
