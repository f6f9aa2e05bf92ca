import Calculator.Arithmetic.Binary
import Mathlib

/-!
The sign of a double is one bit, and nothing else of the number depends on it.
-/

namespace Calculator

open Float.Model Float.Model.UnpackedFloat

def signed (sign : Sign) : UnpackedFloat → UnpackedFloat
  | .notANumber => .notANumber
  | .infinity _ => .infinity sign
  | .zero _ => .zero sign
  | .finite _ mantissa exponent positive => .finite sign mantissa exponent positive

theorem signed_signed (first second : Sign) (number : UnpackedFloat) :
    signed first (signed second number) = signed first number := by
  cases number <;> rfl

theorem abs_signed (number : UnpackedFloat) : number.abs = signed .positive number := by
  cases number <;> rfl

theorem neg_signed (number : UnpackedFloat) : (signed .positive number).neg = signed .negative number := by
  cases number <;> rfl

section

variable {spec : Float.Model.Format}

def resigned (sign : Sign) (bits : BitVec spec.numBits) : BitVec spec.numBits :=
  packComponents spec sign (unpackExponent bits) (unpackMantissa bits)

theorem unpack_resigned (sign : Sign) (bits : BitVec spec.numBits) :
    unpack spec (resigned sign bits) = signed sign (unpack spec bits) := by
  simp only [resigned, UnpackedFloat.unpack, unpackSign_packComponents, unpackExponent_packComponents,
    unpackMantissa_packComponents, Sign.ofBitVec_toBitVec]
  split_ifs <;> rfl

theorem signed_own (bits : BitVec spec.numBits) :
    signed (.ofBitVec (unpackSign bits)) (unpack spec bits) = unpack spec bits := by
  rw [← unpack_resigned, resigned, packComponents_unpackSign_unpackExponent_unpackMantissa]

theorem unpack_nan {bits : BitVec spec.numBits} (nan : isNaNBits bits = true) :
    UnpackedFloat.unpack spec bits = .notANumber := by
  have parts := of_decide_eq_true nan
  simp [UnpackedFloat.unpack, parts.1, parts.2]

theorem unpack_pack_signed (wide : 2 ≤ spec.exponentBits) (sign : Sign) (bits : BitVec spec.numBits) :
    UnpackedFloat.unpack spec (UnpackedFloat.pack spec (signed sign (UnpackedFloat.unpack spec bits))) =
      signed sign (UnpackedFloat.unpack spec bits) := by
  rw [← unpack_resigned, pack_unpack _ wide]
  split
  · next nan => rw [unpack_packedNaN, unpack_nan nan]
  · rfl

end

theorem unpack_signed (sign : Sign) (number : Float.Model) :
    (Float.Model.pack (signed sign number.unpack)).unpack = signed sign number.unpack :=
  unpack_pack_signed (by decide) sign _

theorem model_ext {first second : Float.Model} (same : first.unpack = second.unpack) : first = second := by
  have bits := (unpack_inj_of_valid first.valid second.valid (by decide)).mp same
  cases first
  cases second
  cases UInt64.toBitVec_inj.mp bits
  rfl

theorem signBit_sign (x : Float) :
    .ofBitVec (@unpackSign .binary64 x.toModel.toBits.toBitVec) =
      if signBit x then Sign.negative else .positive := by
  have small := x.toBits.toNat_lt
  have value : (@unpackSign .binary64 x.toModel.toBits.toBitVec).toNat = x.toBits.toNat / 2 ^ 63 := by
    rw [unpackSign_def, BitVec.extractLsb'_toNat, Nat.shiftRight_eq_div_pow]
    exact Nat.mod_eq_of_lt (by change x.toBits.toNat / 2 ^ 63 < 2 ^ 1; omega)
  unfold Sign.ofBitVec signBit
  by_cases high : x.toBits.toNat / 2 ^ 63 = 1
  · have set : @unpackSign .binary64 x.toModel.toBits.toBitVec ≠ 0#1 := by
      intro zero
      rw [zero, high] at value
      cases value
    rw [if_neg set, if_pos (by simpa using high)]
  · have clear : @unpackSign .binary64 x.toModel.toBits.toBitVec = 0#1 := by
      apply BitVec.eq_of_toNat_eq
      rw [value, BitVec.toNat_zero]
      omega
    rw [if_pos clear, if_neg (by simpa using high)]

theorem unpack_abs (x : Float) : x.abs.toModel.unpack = signed .positive x.toModel.unpack := by
  change (Float.Model.pack x.toModel.unpack.abs).unpack = _
  rw [abs_signed, unpack_signed]

theorem unpack_neg_abs (x : Float) : (-x.abs).toModel.unpack = signed .negative x.toModel.unpack := by
  change (Float.Model.pack x.abs.toModel.unpack.neg).unpack = _
  rw [unpack_abs, neg_signed, unpack_signed]

theorem unpack_own (x : Float) :
    signed (if signBit x then .negative else .positive) x.toModel.unpack = x.toModel.unpack := by
  rw [← signBit_sign]
  exact signed_own _

theorem withSign_abs (x : Float) : withSign x.abs x = x := by
  have own := unpack_own x
  have same : (withSign x.abs x).toModel = x.toModel := by
    apply model_ext
    unfold withSign
    cases negative : signBit x with
    | true =>
        rw [negative] at own
        have twice : (-x.abs.abs).toModel.unpack = signed .negative x.abs.toModel.unpack := unpack_neg_abs x.abs
        rw [if_pos rfl, twice, unpack_abs, signed_signed]
        exact own
    | false =>
        rw [negative] at own
        have twice := unpack_abs x.abs
        rw [if_neg (by simp), twice, unpack_abs, signed_signed]
        exact own
  cases x
  exact congrArg Float.ofModel same

end Calculator
