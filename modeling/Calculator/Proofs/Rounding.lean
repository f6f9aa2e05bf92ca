import Calculator.Decimal.Rounding
import Calculator.Proofs.Literals
import Calculator.Proofs.Signs
import Mathlib

/-!
Rounding through the written decimal. The digits that are kept, and one more at the last place if the first digit that
is dropped is a five or above, are the decimal rounded to its nearest neighbour, halves up. A carry goes through the
nines before it, and the point keeps its place.
-/

namespace Calculator

namespace Digits

variable {digits : List Nat}

theorem value_ofDigits (digits : List Nat) : value digits = Nat.ofDigits 10 digits.reverse := by
  rw [value, Nat.ofDigits_eq_foldr, List.foldr_reverse]
  congr
  funext sum digit
  exact Nat.add_comm _ _

theorem value_append (first second : List Nat) :
    value (first ++ second) = value first * 10 ^ second.length + value second := by
  simp only [value_ofDigits, List.reverse_append, Nat.ofDigits_append, List.length_reverse]
  ring

theorem value_cons (digit : Nat) (rest : List Nat) :
    value (digit :: rest) = digit * 10 ^ rest.length + value rest := by
  have front : value [digit] = digit := by simp [value]
  rw [← List.singleton_append, value_append, front]

theorem value_lt (digital : ∀ digit ∈ digits, digit < 10) : value digits < 10 ^ digits.length := by
  have below := @Nat.ofDigits_lt_base_pow_length 10 digits.reverse (by decide) (by simpa using digital)
  rwa [← value_ofDigits, List.length_reverse] at below

structure Bumped (digits : List Nat) (bumped : Bool × List Nat) : Prop where
  length : bumped.2.length = digits.length
  digital : (∀ digit ∈ digits, digit < 10) → ∀ digit ∈ bumped.2, digit < 10
  value : (if bumped.1 then 10 ^ digits.length else 0) + Digits.value bumped.2 = Digits.value digits + 1

/-- A carry goes on through nines and ends at any other digit. -/
theorem bump_bumped (digits : List Nat) : Bumped digits (bump digits) := by
  induction digits with
  | nil => exact ⟨rfl, fun _ => by simp [bump], rfl⟩
  | cons digit rest ih =>
      rcases carried : bump rest with ⟨carry, tail⟩
      rw [carried] at ih
      rcases ih with ⟨length, digital, more⟩
      cases carry with
      | false =>
          simp only [bump, carried]
          refine ⟨congrArg (· + 1) length, ?_, ?_⟩
          · simp only [List.forall_mem_cons]
            exact fun all => ⟨all.1, digital all.2⟩
          · simp only [value_cons, length, Bool.false_eq_true, if_false] at more ⊢
            omega
      | true =>
          by_cases nine : digit = 9
          · simp only [bump, carried, nine, if_true]
            refine ⟨congrArg (· + 1) length, ?_, ?_⟩
            · simp only [List.forall_mem_cons]
              exact fun all => ⟨by decide, digital all.2⟩
            · simp only [value_cons, length, List.length_cons, pow_succ, if_true] at more ⊢
              omega
          · simp only [bump, carried, nine, if_false]
            refine ⟨congrArg (· + 1) length, ?_, ?_⟩
            · simp only [List.forall_mem_cons]
              exact fun all => ⟨by omega, digital all.2⟩
            · simp only [value_cons, length, Bool.false_eq_true, if_false, if_true, Nat.add_mul] at more ⊢
              omega

theorem toChar_digit {digit : Nat} (small : digit < 10) :
    (toChar digit).isDigit = true ∧ ofChar (toChar digit) = digit := by
  revert digit
  decide

theorem toText_digits (digital : ∀ digit ∈ digits, digit < 10) :
    ∀ char ∈ toText digits, char.isDigit = true := by
  intro char member
  rcases List.mem_map.mp member with ⟨digit, inside, rfl⟩
  exact (toChar_digit (digital digit inside)).1

theorem ofChar_toText (digital : ∀ digit ∈ digits, digit < 10) : (toText digits).map ofChar = digits := by
  rw [toText, List.map_map]
  calc
    digits.map (ofChar ∘ toChar) = digits.map id :=
      List.map_congr_left fun digit member => (toChar_digit (digital digit member)).2
    _ = digits := List.map_id digits

theorem ofNat_digits (number : Nat) : ofNat number ≠ [] ∧ ∀ digit ∈ ofNat number, digit < 10 := by
  fun_induction ofNat number with
  | case1 number small => simpa using small
  | case2 number large ih =>
      refine ⟨by simp, ?_⟩
      simp only [List.forall_mem_append, List.forall_mem_singleton]
      exact ⟨ih.2, Nat.mod_lt _ (by decide)⟩

theorem value_ofNat (number : Nat) : value (ofNat number) = number := by
  fun_induction ofNat number with
  | case1 number small => simp [value]
  | case2 number large ih =>
      have last : value [number % 10] = number % 10 := by simp [value]
      rw [value_append, ih, last, List.length_singleton, pow_one]
      omega

theorem value_zeros (count : Nat) : value (List.replicate count 0) = 0 := by
  induction count with
  | zero => rfl
  | succ count ih => rw [List.replicate_succ, value_cons, ih, Nat.zero_mul]

end Digits

structure Plain.Valid (decimal : Plain) : Prop where
  nonempty : decimal.whole ≠ []
  digital : ∀ digit ∈ decimal.digits, digit < 10

namespace Plain

variable {decimal : Plain} {places : Nat}

def number (decimal : Plain) : ℚ :=
  Digits.value decimal.digits / 10 ^ decimal.fraction.length

theorem Valid.whole (valid : decimal.Valid) : ∀ digit ∈ decimal.whole, digit < 10 :=
  fun digit member => valid.digital digit (List.mem_append_left _ member)

theorem Valid.fraction (valid : decimal.Valid) : ∀ digit ∈ decimal.fraction, digit < 10 :=
  fun digit member => valid.digital digit (List.mem_append_right _ member)

def toLiteral (decimal : Plain) : Literal where
  whole := Digits.toText decimal.whole
  fraction := if decimal.fraction.isEmpty then none else some (Digits.toText decimal.fraction)
  exponent := none

theorem toLiteral_toText (decimal : Plain) : decimal.toLiteral.toText = decimal.toText := by
  rcases decimal with ⟨whole, _ | ⟨first, rest⟩⟩ <;>
    simp [toLiteral, toText, Literal.toText, Literal.fractionText]

theorem Valid.toLiteral (valid : decimal.Valid) : decimal.toLiteral.Valid := by
  refine ⟨Digits.toText_digits valid.whole, ?_, ?_, ?_⟩
  · intro fraction present
    simp only [Plain.toLiteral] at present
    split at present
    · cases present
    · cases present
      exact Digits.toText_digits valid.fraction
  · have some := valid.nonempty
    simp [Literal.digits, Plain.toLiteral, Digits.toText, some]
  · intro exponent none
    cases none

theorem digits_no_point {digits : List Nat} (digital : ∀ digit ∈ digits, digit < 10) :
    ∀ char ∈ Digits.toText digits, (char != '.') = true := by
  intro char member
  have digit := Digits.toText_digits digital char member
  rw [bne_iff_ne]
  rintro rfl
  cases digit

theorem ofText_toText (valid : decimal.Valid) : ofText decimal.toText = decimal := by
  have noPoint := digits_no_point valid.whole
  have wholeRead := Digits.ofChar_toText valid.whole
  have fractionRead := Digits.ofChar_toText valid.fraction
  rcases decimal with ⟨whole, _ | ⟨first, rest⟩⟩
  · simp only [ofText, toText]
    rw [List.takeWhile_eq_self_iff.mpr noPoint, List.dropWhile_eq_nil_iff.mpr noPoint, wholeRead]
    rfl
  · simp only [ofText, toText]
    rw [List.takeWhile_append_of_pos noPoint, List.dropWhile_append_of_pos noPoint,
      List.takeWhile_cons_of_neg (by decide), List.dropWhile_cons_of_neg (by decide), List.append_nil,
      wholeRead, List.tail_cons, fractionRead]

theorem pointed_digits (size : Nat) (digits : List Nat) : (pointed size digits).digits = digits :=
  List.take_append_drop size digits

/-- With as many digits behind the point as there were places. -/
theorem pointed_valid {size : Nat} {digits : List Nat} (some : 0 < size) (length : digits.length = size + places)
    (digital : ∀ digit ∈ digits, digit < 10) :
    (pointed size digits).Valid ∧ (pointed size digits).fraction.length = places := by
  refine ⟨⟨?_, ?_⟩, ?_⟩
  · intro nothing
    have empty := congrArg List.length nothing
    simp only [pointed, List.length_take, List.length_nil] at empty
    omega
  · rwa [pointed_digits]
  · rw [pointed, List.length_drop]
    omega

theorem kept_length (more : places < decimal.fraction.length) :
    (decimal.kept places).length = decimal.whole.length + places := by
  rw [kept, List.length_append, List.length_take]
  omega

theorem Valid.kept (valid : decimal.Valid) (places : Nat) : ∀ digit ∈ decimal.kept places, digit < 10 := by
  intro digit member
  rcases List.mem_append.mp member with whole | fraction
  · exact valid.whole digit whole
  · exact valid.fraction digit (List.mem_of_mem_take fraction)

/-- What rounding leaves: the point stays, and what is kept grows by one if the first dropped digit is a five or
above. -/
theorem round_kept (valid : decimal.Valid) (more : places < decimal.fraction.length) :
    (decimal.round places more).Valid ∧ (decimal.round places more).fraction.length = places ∧
      Digits.value (decimal.round places more).digits =
        Digits.value (decimal.kept places) + if decimal.fraction[places] < 5 then 0 else 1 := by
  have some : 0 < decimal.whole.length := List.length_pos_iff.mpr valid.nonempty
  have length := kept_length more
  have digital := valid.kept places
  have bumped := Digits.bump_bumped (decimal.kept places)
  unfold round
  by_cases low : decimal.fraction[places] < 5
  · have point := pointed_valid some length digital
    rw [if_pos low, if_pos low, pointed_digits]
    exact ⟨point.1, point.2, rfl⟩
  · rw [if_neg low, if_neg low]
    rcases carried : Digits.bump (decimal.kept places) with ⟨carry, digits⟩
    rw [carried] at bumped
    have grown := bumped.value
    cases carry with
    | false =>
        have point := pointed_valid some (bumped.length.trans length) (bumped.digital digital)
        simp only [Bool.false_eq_true, if_false, Nat.zero_add] at grown
        exact ⟨point.1, point.2, (congrArg Digits.value (pointed_digits _ _)).trans grown⟩
    | true =>
        have longer : (1 :: digits).length = decimal.whole.length + 1 + places := by
          rw [List.length_cons, bumped.length, length]
          omega
        have point := pointed_valid (Nat.succ_pos _) longer
          (List.forall_mem_cons.mpr ⟨by decide, bumped.digital digital⟩)
        refine ⟨point.1, point.2, ?_⟩
        calc
          _ = Digits.value (1 :: digits) := congrArg Digits.value (pointed_digits _ _)
          _ = 10 ^ (decimal.kept places).length + Digits.value digits := by
            rw [Digits.value_cons, Nat.one_mul, bumped.length]
          _ = Digits.value (decimal.kept places) + 1 := grown

/-- The decimal as what is kept, the first dropped digit, and what that is dropped with. -/
theorem digits_cut (more : places < decimal.fraction.length) :
    decimal.digits = decimal.kept places ++ decimal.fraction[places] :: decimal.fraction.drop (places + 1) := by
  rw [digits, kept, List.append_assoc, ← List.drop_eq_getElem_cons more, List.take_append_drop]

/-- Half a unit more reaches the next unit just from the digit five on. -/
theorem half_carries {kept digit rest unit : Nat} (small : digit < 10) (below : rest < unit) :
    (kept * (10 * unit) + (digit * unit + rest) + 5 * unit) / (10 * unit) =
      kept + if digit < 5 then 0 else 1 := by
  have nine := Nat.mul_le_mul_right unit (Nat.le_of_lt_succ small)
  by_cases low : digit < 5
  · have four := Nat.mul_le_mul_right unit (Nat.le_of_lt_succ low)
    rw [if_pos low, Nat.add_zero]
    apply Nat.div_eq_of_lt_le
    · omega
    · rw [Nat.add_mul]
      omega
  · have five := Nat.mul_le_mul_right unit (Nat.le_of_not_lt low)
    rw [if_neg low]
    apply Nat.div_eq_of_lt_le
    · rw [Nat.add_mul]
      omega
    · rw [Nat.add_mul, Nat.add_mul]
      omega

theorem round_number (valid : decimal.Valid) (more : places < decimal.fraction.length) :
    (decimal.round places more).number = ⌊decimal.number * 10 ^ places + 1 / 2⌋ / 10 ^ places := by
  rcases round_kept valid more with ⟨_, length, value⟩
  have rest : ∀ digit ∈ decimal.fraction.drop (places + 1), digit < 10 := fun digit member =>
    valid.fraction digit (List.mem_of_mem_drop member)
  have below := Digits.value_lt rest
  have small := valid.fraction _ (List.getElem_mem more)
  -- In units of the last place, everything but the number itself is whole.
  have cut := congrArg Digits.value (digits_cut more)
  rw [Digits.value_append, Digits.value_cons, List.length_cons, pow_succ'] at cut
  have size : decimal.fraction.length = places + ((decimal.fraction.drop (places + 1)).length + 1) := by
    rw [List.length_drop]
    omega
  generalize (decimal.fraction.drop (places + 1)).length = behind at *
  have carries := @half_carries (Digits.value (decimal.kept places)) _ _ _ small below
  rw [← cut, ← value] at carries
  have shifted : decimal.number * 10 ^ places + 1 / 2 =
      ((Digits.value decimal.digits + 5 * 10 ^ behind : ℕ) : ℚ) / ((10 * 10 ^ behind : ℕ) : ℚ) := by
    rw [number, size, pow_add, pow_succ']
    push_cast
    field_simp
    ring
  rw [shifted, Rat.floor_natCast_div_natCast, ← Int.natCast_div, carries, number, length, Int.cast_natCast]

theorem short_number (short : decimal.fraction.length ≤ places) :
    decimal.number = ⌊decimal.number * 10 ^ places + 1 / 2⌋ / 10 ^ places := by
  have whole : decimal.number * 10 ^ places =
      ((Digits.value decimal.digits * 10 ^ (places - decimal.fraction.length) : ℕ) : ℚ) := by
    have size : places = decimal.fraction.length + (places - decimal.fraction.length) := by omega
    generalize places - decimal.fraction.length = others at *
    rw [number, size, pow_add]
    push_cast
    field_simp
  have half : ⌊(1 / 2 : ℚ)⌋ = 0 := by norm_num
  have floor : (⌊decimal.number * 10 ^ places + 1 / 2⌋ : ℚ) = decimal.number * 10 ^ places := by
    rw [whole, Int.floor_natCast_add, half, add_zero, Int.cast_natCast]
  rw [floor]
  field_simp

def rounded (decimal : Plain) (places : Nat) : Plain :=
  if more : places < decimal.fraction.length then decimal.round places more else decimal

theorem rounded_valid (valid : decimal.Valid) (places : Nat) : (decimal.rounded places).Valid := by
  unfold rounded
  split
  · next more => exact (round_kept valid more).1
  · exact valid

theorem rounded_number (valid : decimal.Valid) (places : Nat) :
    (decimal.rounded places).number = ⌊decimal.number * 10 ^ places + 1 / 2⌋ / 10 ^ places := by
  unfold rounded
  split
  · next more => exact round_number valid more
  · next short => exact short_number (Nat.le_of_not_lt short)

theorem ofScaled_valid (number : Scaled) : (ofScaled number).Valid := by
  rcases Digits.ofNat_digits number.coefficient with ⟨nonempty, digital⟩
  have some := List.length_pos_iff.mpr nonempty
  unfold ofScaled
  split
  · refine ⟨by simp [nonempty], ?_⟩
    simp only [digits, List.append_nil, List.forall_mem_append]
    exact ⟨digital, by simp⟩
  · dsimp only
    split
    · next split =>
        exact (pointed_valid (Nat.sub_pos_of_lt split) (Nat.sub_add_cancel (Nat.le_of_lt split)).symm digital).1
    · refine ⟨by simp, ?_⟩
      simp only [digits, List.forall_mem_append]
      exact ⟨by simp, by simp, digital⟩

theorem ofScaled_places (number : Scaled) : (ofScaled number).fraction.length = (-number.power).toNat := by
  unfold ofScaled
  split
  · next whole =>
      rw [List.length_nil]
      omega
  · dsimp only
    split
    · rw [List.length_drop]
      omega
    · rw [List.length_append, List.length_replicate]
      omega

theorem ofScaled_value (number : Scaled) :
    Digits.value (ofScaled number).digits = number.coefficient * 10 ^ number.power.toNat := by
  have own := Digits.value_ofNat number.coefficient
  unfold ofScaled
  split
  · rw [digits, List.append_nil, Digits.value_append, own, List.length_replicate, Digits.value_zeros, Nat.add_zero]
  · next part =>
      have none : number.power.toNat = 0 := by omega
      rw [none, pow_zero, Nat.mul_one]
      dsimp only
      split
      · rw [digits, List.take_append_drop, own]
      · rw [digits, ← List.append_assoc, Digits.value_append, own, List.singleton_append, ← List.replicate_succ,
          Digits.value_zeros, Nat.zero_mul, Nat.zero_add]

theorem ofScaled_number (number : Scaled) :
    (ofScaled number).number = number.coefficient * (10 : ℚ) ^ number.power := by
  rw [Plain.number, ofScaled_value, ofScaled_places]
  rcases number.power.eq_nat_or_neg with ⟨places, whole | part⟩
  · rw [whole]
    simp
  · rw [part]
    simp [div_eq_mul_inv]

theorem toLiteral_digits (decimal : Plain) : decimal.toLiteral.digits = Digits.toText decimal.digits ∧
    (decimal.toLiteral.fraction.getD []).length = decimal.fraction.length := by
  rcases decimal with ⟨whole, _ | ⟨first, rest⟩⟩ <;>
    simp [toLiteral, Literal.digits, digits, Digits.toText]

theorem toLiteral_number (valid : decimal.Valid) :
    (decimal.toLiteral.toScaled.coefficient : ℚ) * 10 ^ decimal.toLiteral.toScaled.power = decimal.number := by
  have parts := toLiteral_digits decimal
  have power : decimal.toLiteral.toScaled.power = -(decimal.fraction.length : ℤ) := by
    rw [Literal.toScaled, parts.2]
    exact Int.zero_sub _
  have coefficient : decimal.toLiteral.toScaled.coefficient = Digits.value decimal.digits := by
    rw [Literal.toScaled, parts.1, Digits.read, Digits.ofChar_toText valid.digital]
  rw [power, coefficient, number, zpow_neg, zpow_natCast, div_eq_mul_inv]

theorem number_nonneg : 0 ≤ decimal.number := by
  unfold number
  positivity

theorem number_scaled (decimal : Plain) :
    decimal.number = Digits.value decimal.digits * 10 ^ (-(decimal.fraction.length : ℤ)) := by
  rw [number, zpow_neg, zpow_natCast, div_eq_mul_inv]

end Plain

/-- Numbers are printed as plain decimals and all plain decimals are read, and a magnitude with the sign that it was
taken from is the number again. -/
class Printed.Lawful (Value : Type) [Printed Value] : Prop where
  prints : ∀ value : Value, Printed.isFinite value = true →
    ∃ decimal : Plain, decimal.Valid ∧ Printed.print (Printed.abs value) = decimal.toText
  reads : ∀ {decimal : Plain}, decimal.Valid →
    ∃ magnitude : Value, Printed.read? decimal.toText = some magnitude
  signs : ∀ value : Value, Printed.isFinite value = true → Printed.withSign (Printed.abs value) value = value

instance : Printed.Lawful Float where
  prints x _ := ⟨_, Plain.ofScaled_valid (Scaled.shortest .up x.abs), rfl⟩
  reads := by
    intro decimal valid
    have read := Literal.read?_toText valid.toLiteral
    rw [Plain.toLiteral_toText] at read
    exact ⟨decimal.toLiteral.toFloat, congrArg (Option.map Literal.toFloat) read⟩
  signs x _ := withSign_abs x

/-- A number is rounded to its decimal, halves up, whatever carries there are; the text of that is a plain decimal again,
and is read. The sign is that of the number unless digits were dropped and what is left is zero. -/
theorem decimal_rounded {Value : Type} [Printed Value] [Printed.Lawful Value] {value : Value} {decimal : Plain}
    (finite : Printed.isFinite value = true) (valid : decimal.Valid)
    (printed : Printed.print (Printed.abs value) = decimal.toText)
    (back : Printed.read? decimal.toText = some (Printed.abs value)) (places : Nat) :
    (decimal.rounded places).Valid ∧
    (decimal.rounded places).number = ⌊decimal.number * 10 ^ places + 1 / 2⌋ / 10 ^ places ∧
    ∃ magnitude, Printed.read? (decimal.rounded places).toText = some magnitude ∧
      roundHalfUp places value =
        if places < decimal.fraction.length ∧ Printed.isZero magnitude = true then Printed.zero
        else Printed.withSign magnitude value := by
  refine ⟨Plain.rounded_valid valid places, Plain.rounded_number valid places, ?_⟩
  unfold roundHalfUp
  rw [finite, printed, Plain.ofText_toText valid]
  simp only [Bool.not_true, Bool.false_eq_true, if_false]
  by_cases more : places < decimal.fraction.length
  · rcases @Printed.Lawful.reads Value _ _ _ (Plain.rounded_valid valid places) with ⟨magnitude, read⟩
    refine ⟨magnitude, read, ?_⟩
    rw [Plain.rounded, dif_pos more] at read
    simp only [more, dif_pos, read, true_and]
  · have short : decimal.rounded places = decimal := dif_neg more
    refine ⟨Printed.abs value, by rw [short, back], ?_⟩
    simp only [more, dif_neg, not_false_eq_true, false_and, if_false]
    exact (Printed.Lawful.signs value finite).symm

/-- A half with nothing but nines before it. -/
theorem decimal_rounded_nines : roundHalfUp 0 (-99.5 : Float) = -100 ∧
    (Plain.number ⟨[1, 0, 0], []⟩ = ⌊Plain.number ⟨[9, 9], [5]⟩ * 10 ^ 0 + 1 / 2⌋ / 10 ^ 0) := by
  have valid : Plain.Valid ⟨[9, 9], [5]⟩ := ⟨by decide, by decide⟩
  rcases @decimal_rounded Float _ _ (-99.5) ⟨[9, 9], [5]⟩ (by decide +kernel) valid (by decide +kernel)
    (by decide +kernel) 0 with ⟨_, number, magnitude, read, result⟩
  have hundred : Printed.read? (Plain.rounded ⟨[9, 9], [5]⟩ 0).toText = some (100 : Float) := by
    decide +kernel
  cases hundred.symm.trans read
  refine ⟨result.trans (by decide +kernel), number⟩

end Calculator
