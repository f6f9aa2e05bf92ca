import Calculator.Proofs.Doubles
import Mathlib

/-!
The double nearest to a number. A number is taken in units of the last place that its doubles have, and to the nearest
of those, ties to the even one. In ranks, a carry out of the mantissa needs no special care: the rank goes on into the
next exponent.
-/

namespace Calculator

def halfEven (x : ℚ) : ℕ :=
  if x - ⌊x⌋₊ < 1 / 2 then ⌊x⌋₊
  else if x - ⌊x⌋₊ = 1 / 2 then ⌊x⌋₊ + ⌊x⌋₊ % 2
  else ⌊x⌋₊ + 1

section

variable {x y : ℚ} {count : ℕ}

def Rounds (x : ℚ) (count : ℕ) : Prop :=
  count - 1 / 2 < x ∧ x < count + 1 / 2 ∨ (x = count - 1 / 2 ∨ x = count + 1 / 2) ∧ count % 2 = 0

theorem rounds_even (even : count % 2 = 0) : Rounds x count ↔ count - 1 / 2 ≤ x ∧ x ≤ count + 1 / 2 := by
  unfold Rounds
  constructor
  · rintro (⟨low, high⟩ | ⟨rfl | rfl, _⟩)
    · exact ⟨low.le, high.le⟩
    · exact ⟨le_rfl, by linarith⟩
    · exact ⟨by linarith, le_rfl⟩
  · rintro ⟨low, high⟩
    rcases low.eq_or_lt with same | low
    · exact .inr ⟨.inl same.symm, even⟩
    rcases high.eq_or_lt with same | high
    · exact .inr ⟨.inr same, even⟩
    exact .inl ⟨low, high⟩

theorem rounds_odd (odd : ¬ count % 2 = 0) : Rounds x count ↔ count - 1 / 2 < x ∧ x < count + 1 / 2 := by
  simp only [Rounds, odd, and_false, or_false]

theorem Rounds.bounds (rounds : Rounds x count) : count - 1 / 2 ≤ x ∧ x ≤ count + 1 / 2 := by
  rcases rounds with ⟨low, high⟩ | ⟨rfl | rfl, _⟩
  · exact ⟨low.le, high.le⟩
  · exact ⟨le_rfl, by linarith⟩
  · exact ⟨by linarith, le_rfl⟩

theorem halfEven_rounds (nonneg : 0 ≤ x) : Rounds x (halfEven x) := by
  have low := Nat.floor_le nonneg
  have high := Nat.lt_floor_add_one x
  unfold halfEven Rounds
  generalize ⌊x⌋₊ = floor at *
  split_ifs with below tie
  · exact .inl ⟨by linarith, by linarith⟩
  · rcases Nat.mod_two_eq_zero_or_one floor with even | odd
    · rw [even, Nat.add_zero]
      exact .inr ⟨.inr (by linarith), even⟩
    · rw [odd]
      push_cast
      exact .inr ⟨.inl (by linarith), by omega⟩
  · have above : 1 / 2 < x - floor := lt_of_le_of_ne (not_lt.mp below) (Ne.symm tie)
    push_cast
    exact .inl ⟨by linarith, by linarith⟩

theorem Rounds.mono {low high : ℕ} (first : Rounds x low) (second : Rounds y high) (less : x ≤ y) : low ≤ high := by
  by_contra greater
  have apart : (high : ℚ) + 1 ≤ low := by exact_mod_cast not_le.mp greater
  -- Two neighbours can only meet half way between them, and not both are even.
  have meet : x = low - 1 / 2 ∧ y = high + 1 / 2 ∧ (low : ℚ) = high + 1 := by
    rcases first with ⟨first, _⟩ | ⟨first | first, _⟩ <;> rcases second with ⟨_, second⟩ | ⟨second | second, _⟩ <;>
      first
        | (exfalso; linarith)
        | exact ⟨by linarith, by linarith, by linarith⟩
  have next : low = high + 1 := by exact_mod_cast meet.2.2
  rcases first with ⟨first, _⟩ | ⟨_, lowEven⟩
  · linarith
  rcases second with ⟨_, second⟩ | ⟨_, highEven⟩
  · linarith
  omega

theorem Rounds.eq (rounds : Rounds x count) (nonneg : 0 ≤ x) : halfEven x = count :=
  Nat.le_antisymm ((halfEven_rounds nonneg).mono rounds le_rfl) (rounds.mono (halfEven_rounds nonneg) le_rfl)

theorem halfEven_mono (nonneg : 0 ≤ x) (less : x ≤ y) : halfEven x ≤ halfEven y :=
  (halfEven_rounds nonneg).mono (halfEven_rounds (nonneg.trans less)) less

theorem halfEven_natCast (count : ℕ) : halfEven count = count := by
  simp [halfEven]

end

def lastPlace (y : ℚ) : ℤ :=
  max (Int.log 2 y - 52) (-1074)

/-- The rank of the double nearest to a number, if there is no end to the ranks. -/
def nearestRank (y : ℚ) : ℕ :=
  if y = 0 then 0 else (lastPlace y + 1074).toNat * Binary.leadingOne + halfEven (y / 2 ^ lastPlace y)

section

variable {x y : ℚ}

theorem two_pow_zpow (power : ℕ) (exponent : ℤ) : (2 : ℚ) ^ power * 2 ^ exponent = 2 ^ (power + exponent) := by
  rw [zpow_add₀ two_ne_zero, zpow_natCast]

theorem lastPlace_mono (pos : 0 < x) (less : x ≤ y) : lastPlace x ≤ lastPlace y := by
  have logs := Int.log_mono_right (b := 2) pos less
  unfold lastPlace
  omega

/-- A number lies below the next power of two, and from its own on unless it has the least of all places. -/
theorem scaled_bounds (pos : 0 < y) : y / 2 ^ lastPlace y < 2 ^ 53 ∧
    (lastPlace y ≠ -1074 → 2 ^ 52 ≤ y / 2 ^ lastPlace y) := by
  have below := Int.lt_zpow_succ_log_self (b := 2) one_lt_two y
  have above := Int.zpow_log_le_self (b := 2) one_lt_two pos
  have unit : (0 : ℚ) < 2 ^ lastPlace y := by positivity
  push_cast at below above
  constructor
  · rw [div_lt_iff₀ unit, two_pow_zpow]
    exact below.trans_le (zpow_le_zpow_right₀ one_le_two (by unfold lastPlace; omega))
  · intro more
    rw [le_div_iff₀ unit, two_pow_zpow]
    refine le_trans (zpow_le_zpow_right₀ one_le_two ?_) above
    unfold lastPlace at more ⊢
    omega

theorem halfEven_bounds (pos : 0 < y) : halfEven (y / 2 ^ lastPlace y) ≤ 2 ^ 53 ∧
    (lastPlace y ≠ -1074 → 2 ^ 52 ≤ halfEven (y / 2 ^ lastPlace y)) := by
  have nonneg : 0 ≤ y / 2 ^ lastPlace y := by positivity
  have bounds := scaled_bounds pos
  constructor
  · rw [← halfEven_natCast (2 ^ 53)]
    exact halfEven_mono nonneg (by exact_mod_cast bounds.1.le)
  · intro more
    rw [← halfEven_natCast (2 ^ 52)]
    exact halfEven_mono (Nat.cast_nonneg _) (by exact_mod_cast bounds.2 more)

theorem nearestRank_pos (pos : 0 < y) : nearestRank y =
    (lastPlace y + 1074).toNat * Binary.leadingOne + halfEven (y / 2 ^ lastPlace y) :=
  if_neg pos.ne'

theorem nearestRank_mono (nonneg : 0 ≤ x) (less : x ≤ y) : nearestRank x ≤ nearestRank y := by
  rcases nonneg.eq_or_lt with rfl | pos
  · rw [nearestRank, if_pos rfl]
    exact Nat.zero_le _
  · have least : ∀ y, -1074 ≤ lastPlace y := fun y => le_max_right _ _
    have yPos := pos.trans_le less
    have xLeast := least x
    have yBounds := halfEven_bounds yPos
    rw [nearestRank_pos pos, nearestRank_pos yPos]
    rcases (lastPlace_mono pos less).lt_or_eq with lower | same
    · have carried := (halfEven_bounds pos).1
      have started := yBounds.2 (by omega)
      have next : (lastPlace x + 1074).toNat + 1 ≤ (lastPlace y + 1074).toNat := by omega
      have units := Nat.mul_le_mul_right Binary.leadingOne next
      simp only [Binary.leadingOne] at units ⊢
      omega
    · rw [same]
      have unit : (0 : ℚ) < 2 ^ lastPlace y := by positivity
      have parts := halfEven_mono (div_nonneg pos.le unit.le) (div_le_div_of_nonneg_right less unit.le)
      omega

end

section

variable {x y : ℚ} {exponent : ℤ}

theorem le_log (pos : 0 < y) (atLeast : (2 : ℚ) ^ exponent ≤ y) : exponent ≤ Int.log 2 y :=
  (Int.zpow_le_iff_le_log one_lt_two pos).mp (by exact_mod_cast atLeast)

theorem log_lt (pos : 0 < y) (below : y < 2 ^ exponent) : Int.log 2 y < exponent :=
  (Int.lt_zpow_iff_log_lt one_lt_two pos).mp (by exact_mod_cast below)

theorem log_eq (atLeast : (2 : ℚ) ^ exponent ≤ y) (below : y < 2 ^ (exponent + 1)) : Int.log 2 y = exponent := by
  have pos : 0 < y := lt_of_lt_of_le (by positivity) atLeast
  have low := le_log pos atLeast
  have high := log_lt pos below
  omega

/-- The place of a number is the one where it fills a mantissa, or the least of all. -/
theorem lastPlace_eq (pos : 0 < y) (least : -1074 ≤ exponent) (below : y / 2 ^ exponent < 2 ^ 53)
    (started : exponent = -1074 ∨ 2 ^ 52 ≤ y / 2 ^ exponent) : lastPlace y = exponent := by
  have unit : (0 : ℚ) < 2 ^ exponent := by positivity
  rw [div_lt_iff₀ unit, two_pow_zpow] at below
  have high := log_lt pos below
  unfold lastPlace
  rcases started with first | started
  · push_cast at high
    omega
  · rw [le_div_iff₀ unit, two_pow_zpow] at started
    have low := le_log pos started
    push_cast at high low
    omega

theorem nearestRank_large (large : 2 ^ 1024 ≤ y) : lastRank ≤ nearestRank y := by
  have pos : 0 < y := lt_of_lt_of_le (by positivity) large
  have log : 1024 ≤ Int.log 2 y := le_log pos (by exact_mod_cast large)
  have place : 972 ≤ lastPlace y := by
    unfold lastPlace
    omega
  have leading := (halfEven_bounds pos).2 (by omega)
  rw [nearestRank_pos pos]
  simp only [Binary.leadingOne, lastRank]
  omega

theorem nearestRank_small (pos : 0 < y) (small : y < 2 ^ (-1075 : ℤ)) : nearestRank y = 0 := by
  have log := log_lt pos small
  have place : lastPlace y = -1074 := by
    unfold lastPlace
    omega
  have half : y / 2 ^ (-1074 : ℤ) < 1 / 2 := by
    rw [div_lt_iff₀ (by positivity)]
    rwa [one_div, ← zpow_neg_one, ← zpow_add₀ two_ne_zero]
  have rounds : Rounds (y / 2 ^ (-1074 : ℤ)) 0 := by
    have least : 0 < y / 2 ^ (-1074 : ℤ) := by positivity
    exact .inl ⟨by linarith, by linarith⟩
  rw [nearestRank_pos pos, place, rounds.eq (by positivity)]
  rfl

def Binary.value (number : Binary) : ℚ :=
  number.mantissa * 2 ^ number.exponent

/-- The mantissa and the exponent of the nearest double, but for a carry. -/
theorem ofRank_nearest (pos : 0 < y) (fits : halfEven (y / 2 ^ lastPlace y) < 2 ^ 53) :
    Binary.ofRank (nearestRank y) = ⟨halfEven (y / 2 ^ lastPlace y), lastPlace y⟩ := by
  rw [nearestRank_pos pos]
  exact Binary.ofRank_parts (le_max_right _ _) fits (or_iff_not_imp_left.mpr (halfEven_bounds pos).2)

theorem ofRank_carried (pos : 0 < y) (carried : halfEven (y / 2 ^ lastPlace y) = 2 ^ 53) :
    Binary.ofRank (nearestRank y) = ⟨2 ^ 52, lastPlace y + 1⟩ := by
  have least : -1074 ≤ lastPlace y := le_max_right _ _
  rw [nearestRank_pos pos, carried, Binary.rank_carried least]
  exact Binary.ofRank_parts (by omega) (by decide) (.inr le_rfl)

theorem value_nearest (pos : 0 < y) :
    (Binary.ofRank (nearestRank y)).value = halfEven (y / 2 ^ lastPlace y) * 2 ^ lastPlace y := by
  rcases (halfEven_bounds pos).1.lt_or_eq with fits | carried
  · rw [ofRank_nearest pos fits]
    rfl
  · rw [ofRank_carried pos carried, carried, Binary.value, zpow_add₀ two_ne_zero]
    norm_num
    ring

theorem value_exact {count : ℕ} (pos : 0 < y) (whole : y / 2 ^ lastPlace y = count) :
    (Binary.ofRank (nearestRank y)).value = y := by
  rw [value_nearest pos, whole, halfEven_natCast, ← whole]
  field_simp

end

end Calculator
