import Calculator.Evaluate
import Calculator.Proofs.Layouts

/-!
Numerals by the rules they are written by, apart from how they are read. A text is a literal just if it is a
numeral with blanks around it, and just then it is an operand.
-/

namespace Calculator

structure Digital (text : List Char) : Prop where
  nonempty : text ≠ []
  digits : ∀ char ∈ text, char.isDigit = true

inductive Mantissa : List Char → Prop where
  | whole {digits : List Char} (digital : Digital digits) : Mantissa digits
  | pointed {digits fraction : List Char} (digital : Digital digits)
      (others : ∀ char ∈ fraction, char.isDigit = true) : Mantissa (digits ++ '.' :: fraction)
  | fraction {digits : List Char} (digital : Digital digits) : Mantissa ('.' :: digits)

inductive Numeral : List Char → Prop where
  | plain {text : List Char} (mantissa : Mantissa text) : Numeral text
  | scaled {text digits : List Char} {mark : Char} (mantissa : Mantissa text) (marked : mark ∈ ['e', 'E'])
      (digital : Digital digits) : Numeral (text ++ mark :: digits)
  | signed {text digits : List Char} {mark sign : Char} (mantissa : Mantissa text) (marked : mark ∈ ['e', 'E'])
      (signed : sign ∈ ['+', '-']) (digital : Digital digits) : Numeral (text ++ mark :: sign :: digits)

def Padded (text : List Char) : Prop :=
  ∃ front numeral back, text = front ++ (numeral ++ back) ∧ Numeral numeral ∧
    (∀ char ∈ front, Text.isBlank char = true) ∧ ∀ char ∈ back, Text.isBlank char = true

namespace Literal

theorem Valid.mantissa {literal : Literal} (valid : literal.Valid) :
    Mantissa (literal.whole ++ fractionText literal.fraction) := by
  obtain ⟨wholes, fractions, nonempty, _⟩ := valid
  cases present : literal.fraction with
  | none =>
      rw [fractionText, List.append_nil]
      exact .whole ⟨by simpa [digits, present] using nonempty, wholes⟩
  | some fraction =>
      have others := fractions fraction present
      by_cases empty : literal.whole = []
      · rw [empty]
        exact .fraction ⟨by simpa [digits, empty, present] using nonempty, others⟩
      · exact .pointed ⟨empty, wholes⟩ others

theorem Valid.numeral {literal : Literal} (valid : literal.Valid) : Numeral literal.toText := by
  have mantissa := valid.mantissa
  cases present : literal.exponent with
  | none =>
      rw [toText, present, Option.map_none, Option.getD_none, List.append_nil]
      exact .plain mantissa
  | some exponent =>
      obtain ⟨marked, signs, nonempty, all⟩ := valid.2.2.2 exponent present
      have digital : Digital exponent.digits := ⟨nonempty, all⟩
      have mark : exponent.mark ∈ ['e', 'E'] := by simpa using marked
      rw [toText, present, Option.map_some, Option.getD_some, Exponent.toText]
      cases signed : exponent.sign with
      | none => exact .scaled mantissa mark digital
      | some sign => exact .signed mantissa mark (by simpa using signs sign signed) digital

end Literal

/-- A mantissa is written as a literal without an exponent, which may be put behind it. -/
theorem Mantissa.literal {text : List Char} (mantissa : Mantissa text) :
    ∃ literal : Literal, literal.Valid ∧ literal.exponent = none ∧ literal.toText = text := by
  cases mantissa with
  | whole digital =>
      refine ⟨⟨text, none, none⟩, ⟨digital.digits, by simp, ?_, by simp⟩, rfl,
        by simp [Literal.toText, Literal.fractionText]⟩
      simpa [Literal.digits] using digital.nonempty
  | @pointed digits fraction digital others =>
      refine ⟨⟨digits, some fraction, none⟩, ⟨digital.digits, ?_, ?_, by simp⟩, rfl,
        by simp [Literal.toText, Literal.fractionText]⟩
      · simpa using others
      · simp [Literal.digits, digital.nonempty]
  | @fraction digits digital =>
      refine ⟨⟨[], some digits, none⟩, ⟨by simp, ?_, ?_, by simp⟩, rfl,
        by simp [Literal.toText, Literal.fractionText]⟩
      · simpa using digital.digits
      · simpa [Literal.digits] using digital.nonempty

theorem Literal.Valid.raise {literal : Literal} (valid : literal.Valid) (noExponent : literal.exponent = none)
    {exponent : Exponent} (raised : exponent.Valid) :
    ∃ longer : Literal, longer.Valid ∧ longer.toText = literal.toText ++ exponent.toText := by
  obtain ⟨wholes, fractions, nonempty, _⟩ := valid
  refine ⟨{ literal with exponent := some exponent }, ⟨wholes, fractions, nonempty, ?_⟩, ?_⟩
  · intro other same
    cases same
    exact raised
  · simp [toText, noExponent]

theorem numeral_iff {text : List Char} :
    Numeral text ↔ ∃ literal : Literal, literal.Valid ∧ literal.toText = text := by
  constructor
  · intro numeral
    cases numeral with
    | plain mantissa =>
        obtain ⟨literal, valid, _, written⟩ := mantissa.literal
        exact ⟨literal, valid, written⟩
    | @scaled _ digits mark mantissa marked digital =>
        obtain ⟨literal, valid, noExponent, rfl⟩ := mantissa.literal
        have raised : Exponent.Valid ⟨mark, none, digits⟩ :=
          ⟨by simpa using marked, by simp, digital.nonempty, digital.digits⟩
        exact valid.raise noExponent raised
    | @signed _ digits mark sign mantissa marked signed digital =>
        obtain ⟨literal, valid, noExponent, rfl⟩ := mantissa.literal
        have raised : Exponent.Valid ⟨mark, some sign, digits⟩ :=
          ⟨by simpa using marked, by simpa using signed, digital.nonempty, digital.digits⟩
        exact valid.raise noExponent raised
  · rintro ⟨literal, valid, rfl⟩
    exact valid.numeral

theorem isLiteral_iff (text : List Char) : isLiteral text = true ↔ Numeral (Text.trim text) := by
  constructor
  · intro accepted
    exact numeral_iff.mpr (isLiteral_written accepted)
  · intro numeral
    obtain ⟨literal, valid, written⟩ := numeral_iff.mp numeral
    rw [isLiteral, ← written, Literal.read?_toText valid]
    rfl

theorem padded_iff (text : List Char) : Padded text ↔ Numeral (Text.trim text) := by
  constructor
  · rintro ⟨front, numeral, back, rfl, rules, before, behind⟩
    obtain ⟨literal, valid, rfl⟩ := numeral_iff.mp rules
    rwa [Text.trim_before before, Text.trim_behind behind, Text.trim_solid (Literal.toText_solid valid)]
  · intro numeral
    obtain ⟨front, back, parts, before, behind⟩ := Text.trim_parts text
    exact ⟨front, Text.trim text, back, parts, numeral, before, behind⟩

namespace Padded

/-- All but the blanks around it is written with the characters of literals. -/
theorem characters {text : List Char} (padded : Padded text) :
    ∀ char ∈ text, Text.isBlank char = true ∨ Literal.isCharacter char = true := by
  obtain ⟨front, numeral, back, rfl, rules, before, behind⟩ := padded
  obtain ⟨literal, valid, rfl⟩ := numeral_iff.mp rules
  intro char member
  simp only [List.mem_append] at member
  rcases member with blank | solid | blank
  · exact .inl (before char blank)
  · exact .inr (Literal.toText_characters valid char solid)
  · exact .inl (behind char blank)

/-- A blank stands in front of the numeral or behind it. -/
theorem blank_outside {front back : List Char} {blank : Char} (isBlank : Text.isBlank blank = true)
    (padded : Padded (front ++ blank :: back)) :
    (∀ char ∈ front, Text.isBlank char = true) ∨ ∀ char ∈ back, Text.isBlank char = true := by
  obtain ⟨pad, numeral, others, split, rules, before, behind⟩ := padded
  obtain ⟨literal, valid, rfl⟩ := numeral_iff.mp rules
  rcases List.append_eq_append_iff.mp split with ⟨more, rfl, _⟩ | ⟨more, rfl, inner⟩
  · exact .inl fun char member => before char (List.mem_append_left _ member)
  rcases List.append_eq_append_iff.mp inner with ⟨rest, rfl, last⟩ | ⟨rest, written, last⟩
  · refine .inr fun char member => behind char ?_
    rw [last]
    exact List.mem_append_right _ (List.mem_cons_of_mem _ member)
  · cases rest with
    | nil =>
        refine .inr fun char member => behind char ?_
        rw [List.nil_append] at last
        rw [← last]
        exact List.mem_cons_of_mem _ member
    | cons char rest =>
        cases (List.cons.inj last).1
        have solid := Literal.toText_solid valid blank (by simp [written])
        cases isBlank.symm.trans solid

end Padded

theorem sign_no_literal {front rest : List Char} {sign : Char} (before : ∀ char ∈ front, Text.isBlank char = true)
    (signed : sign ∈ ['+', '-']) : isLiteral (front ++ sign :: rest) = false := by
  rw [isLiteral_before before]
  simp only [List.mem_cons, List.not_mem_nil, or_false] at signed
  rcases signed with rfl | rfl
  · exact no_literal rfl rfl
  · exact no_literal rfl rfl

theorem mark_no_literal {front back : List Char} {mark : Char} {sign : Option Char} (marked : mark ∈ ['e', 'E'])
    (signed : ∀ char ∈ sign, char ∈ ['+', '-']) (behind : ∀ char ∈ back, Text.isBlank char = true) :
    isLiteral (front ++ mark :: (sign.toList ++ back)) = false := by
  have ends : ∀ (text : List Char) {last : Char}, Text.isBlank last = false → Text.startsNumber last = false →
      isLiteral (text ++ [last]) = false := by
    intro text last solid noNumber
    cases accepted : isLiteral (text ++ [last]) with
    | false => rfl
    | true => cases noNumber.symm.trans (isLiteral_last solid accepted)
  simp only [List.mem_cons, List.not_mem_nil, or_false] at marked
  cases sign with
  | none =>
      rw [Option.toList_none, List.nil_append, List.append_cons, isLiteral_behind behind]
      rcases marked with rfl | rfl
      · exact ends front rfl rfl
      · exact ends front rfl rfl
  | some char =>
      have either := signed char rfl
      simp only [List.mem_cons, List.not_mem_nil, or_false] at either
      rw [Option.toList_some, List.append_cons, ← List.append_assoc, isLiteral_behind behind]
      rcases either with rfl | rfl
      · exact ends _ rfl rfl
      · exact ends _ rfl rfl

/-- Just the literals have a value as operands, and the machine that meets a number takes that value. -/
theorem parseNumber_iff (text : List Char) :
    ((∃ value, parseNumber text = .ok value) ↔ isLiteral text = true) ∧
      (isLiteral text = false → parseNumber text = .error (.of .invalidExpression)) := by
  unfold parseNumber readNumber? isLiteral
  cases Literal.read? (Text.trim text) with
  | none => simp
  | some literal => simp

theorem Machine.readNumber_parsed (text : List Char) (machine : Machine Float) :
    machine.readNumber readNumber? text = (parseNumber text).map (machine.push · .operand) := by
  unfold Machine.readNumber parseNumber
  cases readNumber? text with
  | none => rfl
  | some value => rfl

/-- A text is taken for a number just if it is a numeral, blanks around it aside, and everything else is refused with
the same fault: a sign in front, other characters (as in names of special values), blanks within, and an exponent
without digits. -/
theorem literals_recognised (text : String) :
    (isLiteral text.toList = true ↔ Numeral (Text.trim text.toList)) ∧
    (Padded text.toList ↔ Numeral (Text.trim text.toList)) ∧
    ((∃ value, parseNumber text.toList = .ok value) ↔ isLiteral text.toList = true) ∧
    (isLiteral text.toList = false → parseNumber text.toList = .error ⟨.invalidExpression, none⟩) ∧
    (∀ machine : Machine Float, machine.readNumber readNumber? text.toList =
      (parseNumber text.toList).map (machine.push · .operand)) ∧
    (∀ char ∈ text.toList, Text.isBlank char = false → Literal.isCharacter char = false →
      isLiteral text.toList = false) ∧
    (∀ front back sign, text.toList = front ++ sign :: back → (∀ char ∈ front, Text.isBlank char = true) →
      sign ∈ ['+', '-'] → isLiteral text.toList = false) ∧
    (∀ front back blank, text.toList = front ++ blank :: back → Text.isBlank blank = true →
      (∃ char ∈ front, Text.isBlank char = false) → (∃ char ∈ back, Text.isBlank char = false) →
        isLiteral text.toList = false) ∧
    (∀ front back mark sign, text.toList = front ++ mark :: (Option.toList sign ++ back) → mark ∈ ['e', 'E'] →
      (∀ char ∈ sign, char ∈ ['+', '-']) → (∀ char ∈ back, Text.isBlank char = true) →
        isLiteral text.toList = false) := by
  have padded := padded_iff text.toList
  have recognised := isLiteral_iff text.toList
  have parsed := parseNumber_iff text.toList
  refine ⟨recognised, padded, parsed.1, parsed.2, Machine.readNumber_parsed text.toList, ?_, ?_, ?_, ?_⟩
  · intro char member solid foreign
    apply Bool.eq_false_iff.mpr
    intro accepted
    rcases (padded.mpr (recognised.mp accepted)).characters char member with blank | character
    · cases solid.symm.trans blank
    · cases foreign.symm.trans character
  · intro front back sign written before signed
    rw [written]
    exact sign_no_literal before signed
  · rintro front back blank written isBlank ⟨first, early, firstSolid⟩ ⟨last, late, lastSolid⟩
    apply Bool.eq_false_iff.mpr
    intro accepted
    have around := padded.mpr (recognised.mp accepted)
    rw [written] at around
    rcases around.blank_outside isBlank with before | behind
    · cases firstSolid.symm.trans (before first early)
    · cases lastSolid.symm.trans (behind last late)
  · intro front back mark sign written marked signed behind
    rw [written]
    exact mark_no_literal marked signed behind

/-- A sign, a blank within, a name and an exponent without digits are each a reason. -/
theorem literals_recognised_refusals :
    isLiteral " .5e-3 ".toList = true ∧ isLiteral "inf".toList = false ∧ isLiteral " -1".toList = false ∧
      isLiteral "1 2".toList = false ∧ parseNumber "1e+ ".toList = .error ⟨.invalidExpression, none⟩ := by
  rcases literals_recognised " .5e-3 " with ⟨_, _, parsed, _⟩
  rcases literals_recognised "inf" with ⟨_, _, _, _, _, foreign, _⟩
  rcases literals_recognised " -1" with ⟨_, _, _, _, _, _, signed, _⟩
  rcases literals_recognised "1 2" with ⟨_, _, _, _, _, _, _, apart, _⟩
  rcases literals_recognised "1e+ " with ⟨_, _, _, refused, _, _, _, _, unfinished⟩
  have blank : ∀ char ∈ [' '], Text.isBlank char = true := List.forall_mem_singleton.mpr rfl
  exact ⟨parsed.mp ⟨_, rfl⟩, foreign 'n' (by decide) rfl rfl, signed [' '] ['1'] '-' rfl blank (by simp),
    apart ['1'] ['2'] ' ' rfl rfl ⟨'1', by simp, rfl⟩ ⟨'2', by simp, rfl⟩,
    refused (unfinished ['1'] [' '] 'e' (some '+') rfl (by simp) (by simp) blank)⟩

end Calculator
