import Calculator.Literal
import Calculator.Text.Spacing

/-!
Literals as a scanner meets them, one character after the other. The recogniser accepts just the texts
that literals are written as. A literal that goes on after a shorter one goes on with another literal,
unless an exponent starts there.
-/

namespace Calculator

namespace Text

theorem trimStart_solid {text : List Char} (solid : ∀ char ∈ text, isBlank char = false) :
    trimStart text = text := by
  cases text with
  | nil => rfl
  | cons char rest =>
      have first := solid char (by simp)
      simp [trimStart, first]

theorem trimEnd_solid {text : List Char} (solid : ∀ char ∈ text, isBlank char = false) :
    trimEnd text = text := by
  have turned : trimStart text.reverse = text.reverse :=
    trimStart_solid fun char member => solid char (List.mem_reverse.mp member)
  unfold trimStart at turned
  rw [trimEnd, turned, List.reverse_reverse]

theorem trim_solid {text : List Char} (solid : ∀ char ∈ text, isBlank char = false) :
    trim text = text := by
  rw [trim, trimStart_solid solid, trimEnd_solid solid]

theorem trim_snoc (text : List Char) {char : Char} (solid : isBlank char = false) :
    trim (text ++ [char]) = trimStart text ++ [char] := by
  have start : trimStart (text ++ [char]) = trimStart text ++ [char] := by
    unfold trimStart
    rw [List.dropWhile_append]
    split
    · next blank => simp [solid, List.isEmpty_iff.mp blank]
    · rfl
  simp [trim, start, trimEnd, solid]

end Text

namespace Exponent

theorem Valid.marked {exponent : Exponent} (valid : exponent.Valid) :
    isMark exponent.mark = true := by
  cases valid.1 with
  | inl mark => simp [isMark, mark]
  | inr mark => simp [isMark, mark]

theorem Valid.signed {exponent : Exponent} (valid : exponent.Valid) :
    ∀ sign ∈ exponent.sign, isSign sign = true := by
  intro sign present
  cases valid.2.1 sign present with
  | inl plus => simp [isSign, plus]
  | inr minus => simp [isSign, minus]

theorem digit_not_sign {char : Char} (digit : char.isDigit = true) : isSign char = false := by
  by_cases sign : isSign char = true
  · simp only [isSign, Bool.or_eq_true, beq_iff_eq] at sign
    rcases sign with rfl | rfl <;> cases digit
  · simpa using sign

theorem read?_toText {exponent : Exponent} (valid : exponent.Valid) :
    read? exponent.toText = some (some exponent) := by
  have isMarked := valid.marked
  have isSigned := valid.signed
  obtain ⟨mark, sign, digits⟩ := exponent
  obtain ⟨_, _, some_digit, all_digits⟩ := valid
  have split : splitSign (sign.toList ++ digits) = (sign, digits) := by
    cases sign with
    | none =>
        cases digits with
        | nil => exact absurd rfl some_digit
        | cons digit rest =>
            have plain := digit_not_sign (all_digits digit (by simp))
            simp [splitSign, plain]
    | some char => simp [splitSign, isSigned char rfl]
  have nonempty : digits.isEmpty = false := List.isEmpty_eq_false_iff.mpr some_digit
  have digital : digits.all Char.isDigit = true := List.all_eq_true.mpr all_digits
  simp [toText, read?, split, isMarked, nonempty, digital]

theorem read?_some {text : List Char} {exponent : Option Exponent}
    (read : read? text = some exponent) :
    (∀ present ∈ exponent, present.Valid) ∧ (exponent.map toText).getD [] = text := by
  cases text with
  | nil =>
      cases read
      simp
  | cons mark rest =>
      obtain ⟨sign, digits, split⟩ : ∃ sign digits, splitSign rest = (sign, digits) := ⟨_, _, rfl⟩
      have parts : (∀ char ∈ sign, char = '+' ∨ char = '-') ∧ sign.toList ++ digits = rest := by
        cases rest with
        | nil =>
            cases split
            simp
        | cons char rest =>
            by_cases signed : isSign char = true
            · simp only [splitSign, signed, if_true, Prod.mk.injEq] at split
              obtain ⟨rfl, rfl⟩ := split
              simpa [isSign] using signed
            · simp only [splitSign, signed, Bool.false_eq_true, if_false, Prod.mk.injEq] at split
              obtain ⟨rfl, rfl⟩ := split
              simp
      simp only [read?, split] at read
      split at read
      · next accepted =>
          cases read
          simp only [Bool.and_eq_true, Bool.not_eq_true', List.isEmpty_eq_false_iff,
            List.all_eq_true] at accepted
          obtain ⟨⟨marked, some_digit⟩, digital⟩ := accepted
          have marks : mark = 'e' ∨ mark = 'E' := by simpa [isMark] using marked
          simp only [Option.mem_def, Option.some.injEq, forall_eq', Option.map_some,
            Option.getD_some]
          exact ⟨⟨marks, parts.1, some_digit, digital⟩, by simp [toText, parts.2]⟩
      · cases read

theorem toText_head {exponent : Exponent} (valid : exponent.Valid) :
    ∃ mark rest, exponent.toText = mark :: rest ∧ isMark mark = true :=
  ⟨exponent.mark, exponent.sign.toList ++ exponent.digits, rfl, valid.marked⟩

end Exponent

namespace Literal

def tail (literal : Literal) : List Char :=
  (literal.exponent.map Exponent.toText).getD []

theorem tail_head {literal : Literal} (valid : literal.Valid) :
    literal.tail = [] ∨ ∃ mark rest, literal.tail = mark :: rest ∧ Exponent.isMark mark = true := by
  cases present : literal.exponent with
  | none => simp [tail, present]
  | some exponent =>
      obtain ⟨mark, rest, text, marked⟩ := Exponent.toText_head (valid.2.2.2 exponent present)
      exact Or.inr ⟨mark, rest, by simp [tail, present, text], marked⟩

theorem mark_not_digit {char : Char} (mark : Exponent.isMark char = true) :
    char.isDigit = false := by
  simp only [Exponent.isMark, Bool.or_eq_true, beq_iff_eq] at mark
  rcases mark with rfl | rfl <;> rfl

theorem mark_not_point {char : Char} (mark : Exponent.isMark char = true) : char ≠ '.' := by
  rintro rfl
  cases mark

theorem tail_no_digit {literal : Literal} (valid : literal.Valid) :
    ∀ char ∈ literal.tail.head?, char.isDigit = false := by
  intro char first
  cases tail_head valid with
  | inl none => simp [none] at first
  | inr some =>
      obtain ⟨mark, rest, some, marked⟩ := some
      simp only [some, List.head?_cons, Option.mem_def, Option.some.injEq] at first
      exact first ▸ mark_not_digit marked

/-- A run of digits ends where something else stands. -/
theorem digits_split {digits rest : List Char} (all : ∀ char ∈ digits, char.isDigit = true)
    (stop : ∀ char ∈ rest.head?, char.isDigit = false) :
    (digits ++ rest).takeWhile Char.isDigit = digits ∧
      (digits ++ rest).dropWhile Char.isDigit = rest := by
  rw [List.takeWhile_append_of_pos all, List.dropWhile_append_of_pos all]
  cases rest with
  | nil => simp
  | cons char rest =>
      have ends := stop char rfl
      simp [ends]

theorem splitFraction_toText {literal : Literal} (valid : literal.Valid) :
    splitFraction (fractionText literal.fraction ++ literal.tail) =
      (literal.fraction, literal.tail) := by
  cases present : literal.fraction with
  | none =>
      rcases tail_head valid with none | ⟨mark, rest, some, marked⟩
      · simp [fractionText, none, splitFraction]
      · have other := mark_not_point marked
        simp only [fractionText, some, List.nil_append]
        unfold splitFraction
        split
        · next same =>
            cases same
            exact absurd rfl other
        · rfl
  | some digits =>
      obtain ⟨taken, dropped⟩ := digits_split (valid.2.1 digits present) (tail_no_digit valid)
      simp [fractionText, splitFraction, taken, dropped]

theorem read?_toText {literal : Literal} (valid : literal.Valid) :
    read? literal.toText = some literal := by
  have stop : ∀ char ∈ (fractionText literal.fraction ++ literal.tail).head?,
      char.isDigit = false := by
    intro char first
    cases present : literal.fraction with
    | none =>
        simp only [present, fractionText, List.nil_append] at first
        exact tail_no_digit valid char first
    | some digits =>
        simp only [present, fractionText, List.cons_append, List.head?_cons, Option.mem_def,
          Option.some.injEq] at first
        subst first
        rfl
  obtain ⟨taken, dropped⟩ := digits_split valid.1 stop
  have text : literal.toText =
      literal.whole ++ (fractionText literal.fraction ++ literal.tail) := by
    simp [toText, tail]
  have exponent : Exponent.read? literal.tail = some literal.exponent := by
    cases present : literal.exponent with
    | none => simp [tail, present, Exponent.read?]
    | some exponent =>
        simp [tail, present, Exponent.read?_toText (valid.2.2.2 exponent present)]
  have nonempty : (literal.whole ++ literal.fraction.getD []).isEmpty = false :=
    List.isEmpty_eq_false_iff.mpr valid.2.2.1
  simp only [read?, text, taken, dropped, splitFraction_toText valid, nonempty, exponent]
  rfl

theorem splitFraction_some {text rest : List Char} {fraction : Option (List Char)}
    (split : splitFraction text = (fraction, rest)) :
    (∀ digits ∈ fraction, ∀ char ∈ digits, char.isDigit = true) ∧
      fractionText fraction ++ rest = text := by
  unfold splitFraction at split
  split at split
  · next rest =>
      cases split
      constructor
      · intro digits same char member
        cases same
        exact List.all_eq_true.mp List.all_takeWhile char member
      · simp [fractionText]
  · cases split
    simp [fractionText]

theorem read?_some {text : List Char} {literal : Literal} (read : read? text = some literal) :
    literal.Valid ∧ literal.toText = text := by
  obtain ⟨fraction, rest, split⟩ :
      ∃ fraction rest, splitFraction (text.dropWhile Char.isDigit) = (fraction, rest) := ⟨_, _, rfl⟩
  obtain ⟨digital, parts⟩ := splitFraction_some split
  simp only [read?, split] at read
  split at read
  · cases read
  · next nonempty =>
      obtain ⟨exponent, present, rfl⟩ := Option.map_eq_some_iff.mp read
      obtain ⟨valid, tail⟩ := Exponent.read?_some present
      refine ⟨⟨List.all_eq_true.mp List.all_takeWhile, digital, ?_, valid⟩, ?_⟩
      · simpa [digits] using nonempty
      · simp [toText, tail, parts]

def isCharacter (char : Char) : Bool :=
  Text.startsNumber char || Exponent.isMark char || Exponent.isSign char

theorem digit_character {char : Char} (digit : char.isDigit = true) : isCharacter char = true := by
  simp [isCharacter, Text.startsNumber, digit]

theorem toText_characters {literal : Literal} (valid : literal.Valid) :
    ∀ char ∈ literal.toText, isCharacter char = true := by
  intro char member
  simp only [toText, List.mem_append] at member
  rcases member with (whole | fraction) | exponent
  · exact digit_character (valid.1 char whole)
  · cases present : literal.fraction with
    | none => simp [present, fractionText] at fraction
    | some digits =>
        simp only [present, fractionText, List.mem_cons] at fraction
        rcases fraction with rfl | digit
        · rfl
        · exact digit_character (valid.2.1 digits present char digit)
  · cases present : literal.exponent with
    | none => simp [present] at exponent
    | some shape =>
        have shaped := valid.2.2.2 shape present
        simp only [present, Option.map_some, Option.getD_some, Exponent.toText,
          List.cons_append, List.mem_cons, List.mem_append, Option.mem_toList] at exponent
        rcases exponent with rfl | sign | digit
        · simp [isCharacter, shaped.marked]
        · simp [isCharacter, shaped.signed char sign]
        · exact digit_character (shaped.2.2.2 char digit)

theorem character_not_blank {char : Char} (character : isCharacter char = true) :
    Text.isBlank char = false := by
  simp only [isCharacter, Exponent.isMark, Exponent.isSign, Bool.or_eq_true, beq_iff_eq] at character
  rcases character with (starts | (rfl | rfl)) | (rfl | rfl)
  · exact Text.startsNumber_solid starts
  all_goals rfl

theorem toText_solid {literal : Literal} (valid : literal.Valid) :
    ∀ char ∈ literal.toText, Text.isBlank char = false :=
  fun char member => character_not_blank (toText_characters valid char member)

inductive Stage where
  | start
  | whole
  | point
  | fraction
  | mark
  | sign
  | exponent
deriving DecidableEq

def Stage.advance (stage : Stage) (char : Char) : Option Stage :=
  match stage with
  | .start => if char.isDigit then some .whole else if char = '.' then some .point else none
  | .whole =>
      if char.isDigit then some .whole
      else if char = '.' then some .fraction
      else if Exponent.isMark char then some .mark else none
  | .point => if char.isDigit then some .fraction else none
  | .fraction =>
      if char.isDigit then some .fraction
      else if Exponent.isMark char then some .mark else none
  | .mark =>
      if char.isDigit then some .exponent
      else if Exponent.isSign char then some .sign else none
  | .sign => if char.isDigit then some .exponent else none
  | .exponent => if char.isDigit then some .exponent else none

def stage (literal : Literal) : Stage :=
  if literal.exponent.isSome then .exponent
  else if literal.fraction.isSome then .fraction else .whole

namespace Stage

theorem digits_stay {stage : Stage} (loop : stage = .whole ∨ stage = .fraction ∨ stage = .exponent)
    {digits : List Char} (all : ∀ char ∈ digits, char.isDigit = true) :
    digits.foldlM advance stage = some stage := by
  induction digits with
  | nil => rfl
  | cons digit rest ih =>
      have first := all digit (by simp)
      have stays : advance stage digit = some stage := by
        rcases loop with rfl | rfl | rfl <;> simp [advance, first]
      rw [List.foldlM_cons, stays]
      exact ih fun char member => all char (by simp [member])

theorem digits_reach {stage reached : Stage}
    (loop : reached = .whole ∨ reached = .fraction ∨ reached = .exponent)
    (enters : ∀ char : Char, char.isDigit = true → advance stage char = some reached)
    {digits : List Char} (nonempty : digits ≠ []) (all : ∀ char ∈ digits, char.isDigit = true) :
    digits.foldlM advance stage = some reached := by
  cases digits with
  | nil => exact absurd rfl nonempty
  | cons digit rest =>
      rw [List.foldlM_cons, enters digit (all digit (by simp))]
      exact digits_stay loop fun char member => all char (by simp [member])

theorem exponent_reached {stage : Stage} (before : stage = .whole ∨ stage = .fraction)
    {shape : Exponent} (valid : shape.Valid) :
    shape.toText.foldlM advance stage = some .exponent := by
  obtain ⟨marked, signed, nonempty, digital⟩ := valid
  -- The mark is no digit and no point, which the machine of stages asks for first.
  have enters : advance stage shape.mark = some .mark := by
    rcases before with rfl | rfl <;> rcases marked with mark | mark <;> rw [mark] <;> rfl
  rw [Exponent.toText, List.cons_append, List.foldlM_cons, enters, Option.bind_eq_bind,
    Option.bind_some]
  cases present : shape.sign with
  | none =>
      rw [Option.toList_none, List.nil_append]
      exact digits_reach (by simp) (fun char digit => by simp [advance, digit]) nonempty digital
  | some sign =>
      have enters : advance .mark sign = some .sign := by
        rcases signed sign present with rfl | rfl <;> rfl
      rw [Option.toList_some, List.singleton_append, List.foldlM_cons, enters,
        Option.bind_eq_bind, Option.bind_some]
      exact digits_reach (by simp) (fun char digit => by simp [advance, digit]) nonempty digital

end Stage

-- Digits before the point may be missing, and then digits behind it may not: two ways to the same stage.
theorem mantissa_reached {literal : Literal} (valid : literal.Valid) :
    (literal.whole ++ fractionText literal.fraction).foldlM Stage.advance .start =
      some (if literal.fraction.isSome then .fraction else .whole) := by
  obtain ⟨wholes, fractions, nonempty, _⟩ := valid
  rw [List.foldlM_append]
  by_cases empty : literal.whole = []
  · cases present : literal.fraction with
    | none => simp [digits, empty, present] at nonempty
    | some fraction =>
        have some_digit : fraction ≠ [] := by simpa [digits, empty, present] using nonempty
        have reached : fraction.foldlM Stage.advance .point = some .fraction :=
          Stage.digits_reach (by simp) (fun char digit => by simp [Stage.advance, digit]) some_digit
            (fractions fraction present)
        simpa [empty, fractionText, Stage.advance] using reached
  · have reached : literal.whole.foldlM Stage.advance .start = some .whole :=
      Stage.digits_reach (by simp) (fun char digit => by simp [Stage.advance, digit]) empty wholes
    rw [reached, Option.bind_eq_bind, Option.bind_some]
    cases present : literal.fraction with
    | none => rfl
    | some fraction =>
        have point : Stage.advance .whole '.' = some .fraction := rfl
        rw [fractionText, List.foldlM_cons, point, Option.bind_eq_bind, Option.bind_some]
        exact Stage.digits_stay (by simp) (fractions fraction present)

theorem stage_reached {literal : Literal} (valid : literal.Valid) :
    literal.toText.foldlM Stage.advance .start = some literal.stage := by
  rw [toText, List.foldlM_append, mantissa_reached valid, Option.bind_eq_bind, Option.bind_some]
  cases present : literal.exponent with
  | none => simp [stage, present]
  | some exponent =>
      rw [Option.map_some, Option.getD_some,
        Stage.exponent_reached (by split <;> simp) (valid.2.2.2 exponent present)]
      simp [stage, present]

def addDigit (literal : Literal) (digit : Char) : Literal :=
  -- The last part that the literal has takes the digit.
  match literal.exponent, literal.fraction with
  | some exponent, _ =>
      { literal with exponent := some { exponent with digits := exponent.digits ++ [digit] } }
  | none, some fraction => { literal with fraction := some (fraction ++ [digit]) }
  | none, none => { literal with whole := literal.whole ++ [digit] }

theorem addDigit_toText (literal : Literal) (digit : Char) :
    (literal.addDigit digit).toText = literal.toText ++ [digit] := by
  obtain ⟨whole, fraction, exponent⟩ := literal
  cases exponent with
  | some exponent => simp [addDigit, toText, Exponent.toText]
  | none => cases fraction <;> simp [addDigit, toText, fractionText]

theorem all_digits_snoc {digits : List Char} {digit : Char}
    (all : ∀ char ∈ digits, char.isDigit = true) (last : digit.isDigit = true) :
    ∀ char ∈ digits ++ [digit], char.isDigit = true := by
  intro char member
  rcases List.mem_append.mp member with before | same
  · exact all char before
  · exact List.mem_singleton.mp same ▸ last

theorem addDigit_valid {literal : Literal} (valid : literal.Valid) {digit : Char}
    (isDigit : digit.isDigit = true) : (literal.addDigit digit).Valid := by
  obtain ⟨whole, fraction, exponent⟩ := literal
  obtain ⟨wholes, fractions, nonempty, exponents⟩ := valid
  cases exponent with
  | some exponent =>
      obtain ⟨marked, signed, _, digital⟩ := exponents exponent rfl
      refine ⟨wholes, fractions, nonempty, ?_⟩
      intro longer same
      cases same
      exact ⟨marked, signed, by simp, all_digits_snoc digital isDigit⟩
  | none =>
      cases fraction with
      | some fraction =>
          refine ⟨wholes, ?_, by simp [addDigit, digits], exponents⟩
          intro longer same
          cases same
          exact all_digits_snoc (fractions fraction rfl) isDigit
      | none =>
          exact ⟨all_digits_snoc wholes isDigit, fractions, by simp [addDigit, digits], exponents⟩

/-- A literal goes on after its stage with a digit, a mark, or a point behind the first digits. -/
theorem stage_advances {literal : Literal} (valid : literal.Valid) {char : Char} {next : Stage}
    (advances : literal.stage.advance char = some next) :
    Exponent.isMark char = true ∨ ∃ longer : Literal,
      longer.Valid ∧ longer.toText = literal.toText ++ [char] := by
  by_cases digit : char.isDigit = true
  · exact Or.inr ⟨_, addDigit_valid valid digit, addDigit_toText literal char⟩
  by_cases mark : Exponent.isMark char = true
  · exact Or.inl mark
  obtain ⟨whole, fraction, exponent⟩ := literal
  cases exponent with
  | some exponent => simp [stage, Stage.advance, digit] at advances
  | none =>
      cases fraction with
      | some fraction => simp [stage, Stage.advance, digit, mark] at advances
      | none =>
          by_cases point : char = '.'
          · obtain ⟨wholes, _, nonempty, exponents⟩ := valid
            refine Or.inr ⟨⟨whole, some [], none⟩, ⟨wholes, ?_, ?_, exponents⟩, ?_⟩
            · intro digits same char member
              cases same
              cases member
            · simpa [digits] using nonempty
            · simp [toText, fractionText, point]
          · simp [stage, Stage.advance, digit, mark, point] at advances

theorem toText_head {literal : Literal} (valid : literal.Valid) :
    ∃ char rest, literal.toText = char :: rest ∧ Text.startsNumber char = true := by
  cases text : literal.toText with
  | nil =>
      obtain ⟨whole, fraction, exponent⟩ := literal
      obtain ⟨_, _, nonempty, _⟩ := valid
      simp only [toText, List.append_eq_nil_iff] at text
      cases fraction with
      | none => exact absurd text.1.1 (by simpa [digits] using nonempty)
      | some fraction => simp [fractionText] at text
  | cons char rest =>
      have reached := stage_reached valid
      rw [text, List.foldlM_cons] at reached
      refine ⟨char, rest, rfl, ?_⟩
      by_cases digit : char.isDigit = true
      · simp [Text.startsNumber, digit]
      · by_cases point : char = '.'
        · simp [Text.startsNumber, point]
        · simp [Stage.advance, digit, point] at reached

theorem toText_last {literal : Literal} (valid : literal.Valid) {before : List Char} {char : Char}
    (text : literal.toText = before ++ [char]) : Text.startsNumber char = true := by
  have last : literal.toText.getLast? = some char := by simp [text]
  obtain ⟨whole, fraction, exponent⟩ := literal
  obtain ⟨wholes, fractions, nonempty, exponents⟩ := valid
  cases exponent with
  | some exponent =>
      obtain ⟨_, _, some_digit, digital⟩ := exponents exponent rfl
      have ending : exponent.digits.getLast? = some char := by
        simpa [toText, Exponent.toText, List.getLast?_append, List.getLast?_cons,
          List.getLast?_eq_some_getLast some_digit] using last
      simp [Text.startsNumber, digital char (List.mem_of_getLast? ending)]
  | none =>
      cases fraction with
      | none =>
          have ending : whole.getLast? = some char := by
            simpa [toText, fractionText] using last
          simp [Text.startsNumber, wholes char (List.mem_of_getLast? ending)]
      | some fraction =>
          rcases List.eq_nil_or_concat fraction with rfl | ⟨before, digit, rfl⟩
          · have point : char = '.' := by simpa [toText, fractionText, eq_comm] using last
            simp [Text.startsNumber, point]
          · have same : digit = char := by
              simpa [toText, fractionText, List.getLast?_append, List.getLast?_cons] using last
            have digital := fractions _ rfl digit (by simp)
            simp [Text.startsNumber, ← same, digital]

end Literal

theorem isLiteral_toText {literal : Literal} (valid : literal.Valid) :
    isLiteral literal.toText = true := by
  rw [isLiteral, Text.trim_solid (Literal.toText_solid valid), Literal.read?_toText valid]
  rfl

theorem isLiteral_written {text : List Char} (accepted : isLiteral text = true) :
    ∃ literal : Literal, literal.Valid ∧ literal.toText = Text.trim text := by
  obtain ⟨literal, read⟩ := Option.isSome_iff_exists.mp accepted
  exact ⟨literal, Literal.read?_some read⟩

/-- One character ahead is enough: between two literals of one text, each next text is a literal too, up
to the mark of an exponent. -/
theorem isLiteral_goes_on {literal : Literal} (valid : literal.Valid) {before after : List Char}
    {char : Char} (text : literal.toText = before ++ char :: after)
    (shorter : isLiteral before = true) :
    Exponent.isMark char = true ∨ isLiteral (before ++ [char]) = true := by
  have solid : ∀ char ∈ before, Text.isBlank char = false := fun char member =>
    Literal.toText_solid valid char (by simp [text, member])
  obtain ⟨first, firstValid, written⟩ := isLiteral_written shorter
  rw [Text.trim_solid solid] at written
  -- The whole literal goes through the stages, and so through the one where the shorter literal ends.
  have reached := Literal.stage_reached valid
  rw [text, ← written, List.foldlM_append, Literal.stage_reached firstValid, Option.bind_eq_bind,
    Option.bind_some, List.foldlM_cons] at reached
  obtain ⟨next, advances, _⟩ := Option.bind_eq_some_iff.mp reached
  rcases Literal.stage_advances firstValid advances with mark | ⟨longer, longerValid, same⟩
  · exact Or.inl mark
  · rw [← written, ← same]
    exact Or.inr (isLiteral_toText longerValid)

theorem isLiteral_last {text : List Char} {char : Char} (solid : Text.isBlank char = false)
    (accepted : isLiteral (text ++ [char]) = true) : Text.startsNumber char = true := by
  obtain ⟨literal, valid, written⟩ := isLiteral_written accepted
  rw [Text.trim_snoc text solid] at written
  exact Literal.toText_last valid written

theorem isLiteral_head {char : Char} {rest : List Char} (solid : Text.isBlank char = false)
    (accepted : isLiteral (char :: rest) = true) : Text.startsNumber char = true := by
  obtain ⟨literal, valid, written⟩ := isLiteral_written accepted
  obtain ⟨first, others, text, starts⟩ := Literal.toText_head valid
  have start : Text.trimStart (char :: rest) = char :: rest := by simp [Text.trimStart, solid]
  have leading : Text.trim (char :: rest) <+: char :: rest := by
    rw [Text.trim, start, Text.trimEnd]
    simpa using List.reverse_prefix.mpr (List.dropWhile_suffix (l := (char :: rest).reverse) Text.isBlank)
  rw [← written, text] at leading
  obtain ⟨same, _⟩ := List.cons_prefix_cons.mp leading
  exact same ▸ starts

theorem no_literal {char : Char} {rest : List Char} (solid : Text.isBlank char = false)
    (starts : Text.startsNumber char = false) : isLiteral (char :: rest) = false := by
  cases accepted : isLiteral (char :: rest) with
  | false => rfl
  | true => cases starts.symm.trans (isLiteral_head solid accepted)

theorem readNumber?_toText {literal : Literal} (valid : literal.Valid) :
    readNumber? literal.toText = some literal.toFloat := by
  rw [readNumber?, Text.trim_solid (Literal.toText_solid valid), Literal.read?_toText valid]
  rfl

theorem readNumber?_literal {text : List Char} (accepted : isLiteral text = true) :
    ∃ value, readNumber? text = some value := by
  obtain ⟨literal, read⟩ := Option.isSome_iff_exists.mp accepted
  exact ⟨literal.toFloat, by simp [readNumber?, read]⟩

end Calculator
