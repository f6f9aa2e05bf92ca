import Calculator.Text.Blank

/-!
Spacing of expressions. Blanks separate numbers and mean nothing else, so a run of blanks is kept as one
space where a number may start after it, and is dropped everywhere else.
-/

namespace Calculator.Text

def startsNumber (char : Char) : Bool :=
  char.isDigit || char == '.'

theorem startsNumber_solid {char : Char} (starts : startsNumber char = true) : isBlank char = false := by
  rcases Bool.or_eq_true_iff.mp starts with digit | point
  · exact digit_not_blank digit
  · rw [beq_iff_eq.mp point]
    decide

/-- Reads on after a run of blanks (`gap`) or after another character. -/
def squeeze : Bool → List Char → List Char
  | _, [] => []
  | gap, char :: rest =>
      if isBlank char then squeeze true rest
      else if gap && startsNumber char then ' ' :: char :: squeeze false rest
      else char :: squeeze false rest

def normalize (text : List Char) : List Char :=
  squeeze false text

end Calculator.Text
