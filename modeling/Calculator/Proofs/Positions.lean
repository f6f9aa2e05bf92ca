import Calculator.Proofs.Matching

/-!
Where the characters that faults point at stand. A position counts the characters of the normal text. That is the
index in the text as it was written only where normalizing has dropped nothing in front; in general it is the index
of a character of that text when all up to it is normalized.
-/

namespace Calculator

namespace Text

structure Stands (text : List Char) (char : Char) (position : Nat) : Prop where
  normal : (normalize text)[position]? = some char
  own : ∃ front back, text = front ++ char :: back ∧
    normalize (front ++ [char]) = (normalize text).take (position + 1)

/-- Every character of the normal text is one of the text itself, or a space that stands for blanks of it. -/
theorem squeeze_split {gap : Bool} {text before after : List Char} {char : Char} (solid : isBlank char = false)
    (split : squeeze gap text = before ++ char :: after) :
    ∃ front back, text = front ++ char :: back ∧ squeeze gap (front ++ [char]) = before ++ [char] := by
  induction text generalizing gap before with
  | nil => cases before <;> cases split
  | cons first rest ih =>
      by_cases blank : isBlank first = true
      · simp only [squeeze, blank, if_true] at split
        rcases ih split with ⟨front, back, rfl, normal⟩
        exact ⟨first :: front, back, rfl, by simpa [squeeze, blank] using normal⟩
      · -- Behind the space that may be put before it, the first character is either the one or comes before it.
        have head : ∀ {ahead : List Char}, first :: squeeze false rest = ahead ++ char :: after →
            ∃ front back, first :: rest = front ++ char :: back ∧
              ∃ others, front ++ [char] = first :: others ∧ first :: squeeze false others = ahead ++ [char] := by
          intro ahead same
          cases ahead with
          | nil =>
              cases (List.cons.inj same).1
              exact ⟨[], rest, rfl, [], rfl, rfl⟩
          | cons other more =>
              rcases List.cons.inj same with ⟨rfl, later⟩
              rcases ih later with ⟨front, back, rfl, normal⟩
              exact ⟨first :: front, back, rfl, front ++ [char], rfl, congrArg (first :: ·) normal⟩
        by_cases spaced : (gap && startsNumber first) = true
        · simp only [squeeze, blank, spaced, if_true, Bool.false_eq_true, if_false] at split
          cases before with
          | nil =>
              cases (List.cons.inj split).1
              cases solid
          | cons space ahead =>
              rcases List.cons.inj split with ⟨rfl, same⟩
              rcases head same with ⟨front, back, text, others, written, normal⟩
              refine ⟨front, back, text, ?_⟩
              simp only [written, squeeze, blank, spaced, if_true, Bool.false_eq_true, if_false, normal,
                List.cons_append]
        · simp only [squeeze, blank, spaced, Bool.false_eq_true, if_false] at split
          rcases head split with ⟨front, back, text, others, written, normal⟩
          refine ⟨front, back, text, ?_⟩
          simp only [written, squeeze, blank, spaced, Bool.false_eq_true, if_false, normal]

theorem stands {text : List Char} {char : Char} {position : Nat} (solid : isBlank char = false)
    (normal : (normalize text)[position]? = some char) : Stands text char position := by
  rcases List.getElem?_eq_some_iff.mp normal with ⟨inside, found⟩
  have split : normalize text = (normalize text).take position ++ char :: (normalize text).drop (position + 1) := by
    rw [← found, ← List.drop_eq_getElem_cons inside, List.take_append_drop]
  rcases squeeze_split solid split with ⟨front, back, written, own⟩
  refine ⟨normal, front, back, written, ?_⟩
  rw [List.take_succ_eq_append_getElem inside, found]
  exact own

end Text

namespace Trace

variable {Value Result : Type} {vocabulary : Vocabulary Value} {number : List Char → Option Value} {cause : Cause}

def Common (cause : Cause) : Prop :=
  cause = .invalidExpression ∨ cause = .unmatchedParenthesis

/-- Only a comma is misplaced, and only an opening parenthesis misused. -/
theorem Rejects.at_mark {machine : Machine Value} {placed : Placed}
    (rejects : Rejects cause (Trace.step vocabulary number machine placed)) :
    Common cause ∨ cause = .misplacedComma ∧ placed.token = .word [','] ∨
      cause = .misusedParenthesis ∧ placed.token = .word ['('] := by
  rcases placed with ⟨token, last, next⟩
  cases token with
  | number text =>
      have failed := rejects_lift rejects
      unfold Machine.readNumber at failed
      split at failed
      · cases failed
      · cases failed
        exact .inl (.inl rfl)
  | word word =>
      simp only [Trace.step, readWord] at rejects
      split at rejects
      · exact .inl (.inl (rejects_fault rejects))
      split at rejects
      · next isComma =>
          rcases (rejects.first fun _ => not_rejects_pure _).comma with same | short | ⟨same, _⟩
          · exact .inr (.inl ⟨same, by rw [(Word.key_mark (by simp [Word.marks])).mp isComma]⟩)
          · exact .inl (.inl short)
          · exact .inl (.inr same)
      split at rejects
      · next isOpening =>
          rcases rejects.openParenthesis with short | same
          · exact .inl (.inl short)
          · exact .inr (.inr ⟨same, by rw [(Word.key_mark (by simp [Word.marks])).mp isOpening]⟩)
      split at rejects
      · rcases (rejects.first fun _ => not_rejects_pure _).closeParenthesis with short | ⟨same, _⟩
        · exact .inl (.inl short)
        · exact .inl (.inr same)
      split at rejects
      · exact absurd (rejects.first fun _ => not_rejects_pure _) (not_rejects_apply _ _ _)
      · have pushed := rejects.first fun _ => not_rejects_pure _
        exact .inl (.inl pushed.pushOperator)

end Trace

namespace Failure

variable {Value : Type} {vocabulary : Vocabulary Value} {number : List Char → Option Value} {expression : List Char}
  {cause : Cause} {position : Nat}

/-- A fault with a position that no function has reported is that of a token which is rejected, or of the unfinished
rest of the text. -/
theorem own_position (blameless : (Trace.run vocabulary number expression).refusal = none)
    (failure : Failure vocabulary number (Text.normalize expression) ⟨cause, some position⟩) :
    (∃ machine placed front, placed.Within (Text.normalize expression) front ∧ placed.last = position ∧
      Trace.Rejects cause (Trace.step vocabulary number machine placed)) ∨
    cause = .unrecognizedToken ∧ ∃ front, position = front.length ∧
      (Scan.ofText vocabulary (Text.normalize expression)).rest ≠ [] ∧
      Text.normalize expression = front ++ (Scan.ofText vocabulary (Text.normalize expression)).rest := by
  generalize reported : (⟨cause, some position⟩ : Fault) = fault at failure
  cases failure with
  | refused reaches within member refusal =>
      have accepts := List.findSome?_eq_none_iff.mp blameless _ (Trace.run_applied reaches member)
      simp [Application.refusal, refusal] at accepts
  | @rejected before after placed machine reason reaches within noRefusal rejected =>
      cases reported
      refine .inl ⟨machine, placed, _, within, rfl, rejected, List.findSome?_eq_none_iff.mpr ?_⟩
      intro application member
      exact application.refusal_eq_none.mpr (noRefusal application member)
  | @unfinished tokens machine front rest reaches buffer nonempty split =>
      cases reported
      rw [buffer]
      exact .inr ⟨rfl, front, rfl, nonempty, split⟩
  | empty | unclosed | unbalanced => cases reported

/-- What is rejected as misplaced or misused is a mark, which stands at the position. -/
theorem at_mark (blameless : (Trace.run vocabulary number expression).refusal = none)
    (failure : Failure vocabulary number (Text.normalize expression) ⟨cause, some position⟩) :
    (cause = .misplacedComma → (Text.normalize expression)[position]? = some ',') ∧
      (cause = .misusedParenthesis → (Text.normalize expression)[position]? = some '(') := by
  rcases failure.own_position blameless with ⟨machine, placed, front, within, rfl, rejects⟩ | ⟨rfl, _⟩
  · rcases rejects.at_mark with (rfl | rfl) | ⟨rfl, isComma⟩ | ⟨rfl, isOpening⟩
    · simp
    · simp
    · exact ⟨fun _ => within.single (by rw [isComma]; rfl), by simp⟩
    · exact ⟨by simp, fun _ => within.single (by rw [isOpening]; rfl)⟩
  · simp

/-- What is not recognized is all that the scan has left. -/
theorem at_rest (blameless : (Trace.run vocabulary number expression).refusal = none)
    (failure : Failure vocabulary number (Text.normalize expression) ⟨.unrecognizedToken, some position⟩) :
    (Scan.ofText vocabulary (Text.normalize expression)).rest ≠ [] ∧
      (Text.normalize expression).drop position = (Scan.ofText vocabulary (Text.normalize expression)).rest := by
  rcases failure.own_position blameless with ⟨machine, placed, front, _, _, rejects⟩ | ⟨_, front, rfl, rest, split⟩
  · rcases rejects.at_mark with (same | same) | ⟨same, _⟩ | ⟨same, _⟩ <;> cases same
  · refine ⟨rest, ?_⟩
    calc
      _ = (front ++ _).drop front.length := congrArg (List.drop front.length) split
      _ = _ := List.drop_left

end Failure

theorem evaluate_error {vocabulary : Vocabulary Float} {places : Nat} {expression : String} {fault : Fault} :
    evaluate vocabulary places expression = .error fault ↔ evaluateExact vocabulary expression = .error fault := by
  unfold evaluate
  cases evaluateExact vocabulary expression <;> simp [Except.map]

/-- What no function has reported is placed in the normal text: a misplaced comma, a misused and an unmatched parenthesis
stand there at the position and are that character of the expression, and what is not recognized is all of the normal
text from the position on, each character that is no blank being one of the expression. -/
theorem positions_in_normal_text {vocabulary : Vocabulary Float} (reachable : vocabulary.Reachable)
    {expression : String} (blameless : (Trace.run vocabulary readNumber? expression.toList).refusal = none)
    (places position : Nat) :
    let text := expression.toList
    let rest := (Scan.ofText vocabulary (Text.normalize text)).rest
    let Fails := fun cause => evaluate vocabulary places expression = .error ⟨cause, some position⟩
    (Fails .misplacedComma → Text.Stands text ',' position) ∧
    (Fails .misusedParenthesis → Text.Stands text '(' position) ∧
    (Fails .unmatchedParenthesis → Text.Stands text ')' position) ∧
    (Fails .unrecognizedToken → rest ≠ [] ∧ (Text.normalize text).drop position = rest ∧
      ∀ offset char, rest[offset]? = some char → Text.isBlank char = false →
        Text.Stands text char (position + offset)) := by
  have lawful := reachable.lawful
  have failure : ∀ {cause}, evaluate vocabulary places expression = .error ⟨cause, some position⟩ →
      Failure vocabulary readNumber? (Text.normalize expression.toList) ⟨cause, some position⟩ :=
    fun failed => (run_error lawful).mp (evaluate_error.mp failed)
  dsimp only
  refine ⟨?_, ?_, ?_, ?_⟩
  · intro failed
    exact Text.stands rfl (((failure failed).at_mark blameless).1 rfl)
  · intro failed
    exact Text.stands rfl (((failure failed).at_mark blameless).2 rfl)
  · intro failed
    exact Text.stands rfl ((failure failed).unmatched lawful blameless).written
  · intro failed
    have left := (failure failed).at_rest blameless
    refine ⟨left.1, left.2, ?_⟩
    intro offset char found solid
    rw [← left.2, List.getElem?_drop] at found
    exact Text.stands solid found

theorem positions_in_normal_text_spaced :
    Text.Stands "2 ,3".toList ',' 1 ∧ Text.Stands "3 ( )".toList '(' 1 ∧ Text.Stands "1 + 2)".toList ')' 4 ∧
      (Text.normalize "1 +foo".toList).drop 2 = "foo".toList := by
  have reachable : (Vocabulary.standard 0).Reachable := ⟨0, [], rfl⟩
  refine ⟨?_, ?_, ?_, ?_⟩
  · exact (@positions_in_normal_text _ reachable "2 ,3" (by decide +kernel) 10 1).1 rfl
  · exact (@positions_in_normal_text _ reachable "3 ( )" (by decide +kernel) 10 1).2.1 rfl
  · exact (@positions_in_normal_text _ reachable "1 + 2)" (by decide +kernel) 10 4).2.2.1 rfl
  · exact ((@positions_in_normal_text _ reachable "1 +foo" (by decide +kernel) 10 2).2.2.2 rfl).2.1

/-- In the expression itself, other characters may stand at the position: here the blank that is dropped. -/
theorem comma_behind_its_position :
    (Vocabulary.standard 0).Reachable ∧ (Trace.run (.standard 0) readNumber? "2 ,3".toList).refusal = none ∧
      evaluate (.standard 0) 10 "2 ,3" = .error ⟨.misplacedComma, some 1⟩ ∧ "2 ,3".toList[1]? = some ' ' :=
  ⟨⟨0, [], rfl⟩, by decide +kernel, rfl, rfl⟩

end Calculator
