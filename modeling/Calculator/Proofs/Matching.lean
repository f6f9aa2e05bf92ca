import Calculator.Proofs.Faults

/-!
Parentheses in a text. After any accepted tokens just those are open that were opened and not closed again. So
parentheses come in pairs in an accepted text; and a fault about an unmatched one points at a closing one in
front of which all others are in pairs, or comes at the end, where some are still open.
-/

namespace Calculator

namespace Token

def openings (tokens : List Token) : Nat :=
  tokens.count (.word ['('])

def closings (tokens : List Token) : Nat :=
  tokens.count (.word [')'])

structure Matched (tokens : List Token) : Prop where
  opened : ∀ {front}, front <+: tokens → closings front ≤ openings front
  closed : closings tokens = openings tokens

@[simp]
theorem openings_cons (token : Token) (rest : List Token) :
    openings (token :: rest) = openings rest + if token = .word ['('] then 1 else 0 := by
  simp [openings, List.count_cons]

@[simp]
theorem closings_cons (token : Token) (rest : List Token) :
    closings (token :: rest) = closings rest + if token = .word [')'] then 1 else 0 := by
  simp [closings, List.count_cons]

end Token

variable {Value : Type} {vocabulary : Vocabulary Value} {number : List Char → Option Value}
  {text : List Char}

namespace Machine

namespace Tracks

variable {before : Option Token} {openings : List Opening} {machine after : Machine Value}

/-- What one token does to the number of open parentheses. -/
theorem step_count (lawful : vocabulary.Lawful) (tracks : Tracks vocabulary before openings machine)
    {token : Token} {next : Option Char} (moves : Moves vocabulary number machine token next after) :
    (Opening.read vocabulary before openings token).length + (if token = .word [')'] then 1 else 0) =
      openings.length + if token = .word ['('] then 1 else 0 := by
  cases token with
  | number text => simp [Opening.read]
  | word word =>
      by_cases isMark : word ∈ Word.marks
      · simp only [Word.marks, List.mem_cons, List.not_mem_nil, or_false] at isMark
        rcases isMark with rfl | rfl | rfl
        · simp
        · rcases tracks.closing_open lawful moves with ⟨outer, rfl⟩ | ⟨name, _, commas, outer, rfl, _⟩
          · simp
          · simp
        · rcases tracks.comma_open lawful moves with ⟨name, commas, outer, rfl⟩
          simp
      · rw [Opening.read_other _ _ isMark]
        simp only [Word.marks, List.mem_cons, List.not_mem_nil, or_false, not_or] at isMark
        simp [isMark]

theorem run_count (lawful : vocabulary.Lawful) (tracks : Tracks vocabulary before openings machine)
    {placed : List Placed} (reached : placed.foldlM (Machine.step vocabulary number) machine = .ok after) :
    (Opening.unclosedFrom vocabulary before openings (placed.map (·.token))).length +
        Token.closings (placed.map (·.token)) =
      openings.length + Token.openings (placed.map (·.token)) := by
  induction placed generalizing before openings machine with
  | nil => rfl
  | cons first rest ih =>
      rw [List.foldlM_cons] at reached
      rcases bind_ok.mp reached with ⟨middle, stepped, reached⟩
      have moves := (step_ok lawful).mp stepped
      have now := tracks.step_count lawful moves
      have later := ih (tracks.step lawful moves) reached
      rw [List.map_cons, Opening.unclosedFrom, Token.openings_cons, Token.closings_cons]
      omega

end Tracks

namespace Reaches

variable {before after : List Placed} {machine : Machine Value}

theorem count (lawful : vocabulary.Lawful)
    (reaches : machine.Reaches vocabulary number text before after) :
    (Opening.unclosed vocabulary (before.map (·.token))).length + Token.closings (before.map (·.token)) =
      Token.openings (before.map (·.token)) := by
  -- Nothing is open at the start of a run.
  have counted := Tracks.initial.run_count lawful reaches.accepted
  rwa [List.length_nil, Nat.zero_add] at counted

theorem earlier {front back : List Placed}
    (reaches : machine.Reaches vocabulary number text (front ++ back) after) :
    ∃ middle : Machine Value, middle.Reaches vocabulary number text front (back ++ after) := by
  have accepted := reaches.accepted
  rw [List.foldlM_append] at accepted
  rcases bind_ok.mp accepted with ⟨middle, reached, _⟩
  exact ⟨middle, by rw [reaches.tokens, List.append_assoc], reached⟩

/-- Where all parentheses are closed again, they are matched. -/
theorem matched (lawful : vocabulary.Lawful)
    (reaches : machine.Reaches vocabulary number text before after)
    (closed : Opening.unclosed vocabulary (before.map (·.token)) = []) :
    Token.Matched (before.map (·.token)) := by
  constructor
  · -- The count of what is open holds after each front part, and is never negative.
    rintro front ⟨back, split⟩
    rcases List.map_eq_append_iff.mp split.symm with ⟨first, second, rfl, rfl, rfl⟩
    rcases reaches.earlier with ⟨middle, reached⟩
    have counted := reached.count lawful
    omega
  · have counted := reaches.count lawful
    rwa [closed, List.length_nil, Nat.zero_add] at counted

end Reaches

end Machine

namespace Trace

variable {Result First Second : Type}

/-- A failure that no application is to blame for. -/
structure Rejects (cause : Cause) (trace : Trace Value Result) : Prop where
  failed : trace.result = .error ⟨cause, none⟩
  blameless : trace.refusal = none

variable {cause : Cause}

theorem rejects_lift {result : Except Fault Result}
    (rejects : Rejects cause (lift result : Trace Value Result)) : result = .error ⟨cause, none⟩ :=
  rejects.failed

theorem rejects_fault {other : Cause}
    (rejects : Rejects cause (lift (.error (.of other)) : Trace Value Result)) : cause = other := by
  cases rejects.failed
  rfl

theorem not_rejects_pure (value : Result) : ¬ Rejects cause (pure value : Trace Value Result) := by
  intro rejects
  cases rejects.failed

theorem Rejects.of_bind {first : Trace Value First} {next : First → Trace Value Second}
    (rejects : Rejects cause (first >>= next)) :
    Rejects cause first ∨ ∃ value, first.result = .ok value ∧ Rejects cause (next value) := by
  have failed := rejects.failed
  have blameless := List.findSome?_eq_none_iff.mp rejects.blameless
  rw [bind_result] at failed
  rcases bind_error.mp failed with now | ⟨value, succeeded, later⟩
  · refine .inl ⟨now, List.findSome?_eq_none_iff.mpr ?_⟩
    intro application member
    exact blameless application ((bind_applications _ _ _).mpr (.inl member))
  · refine .inr ⟨value, succeeded, later, List.findSome?_eq_none_iff.mpr ?_⟩
    intro application member
    exact blameless application ((bind_applications _ _ _).mpr (.inr ⟨value, succeeded, member⟩))

theorem Rejects.first {first : Trace Value First} {next : First → Trace Value Second}
    (rejects : Rejects cause (first >>= next)) (later : ∀ value, ¬ Rejects cause (next value)) :
    Rejects cause first := by
  rcases rejects.of_bind with now | ⟨value, _, further⟩
  · exact now
  · exact absurd further (later value)

theorem not_rejects_apply (word : Word) (operator : Operator Value) (operands : List Value) :
    ¬ Rejects cause (apply word operator operands) := by
  intro rejects
  have applied : operator.apply operands = .error ⟨cause, none⟩ := rejects.failed
  have blameless := rejects.blameless
  simp [refusal, Application.refusal, applied] at blameless

theorem Rejects.reduce {waiting : Waiting Value} {operands : List Value}
    (rejects : Rejects cause (reduce waiting operands)) : cause = .invalidExpression := by
  unfold Trace.reduce at rejects
  split at rejects
  · exact rejects_fault rejects
  · exact absurd (rejects.first fun _ => not_rejects_pure _) (not_rejects_apply _ _ _)

/-- Operators are taken off down to a parenthesis in vain only if there is none. -/
theorem Rejects.flush {entries : List (Entry Value)} {operands : List Value}
    (rejects : Rejects cause (flush entries operands)) :
    cause = .invalidExpression ∨ cause = .unmatchedParenthesis ∧ .opening ∉ entries := by
  induction entries generalizing operands with
  | nil => exact .inr ⟨rejects_fault rejects, List.not_mem_nil⟩
  | cons entry rest ih =>
      cases entry with
      | opening => exact absurd rejects (not_rejects_pure _)
      | waiting top =>
          rcases rejects.of_bind with reduced | ⟨operands, _, later⟩
          · exact .inl reduced.reduce
          · simpa using ih later

theorem Rejects.makeWay {incoming : Operator Value} {entries : List (Entry Value)} {operands : List Value}
    (rejects : Rejects cause (makeWay incoming entries operands)) : cause = .invalidExpression := by
  induction entries generalizing operands with
  | nil => exact absurd rejects (not_rejects_pure _)
  | cons entry rest ih =>
      cases entry with
      | opening => exact absurd rejects (not_rejects_pure _)
      | waiting top =>
          unfold Trace.makeWay at rejects
          split at rejects
          · rcases rejects.of_bind with reduced | ⟨operands, _, later⟩
            · exact reduced.reduce
            · exact ih later
          · exact absurd rejects (not_rejects_pure _)

theorem Rejects.comma {machine : Machine Value} (rejects : Rejects cause (comma machine)) :
    cause = .misplacedComma ∨ cause = .invalidExpression ∨ cause = .unmatchedParenthesis ∧
      (∃ arity commas base outer, machine.frames = .call arity commas base :: outer) ∧
        .opening ∉ machine.entries := by
  unfold Trace.comma at rejects
  split at rejects
  · next arity commas base outer frames =>
      split at rejects
      · have flushed := rejects.first fun _ => not_rejects_pure _
        rcases flushed.flush with short | ⟨same, noOpening⟩
        · exact .inr (.inl short)
        · exact .inr (.inr ⟨same, ⟨arity, commas, base, outer, frames⟩, noOpening⟩)
      · exact .inl (rejects_fault rejects)
  · exact .inl (rejects_fault rejects)

theorem Rejects.applyCall {arity : Arity} {commas base : Nat} {entries : List (Entry Value)}
    {operands : List Value} (rejects : Rejects cause (applyCall arity commas base entries operands)) :
    cause = .invalidExpression ∨ cause = .unmatchedParenthesis ∧ .opening ∉ entries := by
  rcases rejects.of_bind with flushed | ⟨⟨rest, arguments⟩, _, applied⟩
  · exact flushed.flush
  · dsimp only at applied
    split at applied
    · exact .inl (rejects_fault applied)
    · split at applied
      · exact .inl (applied.first fun _ => not_rejects_pure _).reduce
      · exact .inl (rejects_fault applied)

/-- A closing parenthesis looks for one marker, or for two where a call is open. -/
theorem Rejects.closeParenthesis {machine : Machine Value} (rejects : Rejects cause (closeParenthesis machine)) :
    cause = .invalidExpression ∨ cause = .unmatchedParenthesis ∧
      (.opening ∉ machine.entries ∨ ∃ arity commas base outer rest operands,
        machine.frames = .call arity commas base :: outer ∧
          Machine.flush machine.entries machine.operands = .ok (rest, operands) ∧ .opening ∉ rest) := by
  rcases rejects.of_bind with flushed | ⟨⟨rest, operands⟩, flushed, closed⟩
  · rcases flushed.flush with short | ⟨same, noOpening⟩
    · exact .inl short
    · exact .inr ⟨same, .inl noOpening⟩
  · rw [flush_result] at flushed
    dsimp only at closed
    split at closed
    · next arity commas base outer frames =>
        have applied := closed.first fun _ => not_rejects_pure _
        rcases applied.applyCall with short | ⟨same, noOpening⟩
        · exact .inl short
        · exact .inr ⟨same, .inr ⟨arity, commas, base, outer, rest, operands, frames, flushed, noOpening⟩⟩
    · exact absurd closed (not_rejects_pure _)

theorem Rejects.pushOperator {word : Word} {operator : Operator Value} {machine : Machine Value}
    (rejects : Rejects cause (pushOperator word operator machine)) : cause = .invalidExpression :=
  (rejects.first fun _ => not_rejects_pure _).makeWay

theorem Rejects.openParenthesis {word : Word} {next : Option Char} {machine : Machine Value}
    (rejects : Rejects cause (lift ((machine.openParenthesis vocabulary next).map (·.remember word)) :
      Trace Value (Machine Value))) : cause = .invalidExpression ∨ cause = .misusedParenthesis := by
  have failed := rejects_lift rejects
  unfold Machine.openParenthesis at failed
  split at failed
  · cases failed
    exact .inr rfl
  split at failed
  · split at failed
    · cases failed
    · cases failed
      exact .inl rfl
  · cases failed

/-- A token is rejected for an unmatched parenthesis only if it closes one while none is open. -/
theorem Rejects.step {before : Option Token} {openings : List Opening} {machine : Machine Value}
    (tracks : machine.Tracks vocabulary before openings) {placed : Placed}
    (rejects : Rejects .unmatchedParenthesis (step vocabulary number machine placed)) :
    placed.token = .word [')'] ∧ openings = [] := by
  rcases placed with ⟨token, last, next⟩
  cases token with
  | number text =>
      have failed := rejects_lift rejects
      unfold Machine.readNumber at failed
      split at failed
      · cases failed
      · cases failed
  | word word =>
      simp only [Trace.step, readWord] at rejects
      split at rejects
      · cases rejects_fault rejects
      · next operator known =>
          have closed : .opening ∉ machine.entries → openings = [] := tracks.mirrors.entries.none_open
          split at rejects
          · -- A comma finds the parenthesis of the call that it belongs to.
            have comma := rejects.first fun _ => not_rejects_pure _
            rcases comma.comma with same | same | ⟨_, ⟨arity, commas, base, outer, frames⟩, noOpening⟩
            · cases same
            · cases same
            · rcases tracks.mirrors.call_frame frames with ⟨name, operator, others, rfl, _⟩
              cases closed noOpening
          split at rejects
          · rcases rejects.openParenthesis with same | same <;> cases same
          split at rejects
          · next closing =>
              refine ⟨by rw [(Word.key_mark (by simp [Word.marks])).mp closing], ?_⟩
              have close := rejects.first fun _ => not_rejects_pure _
              rcases close.closeParenthesis with
                same | ⟨_, noOpening | ⟨arity, commas, base, outer, rest, operands, frames, flushed, noOpening⟩⟩
              · cases same
              · exact closed noOpening
              · rcases Machine.flush_ok.mp flushed with ⟨pending, entries, _⟩
                rcases tracks.mirrors.call_entries frames entries with ⟨top, below, _, rfl, _⟩
                exact absurd List.mem_cons_self noOpening
          split at rejects
          · exact absurd (rejects.first fun _ => not_rejects_pure _) (not_rejects_apply _ _ _)
          · have pushed := rejects.first fun _ => not_rejects_pure _
            cases pushed.pushOperator

theorem readAll_applied {machine middle : Machine Value} {before after : List Placed} {placed : Placed}
    (reached : before.foldlM (Machine.step vocabulary number) machine = .ok middle)
    {application : Application Value}
    (member : application ∈ (step vocabulary number middle placed).applications) :
    application ∈ (readAll vocabulary number machine (before ++ placed :: after)).applications := by
  induction before generalizing machine with
  | nil =>
      cases reached
      rw [List.nil_append, readAll, List.foldlM_cons]
      exact (bind_applications _ _ _).mpr (.inl member)
  | cons first rest ih =>
      rw [List.foldlM_cons] at reached
      rcases bind_ok.mp reached with ⟨next, stepped, reached⟩
      rw [List.cons_append, readAll, List.foldlM_cons]
      apply (bind_applications _ _ _).mpr (.inr ⟨next, _, ih reached⟩)
      exact (step_result vocabulary number machine first).trans stepped

theorem run_applied {expression : List Char} {before after : List Placed} {placed : Placed}
    {machine : Machine Value}
    (reaches : machine.Reaches vocabulary number (Text.normalize expression) before (placed :: after))
    {application : Application Value}
    (member : application ∈ (step vocabulary number machine placed).applications) :
    application ∈ (run vocabulary number expression).applications := by
  have goesOn : (Text.normalize expression).isEmpty = false := by
    simpa using (Scan.within reaches.tokens).nonempty
  unfold run
  simp only [goesOn, Bool.false_eq_true, if_false]
  apply (bind_applications _ _ _).mpr (.inl _)
  rw [reaches.tokens]
  exact readAll_applied reaches.accepted member

end Trace

namespace Placed.Within

variable {placed : Placed} {front : List Char}

theorem single (within : placed.Within text front) {char : Char} (written : placed.token.text = [char]) :
    text[placed.last]? = some char := by
  rcases within.written with ⟨back, rfl⟩
  have ends := within.ends
  rw [written, List.length_append, List.length_singleton] at ends
  simp [Nat.succ.inj ends, written]

end Placed.Within

structure Unmatched (text : List Char) (tokens : List Placed) (position : Nat) : Prop where
  written : text[position]? = some ')'
  behind : ∃ before placed after, tokens = before ++ placed :: after ∧ placed.last = position ∧
    placed.token = .word [')'] ∧
      Token.openings (before.map (·.token)) = Token.closings (before.map (·.token))

namespace Failure

/-- Unless a function says so, what closes nothing is a closing parenthesis. -/
theorem unmatched (lawful : vocabulary.Lawful) {expression : List Char} {position : Nat}
    (blameless : (Trace.run vocabulary number expression).refusal = none)
    (failure : Failure vocabulary number (Text.normalize expression)
      ⟨.unmatchedParenthesis, some position⟩) :
    Unmatched (Text.normalize expression) (Scan.ofText vocabulary (Text.normalize expression)).tokens
      position := by
  generalize reported : (⟨.unmatchedParenthesis, some position⟩ : Fault) = fault at failure
  cases failure with
  | refused reaches within member refusal =>
      -- Here a function has said so, which is ruled out.
      have accepts := List.findSome?_eq_none_iff.mp blameless _ (Trace.run_applied reaches member)
      simp [Application.refusal, refusal] at accepts
  | @rejected before after placed machine cause reaches within noRefusal rejected =>
      cases reported
      have rejects : Trace.Rejects .unmatchedParenthesis
          (Trace.step vocabulary number machine placed) := by
        refine ⟨rejected, List.findSome?_eq_none_iff.mpr ?_⟩
        intro application member
        exact application.refusal_eq_none.mpr (noRefusal application member)
      rcases rejects.step (reaches.stands lawful).tracks with ⟨closing, closed⟩
      have counted := reaches.count lawful
      rw [closed, List.length_nil, Nat.zero_add] at counted
      constructor
      · apply within.single
        rw [closing]
        rfl
      · exact ⟨before, placed, after, reaches.tokens, rfl, closing, counted.symm⟩
  | empty | unfinished | unclosed | unbalanced => cases reported

/-- Without a position, parentheses are left open at the end. -/
theorem left_open (lawful : vocabulary.Lawful)
    (failure : Failure vocabulary number text ⟨.unmatchedParenthesis, none⟩) :
    let scan := Scan.ofText vocabulary text
    scan.rest = [] ∧
      Token.closings (scan.tokens.map (·.token)) < Token.openings (scan.tokens.map (·.token)) := by
  generalize reported : (⟨.unmatchedParenthesis, none⟩ : Fault) = fault at failure
  cases failure with
  | refused =>
      have position := congrArg Fault.position reported
      simp at position
  | unclosed finished reaches stillOpen =>
      have tokens := reaches.tokens
      rw [List.append_nil] at tokens
      have counted := reaches.count lawful
      have notClosed := List.length_pos_iff.mpr stillOpen
      dsimp only
      rw [tokens]
      exact ⟨finished, by omega⟩
  | empty | rejected | unfinished | unbalanced => cases reported

end Failure

/-- In an accepted expression the parentheses are matched. If one is unmatched and no function said so, the
position is that of a closing parenthesis with as many opened as closed before it; if there is no position, the
whole expression was read and opens more parentheses than it closes. -/
theorem parentheses_matched {vocabulary : Vocabulary Float} (reachable : vocabulary.Reachable)
    (expression : String) :
    let text := Text.normalize expression.toList
    let scan := Scan.ofText vocabulary text
    let tokens := scan.tokens.map (·.token)
    (∀ value, evaluateExact vocabulary expression = .ok value → Token.Matched tokens) ∧
    (∀ position, evaluateExact vocabulary expression = .error ⟨.unmatchedParenthesis, some position⟩ →
      (Trace.run vocabulary readNumber? expression.toList).refusal = none →
        Unmatched text scan.tokens position) ∧
    (evaluateExact vocabulary expression = .error ⟨.unmatchedParenthesis, none⟩ →
      scan.rest = [] ∧ Token.closings tokens < Token.openings tokens) := by
  have lawful := reachable.lawful
  refine ⟨?_, ?_, ?_⟩
  · intro value accepted
    rcases Machine.run_ok accepted with ⟨machine, _, reached, finished⟩
    have reaches : machine.Reaches vocabulary readNumber? (Text.normalize expression.toList) _ [] :=
      ⟨(List.append_nil _).symm, reached⟩
    apply reaches.matched lawful
    exact (reaches.stands lawful).tracks.mirrors.entries.finish_closed finished
  · intro position failed blameless
    exact ((run_error lawful).mp failed).unmatched lawful blameless
  · intro failed
    exact ((run_error lawful).mp failed).left_open lawful

theorem parentheses_matched_in_turn :
    Token.Matched ((Scan.ofText (.standard 0) "(1+2)*3".toList).tokens.map (·.token)) ∧
    Unmatched "(1+2))".toList (Scan.ofText (.standard 0) "(1+2))".toList).tokens 5 ∧
    Token.closings ((Scan.ofText (.standard 0) "((1+2)".toList).tokens.map (·.token)) <
      Token.openings ((Scan.ofText (.standard 0) "((1+2)".toList).tokens.map (·.token)) := by
  have reachable : (Vocabulary.standard 0).Reachable := ⟨0, [], rfl⟩
  refine ⟨?_, ?_, ?_⟩
  · exact (parentheses_matched reachable "(1+2)*3").1 _ rfl
  · exact (parentheses_matched reachable "(1+2))").2.1 5 rfl (by decide +kernel)
  · exact ((parentheses_matched reachable "((1+2)").2.2 rfl).2

end Calculator
