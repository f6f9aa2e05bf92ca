import Calculator.Proofs.Applications

/-!
Where an evaluation fails. What fails at a token is placed at its last character, unless the operator that
refuses its operands says otherwise; an unfinished rest is placed where it begins. When the text ends, only
arithmetic operators are left, so that no fault without a position comes from a function.
-/

namespace Calculator

structure Placed.Within (placed : Placed) (text front : List Char) : Prop where
  written : ∃ back, text = front ++ placed.token.text ++ back
  ends : placed.last + 1 = (front ++ placed.token.text).length
  inside : placed.last < text.length

inductive Failure {Value : Type} (vocabulary : Vocabulary Value) (number : List Char → Option Value)
    (text : List Char) : Fault → Prop where
  | empty (nothing : text = []) : Failure vocabulary number text ⟨.emptyExpression, none⟩
  /-- An operator refuses what it is applied to when a token is read. -/
  | refused {before after : List Placed} {placed : Placed} {machine : Machine Value} {fault : Fault}
      {application : Application Value}
      (reaches : machine.Reaches vocabulary number text before (placed :: after))
      (within : placed.Within text (Token.spelling (before.map (·.token))))
      (member : application ∈ (Trace.step vocabulary number machine placed).applications)
      (refusal : application.operator.apply application.operands = .error fault)
      (failed : (Trace.step vocabulary number machine placed).result = .error fault) :
      Failure vocabulary number text ⟨fault.cause, fault.position.or (some placed.last)⟩
  /-- A token is rejected for its own sake. -/
  | rejected {before after : List Placed} {placed : Placed} {machine : Machine Value} {cause : Cause}
      (reaches : machine.Reaches vocabulary number text before (placed :: after))
      (within : placed.Within text (Token.spelling (before.map (·.token))))
      (noRefusal : ∀ application ∈ (Trace.step vocabulary number machine placed).applications,
        ∃ value, application.operator.apply application.operands = .ok value)
      (failed : (Trace.step vocabulary number machine placed).result = .error ⟨cause, none⟩) :
      Failure vocabulary number text ⟨cause, some placed.last⟩
  | unfinished {tokens : List Placed} {machine : Machine Value} {front rest : List Char}
      (reaches : machine.Reaches vocabulary number text tokens [])
      (buffer : (Scan.ofText vocabulary text).rest = rest) (nonempty : rest ≠ [])
      (split : text = front ++ rest) :
      Failure vocabulary number text ⟨.unrecognizedToken, some front.length⟩
  | unclosed {tokens : List Placed} {machine : Machine Value}
      (finished : (Scan.ofText vocabulary text).rest = [])
      (reaches : machine.Reaches vocabulary number text tokens [])
      (stillOpen : Opening.unclosed vocabulary (tokens.map (·.token)) ≠ [])
      (failed : machine.finish = .error ⟨.unmatchedParenthesis, none⟩) :
      Failure vocabulary number text ⟨.unmatchedParenthesis, none⟩
  /-- The operators that are left lack operands, or there is not just one value in the end. -/
  | unbalanced {tokens : List Placed} {machine : Machine Value} (nonempty : text ≠ [])
      (finished : (Scan.ofText vocabulary text).rest = [])
      (reaches : machine.Reaches vocabulary number text tokens [])
      (failed : machine.finish = .error ⟨.invalidExpression, none⟩) :
      Failure vocabulary number text ⟨.invalidExpression, none⟩

variable {Value : Type} {vocabulary : Vocabulary Value} {number : List Char → Option Value}
  {text : List Char} {fault : Fault}

/-- Only a function has anything to say about its operands. -/
theorem Operator.apply_error {operator : Operator Value} (noFunction : operator.isFunction = false)
    {operands : List Value} (failed : operator.apply operands = .error fault) :
    fault = ⟨.invalidExpression, none⟩ := by
  unfold Operator.apply at failed
  split at failed
  · cases failed
  · next body action => simp [isFunction, action] at noFunction
  · cases failed
    rfl

theorem Waiting.reduce_error {top : Waiting Value} (noFunction : top.operator.isFunction = false)
    {operands : List Value} (failed : top.reduce operands = .error fault) :
    fault = ⟨.invalidExpression, none⟩ := by
  unfold Waiting.reduce at failed
  split at failed
  · cases failed
    rfl
  · rcases bind_error.mp failed with applied | ⟨value, _, done⟩
    · exact Operator.apply_error noFunction applied
    · cases done

namespace Machine

theorem Sheltered.drain_error {entries : List (Entry Value)} {openings : List Opening}
    (sheltered : Sheltered vocabulary entries openings) {operands : List Value}
    (failed : drain entries operands = .error fault) :
    openings ≠ [] ∧ fault = ⟨.unmatchedParenthesis, none⟩ ∨ fault = ⟨.invalidExpression, none⟩ := by
  induction sheltered generalizing operands with
  | empty => cases failed
  | operator known noFunction declared below ih =>
      rcases bind_error.mp failed with reduced | ⟨middle, _, later⟩
      · exact .inr (Waiting.reduce_error noFunction reduced)
      · exact ih later
  | plain | call =>
      cases failed
      exact .inl ⟨by simp, rfl⟩

/-- What is left when a text ends waits with its operands or between parentheses. -/
theorem Reaches.sheltered (lawful : vocabulary.Lawful) {tokens : List Placed}
    {machine : Machine Value} (finished : (Scan.ofText vocabulary text).rest = [])
    (reaches : machine.Reaches vocabulary number text tokens []) :
    Sheltered vocabulary machine.entries (Opening.unclosed vocabulary (tokens.map (·.token))) := by
  have poised := (reaches.stands lawful).poised
  rw [reaches.none_named lawful finished] at poised
  cases poised with
  | settled sheltered => exact sheltered

theorem Reaches.finish_error (lawful : vocabulary.Lawful) (nonempty : text ≠ [])
    {tokens : List Placed} {machine : Machine Value}
    (finished : (Scan.ofText vocabulary text).rest = [])
    (reaches : machine.Reaches vocabulary number text tokens [])
    (failed : machine.finish = .error fault) : Failure vocabulary number text fault := by
  have sheltered := reaches.sheltered lawful finished
  rcases bind_error.mp failed with drained | ⟨values, _, counted⟩
  · rcases sheltered.drain_error drained with ⟨stillOpen, rfl⟩ | rfl
    · exact .unclosed finished reaches stillOpen failed
    · exact .unbalanced nonempty finished reaches failed
  · split at counted
    · cases counted
    · cases counted
      exact .unbalanced nonempty finished reaches failed

theorem reading_error {machine : Machine Value} {tokens : List Placed} :
    tokens.foldlM (step vocabulary number) machine = .error fault ↔
      ∃ before placed after middle, tokens = before ++ placed :: after ∧
        before.foldlM (step vocabulary number) machine = .ok middle ∧
        middle.step vocabulary number placed = .error fault := by
  constructor
  · intro failed
    induction tokens generalizing machine with
    | nil => cases failed
    | cons first rest ih =>
        rw [List.foldlM_cons] at failed
        rcases bind_error.mp failed with now | ⟨next, accepted, later⟩
        · exact ⟨[], first, rest, machine, rfl, rfl, now⟩
        · rcases ih later with ⟨before, placed, after, middle, rfl, reached, stepped⟩
          refine ⟨first :: before, placed, after, middle, rfl, ?_, stepped⟩
          rw [List.foldlM_cons]
          exact bind_ok.mpr ⟨next, accepted, reached⟩
  · rintro ⟨before, placed, after, middle, rfl, reached, stepped⟩
    rw [List.foldlM_append]
    apply bind_error.mpr (.inr ⟨middle, reached, _⟩)
    rw [List.foldlM_cons]
    exact bind_error.mpr (.inl stepped)

end Machine

theorem Machine.Reaches.fails {before after : List Placed} {placed : Placed} {machine : Machine Value}
    (reaches : machine.Reaches vocabulary number text before (placed :: after))
    (failed : (Trace.step vocabulary number machine placed).result = .error fault) :
    (Scan.ofText vocabulary text).tokens.foldlM (step vocabulary number) initial =
      .error (fault.located placed.last) := by
  have stepped := Trace.step_result vocabulary number machine placed
  rw [failed] at stepped
  exact reading_error.mpr ⟨before, placed, after, machine, reaches.tokens, reaches.accepted, stepped.symm⟩

theorem Machine.Reaches.all_read {tokens : List Placed} {machine : Machine Value}
    (reaches : machine.Reaches vocabulary number text tokens []) :
    (Scan.ofText vocabulary text).tokens.foldlM (step vocabulary number) initial = .ok machine := by
  rw [reaches.tokens, List.append_nil]
  exact reaches.accepted

theorem Placed.Within.nonempty {placed : Placed} {front : List Char} (within : placed.Within text front) :
    text ≠ [] := by
  rintro rfl
  exact absurd within.inside (Nat.not_lt_zero _)

theorem Scan.within {before after : List Placed} {placed : Placed}
    (tokens : (ofText vocabulary text).tokens = before ++ placed :: after) :
    placed.Within text (Token.spelling (before.map (·.token))) := by
  rcases @ofText_split Value vocabulary text with ⟨split, legible⟩
  have last := ofText_last tokens
  rw [tokens, List.map_append, List.map_cons] at split legible
  have solid := List.length_pos_iff.mpr (Token.legible_nonempty legible placed.token (by simp))
  rw [Token.spelling_append, Token.spelling_cons] at split
  have ends : placed.last + 1 =
      (Token.spelling (before.map (·.token)) ++ placed.token.text).length := by
    rw [List.length_append]
    omega
  have length := congrArg List.length split
  simp only [List.length_append] at length ends
  refine ⟨⟨Token.spelling (after.map (·.token)) ++ (ofText vocabulary text).rest, ?_⟩, ?_, ?_⟩
  · simpa using split
  · rwa [List.length_append]
  · omega

namespace Failure

/-- A step that fails has an operator to blame, or fails for its own sake. -/
theorem of_step {before after : List Placed} {placed : Placed} {machine : Machine Value}
    (reaches : machine.Reaches vocabulary number text before (placed :: after))
    (failed : machine.step vocabulary number placed = .error fault) :
    Failure vocabulary number text fault := by
  have within := Scan.within reaches.tokens
  have blames := Trace.blames_step vocabulary number machine placed
  rw [← Trace.step_result] at failed
  rcases located_error.mp failed with ⟨cause, stepped, rfl⟩
  simp only [Trace.Blames, stepped] at blames
  rcases blames with refusal | ⟨noRefusal, unplaced⟩
  · rcases List.exists_of_findSome?_eq_some refusal with ⟨application, member, refuses⟩
    exact .refused reaches within member (application.refusal_eq_some.mp refuses) stepped
  · rcases cause with ⟨cause, position⟩
    cases unplaced
    apply Failure.rejected reaches within _ stepped
    intro application member
    exact application.refusal_eq_none.mp (List.findSome?_eq_none_iff.mp noRefusal application member)

end Failure

theorem run_error_cases :
    run vocabulary number text = .error fault ↔
      Text.normalize text = [] ∧ fault = ⟨.emptyExpression, none⟩ ∨ Text.normalize text ≠ [] ∧
        let scan := Scan.ofText vocabulary (Text.normalize text)
        let reading := scan.tokens.foldlM (Machine.step vocabulary number) .initial
        reading = .error fault ∨ ∃ machine, reading = .ok machine ∧
          (scan.rest = [] ∧ machine.finish = .error fault ∨ scan.rest ≠ [] ∧
            fault = ⟨.unrecognizedToken, some ((Text.normalize text).length - scan.rest.length)⟩) := by
  unfold run
  by_cases nothing : Text.normalize text = []
  · simp only [nothing, List.isEmpty_nil, if_true]
    constructor
    · intro failed
      cases failed
      exact .inl ⟨trivial, rfl⟩
    · rintro (⟨_, rfl⟩ | ⟨nonempty, _⟩)
      · rfl
      · exact absurd rfl nonempty
  · have goesOn : (Text.normalize text).isEmpty = false := by simpa using nothing
    simp only [goesOn, Bool.false_eq_true, if_false, bind_error, nothing, false_and, false_or,
      ne_eq, not_false_eq_true, true_and]
    refine or_congr_right (exists_congr fun machine => and_congr_right fun _ => ?_)
    by_cases finished : (Scan.ofText vocabulary (Text.normalize text)).rest = []
    · simp [finished]
    · simp [finished, @eq_comm _ fault]

/-- A text fails to evaluate in one of these ways, with the fault that belongs to it. -/
theorem run_error (lawful : vocabulary.Lawful) :
    run vocabulary number text = .error fault ↔
      Failure vocabulary number (Text.normalize text) fault := by
  rw [run_error_cases]
  generalize Text.normalize text = normalized
  have all := (List.append_nil (Scan.ofText vocabulary normalized).tokens).symm
  constructor
  · rintro (⟨nothing, rfl⟩ | ⟨nonempty, reading | ⟨machine, accepted, ⟨finished, failed⟩ | ⟨unread, rfl⟩⟩⟩)
    · exact .empty nothing
    · rcases Machine.reading_error.mp reading with ⟨before, placed, after, machine, tokens, accepted, stepped⟩
      exact .of_step ⟨tokens, accepted⟩ stepped
    · have reaches : machine.Reaches vocabulary number normalized _ [] := ⟨all, accepted⟩
      exact reaches.finish_error lawful nonempty finished failed
    · have split := (@Scan.ofText_split Value vocabulary normalized).1
      have length := congrArg List.length split
      rw [List.length_append] at length
      rw [Nat.sub_eq_of_eq_add length]
      exact .unfinished ⟨all, accepted⟩ rfl unread split
  · intro failure
    cases failure with
    | empty nothing => exact .inl ⟨nothing, rfl⟩
    | refused reaches within member refusal failed =>
        exact .inr ⟨within.nonempty, .inl (reaches.fails failed)⟩
    | rejected reaches within noRefusal failed =>
        exact .inr ⟨within.nonempty, .inl (reaches.fails failed)⟩
    | unfinished reaches buffer unread split =>
        have length := congrArg List.length split
        rw [List.length_append] at length
        have nonempty : normalized ≠ [] := by
          rintro rfl
          exact unread (List.append_eq_nil_iff.mp split.symm).2
        rw [← buffer] at unread length
        refine .inr ⟨nonempty, .inr ⟨_, reaches.all_read, .inr ⟨unread, ?_⟩⟩⟩
        rw [Nat.sub_eq_of_eq_add length]
    | unclosed finished reaches stillOpen failed =>
        have nonempty : normalized ≠ [] := by
          rintro rfl
          have nothing := reaches.tokens
          rw [List.append_nil] at nothing
          rw [← nothing] at stillOpen
          exact stillOpen rfl
        exact .inr ⟨nonempty, .inr ⟨_, reaches.all_read, .inl ⟨finished, failed⟩⟩⟩
    | unbalanced nonempty finished reaches failed =>
        exact .inr ⟨nonempty, .inr ⟨_, reaches.all_read, .inl ⟨finished, failed⟩⟩⟩

/-- Evaluation fails in one of these ways only, each with a fault of its own, and no function is applied when
the text has ended. -/
theorem failures_located {vocabulary : Vocabulary Float} (reachable : vocabulary.Reachable)
    (expression : String) :
    (∀ fault, evaluateExact vocabulary expression = .error fault ↔
      Failure vocabulary readNumber? (Text.normalize expression.toList) fault) ∧
    ∀ tokens application,
      Trace.Invokes vocabulary readNumber? (Text.normalize expression.toList) tokens none application →
        application.operator.isFunction = false := by
  have lawful := reachable.lawful
  constructor
  · intro fault
    exact run_error lawful
  · rintro tokens application (_ | ⟨finished, reaches, member⟩)
    rcases Trace.finish_applies member with ⟨top, above, applies⟩
    rcases (reaches.sheltered lawful finished).of_topmost top above with ⟨_, noFunction, _⟩
    rwa [applies.operator]

theorem failures_located_closing :
    Failure (.standard 0) readNumber? (Text.normalize "1 + 2)".toList)
      ⟨.unmatchedParenthesis, some 4⟩ := by
  have reachable : (Vocabulary.standard 0).Reachable := ⟨0, [], rfl⟩
  exact ((failures_located reachable "1 + 2)").1 _).mp rfl

end Calculator
