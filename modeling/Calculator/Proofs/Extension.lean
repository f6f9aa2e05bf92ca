import Calculator.Proofs.Applications

/-!
Vocabularies that differ by one function. Where its name would be taken for a token, the vocabulary without
it finds no token any more, however the text goes on. So the two evaluate a text alike, unless the one ends
with an unfinished rest just where the other reads the name.
-/

namespace Calculator

namespace Word

theorem sign_alphanum {word : Word} (sign : word.isSign = true) :
    ∀ char ∈ word, char.isAlphanum = true := by
  simp only [isSign, Bool.or_eq_true, beq_iff_eq] at sign
  apply List.all_eq_true.mp
  rcases sign with rfl | rfl <;> rfl

end Word

section

variable {Value : Type}

structure Vocabulary.Gains (vocabulary changed : Vocabulary Value) (name : Word) : Prop where
  unknown : vocabulary.knows name = false
  function : changed.isFunction name = true
  kept : ∀ {word}, word ≠ name → changed.get? word = vocabulary.get? word

def Unfinished (vocabulary : Vocabulary Value) (number : List Char → Option Value) (text : List Char) :
    Prop :=
  ∃ tokens machine, Machine.Reaches vocabulary number text tokens [] machine ∧
    (Scan.ofText vocabulary text).rest ≠ []

def Dispatches (vocabulary : Vocabulary Value) (number : List Char → Option Value) (text : List Char)
    (token : Token) : Prop :=
  ∃ before placed after machine,
    Machine.Reaches vocabulary number text before (placed :: after) machine ∧ placed.token = token

end

open Token

variable {Value : Type} {vocabulary changed : Vocabulary Value} {name : Word}

namespace Vocabulary.Lawful

/-- A name with a symbol behind it is no start of a token. -/
theorem spoiled_pending (lawful : vocabulary.Lawful) {char : Char} {rest : List Char}
    (letter : Text.startsNumber char = false) (solid : Text.isBlank char = false)
    (spoiled : ∃ symbol ∈ rest, [symbol] ∈ Word.symbols) (next : Option Char) :
    complete? vocabulary (char :: rest) next = none := by
  rcases spoiled with ⟨symbol, member, isSymbol⟩
  have noAlphanum := (Word.symbol_char isSymbol).1
  have inside : symbol ∈ char :: rest := List.mem_cons_of_mem char member
  have unknown : vocabulary.knows (char :: rest) = false := by
    cases known : vocabulary.knows (char :: rest) with
    | false => rfl
    | true =>
        rcases lawful.known_cases known with single | sign | ⟨_, callable⟩
        · rcases Word.symbol_single single with ⟨_, alone⟩
          cases alone
          cases member
        · cases noAlphanum.symm.trans (Word.sign_alphanum sign symbol inside)
        · cases noAlphanum.symm.trans ((Word.functionName_chars callable).1 symbol inside)
  simp [complete?, completesWord, unknown, completesNumber, no_literal solid letter]

end Vocabulary.Lawful

namespace Scan

theorem resume_spoiled (lawful : vocabulary.Lawful) {char : Char}
    (letter : Text.startsNumber char = false) (solid : Text.isBlank char = false)
    {index : Nat} {rest text : List Char} (spoiled : ∃ symbol ∈ rest, [symbol] ∈ Word.symbols) :
    resume vocabulary index (char :: rest) text = ⟨[], char :: rest ++ text⟩ := by
  induction text generalizing index rest with
  | nil => simp [resume]
  | cons following others ih =>
      rcases spoiled with ⟨symbol, member, isSymbol⟩
      have longer : ∃ symbol ∈ rest ++ [following], [symbol] ∈ Word.symbols :=
        ⟨symbol, List.mem_append_left _ member, isSymbol⟩
      have pending : classify vocabulary (char :: rest) following others.head? = none :=
        lawful.spoiled_pending letter solid longer _
      rw [resume_pending pending, List.cons_append, ih longer]
      simp

end Scan

namespace Vocabulary.Gains

theorem knows_same (gains : vocabulary.Gains changed name) {word : Word} (other : word ≠ name) :
    changed.knows word = vocabulary.knows word := by
  rw [knows, knows, gains.kept other]

theorem isFunction_same (gains : vocabulary.Gains changed name) {word : Word} (other : word ≠ name) :
    changed.isFunction word = vocabulary.isFunction word := by
  rw [isFunction, isFunction, gains.kept other]

theorem isConstant_same (gains : vocabulary.Gains changed name) {word : Word} (other : word ≠ name) :
    changed.isConstant word = vocabulary.isConstant word := by
  rw [isConstant, isConstant, gains.kept other]

theorem not_known (gains : vocabulary.Gains changed name) {word : Word}
    (known : vocabulary.knows word = true) : word ≠ name := by
  rintro rfl
  cases known.symm.trans gains.unknown

/-- A function ends no name, so nothing ends a name that did not before. -/
theorem endsName_same (gains : vocabulary.Gains changed name) (char : Char) :
    endsName changed char = endsName vocabulary char := by
  by_cases own : [char] = name
  · simp [endsName, own, gains.function, gains.unknown]
  · rw [endsName, endsName, gains.knows_same own, gains.isFunction_same own]

theorem complete_same (gains : vocabulary.Gains changed name) {candidate : List Char}
    (other : candidate ≠ name) (next : Option Char) :
    complete? changed candidate next = complete? vocabulary candidate next := by
  have ends : endsName changed = endsName vocabulary := funext gains.endsName_same
  have word : completesWord changed candidate next = completesWord vocabulary candidate next := by
    rw [completesWord, completesWord, gains.knows_same other, gains.isFunction_same other,
      gains.isConstant_same other, ends]
  rw [complete?, complete?, word]

theorem callable (gains : vocabulary.Gains changed name) (lawful : changed.Lawful) :
    ∃ char rest, name = char :: rest ∧ Text.startsNumber char = false ∧ Text.isBlank char = false := by
  rcases Word.functionName_chars (lawful.function_callable gains.function) with
    ⟨alphanum, char, rest, rfl, letter⟩
  exact ⟨char, rest, rfl, letter, Word.alphanum_not_blank (alphanum char List.mem_cons_self)⟩

theorem own_pending (gains : vocabulary.Gains changed name) (lawful : changed.Lawful)
    (next : Option Char) : complete? vocabulary name next = none := by
  rcases gains.callable lawful with ⟨char, rest, same, letter, solid⟩
  have noLiteral : isLiteral name = false := same ▸ no_literal solid letter
  simp [complete?, completesWord, gains.unknown, completesNumber, noLiteral]

theorem own_complete (gains : vocabulary.Gains changed name) (lawful : changed.Lawful)
    {next : Option Char} {token : Token} (complete : complete? changed name next = some token) :
    token = .word name ∧ Vocabulary.Lawful.Closes next := by
  rcases gains.callable lawful with ⟨char, rest, same, letter, solid⟩
  unfold complete? at complete
  split at complete
  · next ends =>
      cases complete
      exact ⟨rfl, (lawful.function_closes gains.function ends).1⟩
  · split at complete
    · next number =>
        simp only [completesNumber, same, no_literal solid letter, Bool.false_and] at number
        cases number
    · cases complete

/-- Where the name is a token for the one vocabulary, the other finds no token any more. -/
theorem resume_own (gains : vocabulary.Gains changed name) (lawful : vocabulary.Lawful)
    (extended : changed.Lawful) (index : Nat) {text : List Char}
    (closes : Vocabulary.Lawful.Closes text.head?) :
    Scan.resume vocabulary index name text = ⟨[], name ++ text⟩ := by
  rcases gains.callable extended with ⟨char, rest, rfl, letter, solid⟩
  cases text with
  | nil => simp [Scan.resume]
  | cons following others =>
      have spoiled : ∃ symbol ∈ rest ++ [following], [symbol] ∈ Word.symbols :=
        ⟨following, by simp, closes following rfl⟩
      have pending : classify vocabulary (char :: rest) following others.head? = none :=
        lawful.spoiled_pending letter solid spoiled _
      rw [Scan.resume_pending pending, List.cons_append, Scan.resume_spoiled lawful letter solid spoiled]
      simp

theorem resume_cases (gains : vocabulary.Gains changed name) (lawful : vocabulary.Lawful)
    (extended : changed.Lawful) (index : Nat) (buffer text : List Char) :
    Scan.resume changed index buffer text = Scan.resume vocabulary index buffer text ∨
      (Scan.resume vocabulary index buffer text).rest ≠ [] ∧
        ∃ placed more, placed.token = .word name ∧ (Scan.resume changed index buffer text).tokens =
          (Scan.resume vocabulary index buffer text).tokens ++ placed :: more := by
  induction text generalizing index buffer with
  | nil => exact .inl rfl
  | cons char rest ih =>
      by_cases own : buffer ++ [char] = name
      · have pending : classify vocabulary buffer char rest.head? = none := by
          rw [classify, own]
          exact gains.own_pending extended _
        cases found : classify changed buffer char rest.head? with
        | none =>
            rw [Scan.resume_pending found, Scan.resume_pending pending]
            exact ih (index + 1) (buffer ++ [char])
        | some token =>
            rw [Scan.resume_complete found, Scan.resume_pending pending, own]
            rw [classify, own] at found
            rcases gains.own_complete extended found with ⟨rfl, closes⟩
            rw [gains.resume_own lawful extended _ closes]
            refine .inr ⟨?_, _, _, rfl, rfl⟩
            rcases gains.callable extended with ⟨first, others, rfl, _⟩
            simp
      · have same := gains.complete_same own rest.head?
        cases found : classify vocabulary buffer char rest.head? with
        | none =>
            rw [Scan.resume_pending found, Scan.resume_pending (same.trans found)]
            exact ih (index + 1) (buffer ++ [char])
        | some token =>
            rw [Scan.resume_complete found, Scan.resume_complete (same.trans found)]
            rcases ih (index + 1) [] with alike | ⟨unread, placed, more, isOwn, tokens⟩
            · exact .inl (by rw [alike])
            · exact .inr ⟨unread, placed, more, isOwn, by simp [tokens]⟩

end Vocabulary.Gains

namespace Machine

variable {number : List Char → Option Value} {machine : Machine Value}

theorem previous_other (gains : vocabulary.Gains changed name) {before : Option Token}
    {openings : List Opening} (tracks : Tracks vocabulary before openings machine)
    (other : before ≠ some (.word name)) {word : Word}
    (previous : machine.previous = some (.operator word)) : word ≠ name := by
  rintro rfl
  rw [tracks.previous] at previous
  rcases before with _ | ⟨written⟩ | ⟨text⟩
  · cases previous
  · cases constant : vocabulary.isConstant written with
    | true => simp [taken, constant] at previous
    | false =>
        simp only [Option.map_some, taken, constant, Bool.false_eq_true, if_false, Option.some.injEq,
          Previous.operator.injEq] at previous
        exact other (by rw [previous])
  · cases previous

theorem openParenthesis_same (gains : vocabulary.Gains changed name) {before : Option Token}
    {openings : List Opening} (tracks : Tracks vocabulary before openings machine)
    (other : before ≠ some (.word name)) (next : Option Char) :
    machine.openParenthesis changed next = machine.openParenthesis vocabulary next := by
  have behind : ∀ {word}, machine.previous = some (.operator word) →
      changed.isFunction word = vocabulary.isFunction word :=
    fun previous => gains.isFunction_same (previous_other gains tracks other previous)
  have admits : machine.admitsEmpty changed = machine.admitsEmpty vocabulary := by
    unfold admitsEmpty
    split
    · rfl
    · next word previous => rw [behind previous]
    · rfl
  have opens : machine.opensCall changed = machine.opensCall vocabulary := by
    unfold opensCall
    split
    · next word previous => rw [behind previous]
    · rfl
  rw [openParenthesis, openParenthesis, admits, opens]

/-- Any other token means the same for both, behind any other token. -/
theorem step_same (gains : vocabulary.Gains changed name) (lawful : vocabulary.Lawful)
    {before : Option Token} {openings : List Opening} (tracks : Tracks vocabulary before openings machine)
    (other : before ≠ some (.word name)) {placed : Placed} (found : placed.token ≠ .word name) :
    machine.step changed number placed = machine.step vocabulary number placed := by
  rcases placed with ⟨⟨word⟩ | ⟨text⟩, last, next⟩
  · have key : word.key next machine.previous ≠ name := by
      rcases Word.key_cases word next machine.previous with same | ⟨_, ⟨_, minus⟩ | ⟨_, plus⟩⟩
      · rw [same]
        rintro rfl
        exact found rfl
      · rcases lawful.sign Word.negative (by simp) with ⟨compute, known⟩
        rw [minus]
        exact gains.not_known (by simp [Vocabulary.knows, known])
      · rcases lawful.sign Word.positive (by simp) with ⟨compute, known⟩
        rw [plus]
        exact gains.not_known (by simp [Vocabulary.knows, known])
    have opens := openParenthesis_same gains tracks other next
    simp only [step, readWord, gains.kept key, opens]
  · rfl

theorem reading_same (gains : vocabulary.Gains changed name) (lawful : vocabulary.Lawful)
    {before : Option Token} {openings : List Opening} (tracks : Tracks vocabulary before openings machine)
    (other : before ≠ some (.word name)) {tokens : List Placed}
    (found : ∀ placed ∈ tokens, placed.token ≠ .word name) :
    tokens.foldlM (step changed number) machine = tokens.foldlM (step vocabulary number) machine := by
  induction tokens generalizing machine before openings with
  | nil => rfl
  | cons first rest ih =>
      have isOther := found first List.mem_cons_self
      rw [List.foldlM_cons, List.foldlM_cons, step_same gains lawful tracks other isOther]
      cases stepped : machine.step vocabulary number first with
      | error fault => rfl
      | ok after =>
          have later := tracks.step lawful (step_moves lawful stepped)
          exact ih later (fun same => isOther (Option.some.inj same))
            fun placed member => found placed (List.mem_cons_of_mem first member)

end Machine

/-- Both evaluate a text alike, or one of them ends with an unfinished rest and the other reads the name. -/
theorem run_gains (gains : vocabulary.Gains changed name) (lawful : vocabulary.Lawful)
    (extended : changed.Lawful) (number : List Char → Option Value) (text : List Char) :
    run changed number text = run vocabulary number text ∨
      Unfinished vocabulary number (Text.normalize text) ∧
        Dispatches changed number (Text.normalize text) (.word name) := by
  unfold run
  generalize Text.normalize text = normalized
  by_cases nothing : normalized.isEmpty = true
  · exact .inl (by simp [nothing])
  have found : ∀ placed ∈ (Scan.ofText vocabulary normalized).tokens, placed.token ≠ .word name := by
    intro placed member same
    have isFound := Scan.resume_found placed member
    rw [same] at isFound
    exact gains.not_known isFound.1 rfl
  have reading := @Machine.reading_same _ vocabulary changed name number _ gains lawful _ _
    Machine.Tracks.initial (by simp) _ found
  simp only [nothing, Bool.false_eq_true, if_false]
  rcases gains.resume_cases lawful extended 0 [] normalized with alike | ⟨unread, placed, more, own, tokens⟩
  · have scan : Scan.ofText changed normalized = Scan.ofText vocabulary normalized := alike
    rw [scan, reading]
    exact .inl rfl
  have split : (Scan.ofText changed normalized).tokens =
      (Scan.ofText vocabulary normalized).tokens ++ placed :: more := tokens
  cases reached : (Scan.ofText vocabulary normalized).tokens.foldlM
      (Machine.step vocabulary number) .initial with
  | error fault =>
      left
      rw [split, List.foldlM_append, reading, reached]
      rfl
  | ok machine =>
      right
      rw [reached] at reading
      exact ⟨⟨_, machine, ⟨(List.append_nil _).symm, reached⟩, unread⟩,
        _, placed, more, machine, ⟨split, reading⟩, own⟩

theorem Vocabulary.Reachable.edited {vocabulary changed : Vocabulary Float}
    (reachable : vocabulary.Reachable) {edit : Edit Float}
    (accepted : edit.attempt vocabulary = .ok changed) : changed.Reachable := by
  rcases reachable with ⟨draw, edits, rfl⟩
  refine ⟨draw, edits ++ [edit], ?_⟩
  rw [Edit.applyAll, List.foldl_append]
  change changed = edit.apply (Edit.applyAll (.standard draw) edits)
  rw [Edit.apply, accepted]

theorem Vocabulary.gains_added {vocabulary changed : Vocabulary Value} {name : Word} {arity : Arity}
    {body : Body Value} (unknown : vocabulary.knows name = false)
    (added : vocabulary.add name arity body = .ok changed) : vocabulary.Gains changed name := by
  unfold add at added
  split at added
  · cases added
  · split at added
    · cases added
    · cases added
      constructor
      · exact unknown
      · simp [isFunction, get?_insert_self, Operator.function, Operator.isFunction]
      · intro word other
        exact get?_insert_other vocabulary _ other

theorem Vocabulary.gains_removed {vocabulary changed : Vocabulary Value} {name : Word}
    (removed : vocabulary.remove name = .ok changed) : changed.Gains vocabulary name := by
  unfold remove at removed
  split at removed
  · cases removed
  · split at removed
    · cases removed
    · next function =>
        split at removed
        · cases removed
        · cases removed
          constructor
          · simp [knows, get?_erase_self]
          · simpa using function
          · intro word other
            exact (get?_erase_other vocabulary other).symm

/-- A new function changes no evaluation that would not end with an unfinished rest, and removing a function
changes none that does not read its name. The characters that end a name are always the same. The two evaluations are
compared with the same draw of `rand`. -/
theorem functions_conservative {vocabulary : Vocabulary Float} (reachable : vocabulary.Reachable) :
    (∀ {name arity body changed}, vocabulary.knows name = false →
      vocabulary.add name arity body = .ok changed → ∀ expression : String,
        ¬ Unfinished vocabulary readNumber? (Text.normalize expression.toList) →
          evaluateExact changed expression = evaluateExact vocabulary expression) ∧
    (∀ {name changed}, vocabulary.remove name = .ok changed → ∀ expression : String,
      ¬ Dispatches vocabulary readNumber? (Text.normalize expression.toList) (.word name) →
        evaluateExact changed expression = evaluateExact vocabulary expression) ∧
    ∀ {other : Vocabulary Float}, other.Reachable → ∀ char,
      endsName other char = endsName vocabulary char := by
  have lawful := reachable.lawful
  refine ⟨?_, ?_, ?_⟩
  · intro name arity body changed unknown added expression finished
    have extended := (@Vocabulary.Reachable.edited _ _ reachable (.add name arity body) added).lawful
    have gains := Vocabulary.gains_added unknown added
    rcases run_gains gains lawful extended readNumber? expression.toList with same | ⟨unfinished, _⟩
    · exact same
    · exact absurd unfinished finished
  · intro name changed removed expression unread
    have reduced := (@Vocabulary.Reachable.edited _ _ reachable (.remove name) removed).lawful
    have gains := Vocabulary.gains_removed removed
    rcases run_gains gains reduced lawful readNumber? expression.toList with same | ⟨_, dispatched⟩
    · exact same.symm
    · exact absurd dispatched unread
  · intro other otherReachable char
    rw [Bool.eq_iff_iff, otherReachable.lawful.endsName_iff, lawful.endsName_iff]

theorem functions_conservative_sum :
    let sum : Operator Float := .function .variadic fun numbers => .ok (total numbers)
    let extended := (Vocabulary.standard 0).insert "sum".toList sum
    evaluateExact extended "min(1,2)*3" = evaluateExact (.standard 0) "min(1,2)*3" ∧
      evaluateExact (extended.erase "sum".toList) "min(1,2)*3" = evaluateExact extended "min(1,2)*3" ∧
      endsName extended 's' = endsName (.standard 0) 's' := by
  intro sum extended
  let body : Body Float := fun numbers => .ok (total numbers)
  have reachable : (Vocabulary.standard 0).Reachable := ⟨0, [], rfl⟩
  have edited : extended.Reachable := ⟨0, [.add "sum".toList .variadic body], rfl⟩
  have added : (Vocabulary.standard 0).add "sum".toList .variadic body = .ok extended := rfl
  have removed : extended.remove "sum".toList = .ok (extended.erase "sum".toList) := rfl
  have finished : (Scan.ofText (.standard 0) (Text.normalize "min(1,2)*3".toList)).rest = [] := by
    decide +kernel
  have unread : ∀ placed ∈ (Scan.ofText extended (Text.normalize "min(1,2)*3".toList)).tokens,
      placed.token ≠ .word "sum".toList := by
    decide +kernel
  rcases functions_conservative reachable with ⟨adding, _, ends⟩
  rcases functions_conservative edited with ⟨_, removing, _⟩
  refine ⟨adding (by decide +kernel) added _ ?_, removing removed _ ?_, ends edited 's'⟩
  · rintro ⟨tokens, machine, reaches, rest⟩
    exact rest finished
  · rintro ⟨before, placed, after, machine, reaches, same⟩
    apply unread placed _ same
    rw [reaches.tokens]
    exact List.mem_append_right before List.mem_cons_self

end Calculator
