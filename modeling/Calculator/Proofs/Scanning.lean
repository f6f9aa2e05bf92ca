import Calculator.Proofs.Faults
import Calculator.Proofs.Layouts

/-!
Scanning along a text. At every point of it, what has been read is in the tokens and in the buffer behind them, and
nothing else is. A token is found where no longer word or literal starts, though the scanner looks at one character more
and not at the text behind it: what makes a longer one of a token would show in that character.
-/

namespace Calculator

variable {Value : Type} (vocabulary : Vocabulary Value)

namespace Token

def numberFirst? (candidate : List Char) (next : Option Char) : Option Token :=
  if completesNumber candidate next then some (.number candidate)
  else if completesWord vocabulary candidate next then some (.word candidate)
  else none

structure Longest (token : Token) (text : List Char) : Prop where
  found : Scan.Found vocabulary token
  leads : token.text <+: text
  longest : ∀ other, Scan.Found vocabulary other → other.text <+: text →
    other.text.length ≤ token.text.length

end Token

namespace Scan

def advance (scan : Scan) (index : Nat) (char : Char) (next : Option Char) : Scan :=
  match Token.classify vocabulary scan.rest char next with
  | some token => ⟨scan.tokens ++ [⟨token, index, next⟩], []⟩
  | none => ⟨scan.tokens, scan.rest ++ [char]⟩

def pass (scan : Scan) (index : Nat) : List Char → List Char → Scan
  | [], _ => scan
  | char :: front, back =>
      pass (scan.advance vocabulary index char (front ++ back).head?) (index + 1) front back

def point (front back : List Char) : Scan :=
  pass vocabulary ⟨[], []⟩ 0 front back

/-- The scan of the whole text passes the point, and all that was read so far is there: the buffer starts behind the
tokens. -/
structure Passes (front back : List Char) (point : Scan) : Prop where
  goesOn : ofText vocabulary (front ++ back) =
    ⟨point.tokens ++ (resume vocabulary front.length point.rest back).tokens,
      (resume vocabulary front.length point.rest back).rest⟩
  lossless : Token.spelling (point.tokens.map (·.token)) ++ point.rest = front
  inside : point.rest.length ≤ front.length
  position : front.length - point.rest.length = (Token.spelling (point.tokens.map (·.token))).length
  starts : front.drop (front.length - point.rest.length) = point.rest

variable {vocabulary}

theorem read_spelling (scan : Scan) :
    scan.read = Token.spelling (scan.tokens.map (·.token)) ++ scan.rest := by
  rw [read, Token.spelling, List.flatMap_map]

theorem advance_read (scan : Scan) (index : Nat) (char : Char) (next : Option Char) :
    (scan.advance vocabulary index char next).read = scan.read ++ [char] := by
  unfold advance
  split
  · next token complete =>
      have text := Token.complete?_text vocabulary complete
      simp [read, text]
  · simp [read]

theorem pass_read (scan : Scan) (index : Nat) (front back : List Char) :
    (scan.pass vocabulary index front back).read = scan.read ++ front := by
  induction front generalizing scan index with
  | nil => simp [pass]
  | cons char rest ih =>
      rw [pass, ih, advance_read, List.append_assoc, List.singleton_append]

theorem advance_resume (scan : Scan) (index : Nat) (char : Char) (rest : List Char) :
    let next := scan.advance vocabulary index char rest.head?
    scan.tokens ++ (resume vocabulary index scan.rest (char :: rest)).tokens =
        next.tokens ++ (resume vocabulary (index + 1) next.rest rest).tokens ∧
      (resume vocabulary index scan.rest (char :: rest)).rest =
        (resume vocabulary (index + 1) next.rest rest).rest := by
  cases classified : Token.classify vocabulary scan.rest char rest.head? with
  | some token =>
      rw [resume_complete classified]
      simp [advance, classified]
  | none =>
      rw [resume_pending classified]
      simp [advance, classified]

/-- Reading a text in one go passes every point of it. -/
theorem pass_resume (scan : Scan) (index : Nat) (front back : List Char) :
    let passed := scan.pass vocabulary index front back
    scan.tokens ++ (resume vocabulary index scan.rest (front ++ back)).tokens =
        passed.tokens ++ (resume vocabulary (index + front.length) passed.rest back).tokens ∧
      (resume vocabulary index scan.rest (front ++ back)).rest =
        (resume vocabulary (index + front.length) passed.rest back).rest := by
  induction front generalizing scan index with
  | nil => simp [pass]
  | cons char rest ih =>
      have now := @advance_resume Value vocabulary scan index char (rest ++ back)
      have later := ih (scan.advance vocabulary index char (rest ++ back).head?) (index + 1)
      have shift : index + 1 + rest.length = index + (char :: rest).length := by
        rw [List.length_cons]
        omega
      rw [shift] at later
      exact ⟨now.1.trans later.1, now.2.trans later.2⟩

theorem passes_point (front back : List Char) :
    Passes vocabulary front back (point vocabulary front back) := by
  have goesOn := @pass_resume Value vocabulary ⟨[], []⟩ 0 front back
  have lossless : Token.spelling ((point vocabulary front back).tokens.map (·.token)) ++
      (point vocabulary front back).rest = front := by
    rw [← read_spelling, point, pass_read]
    rfl
  have length := congrArg List.length lossless
  rw [List.length_append] at length
  have position := Nat.sub_eq_of_eq_add length.symm
  constructor
  · rw [Nat.zero_add] at goesOn
    exact congrArg₂ Scan.mk goesOn.1 goesOn.2
  · exact lossless
  · omega
  · exact position
  · have behind := @List.drop_left Char (Token.spelling ((point vocabulary front back).tokens.map (·.token)))
      (point vocabulary front back).rest
    rwa [lossless, ← position] at behind

end Scan

namespace Vocabulary.Lawful

open Token

variable {vocabulary}

theorem number_ends {candidate more : List Char} {next : Char}
    (complete : completesNumber candidate (some next) = true) :
    isLiteral (candidate ++ next :: more) = false := by
  simp only [completesNumber, Option.all_some, Bool.and_eq_true, Bool.not_eq_true'] at complete
  rcases complete with ⟨accepted, noMark, noLonger⟩
  cases whole : isLiteral (candidate ++ next :: more) with
  | false => rfl
  | true =>
      rcases isLiteral_written whole with ⟨literal, valid, written⟩
      rcases Text.trim_parts (candidate ++ next :: more) with ⟨front, back, parts, before, behind⟩
      rw [← written] at parts
      rcases isLiteral_goes_further valid before behind parts.symm accepted with mark | longer
      · cases noMark.symm.trans mark
      · cases noLonger.symm.trans longer

theorem word_ends (lawful : vocabulary.Lawful) {word more : List Char} {next : Char}
    (complete : completesWord vocabulary word (some next) = true) :
    vocabulary.knows (word ++ next :: more) = false ∨ Word.isSign (word ++ next :: more) = true := by
  rcases completesWord_known complete with ⟨known, noSign⟩
  rcases lawful.known_head known with ⟨first, rest, rfl, _, _⟩
  cases longer : vocabulary.knows (first :: rest ++ next :: more) with
  | false => exact .inl rfl
  | true =>
      rcases lawful.known_cases longer with symbol | sign | ⟨_, callable⟩
      · rcases Word.symbol_single symbol with ⟨char, single⟩
        simp at single
      · exact .inr sign
      · -- All of a name is letters and digits, but a symbol ends the word or is the word.
        have alphanum := (Word.functionName_chars callable).1
        rcases lawful.known_cases known with symbol | sign | ⟨function, _⟩
        · rcases Word.symbol_single symbol with ⟨char, single⟩
          cases single
          cases (alphanum first (by simp)).symm.trans (Word.symbol_char symbol).1
        · cases noSign.symm.trans sign
        · have symbol := (lawful.function_closes function complete).1 next rfl
          cases (alphanum next (by simp)).symm.trans (Word.symbol_char symbol).1

/-- No word or literal is what is complete here and the next character, whatever comes behind. -/
theorem complete_ends (lawful : vocabulary.Lawful) {candidate more : List Char} {next : Char} {token other : Token}
    (complete : complete? vocabulary candidate (some next) = some token)
    (found : Scan.Found vocabulary other) : other.text ≠ candidate ++ next :: more := by
  intro text
  unfold complete? at complete
  split at complete
  · next ends =>
      cases other with
      | word longer =>
          cases text
          rcases lawful.word_ends ends with unknown | sign
          · cases unknown.symm.trans found.1
          · cases found.2.symm.trans sign
      | number longer =>
          cases text
          have known := (completesWord_known ends).1
          cases (lawful.word_leads_no_literal known _).symm.trans found
  · split at complete
    · next ends =>
        cases other with
        | word longer =>
            cases text
            have literal : isLiteral candidate = true := by
              simp only [completesNumber, Bool.and_eq_true] at ends
              exact ends.1
            cases (lawful.literal_leads_no_word literal _).symm.trans found.1
        | number longer =>
            cases text
            cases (number_ends ends).symm.trans found
    · cases complete

/-- So one character ahead is enough: what is complete before it is the longest word or literal of the text. -/
theorem complete_longest (lawful : vocabulary.Lawful) {candidate following : List Char} {token : Token}
    (complete : complete? vocabulary candidate following.head? = some token) :
    Longest vocabulary token (candidate ++ following) := by
  have text := complete?_text vocabulary complete
  refine ⟨Scan.complete_found complete, text ▸ List.prefix_append _ _, ?_⟩
  rintro other found ⟨behind, split⟩
  rw [text]
  rcases List.append_eq_append_iff.mp split with ⟨ahead, shorter, _⟩ | ⟨ahead, longer, rest⟩
  · rw [shorter, List.length_append]
    omega
  · cases ahead with
    | nil => rw [longer, List.append_nil]
    | cons next more =>
        rw [rest, List.cons_append, List.head?_cons] at complete
        exact absurd longer (lawful.complete_ends complete found)

/-- No candidate passes both tests. -/
theorem complete?_numberFirst (lawful : vocabulary.Lawful) (candidate : List Char) (next : Option Char) :
    complete? vocabulary candidate next = numberFirst? vocabulary candidate next := by
  unfold complete? numberFirst?
  cases word : completesWord vocabulary candidate next with
  | false => rfl
  | true =>
      have known := (completesWord_known word).1
      cases number : completesNumber candidate next with
      | false => rfl
      | true =>
          simp only [completesNumber, Bool.and_eq_true] at number
          cases (lawful.literal_unknown number.1).symm.trans known

end Vocabulary.Lawful

namespace Scan

open Token

variable {vocabulary}

/-- Every token is the longest one at its place in the text. -/
theorem ofText_longest (lawful : vocabulary.Lawful) {text : List Char} {before after : List Placed} {placed : Placed}
    (found : (ofText vocabulary text).tokens = before ++ placed :: after) :
    Longest vocabulary placed.token (text.drop (spelling (before.map (·.token))).length) := by
  rcases @ofText_split Value vocabulary text with ⟨split, legible⟩
  rw [found, List.map_append, List.map_cons] at split legible
  have complete := emits_complete (legible_append.mp legible).2.1
  rw [← List.head?_append] at complete
  rw [split, spelling_append, spelling_cons, List.append_assoc, List.append_assoc, List.drop_left]
  exact lawful.complete_longest complete

end Scan

/-- Scanning loses nothing on its way through a text, and takes the longest token each time. No text is both a word and
a literal, so that it does not matter which of them is tried first. -/
theorem scan_lossless_longest {vocabulary : Vocabulary Float} (reachable : vocabulary.Reachable)
    (expression : String) :
    let text := Text.normalize expression.toList
    let scan := Scan.ofText vocabulary text
    (∀ front back, text = front ++ back →
      Scan.Passes vocabulary front back (Scan.point vocabulary front back)) ∧
    (scan.rest ≠ [] → ∀ machine : Machine Float, machine.Reaches vocabulary readNumber? text scan.tokens [] →
      ∃ front, text = front ++ scan.rest ∧
        evaluateExact vocabulary expression = .error ⟨.unrecognizedToken, some front.length⟩) ∧
    (∀ before placed after, scan.tokens = before ++ placed :: after →
      Token.Longest vocabulary placed.token (text.drop (Token.spelling (before.map (·.token))).length)) ∧
    (∀ candidate, ¬(vocabulary.knows candidate = true ∧ isLiteral candidate = true)) ∧
    ∀ candidate next,
      Token.complete? vocabulary candidate next = Token.numberFirst? vocabulary candidate next := by
  have lawful := reachable.lawful
  dsimp only
  refine ⟨?_, ?_, ?_, ?_, ?_⟩
  · intro front back _
    exact Scan.passes_point front back
  · intro unfinished machine reaches
    have split := (@Scan.ofText_split Float vocabulary (Text.normalize expression.toList)).1
    exact ⟨_, split, (run_error lawful).mpr (.unfinished reaches rfl unfinished split)⟩
  · intro before placed after found
    exact Scan.ofText_longest lawful found
  · rintro candidate ⟨known, literal⟩
    cases (lawful.literal_unknown literal).symm.trans known
  · exact lawful.complete?_numberFirst

/-- With `cos` known as well, and `1` at the start of a literal that `1e` and `1e+` do not belong to. -/
theorem scan_lossless_longest_cosh :
    Token.Longest (.standard 0) (.number "1e+5".toList) "1e+5*cosh(2)x".toList ∧
      Token.Longest (.standard 0) (.word "cosh".toList) "cosh(2)x".toList := by
  have reachable : (Vocabulary.standard 0).Reachable := ⟨0, [], rfl⟩
  have longest := (scan_lossless_longest reachable "1e+5*cosh(2)x").2.2.1
  exact ⟨longest [] ⟨.number "1e+5".toList, 3, some '*'⟩ _ rfl,
    longest [⟨.number "1e+5".toList, 3, some '*'⟩, ⟨.word ['*'], 4, some 'c'⟩]
      ⟨.word "cosh".toList, 8, some '('⟩ _ rfl⟩

end Calculator
