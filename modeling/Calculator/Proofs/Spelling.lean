import Calculator.Proofs.Literals
import Calculator.Proofs.Words
import Calculator.Token

/-!
Token lists that the scanner reads back from what is written. A list is legible before a given character
if each of its tokens is complete just where the next one starts. Scanning composes along such lists, and
whatever was scanned to its end is one.
-/

namespace Calculator

namespace Token

variable {Value : Type} (vocabulary : Vocabulary Value)

def spelling (tokens : List Token) : List Char :=
  tokens.flatMap Token.text

/-- With the buffer so far and these characters ahead, the token is finished by the last of them and by
none before. -/
def Emits (token : Token) : List Char → List Char → Option Char → Prop
  | _, [], _ => False
  | buffer, [char], next => classify vocabulary buffer char next = some token
  | buffer, char :: following :: rest, next =>
      classify vocabulary buffer char (some following) = none ∧
        Emits token (buffer ++ [char]) (following :: rest) next

def Legible : List Token → Option Char → Prop
  | [], _ => True
  | token :: rest, next =>
      Emits vocabulary token [] token.text ((spelling rest).head?.or next) ∧ Legible rest next

def place : Nat → List Token → Option Char → List Placed
  | _, [], _ => []
  | index, token :: rest, next =>
      ⟨token, index + (token.text.length - 1), (spelling rest).head?.or next⟩ ::
        place (index + token.text.length) rest next

@[simp]
theorem spelling_nil : spelling [] = [] :=
  rfl

@[simp]
theorem spelling_cons (token : Token) (rest : List Token) :
    spelling (token :: rest) = token.text ++ spelling rest := by
  simp [spelling]

@[simp]
theorem spelling_append (first second : List Token) :
    spelling (first ++ second) = spelling first ++ spelling second := by
  simp [spelling]

theorem place_append (index : Nat) (first second : List Token) (next : Option Char) :
    place index (first ++ second) next =
      place index first ((spelling second).head?.or next) ++
        place (index + (spelling first).length) second next := by
  induction first generalizing index with
  | nil => simp [place]
  | cons token rest ih => simp [place, ih, List.head?_append, Option.or_assoc, Nat.add_assoc]

@[simp]
theorem place_tokens (index : Nat) (tokens : List Token) (next : Option Char) :
    (place index tokens next).map (·.token) = tokens := by
  induction tokens generalizing index with
  | nil => rfl
  | cons token rest ih => simp [place, ih]

theorem place_last {index : Nat} {tokens : List Token} {next : Option Char} {placed : Placed}
    {before after : List Placed} (split : place index tokens next = before ++ placed :: after) :
    placed.last =
      index + (spelling (before.map (·.token))).length + (placed.token.text.length - 1) := by
  induction before generalizing index tokens with
  | nil =>
      cases tokens with
      | nil => cases split
      | cons token rest =>
          cases split
          rfl
  | cons first others ih =>
      cases tokens with
      | nil => cases split
      | cons token rest =>
          rcases List.cons.inj split with ⟨rfl, others⟩
          rw [ih others]
          simp only [List.map_cons, spelling_cons, List.length_append]
          omega

variable {vocabulary}

theorem legible_append {first second : List Token} {next : Option Char} :
    Legible vocabulary (first ++ second) next ↔
      Legible vocabulary first ((spelling second).head?.or next) ∧
        Legible vocabulary second next := by
  induction first with
  | nil => simp [Legible]
  | cons token rest ih => simp [Legible, ih, List.head?_append, Option.or_assoc, and_assoc]

theorem legible_nonempty {tokens : List Token} {next : Option Char}
    (legible : Legible vocabulary tokens next) : ∀ token ∈ tokens, token.text ≠ [] := by
  induction tokens with
  | nil => simp
  | cons first rest ih =>
      intro token member
      rcases List.mem_cons.mp member with rfl | later
      · intro empty
        have emits := legible.1
        rw [empty] at emits
        exact emits
      · exact ih legible.2 token later

theorem emits_text {token : Token} {buffer text : List Char} {next : Option Char}
    (emits : Emits vocabulary token buffer text next) : token.text = buffer ++ text := by
  induction text generalizing buffer with
  | nil => cases emits
  | cons char rest ih =>
      cases rest with
      | nil => exact complete?_text vocabulary emits
      | cons following others => simp [ih emits.2]

theorem emits_complete {token : Token} {buffer text : List Char} {next : Option Char}
    (emits : Emits vocabulary token buffer text next) :
    complete? vocabulary (buffer ++ text) next = some token := by
  induction text generalizing buffer with
  | nil => cases emits
  | cons char rest ih =>
      cases rest with
      | nil => exact emits
      | cons following others => simpa using ih emits.2

/-- A text is emitted at its end if none of its parts is complete before the character after it. -/
theorem emits_whole {token : Token} {text : List Char} {next : Option Char} (nonempty : text ≠ [])
    (pending : ∀ candidate following others, text = candidate ++ following :: others →
      candidate ≠ [] → complete? vocabulary candidate (some following) = none)
    (complete : complete? vocabulary text next = some token) :
    Emits vocabulary token [] text next := by
  -- What is in the buffer and what is ahead change together, so every cut of the text is shown.
  have suffixes : ∀ buffer rest, text = buffer ++ rest → rest ≠ [] →
      Emits vocabulary token buffer rest next := by
    intro buffer rest split some
    induction rest generalizing buffer with
    | nil => exact absurd rfl some
    | cons char rest ih =>
        cases rest with
        | nil =>
            rw [split] at complete
            exact complete
        | cons following others =>
            have longer : text = (buffer ++ [char]) ++ following :: others := by simp [split]
            exact ⟨pending _ _ _ longer (by simp), ih _ longer (by simp)⟩
  exact suffixes [] text rfl nonempty

end Token

namespace Scan

open Token

variable {Value : Type} {vocabulary : Vocabulary Value}

theorem resume_complete {token : Token} {index : Nat} {buffer rest : List Char} {char : Char}
    (complete : classify vocabulary buffer char rest.head? = some token) :
    resume vocabulary index buffer (char :: rest) =
      ⟨⟨token, index, rest.head?⟩ :: (resume vocabulary (index + 1) [] rest).tokens,
        (resume vocabulary (index + 1) [] rest).rest⟩ := by
  rw [resume, complete]

theorem resume_pending {index : Nat} {buffer rest : List Char} {char : Char}
    (pending : classify vocabulary buffer char rest.head? = none) :
    resume vocabulary index buffer (char :: rest) =
      resume vocabulary (index + 1) (buffer ++ [char]) rest := by
  rw [resume, pending]

theorem resume_emits {token : Token} (index : Nat) {buffer front back : List Char}
    (emits : Emits vocabulary token buffer front back.head?) :
    resume vocabulary index buffer (front ++ back) =
      ⟨⟨token, index + (front.length - 1), back.head?⟩ ::
          (resume vocabulary (index + front.length) [] back).tokens,
        (resume vocabulary (index + front.length) [] back).rest⟩ := by
  induction front generalizing index buffer with
  | nil => cases emits
  | cons char rest ih =>
      cases rest with
      | nil =>
          exact resume_complete emits
      | cons following others =>
          have later := ih (index + 1) emits.2
          have shift : index + 1 + (following :: others).length =
              index + (char :: following :: others).length := by
            simp only [List.length_cons]
            omega
          have last : index + 1 + ((following :: others).length - 1) =
              index + ((char :: following :: others).length - 1) := by
            simp only [List.length_cons]
            omega
          rw [shift, last] at later
          exact (resume_pending emits.1).trans later

/-- The scanner finds every token of a legible list, and goes on behind it. -/
theorem resume_legible {tokens : List Token} (index : Nat) (back : List Char)
    (legible : Legible vocabulary tokens back.head?) :
    resume vocabulary index [] (spelling tokens ++ back) =
      ⟨place index tokens back.head? ++
          (resume vocabulary (index + (spelling tokens).length) [] back).tokens,
        (resume vocabulary (index + (spelling tokens).length) [] back).rest⟩ := by
  induction tokens generalizing index with
  | nil => simp [place]
  | cons token rest ih =>
      have emits : Emits vocabulary token [] token.text (spelling rest ++ back).head? := by
        rw [List.head?_append]
        exact legible.1
      rw [spelling_cons, List.append_assoc, resume_emits index emits, ih _ legible.2]
      simp [place, List.head?_append, Nat.add_assoc]

theorem ofText_legible {tokens : List Token} (legible : Legible vocabulary tokens none) :
    ofText vocabulary (spelling tokens) = ⟨place 0 tokens none, []⟩ := by
  have scanned := resume_legible 0 [] legible
  simpa [ofText, resume] using scanned

/-- Either nothing more is found in a text, or its first token is. -/
theorem resume_first (index : Nat) (buffer text : List Char) :
    resume vocabulary index buffer text = ⟨[], buffer ++ text⟩ ∨
      ∃ token front back, text = front ++ back ∧ front ≠ [] ∧
        Emits vocabulary token buffer front back.head? := by
  induction text generalizing index buffer with
  | nil => exact .inl (by simp [resume])
  | cons char rest ih =>
      cases classified : classify vocabulary buffer char rest.head? with
      | some token => exact .inr ⟨token, [char], rest, rfl, by simp, classified⟩
      | none =>
          rw [resume_pending classified]
          rcases ih (index + 1) (buffer ++ [char]) with nothing | ⟨token, front, back, rfl, some, emits⟩
          · exact .inl (by simpa using nothing)
          · cases front with
            | nil => exact absurd rfl some
            | cons following others =>
                exact .inr ⟨token, char :: following :: others, back, rfl, by simp, classified, emits⟩

/-- Whatever is scanned is the spelling of a legible list with the unfinished rest behind it. -/
theorem resume_split (index : Nat) (text : List Char) :
    ∃ tokens, text = spelling tokens ++ (resume vocabulary index [] text).rest ∧
      Legible vocabulary tokens (resume vocabulary index [] text).rest.head? ∧
      (resume vocabulary index [] text).tokens =
        place index tokens (resume vocabulary index [] text).rest.head? := by
  -- The first token takes an unknown share of the text, so the induction is on the length.
  induction length : text.length using Nat.strongRecOn generalizing index text with
  | ind size ih =>
      rcases @resume_first Value vocabulary index [] text with
        nothing | ⟨token, front, back, rfl, some, emits⟩
      · exact ⟨[], by simp [nothing], trivial, by simp [nothing, place]⟩
      · have shorter : back.length < size := by
          have positive := List.length_pos_iff.mpr some
          rw [← length, List.length_append]
          omega
        rcases ih _ shorter (index + front.length) back rfl with ⟨tokens, split, legible, placed⟩
        have written := emits_text emits
        rw [List.nil_append] at written
        rw [resume_emits index emits]
        have ahead : (spelling tokens).head?.or
            (resume vocabulary (index + front.length) [] back).rest.head? = back.head? := by
          rw [← List.head?_append, ← split]
        refine ⟨token :: tokens, ?_, ⟨?_, legible⟩, ?_⟩
        · rw [spelling_cons, written, List.append_assoc, ← split]
        · rwa [written, ahead]
        · rw [placed, place, written, ahead]

/-- The tokens of a text are legible before the unfinished rest. -/
theorem ofText_split (text : List Char) :
    text = spelling ((ofText vocabulary text).tokens.map (·.token)) ++ (ofText vocabulary text).rest ∧
      Legible vocabulary ((ofText vocabulary text).tokens.map (·.token))
        (ofText vocabulary text).rest.head? := by
  rcases @resume_split Value vocabulary 0 text with ⟨tokens, split, legible, placed⟩
  rw [ofText, placed, place_tokens]
  exact ⟨split, legible⟩

theorem ofText_last {text : List Char} {before after : List Placed} {placed : Placed}
    (split : (ofText vocabulary text).tokens = before ++ placed :: after) :
    placed.last =
      (spelling (before.map (·.token))).length + (placed.token.text.length - 1) := by
  rcases @resume_split Value vocabulary 0 text with ⟨tokens, _, _, places⟩
  have last := place_last (places.symm.trans split)
  rwa [Nat.zero_add] at last

/-- A text that is scanned to its end is the spelling of a legible list. -/
theorem legible_of_resume {index : Nat} {text : List Char}
    (finished : (resume vocabulary index [] text).rest = []) :
    ∃ tokens, text = spelling tokens ∧ Legible vocabulary tokens none ∧
      (resume vocabulary index [] text).tokens = place index tokens none := by
  have split := @resume_split Value vocabulary index text
  simpa [finished] using split

end Scan

namespace Word

theorem symbol_char {char : Char} (symbol : [char] ∈ symbols) :
    char.isAlphanum = false ∧ Text.isBlank char = false ∧ Text.startsNumber char = false ∧
      Exponent.isMark char = false := by
  simp only [symbols, List.mem_cons, List.cons.injEq, and_true, List.not_mem_nil, or_false] at symbol
  rcases symbol with rfl | rfl | rfl | rfl | rfl | rfl | rfl | rfl | rfl <;> decide

theorem symbol_ends_literal {char : Char} (symbol : [char] ∈ symbols) (text : List Char) :
    isLiteral (text ++ [char]) = false := by
  by_cases accepted : isLiteral (text ++ [char]) = true
  · obtain ⟨_, solid, starts, _⟩ := symbol_char symbol
    rw [isLiteral_last solid accepted] at starts
    cases starts
  · simpa using accepted

theorem symbol_single {word : Word} (symbol : word ∈ symbols) : ∃ char, word = [char] := by
  simp only [symbols, List.mem_cons, List.not_mem_nil, or_false] at symbol
  rcases symbol with rfl | rfl | rfl | rfl | rfl | rfl | rfl | rfl | rfl <;> exact ⟨_, rfl⟩

theorem alpha_range {char : Char} (alpha : char.isAlpha = true) :
    65 ≤ char.toNat ∧ char.toNat ≤ 90 ∨ 97 ≤ char.toNat ∧ char.toNat ≤ 122 := by
  have cases : (char.isUpper || char.isLower) = true := alpha
  rcases (Bool.or_eq_true _ _).mp cases with upper | lower
  · have range : char.val ≥ 'A'.val ∧ char.val ≤ 'Z'.val := of_decide_eq_true upper
    exact Or.inl ⟨UInt32.le_iff_toNat_le.mp range.1, UInt32.le_iff_toNat_le.mp range.2⟩
  · have range : (char.val ≥ 'a'.val && char.val ≤ 'z'.val) = true := lower
    rw [Bool.and_eq_true, decide_eq_true_eq, decide_eq_true_eq] at range
    exact Or.inr ⟨UInt32.le_iff_toNat_le.mp range.1, UInt32.le_iff_toNat_le.mp range.2⟩

theorem alphanum_not_blank {char : Char} (alphanum : char.isAlphanum = true) :
    Text.isBlank char = false := by
  have cases : (char.isAlpha || char.isDigit) = true := alphanum
  rcases (Bool.or_eq_true _ _).mp cases with alpha | digit
  · have range := alpha_range alpha
    simp only [Text.isBlank, Bool.or_eq_false_iff, Bool.and_eq_false_iff, decide_eq_false_iff_not,
      beq_eq_false_iff_ne]
    omega
  · exact Text.digit_not_blank digit

theorem alpha_starts_no_number {char : Char} (alpha : char.isAlpha = true) :
    Text.startsNumber char = false := by
  have range := alpha_range alpha
  have notPoint : char ≠ '.' := by
    rintro rfl
    revert range
    decide
  have notDigit : char.isDigit = false := by
    by_cases digit : char.isDigit = true
    · simp only [Char.isDigit, Bool.and_eq_true, decide_eq_true_eq] at digit
      have high : char.toNat ≤ 57 := UInt32.le_iff_toNat_le.mp digit.2
      omega
    · simpa using digit
  simp [Text.startsNumber, notDigit, notPoint]

theorem functionName_chars {word : Word} (callable : word.isFunctionName = true) :
    (∀ char ∈ word, char.isAlphanum = true) ∧
      ∃ char rest, word = char :: rest ∧ Text.startsNumber char = false := by
  simp only [isFunctionName, isName, Bool.and_eq_true, List.all_eq_true] at callable
  refine ⟨callable.1.2, ?_⟩
  cases word with
  | nil => cases callable.1.1
  | cons char rest => exact ⟨char, rest, rfl, alpha_starts_no_number (by simpa using callable.2)⟩

end Word

namespace Vocabulary.Lawful

open Token

variable {Value : Type} {vocabulary : Vocabulary Value}

/-- Just the symbols end a name, whatever functions there are. -/
theorem endsName_iff (lawful : vocabulary.Lawful) {char : Char} :
    endsName vocabulary char = true ↔ [char] ∈ Word.symbols := by
  constructor
  · intro ends
    simp only [endsName, Bool.and_eq_true, Bool.not_eq_true'] at ends
    rcases lawful.known_cases ends.1 with symbol | sign | function
    · exact symbol
    · rw [Word.single_not_sign] at sign
      cases sign
    · rw [function.1] at ends
      cases ends.2
  · intro symbol
    simp [endsName, lawful.symbol_known symbol, lawful.symbol_not_function symbol]

theorem known_head (lawful : vocabulary.Lawful) {word : Word} (known : vocabulary.knows word = true) :
    ∃ char rest, word = char :: rest ∧ Text.isBlank char = false ∧
      Text.startsNumber char = false := by
  rcases lawful.known_cases known with symbol | sign | ⟨_, callable⟩
  · obtain ⟨char, rfl⟩ := Word.symbol_single symbol
    obtain ⟨_, solid, starts, _⟩ := Word.symbol_char symbol
    exact ⟨char, [], rfl, solid, starts⟩
  · simp only [Word.isSign, Bool.or_eq_true, beq_iff_eq] at sign
    rcases sign with rfl | rfl <;> exact ⟨'u', _, rfl, rfl, rfl⟩
  · obtain ⟨alphanum, char, rest, rfl, starts⟩ := Word.functionName_chars callable
    exact ⟨char, rest, rfl, Word.alphanum_not_blank (alphanum char (by simp)), starts⟩

theorem literal_leads_no_word (lawful : vocabulary.Lawful) {text : List Char}
    (literal : isLiteral text = true) (more : List Char) : vocabulary.knows (text ++ more) = false := by
  cases known : vocabulary.knows (text ++ more) with
  | false => rfl
  | true =>
      obtain ⟨first, others, split, solid, starts⟩ := lawful.known_head known
      cases text with
      | nil => cases literal
      | cons char rest =>
          cases (List.cons.inj split).1
          cases starts.symm.trans (isLiteral_head solid literal)

theorem word_leads_no_literal (lawful : vocabulary.Lawful) {word : Word}
    (known : vocabulary.knows word = true) (more : List Char) : isLiteral (word ++ more) = false := by
  obtain ⟨char, rest, rfl, solid, starts⟩ := lawful.known_head known
  exact no_literal solid starts

theorem literal_unknown (lawful : vocabulary.Lawful) {text : List Char}
    (literal : isLiteral text = true) : vocabulary.knows text = false := by
  have alone := lawful.literal_leads_no_word literal []
  rwa [List.append_nil] at alone

/-- What is complete at the end of a text is complete before a symbol. -/
theorem complete_before_symbol (lawful : vocabulary.Lawful) {candidate : List Char} {token : Token}
    {char : Char} (symbol : [char] ∈ Word.symbols)
    (complete : complete? vocabulary candidate none = some token) :
    complete? vocabulary candidate (some char) = some token := by
  have ends := lawful.endsName_iff.mpr symbol
  have mark := (Word.symbol_char symbol).2.2.2
  -- A symbol ends every name, and no literal goes on with one.
  unfold complete? at complete ⊢
  split at complete
  · next word =>
      simp only [completesWord, Bool.and_eq_true] at word
      simpa [completesWord, word.1.1, word.1.2, ends] using complete
  · split at complete
    · next number =>
        simp only [completesNumber, Bool.and_eq_true] at number
        have longer := Word.symbol_ends_literal symbol candidate
        simpa [completesWord, lawful.literal_unknown number.1, completesNumber, number.1, mark,
          longer] using complete
    · cases complete

theorem emits_before_symbol (lawful : vocabulary.Lawful) {token : Token} {buffer text : List Char}
    {char : Char} (symbol : [char] ∈ Word.symbols)
    (emits : Emits vocabulary token buffer text none) :
    Emits vocabulary token buffer text (some char) := by
  induction text generalizing buffer with
  | nil => cases emits
  | cons first rest ih =>
      cases rest with
      | nil => exact lawful.complete_before_symbol symbol emits
      | cons following others => exact ⟨emits.1, ih emits.2⟩

theorem legible_before_symbol (lawful : vocabulary.Lawful) {tokens : List Token} {char : Char}
    (symbol : [char] ∈ Word.symbols) (legible : Legible vocabulary tokens none) :
    Legible vocabulary tokens (some char) := by
  induction tokens with
  | nil => trivial
  | cons token rest ih =>
      refine ⟨?_, ih legible.2⟩
      have emits := legible.1
      cases ahead : (spelling rest).head? with
      | none =>
          rw [ahead] at emits
          exact lawful.emits_before_symbol symbol emits
      | some following =>
          rw [ahead] at emits
          exact emits

theorem function_not_sign (lawful : vocabulary.Lawful) {word : Word}
    (function : vocabulary.isFunction word = true) : word.isSign = false := by
  by_cases sign : word.isSign = true
  · have member : word ∈ [Word.negative, Word.positive] := by simpa [Word.isSign] using sign
    obtain ⟨compute, known⟩ := lawful.sign word member
    rw [isFunction, known] at function
    cases function
  · simpa using sign

theorem function_callable (lawful : vocabulary.Lawful) {word : Word}
    (function : vocabulary.isFunction word = true) : word.isFunctionName = true := by
  obtain ⟨operator, known, isFunction⟩ := function_known function
  exact lawful.name known isFunction

theorem function_known_word {word : Word} (function : vocabulary.isFunction word = true) :
    vocabulary.knows word = true := by
  obtain ⟨operator, known, _⟩ := function_known function
  simp [knows, known]

theorem completes_symbol (lawful : vocabulary.Lawful) {word : Word} (symbol : word ∈ Word.symbols)
    (next : Option Char) : completesWord vocabulary word next = true := by
  obtain ⟨char, rfl⟩ := Word.symbol_single symbol
  simp [completesWord, lawful.symbol_known symbol, lawful.symbol_not_function symbol, Word.single_not_sign]

theorem emits_symbol (lawful : vocabulary.Lawful) {char : Char} (symbol : [char] ∈ Word.symbols)
    (next : Option Char) : Emits vocabulary (.word [char]) [] [char] next := by
  simp [Emits, classify, complete?, lawful.completes_symbol symbol next]

/-- Where a symbol comes first, it is a token by itself. -/
theorem emits_from_symbol (lawful : vocabulary.Lawful) {char : Char}
    (symbol : [char] ∈ Word.symbols) {token : Token} {rest : List Char} {next : Option Char}
    (emits : Emits vocabulary token [] (char :: rest) next) : rest = [] ∧ token = .word [char] := by
  cases rest with
  | nil => exact ⟨rfl, Option.some.inj (emits.symm.trans (lawful.emits_symbol symbol next))⟩
  | cons following others =>
      have complete : classify vocabulary [] char (some following) = some (.word [char]) :=
        lawful.emits_symbol symbol (some following)
      cases complete.symm.trans emits.1

/-- What may stand after an operand: nothing, or a symbol. -/
def Closes (next : Option Char) : Prop :=
  ∀ char ∈ next, [char] ∈ Word.symbols

theorem closes_symbol {char : Char} (symbol : [char] ∈ Word.symbols) : Closes (some char) := by
  intro other same
  cases same
  exact symbol

/-- A function is complete before a symbol, and at the end of a text if it is a constant. -/
theorem function_closes (lawful : vocabulary.Lawful) {word : Word} {next : Option Char}
    (function : vocabulary.isFunction word = true)
    (complete : completesWord vocabulary word next = true) :
    Closes next ∧ (next = none → vocabulary.isConstant word = true) := by
  simp only [completesWord, function, Bool.not_true, Bool.or_false, Bool.and_eq_true,
    Bool.or_eq_true, beq_iff_eq] at complete
  rcases complete.2 with (⟨ended, constant⟩ | breaks) | opens
  · rw [Option.isNone_iff_eq_none] at ended
    subst ended
    exact ⟨by simp [Closes], fun _ => constant⟩
  · rcases (Option.any_eq_true _ _).mp breaks with ⟨char, rfl, ends⟩
    exact ⟨closes_symbol (lawful.endsName_iff.mp ends), by simp⟩
  · subst opens
    exact ⟨closes_symbol (by simp [Word.symbols]), by simp⟩

/-- A function that takes arguments is a token before a symbol only. -/
theorem function_before_symbol (lawful : vocabulary.Lawful) {word : Word} {next : Option Char}
    (emits : Emits vocabulary (.word word) [] word next)
    (function : vocabulary.isFunction word = true)
    (takesArguments : vocabulary.isConstant word = false) :
    ∃ char, next = some char ∧ [char] ∈ Word.symbols := by
  have complete := emits_complete emits
  simp only [List.nil_append, complete?] at complete
  split at complete
  · next ends =>
      rcases lawful.function_closes function ends with ⟨closes, constant⟩
      cases next with
      | none => cases takesArguments.symm.trans (constant rfl)
      | some char => exact ⟨char, rfl, closes char rfl⟩
  · split at complete
    · cases complete
    · cases complete

/-- What comes behind such a function is a symbol. -/
theorem symbol_behind_function (lawful : vocabulary.Lawful) {word : Word} {token : Token}
    {rest : List Token} {next : Option Char}
    (legible : Legible vocabulary (.word word :: token :: rest) next)
    (function : vocabulary.isFunction word = true)
    (takesArguments : vocabulary.isConstant word = false) :
    ∃ symbol ∈ Word.symbols, token = .word symbol := by
  rcases lawful.function_before_symbol legible.1 function takesArguments with ⟨char, ahead, symbol⟩
  have emits := legible.2.1
  cases text : token.text with
  | nil =>
      rw [text] at emits
      cases emits
  | cons first others =>
      simp only [spelling_cons, text, List.cons_append, List.head?_cons, Option.some_or,
        Option.some.injEq] at ahead
      subst ahead
      rw [text] at emits
      exact ⟨_, symbol, (lawful.emits_from_symbol symbol emits).2⟩

theorem function_not_last (lawful : vocabulary.Lawful) {tokens : List Token} {word : Word}
    (legible : Legible vocabulary (tokens ++ [.word word]) none)
    (function : vocabulary.isFunction word = true) : vocabulary.isConstant word = true := by
  cases takesArguments : vocabulary.isConstant word with
  | true => rfl
  | false =>
      have last := (legible_append.mp legible).2.1
      rcases lawful.function_before_symbol last function takesArguments with ⟨char, ahead, _⟩
      cases ahead

theorem completes_before_symbol (lawful : vocabulary.Lawful) {word : Word}
    (function : vocabulary.isFunction word = true) {char : Char} (symbol : [char] ∈ Word.symbols) :
    completesWord vocabulary word (some char) = true := by
  have ends := lawful.endsName_iff.mpr symbol
  simp [completesWord, function_known_word function, lawful.function_not_sign function, ends]

theorem completes_constant (lawful : vocabulary.Lawful) {word : Word} {next : Option Char}
    (constant : vocabulary.isConstant word = true) (closes : Closes next) :
    completesWord vocabulary word next = true := by
  have function := constant_function constant
  cases next with
  | none =>
      simp [completesWord, function_known_word function, lawful.function_not_sign function, constant]
  | some char => exact lawful.completes_before_symbol function (closes char rfl)

/-- No part of a name is a token: what comes next belongs to the name. -/
theorem name_pending (lawful : vocabulary.Lawful) {word candidate others : List Char}
    {following : Char} (callable : Word.isFunctionName word = true)
    (split : word = candidate ++ following :: others) (nonempty : candidate ≠ []) :
    complete? vocabulary candidate (some following) = none := by
  obtain ⟨alphanum, first, tail, same, starts⟩ := Word.functionName_chars callable
  have more := alphanum following (by simp [split])
  cases candidate with
  | nil => exact absurd rfl nonempty
  | cons char rest =>
      obtain ⟨rfl, _⟩ := List.cons.inj (same.symm.trans split)
      have letter := alphanum first (by simp [same])
      have noNumber : isLiteral (first :: rest) = false :=
        no_literal (Word.alphanum_not_blank letter) starts
      have noEnd : endsName vocabulary following = false := by
        by_cases ends : endsName vocabulary following = true
        · rw [(Word.symbol_char (lawful.endsName_iff.mp ends)).1] at more
          cases more
        · simpa using ends
      have noCall : following ≠ '(' := by
        rintro rfl
        cases more
      -- The part may be a word by itself, as the start of a longer name is; then only what follows it
      -- keeps the scanner from taking it.
      have noWord : completesWord vocabulary (first :: rest) (some following) = false := by
        by_cases known : vocabulary.knows (first :: rest) = true
        · rcases lawful.known_cases known with symbol | sign | function
          · obtain ⟨single, alone⟩ := Word.symbol_single symbol
            cases alone
            rw [(Word.symbol_char symbol).1] at letter
            cases letter
          · simp [completesWord, sign]
          · simp [completesWord, noEnd, function.1, noCall]
        · simp [completesWord, known]
      simp [complete?, noWord, completesNumber, noNumber]

theorem emits_name (lawful : vocabulary.Lawful) {word : Word} {next : Option Char}
    (callable : word.isFunctionName = true)
    (complete : completesWord vocabulary word next = true) :
    Emits vocabulary (.word word) [] word next := by
  obtain ⟨_, first, tail, same, _⟩ := Word.functionName_chars callable
  apply emits_whole
  · simp [same]
  · intro candidate following others split nonempty
    exact lawful.name_pending callable split nonempty
  · simp [complete?, complete]

theorem numeral_unknown (lawful : vocabulary.Lawful) {char : Char} {rest : List Char}
    (starts : Text.startsNumber char = true) : vocabulary.knows (char :: rest) = false := by
  by_cases known : vocabulary.knows (char :: rest) = true
  · obtain ⟨first, tail, same, _, other⟩ := lawful.known_head known
    obtain ⟨rfl, _⟩ := List.cons.inj same
    rw [starts] at other
    cases other
  · simpa using known

theorem completes_number {literal : Literal} (valid : literal.Valid) {next : Option Char}
    (closes : Closes next) : completesNumber literal.toText next = true := by
  have ahead : ∀ char ∈ next,
      (!Exponent.isMark char && !isLiteral (literal.toText ++ [char])) = true := by
    intro char member
    have symbol := closes char member
    have mark := (Word.symbol_char symbol).2.2.2
    simp [mark, Word.symbol_ends_literal symbol literal.toText]
  cases next with
  | none => simp [completesNumber, isLiteral_toText valid]
  | some char =>
      have apart := ahead char rfl
      simp only [completesNumber, isLiteral_toText valid, Option.all_some, Bool.true_and]
      exact apart

/-- No part of a literal is a token: what comes next belongs to the literal. -/
theorem number_pending (lawful : vocabulary.Lawful) {literal : Literal} (valid : literal.Valid)
    {candidate others : List Char} {following : Char}
    (split : literal.toText = candidate ++ following :: others) (nonempty : candidate ≠ []) :
    complete? vocabulary candidate (some following) = none := by
  have noWord : completesWord vocabulary candidate (some following) = false := by
    obtain ⟨first, tail, same, starts⟩ := Literal.toText_head valid
    cases candidate with
    | nil => exact absurd rfl nonempty
    | cons char rest =>
        obtain ⟨rfl, _⟩ := List.cons.inj (same.symm.trans split)
        simp [completesWord, lawful.numeral_unknown starts]
  have noNumber : completesNumber candidate (some following) = false := by
    by_cases accepted : isLiteral candidate = true
    · rcases isLiteral_goes_on valid split accepted with mark | longer
      · simp [completesNumber, mark]
      · simp [completesNumber, longer]
    · simp [completesNumber, accepted]
  simp [complete?, noWord, noNumber]

theorem emits_number (lawful : vocabulary.Lawful) {literal : Literal} (valid : literal.Valid)
    {next : Option Char} (closes : Closes next) :
    Emits vocabulary (.number literal.toText) [] literal.toText next := by
  obtain ⟨first, tail, same, starts⟩ := Literal.toText_head valid
  apply emits_whole
  · simp [same]
  · intro candidate following others split nonempty
    exact lawful.number_pending valid split nonempty
  · have noWord : completesWord vocabulary literal.toText next = false := by
      rw [same, completesWord, lawful.numeral_unknown starts]
      rfl
    simp [complete?, noWord, completes_number valid closes]

theorem legible_symbol (lawful : vocabulary.Lawful) {char : Char} (symbol : [char] ∈ Word.symbols)
    {rest : List Token} {next : Option Char} (legible : Legible vocabulary rest next) :
    Legible vocabulary (.word [char] :: rest) next :=
  ⟨lawful.emits_symbol symbol _, legible⟩

theorem legible_function (lawful : vocabulary.Lawful) {word : Word}
    (function : vocabulary.isFunction word = true) {rest : List Token} {next : Option Char}
    (legible : Legible vocabulary (.word ['('] :: rest) next) :
    Legible vocabulary (.word word :: .word ['('] :: rest) next :=
  ⟨lawful.emits_name (lawful.function_callable function)
    (lawful.completes_before_symbol function (by simp [Word.symbols])), legible⟩

/-- What is legible at the end of a text is legible between two symbols. -/
theorem legible_between (lawful : vocabulary.Lawful) {first last : Char}
    (opening : [first] ∈ Word.symbols) (closing : [last] ∈ Word.symbols) {tokens rest : List Token}
    {next : Option Char} (inner : Legible vocabulary tokens none)
    (outer : Legible vocabulary rest next) :
    Legible vocabulary (.word [first] :: (tokens ++ .word [last] :: rest)) next :=
  lawful.legible_symbol opening (legible_append.mpr
    ⟨lawful.legible_before_symbol closing inner, lawful.legible_symbol closing outer⟩)

end Vocabulary.Lawful

namespace Scan

open Token

variable {Value : Type} {vocabulary : Vocabulary Value}

def Found (vocabulary : Vocabulary Value) : Token → Prop
  | .word written => vocabulary.knows written = true ∧ Word.isSign written = false
  | .number written => isLiteral written = true

theorem complete_found {candidate : List Char} {next : Option Char} {token : Token}
    (complete : complete? vocabulary candidate next = some token) : Found vocabulary token := by
  unfold complete? at complete
  split at complete
  · next word =>
      cases complete
      simp only [completesWord, Bool.and_eq_true, Bool.not_eq_true'] at word
      exact word.1
  · split at complete
    · next number =>
        cases complete
        simp only [completesNumber, Bool.and_eq_true] at number
        exact number.1
    · cases complete

theorem resume_found {index : Nat} {buffer text : List Char} :
    ∀ placed ∈ (resume vocabulary index buffer text).tokens, Found vocabulary placed.token := by
  induction text generalizing index buffer with
  | nil => simp [resume]
  | cons char rest ih =>
      cases classified : classify vocabulary buffer char rest.head? with
      | none =>
          rw [resume_pending classified]
          exact ih
      | some token =>
          rw [resume_complete classified]
          intro placed member
          rcases List.mem_cons.mp member with same | later
          · exact same ▸ complete_found classified
          · exact ih placed later

end Scan

end Calculator
