import Calculator.Proofs.Blanks

/-!
Writing tokens down. Any blanks may be put before, between and behind the tokens of a list, as long as two numbers do
not run together and every name has a symbol behind it: the scanner reads the same tokens back, whatever names the
vocabulary has.
-/

namespace Calculator

namespace Token

section

variable {Value : Type} (vocabulary : Vocabulary Value)

/-- Token lists that can be read back: a name comes before a symbol, or ends the list if it is a constant, and no name
comes right behind a number. -/
inductive Readable : List Token → Prop where
  | nil : Readable []
  | symbol {word : Word} {rest : List Token} (isSymbol : word ∈ Word.symbols) (later : Readable rest) :
      Readable (.word word :: rest)
  | name {word : Word} {rest : List Token} (function : vocabulary.isFunction word = true)
      (followed : rest = [] ∧ vocabulary.isConstant word = true ∨
        ∃ symbol ∈ Word.symbols, rest.head? = some (.word symbol))
      (later : Readable rest) : Readable (.word word :: rest)
  | number {literal : Literal} {rest : List Token} (valid : literal.Valid)
      (followed : ∀ {word}, rest.head? = some (.word word) → word ∈ Word.symbols)
      (later : Readable rest) : Readable (.number literal.toText :: rest)

end

/-- The tokens one after the other with any blanks around them, and at least one between two numbers. -/
inductive Written : List Token → List Char → Prop where
  | nil {gap : List Char} (blank : ∀ char ∈ gap, Text.isBlank char = true) : Written [] gap
  | cons {token : Token} {rest : List Token} {gap text : List Char}
      (blank : ∀ char ∈ gap, Text.isBlank char = true)
      (apart : ∀ {first second}, token = .number first → rest.head? = some (.number second) →
        ∃ char, text.head? = some char ∧ Text.isBlank char = true)
      (later : Written rest text) : Written (token :: rest) (gap ++ (token.text ++ text))

end Token

variable {Value : Type} {vocabulary : Vocabulary Value}

namespace Item.Apart

variable {items : List Item}

theorem head_symbol (apart : Apart vocabulary items) {char : Char}
    (first : (items.map Item.token).head? = some (.word [char])) : (layout items).head? = some char := by
  cases apart with
  | nil => cases first
  | word complete later =>
      cases first
      rfl
  | number valid complete later => cases first

end Item.Apart

structure Normalizes (vocabulary : Vocabulary Value) (gap : Bool) (tokens : List Token) (text : List Char)
    (items : List Item) : Prop where
  normal : Text.squeeze gap text = Item.layout items
  apart : Item.Apart vocabulary items
  listed : items.map Item.token = tokens
  /-- Blanks before a number leave a space. -/
  spaced : ∀ {number}, tokens.head? = some (.number number) →
    (gap = true ∨ ∃ char, text.head? = some char ∧ Text.isBlank char = true) →
      Item.spaceAhead items = true

namespace Normalizes

variable {gap : Bool} {rest : List Token} {blanks text : List Char} {items : List Item}

theorem nil (blank : ∀ char ∈ blanks, Text.isBlank char = true) :
    Normalizes vocabulary gap [] blanks [] := by
  constructor
  · exact Text.squeeze_end blank gap
  · exact .nil
  · rfl
  · intro number none
    cases none

theorem word (lawful : vocabulary.Lawful) (blank : ∀ char ∈ blanks, Text.isBlank char = true) {word : Word}
    (complete : Token.completesWord vocabulary word (Item.layout items).head? = true)
    (later : Normalizes vocabulary false rest text items) :
    Normalizes vocabulary gap (.word word :: rest) (blanks ++ (word ++ text)) (⟨false, .word word⟩ :: items) := by
  have known := (Token.completesWord_known complete).1
  have solid := lawful.known_solid known
  rcases lawful.known_head known with ⟨char, others, rfl, _, noNumber⟩
  constructor
  · rw [Text.squeeze_blanks blank, Text.squeeze_word solid noNumber, later.normal]
    simp [Item.text, Token.text]
  · exact .word complete later.apart
  · rw [List.map_cons, later.listed]
  · intro number isNumber
    cases isNumber

theorem number (blank : ∀ char ∈ blanks, Text.isBlank char = true) {literal : Literal} (valid : literal.Valid)
    (complete : Item.spaceAhead items = true ∨
      Token.completesNumber literal.toText (Item.layout items).head? = true)
    (later : Normalizes vocabulary false rest text items) :
    Normalizes vocabulary gap (.number literal.toText :: rest) (blanks ++ (literal.toText ++ text))
      (⟨gap || !blanks.isEmpty, .number literal.toText⟩ :: items) := by
  have solid := Literal.toText_solid valid
  rcases Literal.toText_head valid with ⟨char, others, written, starts⟩
  constructor
  · have squeezed := @Text.squeeze_number char others (by simpa [written] using solid) starts
    rw [Text.squeeze_blanks blank, written, squeezed, later.normal]
    simp [Item.text, Item.space, Token.text]
  · exact .number valid complete later.apart
  · rw [List.map_cons, later.listed]
  · rintro _ _ (behind | ⟨first, leads, isBlank⟩)
    · simp [behind]
    · cases blanks with
      | cons _ _ => simp
      | nil =>
          have same : char = first := by simpa [written] using leads
          cases isBlank.symm.trans (same ▸ solid char (by simp [written]))

end Normalizes

/-- However the tokens are written, the text is normalized to them. -/
theorem Token.Written.normalizes (lawful : vocabulary.Lawful) {tokens : List Token} {text : List Char}
    (readable : Token.Readable vocabulary tokens) (written : Token.Written tokens text) (gap : Bool) :
    ∃ items, Normalizes vocabulary gap tokens text items := by
  induction readable generalizing text gap with
  | nil =>
      cases written with
      | nil blank => exact ⟨[], .nil blank⟩
  | symbol isSymbol _ ih =>
      cases written with
      | cons blank _ written =>
          rcases ih written false with ⟨items, later⟩
          exact ⟨_, .word lawful blank (lawful.completes_symbol isSymbol _) later⟩
  | name function followed _ ih =>
      cases written with
      | cons blank _ written =>
          rcases ih written false with ⟨items, later⟩
          refine ⟨_, .word lawful blank ?_ later⟩
          rcases followed with ⟨rfl, constant⟩ | ⟨symbol, isSymbol, ahead⟩
          · rw [List.map_eq_nil_iff.mp later.listed]
            exact lawful.completes_constant constant fun char none => by cases none
          · rcases Word.symbol_single isSymbol with ⟨char, rfl⟩
            rw [← later.listed] at ahead
            rw [later.apart.head_symbol ahead]
            exact lawful.completes_before_symbol function isSymbol
  | @number literal rest valid followed _ ih =>
      cases written with
      | cons blank apart written =>
          rcases ih written false with ⟨items, later⟩
          refine ⟨_, .number blank valid ?_ later⟩
          cases ahead : rest.head? with
          | none =>
              rw [List.head?_eq_none_iff.mp ahead] at later
              rw [List.map_eq_nil_iff.mp later.listed]
              exact .inr (Vocabulary.Lawful.completes_number valid fun char none => by cases none)
          | some next =>
              cases next with
              | number text => exact .inl (later.spaced ahead (.inr (apart rfl ahead)))
              | word word =>
                  have isSymbol := followed ahead
                  rcases Word.symbol_single isSymbol with ⟨char, rfl⟩
                  rw [← later.listed] at ahead
                  rw [later.apart.head_symbol ahead]
                  exact .inr (Vocabulary.Lawful.completes_number valid (Vocabulary.Lawful.closes_symbol isSymbol))

/-- Whatever tokens are written, with any blanks around them, the scanner reads back, and nothing else. -/
theorem written_tokens_scanned {vocabulary : Vocabulary Float} (reachable : vocabulary.Reachable)
    {tokens : List Token} {text : List Char} (readable : Token.Readable vocabulary tokens)
    (written : Token.Written tokens text) :
    let scan := Scan.ofText vocabulary (Text.normalize text)
    scan.tokens.map (·.token.trimmed) = tokens ∧ scan.rest = [] := by
  have lawful := reachable.lawful
  rcases written.normalizes lawful readable false with ⟨items, normalizes⟩
  dsimp only
  rw [Text.normalize, normalizes.normal, normalizes.apart.scan lawful]
  constructor
  · calc
      _ = ((Token.place 0 (Item.tokens false items) none).map (·.token)).map Token.trimmed := by
        rw [List.map_map]
        rfl
      _ = items.map Item.token := by rw [Token.place_tokens, normalizes.apart.trimmed_tokens]
      _ = tokens := normalizes.listed
  · rfl

/-- With a name that `cos` starts with, and two numbers that only a blank keeps apart. -/
theorem written_tokens_scanned_apart :
    let vocabulary := Edit.applyAll (.standard 0) [.add "co".toList .variadic fun _ => .ok 0]
    let scan := Scan.ofText vocabulary (Text.normalize " co\t(1e+2\n.5 )^ pi".toList)
    scan.tokens.map (·.token.trimmed) = [.word "co".toList, .word ['('], .number "1e+2".toList,
      .number ".5".toList, .word [')'], .word ['^'], .word "pi".toList] ∧ scan.rest = [] := by
  intro vocabulary
  have reachable : vocabulary.Reachable := ⟨0, _, rfl⟩
  have hundred : Literal.Valid ⟨['1'], none, some ⟨'e', some '+', ['2']⟩⟩ :=
    (Literal.read?_some (show Literal.read? "1e+2".toList = _ by decide +kernel)).1
  have half : Literal.Valid ⟨[], some ['5'], none⟩ :=
    (Literal.read?_some (show Literal.read? ".5".toList = _ by decide +kernel)).1
  have opens : Token.Readable vocabulary [.word ['('], .number "1e+2".toList, .number ".5".toList,
      .word [')'], .word ['^'], .word "pi".toList] := by
    apply Token.Readable.symbol (by decide)
    apply Token.Readable.number hundred (fun ahead => by cases ahead)
    apply Token.Readable.number half (fun ahead => by cases ahead; decide)
    apply Token.Readable.symbol (by decide)
    apply Token.Readable.symbol (by decide)
    exact .name (by decide +kernel) (.inl ⟨rfl, by decide +kernel⟩) .nil
  have text : " co\t(1e+2\n.5 )^ pi".toList = [' '] ++ ("co".toList ++ (['\t'] ++ (['('] ++ ([] ++
      ("1e+2".toList ++ (['\n'] ++ (".5".toList ++ ([' '] ++ ([')'] ++ ([] ++ (['^'] ++ ([' '] ++
        ("pi".toList ++ []))))))))))))) := by
    decide +kernel
  have written : Token.Written [.word "co".toList, .word ['('], .number "1e+2".toList, .number ".5".toList,
      .word [')'], .word ['^'], .word "pi".toList] " co\t(1e+2\n.5 )^ pi".toList := by
    rw [text]
    apply Token.Written.cons (Text.single_blank rfl) (fun none => Token.noConfusion none)
    apply Token.Written.cons (Text.single_blank rfl) (fun none => Token.noConfusion none)
    apply Token.Written.cons (by simp) (fun _ _ => ⟨'\n', rfl, rfl⟩)
    apply Token.Written.cons (Text.single_blank rfl) (fun _ ahead => by cases ahead)
    apply Token.Written.cons (Text.single_blank rfl) (fun none => Token.noConfusion none)
    apply Token.Written.cons (by simp) (fun none => Token.noConfusion none)
    apply Token.Written.cons (Text.single_blank rfl) (fun none => Token.noConfusion none)
    exact .nil (by simp)
  have named : vocabulary.isFunction "co".toList = true := by decide +kernel
  have readable := Token.Readable.name named (.inr ⟨['('], by decide, rfl⟩) opens
  exact written_tokens_scanned reachable readable written

end Calculator
