import Calculator.Proofs.Layouts

/-!
Blanks between the tokens of an expression. Wherever they are put in, the text is normalized to the same items
with more spaces before numbers, and the machine does the same with what is read from these: only a sign is told
by a space behind it, and there none may be put in before a number.
-/

namespace Calculator

section

variable {Value : Type} (vocabulary : Vocabulary Value)

def Placed.isSign (before : Option Token) (placed : Placed) : Bool :=
  match placed.token with
  | .word word => word.isSignAt placed.next (before.map (Machine.taken vocabulary))
  | .number _ => false

/-- The tokens of a run written with any blanks before, between and behind them, but none between a sign and a
number. -/
inductive Spread : Option Token → Bool → List Placed → List Char → Prop where
  | ending {before : Option Token} {sign : Bool} {gap : List Char}
      (blank : ∀ char ∈ gap, Text.isBlank char = true) : Spread before sign [] gap
  | token {before : Option Token} {sign : Bool} {placed : Placed} {rest : List Placed}
      {gap text : List Char} (blank : ∀ char ∈ gap, Text.isBlank char = true)
      (signed : sign = true → ∀ {number}, placed.token = .number number → gap = [])
      (later : Spread (some placed.token) (placed.isSign vocabulary before) rest text) :
      Spread before sign (placed :: rest) (gap ++ (placed.token.text ++ text))

/-- Tokens that the machine does not tell from each other: the blanks around numbers do not matter, nor what
comes after a word as long as it keeps its meaning there. -/
inductive Alike : Option Token → List Placed → List Placed → Prop where
  | nil {before : Option Token} : Alike before [] []
  | number {before : Option Token} {first second : List Char} {last other : Nat}
      {next further : Option Char} {rest others : List Placed}
      (same : Text.trim second = Text.trim first)
      (later : Alike (some (.number first)) rest others) :
      Alike before (⟨.number first, last, next⟩ :: rest) (⟨.number second, other, further⟩ :: others)
  | word {before : Option Token} {word : Word} {last other : Nat} {next further : Option Char}
      {rest others : List Placed}
      (sign : word.isSignAt further (before.map (Machine.taken vocabulary)) =
        word.isSignAt next (before.map (Machine.taken vocabulary)))
      (closing : further = some ')' → next = some ')')
      (later : Alike (some (.word word)) rest others) :
      Alike before (⟨.word word, last, next⟩ :: rest) (⟨.word word, other, further⟩ :: others)

end

variable {Value : Type} {vocabulary : Vocabulary Value} {number : List Char → Option Value}

namespace Machine

/-- A word does the same before another character if it keeps its meaning and an empty pair of parentheses
stays one. -/
theorem Moves.before_other {machine after : Machine Value} {word : Word} {next further : Option Char}
    (sign : word.isSignAt further machine.previous = word.isSignAt next machine.previous)
    (closing : further = some ')' → next = some ')')
    (moves : Moves vocabulary number machine (.word word) next after) :
    Moves vocabulary number machine (.word word) further after := by
  have key : word.key further machine.previous = word.key next machine.previous := by
    rw [Word.key, Word.key, sign]
  cases moves with
  | constant known constant applied => exact .constant known constant applied
  | comma frames admitted entries settled => exact .comma frames admitted entries settled
  | openCall opens entries => exact .openCall opens entries
  | openGroup plain filled => exact .openGroup plain fun empty => filled (closing empty)
  | closeCall frames entries first second supplied expected applied =>
      exact .closeCall frames entries first second supplied expected applied
  | closeGroup noCall entries settled => exact .closeGroup noCall entries settled
  | operator known noMark noConstant entries settled before stops =>
      rw [← key] at known ⊢
      exact .operator known noMark noConstant entries settled before stops

end Machine

/-- What one list of tokens leads to, another one like it does. -/
theorem Alike.run (lawful : vocabulary.Lawful)
    (trims : ∀ {first second}, Text.trim second = Text.trim first → number second = number first)
    {before : Option Token} {openings : List Opening} {machine after : Machine Value}
    {placed others : List Placed} (alike : Alike vocabulary before placed others)
    (tracks : machine.Tracks vocabulary before openings)
    (reached : placed.foldlM (Machine.step vocabulary number) machine = .ok after) :
    others.foldlM (Machine.step vocabulary number) machine = .ok after := by
  induction alike generalizing openings machine with
  | nil => exact reached
  | number same later ih =>
      rw [List.foldlM_cons] at reached
      rcases bind_ok.mp reached with ⟨middle, stepped, reached⟩
      have moves := (Machine.step_ok lawful).mp stepped
      have tracked := tracks.step lawful moves
      rw [List.foldlM_cons]
      refine bind_ok.mpr ⟨middle, (Machine.step_ok lawful).mpr ?_, ih tracked reached⟩
      cases moves with
      | number reading => exact .number ((trims same).trans reading)
  | word sign closing later ih =>
      rw [List.foldlM_cons] at reached
      rcases bind_ok.mp reached with ⟨middle, stepped, reached⟩
      have moves := (Machine.step_ok lawful).mp stepped
      have tracked := tracks.step lawful moves
      rw [← tracks.previous] at sign
      rw [List.foldlM_cons]
      refine bind_ok.mpr ⟨middle, (Machine.step_ok lawful).mpr ?_, ih tracked reached⟩
      exact moves.before_other sign closing

namespace Word

theorem no_symbol {char : Char} (either : Text.isBlank char = true ∨ Text.startsNumber char = true) :
    [char] ∉ symbols := by
  intro symbol
  rcases symbol_char symbol with ⟨_, solid, starts, _⟩
  rcases either with blank | number
  · cases solid.symm.trans blank
  · cases starts.symm.trans number

end Word

namespace Vocabulary.Lawful

/-- A word that is complete before something that is no symbol is complete before anything. -/
theorem completes_anywhere (lawful : vocabulary.Lawful) {word : Word} {char : Char}
    (noSymbol : [char] ∉ Word.symbols)
    (complete : Token.completesWord vocabulary word (some char) = true) (next : Option Char) :
    Token.completesWord vocabulary word next = true := by
  have noFunction : vocabulary.isFunction word = false := by
    cases function : vocabulary.isFunction word with
    | false => rfl
    | true => exact absurd ((lawful.function_closes function complete).1 char rfl) noSymbol
  have known := Token.completesWord_known complete
  simp [Token.completesWord, known.1, known.2, noFunction]

theorem known_solid (lawful : vocabulary.Lawful) {word : Word}
    (known : vocabulary.knows word = true) : ∀ char ∈ word, Text.isBlank char = false := by
  have named : word ∈ Word.symbols ∨ word.isFunctionName = true := by
    rcases lawful.known_cases known with symbol | sign | ⟨_, callable⟩
    · exact .inl symbol
    · simp only [Word.isSign, Bool.or_eq_true, beq_iff_eq] at sign
      rcases sign with rfl | rfl <;> exact .inr rfl
    · exact .inr callable
  rcases named with symbol | callable
  · rcases Word.symbol_single symbol with ⟨char, rfl⟩
    simpa using (Word.symbol_char symbol).2.1
  · intro char member
    exact Word.alphanum_not_blank ((Word.functionName_chars callable).1 char member)

end Vocabulary.Lawful

structure Respaced (vocabulary : Vocabulary Value) (before : Option Token) (sign gap : Bool) (index : Nat)
    (tokens : List Token) (text : List Char) (items : List Item) : Prop where
  normal : Text.squeeze gap text = Item.layout items
  apart : Item.Apart vocabulary items
  alike : ∀ start behindNumber, Alike vocabulary before (Token.place index tokens none)
    (Token.place start (Item.tokens behindNumber items) none)
  /-- What comes first is the same, or has become a space before a number. -/
  head : (Item.layout items).head? = (Token.spelling tokens).head? ∨
    sign = false ∧ Item.spaceAhead items = true ∧
      ∃ char, (Token.spelling tokens).head? = some char ∧ [char] ∉ Word.symbols
  /-- The blanks before the text are not lost before a number. -/
  carried : gap = true → Item.spaceAhead items = true ∨
    ∀ char ∈ (Item.layout items).head?, Text.isBlank char = false ∧ Text.startsNumber char = false

namespace Respaced

variable {before : Option Token} {sign gap : Bool} {index : Nat} {tokens : List Token}
  {text : List Char} {items : List Item}

theorem ending {blanks : List Char} (blank : ∀ char ∈ blanks, Text.isBlank char = true) :
    Respaced vocabulary before sign gap index [] blanks [] := by
  constructor
  · exact Text.squeeze_end blank gap
  · exact .nil
  · intro start behindNumber
    exact .nil
  · exact .inl rfl
  · intro _
    exact .inr (by simp)

theorem space_first (apart : Item.Apart vocabulary items) (space : Item.spaceAhead items = true) :
    (Item.layout items).head? = some ' ' := by
  rcases apart.space_before_number space with ⟨literal, rest, _, rfl⟩
  simp [Item.text]

theorem cons_word (lawful : vocabulary.Lawful) {word : Word} {blanks : List Char}
    (blank : ∀ char ∈ blanks, Text.isBlank char = true)
    (complete : Token.completesWord vocabulary word (Token.spelling tokens).head? = true)
    {last : Nat} (later : Respaced vocabulary (some (.word word))
      (Placed.isSign vocabulary before ⟨.word word, last, (Token.spelling tokens).head?⟩) false
      (index + word.length) tokens text items) :
    Respaced vocabulary before sign gap index (.word word :: tokens) (blanks ++ (word ++ text))
      (⟨false, .word word⟩ :: items) := by
  have known := (Token.completesWord_known complete).1
  have solid := lawful.known_solid known
  rcases lawful.known_head known with ⟨char, others, rfl, charSolid, noNumber⟩
  have written : (Item.layout (⟨false, .word (char :: others)⟩ :: items)).head? = some char := by
    simp [Item.text, Token.text]
  constructor
  · rw [Text.squeeze_blanks blank, Text.squeeze_word solid noNumber, later.normal]
    simp [Item.text, Token.text]
  · apply Item.Apart.word _ later.apart
    rcases later.head with same | ⟨_, _, first, ahead, noSymbol⟩
    · rwa [same]
    · rw [ahead] at complete
      exact lawful.completes_anywhere noSymbol complete _
  · intro start behindNumber
    have further := (later.apart.layout_tokens false).symm
    rw [Bool.false_and, Item.space_false, List.nil_append] at further
    rw [Token.place, Item.tokens, Token.place, Option.or_none, Option.or_none, further]
    apply Alike.word _ _ (later.alike _ _)
    · rcases later.head with same | ⟨noSign, space, _⟩
      · rw [same]
      · -- The character after a word has become a space, but the word was no sign before.
        rw [space_first later.apart space]
        simpa [Placed.isSign, Word.isSignAt] using noSign
    · rcases later.head with same | ⟨_, space, _⟩
      · rw [same]
        exact id
      · rw [space_first later.apart space]
        intro closing
        cases closing
  · exact .inl (by simp [Item.text, Token.text])
  · intro _
    right
    rw [written]
    rintro first ⟨rfl⟩
    exact ⟨charSolid, noNumber⟩

/-- A number that is complete with blanks around it is so without them, unless a space comes next. -/
theorem completes_bare {literal : Literal} (valid : literal.Valid) {front back : List Char}
    (frontBlank : ∀ char ∈ front, Text.isBlank char = true)
    (backBlank : ∀ char ∈ back, Text.isBlank char = true)
    (complete : Token.completesNumber (front ++ (literal.toText ++ back))
      (Token.spelling tokens).head? = true)
    (later : Respaced vocabulary before sign (!back.isEmpty) index tokens text items) :
    Item.spaceAhead items = true ∨
      Token.completesNumber literal.toText (Item.layout items).head? = true := by
  rw [Token.completesNumber, isLiteral_before frontBlank, isLiteral_behind backBlank,
    isLiteral_toText valid, Bool.true_and] at complete
  rcases later.head with same | ⟨_, space, _⟩
  · rw [Token.completesNumber, isLiteral_toText valid, Bool.true_and, same]
    cases ahead : (Token.spelling tokens).head? with
    | none => exact .inr rfl
    | some next =>
        rw [ahead] at complete same
        simp only [Option.all_some, Bool.and_eq_true, Bool.not_eq_true'] at complete ⊢
        cases back with
        | nil =>
            have longer := complete.2
            rw [List.append_nil, List.append_assoc, isLiteral_before frontBlank] at longer
            exact .inr ⟨complete.1, longer⟩
        | cons first more =>
            -- Behind blanks that are no space before a number, a word comes next.
            refine (later.carried rfl).imp_right fun word => ⟨complete.1, ?_⟩
            rcases word next same with ⟨nextSolid, noNumber⟩
            cases accepted : isLiteral (literal.toText ++ [next]) with
            | false => rfl
            | true => cases noNumber.symm.trans (isLiteral_last nextSolid accepted)
  · exact .inl space

/-- A number takes up the blanks before it as one space, and leaves those behind it to what follows. -/
theorem cons_number {literal : Literal} (valid : literal.Valid)
    {blanks front back : List Char} (blank : ∀ char ∈ blanks, Text.isBlank char = true)
    (frontBlank : ∀ char ∈ front, Text.isBlank char = true)
    (backBlank : ∀ char ∈ back, Text.isBlank char = true)
    (signed : sign = true → gap = false ∧ blanks = [] ∧ front = [])
    (complete : Token.completesNumber (front ++ (literal.toText ++ back))
      (Token.spelling tokens).head? = true)
    (later : Respaced vocabulary (some (.number (front ++ (literal.toText ++ back)))) false
      (!back.isEmpty) (index + (front ++ (literal.toText ++ back)).length) tokens text items) :
    Respaced vocabulary before sign gap index (.number (front ++ (literal.toText ++ back)) :: tokens)
      (blanks ++ (front ++ (literal.toText ++ back) ++ text))
      (⟨gap || !blanks.isEmpty || !front.isEmpty, .number literal.toText⟩ :: items) := by
  have solid := Literal.toText_solid valid
  rcases Literal.toText_head valid with ⟨char, others, written, starts⟩
  constructor
  · have squeezed := @Text.squeeze_number char others (by simpa [written] using solid) starts
    rw [Text.squeeze_blanks blank, List.append_assoc, Text.squeeze_blanks frontBlank, List.append_assoc,
      written, squeezed, Text.squeeze_blanks backBlank, Bool.false_or, later.normal]
    simp [Item.text, Item.space, Token.text]
  · exact .number valid (later.completes_bare valid frontBlank backBlank complete) later.apart
  · intro start behindNumber
    apply Alike.number _ (later.alike _ _)
    rw [Text.trim_before (Item.space_blank _), Text.trim_behind (Item.space_blank _),
      Text.trim_before frontBlank, Text.trim_behind backBlank]
  · cases space : gap || !blanks.isEmpty || !front.isEmpty with
    | true =>
        right
        refine ⟨?_, rfl, ?_⟩
        · cases isSign : sign with
          | false => rfl
          | true =>
              rcases signed isSign with ⟨rfl, rfl, rfl⟩
              cases space
        · cases front with
          | nil =>
              exact ⟨char, by simp [Token.text, written], Word.no_symbol (.inr starts)⟩
          | cons first more =>
              have firstBlank := frontBlank first List.mem_cons_self
              exact ⟨first, by simp [Token.text], Word.no_symbol (.inl firstBlank)⟩
    | false =>
        left
        simp only [Bool.or_eq_false_iff, Bool.not_eq_false', List.isEmpty_iff] at space
        simp [Item.text, Token.text, space.2, written]
  · rintro rfl
    exact .inl rfl

end Respaced

namespace Token

theorem complete?_word {candidate : List Char} {word : Word} {next : Option Char}
    (complete : complete? vocabulary candidate next = some (.word word)) :
    completesWord vocabulary word next = true := by
  unfold complete? at complete
  split at complete
  · next completes =>
      cases complete
      exact completes
  · split at complete
    · cases complete
    · cases complete

theorem complete?_number {candidate text : List Char} {next : Option Char}
    (complete : complete? vocabulary candidate next = some (.number text)) :
    completesNumber text next = true := by
  unfold complete? at complete
  split at complete
  · cases complete
  · split at complete
    · next completes =>
        cases complete
        exact completes
    · cases complete

end Token

/-- However blanks are put in, the text is normalized to items that are read as the tokens were. -/
theorem Spread.respaced (lawful : vocabulary.Lawful) {before : Option Token} {sign gap : Bool}
    {index : Nat} {tokens : List Token} {text : List Char}
    (legible : Token.Legible vocabulary tokens none)
    (plain : ∀ char ∈ Token.spelling tokens, Text.isBlank char = true → char = ' ')
    (signed : sign = true → gap = false ∧ (Token.spelling tokens).head? ≠ some ' ')
    (spread : Spread vocabulary before sign (Token.place index tokens none) text) :
    ∃ items, Respaced vocabulary before sign gap index tokens text items := by
  -- On the tokens from the end of the text, as the blanks behind a number belong to what comes next.
  induction tokens generalizing before sign gap index text with
  | nil =>
      cases spread with
      | ending blank => exact ⟨[], .ending blank⟩
  | cons token rest ih =>
      have complete := Token.emits_complete legible.1
      rw [List.nil_append, Option.or_none] at complete
      have restPlain : ∀ char ∈ Token.spelling rest, Text.isBlank char = true → char = ' ' := by
        intro char member
        exact plain char (by simp [member])
      rw [Token.place, Option.or_none] at spread
      cases spread with
      | token blank tight later =>
          cases token with
          | word word =>
              have noSpace : ∀ {last}, Placed.isSign vocabulary before
                  ⟨.word word, last, (Token.spelling rest).head?⟩ = true →
                    false = false ∧ (Token.spelling rest).head? ≠ some ' ' := by
                intro last isSign
                simp only [Placed.isSign, Word.isSignAt, Bool.and_eq_true, bne_iff_ne] at isSign
                exact ⟨rfl, isSign.1.2⟩
              rcases ih legible.2 restPlain noSpace later with ⟨items, respaced⟩
              exact ⟨_, .cons_word lawful blank (Token.complete?_word complete) respaced⟩
          | number text =>
              have completes := Token.complete?_number complete
              have literal : isLiteral text = true := by
                simp only [Token.completesNumber, Bool.and_eq_true] at completes
                exact completes.1
              rcases isLiteral_written literal with ⟨literal, valid, written⟩
              rcases Text.trim_parts text with ⟨front, back, split, frontBlank, backBlank⟩
              rw [← written] at split
              subst split
              have noSign : false = true → (!back.isEmpty) = false ∧
                  (Token.spelling rest).head? ≠ some ' ' := by
                intro isSign
                cases isSign
              rcases ih legible.2 restPlain noSign later with ⟨items, respaced⟩
              refine ⟨_, .cons_number valid blank frontBlank backBlank ?_ completes respaced⟩
              intro isSign
              rcases signed isSign with ⟨noGap, noSpace⟩
              refine ⟨noGap, tight isSign rfl, ?_⟩
              cases front with
              | nil => rfl
              | cons char more =>
                  have isSpace := plain char (by simp [Token.text]) (frontBlank char List.mem_cons_self)
                  simp [Token.text, isSpace] at noSpace

theorem Machine.run_of_finish {text : List Char} {machine : Machine Value} {value : Value}
    (complete : (Scan.ofText vocabulary (Text.normalize text)).rest = [])
    (reached : (Scan.ofText vocabulary (Text.normalize text)).tokens.foldlM (step vocabulary number)
      initial = .ok machine)
    (finished : machine.finish = .ok value) : Calculator.run vocabulary number text = .ok value := by
  unfold Calculator.run
  cases empty : (Text.normalize text).isEmpty with
  | true =>
      rw [List.isEmpty_iff.mp empty] at reached
      cases reached
      cases finished
  | false =>
      simp only [empty, complete, List.isEmpty_nil, Bool.false_eq_true, if_false, if_true]
      exact bind_ok.mpr ⟨machine, reached, finished⟩

/-- Blanks that are put in before, between and behind the tokens of an accepted expression, but not between a
sign and a number, do not change its value. -/
theorem blanks_between_tokens {vocabulary : Vocabulary Float} (reachable : vocabulary.Reachable)
    {expression spaced : String} {value : Float}
    (accepted : evaluateExact vocabulary expression = .ok value)
    (spread : Spread vocabulary none false
      (Scan.ofText vocabulary (Text.normalize expression.toList)).tokens spaced.toList) :
    evaluateExact vocabulary spaced = .ok value := by
  have lawful := reachable.lawful
  rcases Machine.run_ok accepted with ⟨machine, complete, reached, finished⟩
  rcases Scan.legible_of_resume complete with ⟨tokens, spelled, legible, placed⟩
  have plain : ∀ char ∈ Token.spelling tokens, Text.isBlank char = true → char = ' ' := by
    rw [← spelled]
    exact Text.normalize_blank
  rw [Scan.ofText, placed] at spread reached
  have noSign : false = true → false = false ∧ (Token.spelling tokens).head? ≠ some ' ' := by
    intro isSign
    cases isSign
  rcases spread.respaced lawful legible plain noSign with ⟨items, respaced⟩
  have scan := respaced.apart.scan lawful
  rw [← respaced.normal] at scan
  have trims : ∀ {first second}, Text.trim second = Text.trim first →
      readNumber? second = readNumber? first := by
    intro first second same
    rw [readNumber?, readNumber?, same]
  apply Machine.run_of_finish _ _ finished
  · rw [Text.normalize, scan]
  · rw [Text.normalize, scan]
    exact (respaced.alike 0 false).run lawful trims Machine.Tracks.initial reached

theorem blanks_between_tokens_sum :
    let sum := -(⟨['1'], none, none⟩ : Literal).toFloat + (⟨['2'], none, none⟩ : Literal).toFloat
    evaluateExact (.standard 0) "-1+2" = .ok sum ∧
      evaluateExact (.standard 0) " -1\u2003+\t2\n" = .ok sum := by
  have reachable : (Vocabulary.standard 0).Reachable := ⟨0, [], rfl⟩
  have accepted : evaluateExact (.standard 0) "-1+2" =
      .ok (-(⟨['1'], none, none⟩ : Literal).toFloat + (⟨['2'], none, none⟩ : Literal).toFloat) := rfl
  have tokens : (Scan.ofText (.standard 0) (Text.normalize "-1+2".toList)).tokens =
      [⟨.word ['-'], 0, some '1'⟩, ⟨.number ['1'], 1, some '+'⟩, ⟨.word ['+'], 2, some '2'⟩,
        ⟨.number ['2'], 3, none⟩] := by
    decide +kernel
  have text : " -1\u2003+\t2\n".toList = [' '] ++ (['-'] ++ ([] ++ (['1'] ++ (['\u2003'] ++
      (['+'] ++ (['\t'] ++ (['2'] ++ ['\n']))))))) := by
    decide +kernel
  refine ⟨accepted, blanks_between_tokens reachable accepted ?_⟩
  rw [tokens, text]
  have noSign : Placed.isSign (.standard 0) (some (.number ['1'])) ⟨.word ['+'], 2, some '2'⟩ = false := by
    decide +kernel
  apply Spread.token (Text.single_blank rfl) (fun none => Bool.noConfusion none)
  apply Spread.token (by simp) (fun _ _ _ => rfl)
  apply Spread.token (Text.single_blank rfl) (fun none => Bool.noConfusion none)
  apply Spread.token (Text.single_blank rfl) (fun sign => Bool.noConfusion (noSign.symm.trans sign))
  exact .ending (Text.single_blank rfl)

end Calculator
