import Calculator.Proofs.Normalizing
import Calculator.Proofs.Supply

/-!
Evaluation against the grammar. What the rules derive is written without blanks, is read back token by
token, and supplies what the rules say it amounts to; each rule is one kind of combination.
-/

namespace Calculator

namespace Phrase

/-- The precedence of the loosest operator that a phrase may have outside of parentheses. -/
def level : Phrase → Nat
  | .sum => 1
  | .product => 2
  | .power => 3
  | _ => 4

/-- The least reach of the operators that may still wait at the end of a phrase. -/
def bound : Phrase → Nat
  | .sum => 2
  | .product => 3
  | .power => 3
  | _ => 4

def Supplied {Value : Type} (vocabulary : Vocabulary Value) (number : List Char → Option Value)
    (tokens : List Token) (values : Yield Value) : Phrase → Prop
  | .arguments count =>
      0 < count ∧ Machine.SuppliesArguments vocabulary number count tokens values
  | phrase => Machine.Supplies vocabulary number phrase.level phrase.bound tokens values

end Phrase

namespace Vocabulary.Lawful

open Token

variable {Value : Type} {vocabulary : Vocabulary Value}

theorem function_text (lawful : vocabulary.Lawful) {word : Word}
    (function : vocabulary.isFunction word = true) :
    (∀ char ∈ word, Text.isBlank char = false) ∧
      ∃ first, word.head? = some first ∧ first ≠ ')' ∧ first ≠ ' ' := by
  obtain ⟨alphanum, first, rest, rfl, _⟩ :=
    Word.functionName_chars (lawful.function_callable function)
  have letter := alphanum first (by simp)
  refine ⟨fun char member => Word.alphanum_not_blank (alphanum char member), first, rfl, ?_, ?_⟩
  · rintro rfl
    cases letter
  · rintro rfl
    cases letter

end Vocabulary.Lawful

namespace Derives

open Token Vocabulary.Lawful

variable {Value : Type} {vocabulary : Vocabulary Value} {number : List Char → Option Value}
  {phrase : Phrase} {tokens : List Token} {values : Yield Value}

theorem function_of {word : Word} {operator : Operator Value}
    (known : vocabulary.get? word = some operator) (function : operator.isFunction = true) :
    vocabulary.isFunction word = true := by
  simp [Vocabulary.isFunction, known, function]

theorem starts (lawful : vocabulary.Lawful) (derives : Derives vocabulary number phrase tokens values) :
    ∃ first, (spelling tokens).head? = some first ∧ first ≠ ')' ∧ first ≠ ' ' := by
  have extend : ∀ {before after : List Token},
      (∃ first, (spelling before).head? = some first ∧ first ≠ ')' ∧ first ≠ ' ') →
        ∃ first, (spelling (before ++ after)).head? = some first ∧ first ≠ ')' ∧ first ≠ ' ' := by
    rintro before after ⟨first, head, apart⟩
    exact ⟨first, by simp [List.head?_append, head], apart⟩
  induction derives with
  | number valid reading =>
      obtain ⟨first, rest, same, starts⟩ := Literal.toText_head valid
      refine ⟨first, by simp [text, same], ?_, ?_⟩
      · rintro rfl
        cases starts
      · rintro rfl
        cases starts
  | constant known constant | constantCall known constant =>
      have function := function_of known (Operator.constant_function constant)
      obtain ⟨first, head, apart⟩ := (lawful.function_text function).2
      exact ⟨first, by simp [text, List.head?_append, head], apart⟩
  | call known function takesArguments admitted inner ih =>
      obtain ⟨first, head, apart⟩ := (lawful.function_text (function_of known function)).2
      exact ⟨first, by simp [text, List.head?_append, head], apart⟩
  | group inner ih => exact ⟨'(', rfl, by decide, by decide⟩
  | negative known inner ih => exact ⟨'-', rfl, by decide, by decide⟩
  | positive known inner ih => exact ⟨'+', rfl, by decide, by decide⟩
  | argument inner ih | unsigned inner ih | base inner ih | factor inner ih | term inner ih => exact ih
  | oneMore left right first second | raise known left right first second
  | multiply infixed known left right first second | add infixed known left right first second =>
      exact extend first

theorem solid (lawful : vocabulary.Lawful) (derives : Derives vocabulary number phrase tokens values) :
    ∀ char ∈ spelling tokens, Text.isBlank char = false := by
  have symbol : ∀ {word : Word}, word ∈ Word.symbols → ∀ char ∈ word, Text.isBlank char = false := by
    intro word isSymbol
    obtain ⟨char, rfl⟩ := Word.symbol_single isSymbol
    simpa using (Word.symbol_char isSymbol).2.1
  have nothing : ∀ char ∈ spelling [], Text.isBlank char = false := by simp
  have behind : ∀ {word : Word} {rest : List Token}, (∀ char ∈ word, Text.isBlank char = false) →
      (∀ char ∈ spelling rest, Text.isBlank char = false) →
        ∀ char ∈ spelling (.word word :: rest), Text.isBlank char = false := by
    intro word rest first later
    rw [spelling_cons]
    exact List.forall_mem_append.mpr ⟨first, later⟩
  have between : ∀ {first second : List Token} {word : Word}, word ∈ Word.symbols →
      (∀ char ∈ spelling first, Text.isBlank char = false) →
        (∀ char ∈ spelling second, Text.isBlank char = false) →
          ∀ char ∈ spelling (first ++ .word word :: second), Text.isBlank char = false := by
    intro first second word isSymbol left right
    rw [spelling_append]
    exact List.forall_mem_append.mpr ⟨left, behind (symbol isSymbol) right⟩
  induction derives with
  | number valid reading => simpa [text] using Literal.toText_solid valid
  | constant known constant =>
      have function := function_of known (Operator.constant_function constant)
      exact behind (lawful.function_text function).1 nothing
  | constantCall known constant =>
      have function := function_of known (Operator.constant_function constant)
      apply behind (lawful.function_text function).1
      apply behind (symbol (by simp [Word.symbols]))
      exact behind (symbol (by simp [Word.symbols])) nothing
  | call known function takesArguments admitted inner ih =>
      apply behind (lawful.function_text (function_of known function)).1
      apply behind (symbol (by simp [Word.symbols]))
      exact between (by simp [Word.symbols]) ih nothing
  | group inner ih =>
      apply behind (symbol (by simp [Word.symbols]))
      exact between (by simp [Word.symbols]) ih nothing
  | negative known inner ih | positive known inner ih =>
      exact behind (symbol (by simp [Word.symbols])) ih
  | argument inner ih | unsigned inner ih | base inner ih | factor inner ih | term inner ih => exact ih
  | oneMore left right first second | raise known left right first second =>
      exact between (by simp [Word.symbols]) first second
  | multiply infixed known left right first second =>
      exact between (Word.product_symbol _ infixed).1 first second
  | add infixed known left right first second =>
      exact between (Word.sum_symbol _ infixed).1 first second

theorem legible (lawful : vocabulary.Lawful)
    (derives : Derives vocabulary number phrase tokens values) {next : Option Char}
    (closes : Closes next) : Legible vocabulary tokens next := by
  have between : ∀ {first second : List Token} {word : Word} {next : Option Char},
      word ∈ Word.symbols → (∀ {next}, Closes next → Legible vocabulary first next) →
        Legible vocabulary second next → Legible vocabulary (first ++ .word word :: second) next := by
    intro first second word next symbol left right
    obtain ⟨char, rfl⟩ := Word.symbol_single symbol
    exact legible_append.mpr ⟨left (closes_symbol symbol), lawful.legible_symbol symbol right⟩
  -- What follows is another symbol in each part, so the next character is generalised.
  induction derives generalizing next with
  | number valid reading => exact ⟨lawful.emits_number valid closes, trivial⟩
  | @constant word operator known constant =>
      have isConstant : vocabulary.isConstant word = true := by
        simp [Vocabulary.isConstant, known, constant]
      have callable := lawful.function_callable (Vocabulary.constant_function isConstant)
      exact ⟨lawful.emits_name callable (lawful.completes_constant isConstant closes), trivial⟩
  | constantCall known constant =>
      have function := function_of known (Operator.constant_function constant)
      apply lawful.legible_function function
      apply lawful.legible_symbol (by simp [Word.symbols])
      exact lawful.legible_symbol (by simp [Word.symbols]) trivial
  | call known function takesArguments admitted inner ih =>
      apply lawful.legible_function (function_of known function)
      apply lawful.legible_symbol (by simp [Word.symbols])
      exact between (by simp [Word.symbols]) ih trivial
  | group inner ih =>
      apply lawful.legible_symbol (by simp [Word.symbols])
      exact between (by simp [Word.symbols]) ih trivial
  | negative known inner ih | positive known inner ih =>
      exact lawful.legible_symbol (by simp [Word.symbols]) (ih closes)
  | argument inner ih | unsigned inner ih | base inner ih | factor inner ih | term inner ih =>
      exact ih closes
  | oneMore left right first second | raise known left right first second =>
      exact between (by simp [Word.symbols]) first (second closes)
  | multiply infixed known left right first second =>
      exact between (Word.product_symbol _ infixed).1 first (second closes)
  | add infixed known left right first second =>
      exact between (Word.sum_symbol _ infixed).1 first (second closes)

/-- Every rule keeps what the phrases of its right side do. -/
theorem supplied (lawful : vocabulary.Lawful)
    (derives : Derives vocabulary number phrase tokens values) :
    phrase.Supplied vocabulary number tokens values := by
  -- The levels and bounds of the phrases are chosen so that every rule needs only comparisons of them.
  induction derives with
  | number valid reading => exact Machine.supplies_number lawful reading _ _
  | constant known constant => exact Machine.supplies_constant lawful known constant _ _
  | constantCall known constant => exact Machine.supplies_constant_call lawful known constant _ _
  | call known function takesArguments admitted inner ih =>
      obtain ⟨nonempty, arguments⟩ := ih
      exact Machine.supplies_call lawful known function takesArguments nonempty admitted arguments
        (Nat.le_refl 4) _
  | group inner ih =>
      obtain ⟨first, head, noClosing, _⟩ := inner.starts lawful
      exact Machine.supplies_group lawful ih head noClosing _ _
  | argument only ih => exact ⟨Nat.one_pos, Machine.arguments_one ih⟩
  | oneMore left right first second =>
      obtain ⟨nonempty, arguments⟩ := first
      exact ⟨Nat.succ_pos _,
        Machine.arguments_join lawful nonempty Nat.one_pos arguments (Machine.arguments_one second)⟩
  | unsigned inner ih => exact ih
  | negative known inner ih =>
      obtain ⟨compute, sign⟩ := lawful.sign Word.negative (by simp)
      obtain ⟨first, head, _, solid⟩ := inner.starts lawful
      rw [sign] at known
      cases known
      exact Machine.supplies_sign lawful ['-'] (by simp) sign ih head solid (Nat.le_refl 4)
        (Nat.le_refl 4) (Nat.le_refl 4)
  | positive known inner ih =>
      obtain ⟨compute, sign⟩ := lawful.sign Word.positive (by simp)
      obtain ⟨first, head, _, solid⟩ := inner.starts lawful
      rw [sign] at known
      cases known
      exact Machine.supplies_sign lawful ['+'] (by simp) sign ih head solid (Nat.le_refl 4)
        (Nat.le_refl 4) (Nat.le_refl 4)
  | base inner ih => exact ih.weaken (by decide) (by decide)
  | raise known left right first second =>
      obtain ⟨compute, power⟩ := lawful.power
      rw [power] at known
      cases known
      exact Machine.supplies_infix lawful (by simp [Word.symbols]) (by simp [Word.marks]) power first
        second (by decide) (by decide) (by decide) (Nat.le_refl 3) (by decide) (Nat.le_refl 3)
  | factor inner ih => exact ih.weaken (by decide) (by decide)
  | multiply infixed known left right first second =>
      obtain ⟨symbol, noMark⟩ := Word.product_symbol _ infixed
      obtain ⟨compute, product⟩ := lawful.product _ infixed
      rw [product] at known
      cases known
      exact Machine.supplies_infix lawful symbol noMark product first second
        (by decide) (by decide) (by decide) (Nat.le_refl 3) (by decide) (Nat.le_refl 3)
  | term inner ih => exact ih.weaken (by decide) (by decide)
  | add infixed known left right first second =>
      obtain ⟨symbol, noMark⟩ := Word.sum_symbol _ infixed
      obtain ⟨compute, sum⟩ := lawful.sum _ infixed
      rw [sum] at known
      cases known
      exact Machine.supplies_infix lawful symbol noMark sum first second
        (by decide) (by decide) (by decide) (Nat.le_refl 2) (by decide) (Nat.le_refl 2)

end Derives

/-- The operators and signs that derivations look up are the arithmetic of doubles. -/
structure Vocabulary.Arithmetic (vocabulary : Vocabulary Float) : Prop where
  operators : ∀ {symbol : Char} {compute : Float → Float → Float}, Computes symbol compute →
    ∃ operator, vocabulary.get? [symbol] = some operator ∧
      ∀ left right, operator.yield (.ok [left, right]) = .ok [compute left right]
  negative : ∃ operator, vocabulary.get? Word.negative = some operator ∧
    ∀ value, operator.yield (.ok [value]) = .ok [-value]
  positive : ∃ operator, vocabulary.get? Word.positive = some operator ∧
    ∀ value, operator.yield (.ok [value]) = .ok [value]

theorem Vocabulary.Reachable.arithmetic {vocabulary : Vocabulary Float} (reachable : vocabulary.Reachable) :
    vocabulary.Arithmetic := by
  have operators := @reachable.computes
  obtain ⟨draw, edits, rfl⟩ := reachable
  have extension := (Vocabulary.extends_self draw).edits edits
  constructor
  · intro symbol compute computes
    obtain ⟨precedence, associativity, known⟩ := operators computes
    exact ⟨_, known, fun _ _ => rfl⟩
  · exact ⟨_, extension.found rfl, fun _ => rfl⟩
  · exact ⟨_, extension.found rfl, fun _ => rfl⟩

/-- Whatever the grammar derives evaluates to what it amounts to: to the value of the tree, or to the
failure of the first function or constant that fails in it. -/
theorem derived_text_evaluates {vocabulary : Vocabulary Float} (reachable : vocabulary.Reachable)
    {tokens : List Token} {values : Yield Float}
    (derives : Derives vocabulary readNumber? .sum tokens values) :
    vocabulary.Arithmetic ∧
      TurnsOut (evaluateExact vocabulary (String.ofList (Token.spelling tokens))) values := by
  have lawful := reachable.lawful
  have legible : Token.Legible vocabulary tokens none := by
    apply derives.legible lawful
    intro char missing
    cases missing
  have nonempty : Token.spelling tokens ≠ [] := by
    obtain ⟨first, head, _⟩ := derives.starts lawful
    intro empty
    rw [empty] at head
    cases head
  have supplies : Machine.Supplies vocabulary readNumber? 1 2 tokens values := derives.supplied lawful
  refine ⟨reachable.arithmetic, ?_⟩
  apply supplies.run_text legible nonempty
  rw [String.toList_ofList]
  exact Text.normalize_solid (derives.solid lawful)

/-- The body of a function decides: the larger number is not the last one, and a body may refuse. -/
theorem derived_text_evaluates_product :
    let refusing : Edit Float := .add "odd".toList (.fixed 1) fun _ => .error (.of (.refusal "too even"))
    let vocabulary := Edit.applyAll (.standard 0) [refusing]
    TurnsOut (evaluateExact vocabulary "2*max(3,1)") (.ok [6]) ∧
    TurnsOut (evaluateExact vocabulary "2*max(3,1)+odd(1)") (.error (.of (.refusal "too even"))) := by
  intro refusing vocabulary
  have reachable : vocabulary.Reachable := ⟨0, [refusing], rfl⟩
  have digit : ∀ char, char.isDigit = true → Derives vocabulary readNumber? .power
      [.number [char]] (.ok [(⟨[char], none, none⟩ : Literal).toFloat]) := by
    intro char isDigit
    have valid : Literal.Valid ⟨[char], none, none⟩ := by simp [Literal.Valid, Literal.digits, isDigit]
    exact .base (.unsigned (.number valid (readNumber?_toText valid)))
  have larger : vocabulary.get? "max".toList = some (Predefined.dyadic larger) := rfl
  have times : vocabulary.get? ['*'] = some (Predefined.binary 2 .left (· * ·)) := rfl
  have plus : vocabulary.get? ['+'] = some (Predefined.binary 1 .left (· + ·)) := rfl
  have odd : vocabulary.get? "odd".toList =
      some (.function (.fixed 1) fun _ => .error (.of (.refusal "too even"))) := rfl
  have arguments := Derives.oneMore (.argument (.term (.factor (digit '3' rfl))))
    (.term (.factor (digit '1' rfl)))
  have call := Derives.call larger rfl rfl rfl arguments
  have product := Derives.multiply (by simp) times (.factor (digit '2' rfl)) (.base (.unsigned call))
  have refused := Derives.call odd rfl rfl rfl (.argument (.term (.factor (digit '1' rfl))))
  have sum := Derives.add (by simp) plus (.term product) (.factor (.base (.unsigned refused)))
  have six : (⟨['2'], none, none⟩ : Literal).toFloat * Calculator.larger
      (⟨['3'], none, none⟩ : Literal).toFloat (⟨['1'], none, none⟩ : Literal).toFloat = 6 := by
    decide +kernel
  have short : String.ofList (Token.spelling [.number ['2'], .word ['*'], .word "max".toList, .word ['('],
      .number ['3'], .word [','], .number ['1'], .word [')']]) = "2*max(3,1)" := rfl
  have long : String.ofList (Token.spelling [.number ['2'], .word ['*'], .word "max".toList, .word ['('],
      .number ['3'], .word [','], .number ['1'], .word [')'], .word ['+'], .word "odd".toList, .word ['('],
      .number ['1'], .word [')']]) = "2*max(3,1)+odd(1)" := rfl
  have evaluated := (derived_text_evaluates reachable (.term product)).2
  have stopped := (derived_text_evaluates reachable sum).2
  rw [← six, ← short, ← long]
  exact ⟨evaluated, stopped⟩

end Calculator
