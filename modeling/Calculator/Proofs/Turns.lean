import Calculator.Grammar
import Calculator.Proofs.Nesting

/-!
Sentences of the grammar among the accepted expressions. The machine checks parentheses, commas and the
arguments of calls, but not that operands and operators take turns. An accepted expression is a sentence
just if they do, and there are accepted ones in which they do not.
-/

namespace Calculator

def Token.trimmed : Token → Token
  | .word text => .word text
  | .number text => .number (Text.trim text)

/-- What may come next: the start of an operand, the parenthesis of the function just named, what follows
an operand, the same or empty parentheses, or the end of these. -/
inductive Turn where
  | ready
  | named
  | held
  | constant
  | empty
deriving DecidableEq, Repr

namespace Turn

section

variable {Value : Type} (vocabulary : Vocabulary Value)

def infixes : List Word :=
  [['+'], ['-'], ['*'], ['/'], ['%'], ['^']]

theorem infix_symbol : ∀ word ∈ infixes, word ∈ Word.symbols ∧ word ∉ Word.marks := by
  decide

theorem sum_infix : ∀ word ∈ [['+'], ['-']], word ∈ infixes := by
  decide

theorem product_infix : ∀ word ∈ [['*'], ['/'], ['%']], word ∈ infixes := by
  decide

def afterOperand (word : Word) : Option Turn :=
  if word ∈ infixes ∨ word = [','] then some ready
  else if word = [')'] then some held
  else none

def next : Turn → Token → Option Turn
  | ready, .number _ => some held
  | ready, .word word =>
      if word = ['('] ∨ word = ['+'] ∨ word = ['-'] then some ready
      else if vocabulary.isConstant word then some constant
      else if vocabulary.isFunction word then some named
      else none
  | named, .word word => if word = ['('] then some ready else none
  | held, .word word => afterOperand word
  | constant, .word word => if word = ['('] then some empty else afterOperand word
  | empty, .word word => if word = [')'] then some held else none
  | _, .number _ => none

def endsOperand : Turn → Bool
  | held => true
  | constant => true
  | _ => false

def alternate (tokens : List Token) : Bool :=
  (tokens.foldlM (next vocabulary) ready).any endsOperand

end

end Turn

section

variable {Value : Type} (vocabulary : Vocabulary Value) (number : List Char → Option Value)

def Sentence (phrase : Phrase) (tokens : List Token) : Prop :=
  ∃ values, Derives vocabulary number phrase tokens values

def BeforeProduct (front : List Token) : Prop :=
  ∀ {last}, Sentence vocabulary number .product last → Sentence vocabulary number .sum (front ++ last)

def BeforePower (front : List Token) : Prop :=
  ∀ {last}, Sentence vocabulary number .power last →
    ∃ start product, front ++ last = start ++ product ∧ BeforeProduct vocabulary number start ∧
      Sentence vocabulary number .product product

def Chain (tokens : List Token) : Prop :=
  ∃ front last, tokens = front ++ last ∧ BeforePower vocabulary number front ∧
    Sentence vocabulary number .power last

def BeforeOperand (front : List Token) : Prop :=
  ∀ {last}, Sentence vocabulary number .signed last → Chain vocabulary number (front ++ last)

variable {vocabulary number}

theorem Sentence.raise (lawful : vocabulary.Lawful) {base exponent : List Token}
    (left : Sentence vocabulary number .signed base)
    (right : Sentence vocabulary number .power exponent) :
    Sentence vocabulary number .power (base ++ .word ['^'] :: exponent) := by
  obtain ⟨compute, known⟩ := lawful.power
  obtain ⟨first, left⟩ := left
  obtain ⟨second, right⟩ := right
  exact ⟨_, .raise known left right⟩

/-- Powers group to the right, so one operand more at the end goes into the innermost exponent. -/
theorem Sentence.raise_end (lawful : vocabulary.Lawful) {tokens last : List Token}
    (power : Sentence vocabulary number .power tokens)
    (operand : Sentence vocabulary number .signed last) :
    Sentence vocabulary number .power (tokens ++ .word ['^'] :: last) := by
  obtain ⟨more, operand⟩ := operand
  obtain ⟨values, derives⟩ := power
  -- The phrase is an index of the rules, so it is named for the induction; no other rule ends in a power.
  generalize same : Phrase.power = phrase at derives
  induction derives with
  | base inner => exact Sentence.raise lawful ⟨_, inner⟩ ⟨_, .base operand⟩
  | raise known left right _ ih =>
      have longer := Sentence.raise lawful ⟨_, left⟩ (ih rfl)
      simpa using longer
  | _ => cases same

theorem BeforeProduct.start : BeforeProduct vocabulary number [] := by
  rintro last ⟨values, product⟩
  exact ⟨values, .term product⟩

theorem BeforePower.of_product {front : List Token}
    (before : BeforeProduct vocabulary number front) : BeforePower vocabulary number front := by
  rintro last ⟨values, power⟩
  exact ⟨front, last, rfl, before, values, .factor power⟩

namespace Chain

variable {tokens : List Token}

theorem product (chain : Chain vocabulary number tokens) :
    ∃ start product, tokens = start ++ product ∧ BeforeProduct vocabulary number start ∧
      Sentence vocabulary number .product product := by
  obtain ⟨front, last, rfl, before, power⟩ := chain
  exact before power

theorem sum (chain : Chain vocabulary number tokens) : Sentence vocabulary number .sum tokens := by
  obtain ⟨start, last, rfl, before, product⟩ := chain.product
  exact before product

/-- Whatever operator follows a chain, one operand more makes it a longer chain. -/
theorem infix_operand (lawful : vocabulary.Lawful) (chain : Chain vocabulary number tokens) {word : Word}
    (infixed : word ∈ Turn.infixes) :
    BeforeOperand vocabulary number (tokens ++ [.word word]) := by
  rintro last ⟨values, operand⟩
  have power : Sentence vocabulary number .power last := ⟨values, .base operand⟩
  rcases Word.infix_cases infixed with sum | product | rfl
  -- A sum takes the whole chain as its left operand.
  · obtain ⟨compute, known⟩ := lawful.sum word sum
    obtain ⟨before, left⟩ := chain.sum
    have start : BeforeProduct vocabulary number (tokens ++ [.word word]) := by
      rintro next ⟨more, right⟩
      exact ⟨_, by simpa using Derives.add sum known left right⟩
    exact ⟨tokens ++ [.word word], last, rfl, BeforePower.of_product start, power⟩
  -- A product takes the last product of the chain, and what is before it stays.
  · obtain ⟨compute, known⟩ := lawful.product word product
    obtain ⟨start, front, rfl, before, more, left⟩ := chain.product
    refine ⟨start ++ front ++ [.word word], last, rfl, ?_, power⟩
    rintro next ⟨others, right⟩
    exact ⟨start, front ++ .word word :: next, by simp, before, _,
      .multiply product known left right⟩
  -- A power takes the innermost exponent only.
  · obtain ⟨front, exponent, rfl, before, raised⟩ := chain
    exact ⟨front, exponent ++ .word ['^'] :: last, by simp, before,
      raised.raise_end lawful ⟨values, operand⟩⟩

end Chain

namespace BeforeOperand

variable {front last : List Token}

theorem start : BeforeOperand vocabulary number [] := by
  rintro last ⟨values, operand⟩
  exact ⟨[], last, rfl, BeforePower.of_product BeforeProduct.start, values, .base operand⟩

theorem sign (lawful : vocabulary.Lawful) (before : BeforeOperand vocabulary number front)
    {word : Word} (sign : word = ['+'] ∨ word = ['-']) :
    BeforeOperand vocabulary number (front ++ [.word word]) := by
  rintro last ⟨values, operand⟩
  rw [List.append_assoc]
  apply before
  rcases sign with rfl | rfl
  · obtain ⟨compute, known⟩ := lawful.sign Word.positive (by simp)
    exact ⟨_, .positive known operand⟩
  · obtain ⟨compute, known⟩ := lawful.sign Word.negative (by simp)
    exact ⟨_, .negative known operand⟩

theorem atom (before : BeforeOperand vocabulary number front)
    (operand : Sentence vocabulary number .atom last) :
    Chain vocabulary number (front ++ last) := by
  obtain ⟨values, operand⟩ := operand
  exact before ⟨values, .unsigned operand⟩

end BeforeOperand

variable (vocabulary number) in
def BeforeArgument (commas : Nat) (front : List Token) : Prop :=
  ∀ {last}, Sentence vocabulary number .sum last →
    Sentence vocabulary number (.arguments (commas + 1)) (front ++ last)

theorem BeforeArgument.start : BeforeArgument vocabulary number 0 [] := by
  rintro last ⟨values, sum⟩
  exact ⟨values, .argument sum⟩

theorem BeforeArgument.comma {commas : Nat} {front tokens : List Token}
    (before : BeforeArgument vocabulary number commas front)
    (argument : Sentence vocabulary number .sum tokens) :
    BeforeArgument vocabulary number (commas + 1) (front ++ tokens ++ [.word [',']]) := by
  rintro last ⟨values, sum⟩
  obtain ⟨others, arguments⟩ := before argument
  exact ⟨_, by simpa using Derives.oneMore arguments sum⟩

variable (vocabulary number) in
/-- The tokens up to the start of the innermost parenthesis or argument, each parenthesis where an operand
may stand. -/
inductive Levels : List Opening → List Token → Prop where
  | top : Levels [] []
  | plain {openings : List Opening} {start front : List Token} (outer : Levels openings start)
      (operand : BeforeOperand vocabulary number front) :
      Levels (.plain :: openings) (start ++ front ++ [.word ['(']])
  | call {openings : List Opening} {start front tokens : List Token} {word : Word}
      {operator : Operator Value} {commas : Nat} (outer : Levels openings start)
      (operand : BeforeOperand vocabulary number front)
      (known : vocabulary.get? word = some operator) (function : operator.isFunction = true)
      (takesArguments : operator.isConstant = false)
      (arguments : BeforeArgument vocabulary number commas tokens) :
      Levels (.call word commas :: openings)
        (start ++ front ++ .word word :: .word ['('] :: tokens)

variable (vocabulary number) in
/-- What the tokens so far amount to at each turn, with the last of them and the open parentheses. -/
inductive Parsed : Turn → Option Token → List Opening → List Token → Prop where
  | ready {last : Option Token} {openings : List Opening} {start front : List Token}
      (levels : Levels vocabulary number openings start)
      (operand : BeforeOperand vocabulary number front)
      (plain : Opening.after vocabulary last = .plain) :
      Parsed .ready last openings (start ++ front)
  | named {openings : List Opening} {start front : List Token} {word : Word}
      {operator : Operator Value} (levels : Levels vocabulary number openings start)
      (operand : BeforeOperand vocabulary number front)
      (known : vocabulary.get? word = some operator) (function : operator.isFunction = true)
      (takesArguments : operator.isConstant = false) :
      Parsed .named (some (.word word)) openings (start ++ front ++ [.word word])
  | held {last : Option Token} {openings : List Opening} {start tokens : List Token}
      (levels : Levels vocabulary number openings start) (chain : Chain vocabulary number tokens) :
      Parsed .held last openings (start ++ tokens)
  | constant {openings : List Opening} {start front : List Token} {word : Word}
      {operator : Operator Value} (levels : Levels vocabulary number openings start)
      (operand : BeforeOperand vocabulary number front)
      (known : vocabulary.get? word = some operator) (constant : operator.isConstant = true) :
      Parsed .constant (some (.word word)) openings (start ++ front ++ [.word word])
  | empty {last : Option Token} {openings : List Opening} {start front : List Token} {word : Word}
      {operator : Operator Value} (levels : Levels vocabulary number openings start)
      (operand : BeforeOperand vocabulary number front)
      (known : vocabulary.get? word = some operator) (constant : operator.isConstant = true) :
      Parsed .empty last (.plain :: openings) (start ++ front ++ [.word word, .word ['(']])

namespace Parsed

open Machine

variable {before : Option Token} {openings : List Opening} {machine after : Machine Value}
  {next : Option Char}

theorem plain_after (lawful : vocabulary.Lawful) {word : Word} (symbol : word ∈ Word.symbols) :
    Opening.after vocabulary (some (.word word)) = .plain := by
  simp [Opening.after, lawful.symbol_not_function symbol]

/-- Once it is closed, a plain parenthesis is an operand of the chain around it. -/
theorem close_group {start tokens : List Token} (last : Option Token)
    (levels : Levels vocabulary number (.plain :: openings) start)
    (chain : Chain vocabulary number tokens) :
    Parsed vocabulary number .held last openings (start ++ tokens ++ [.word [')']]) := by
  cases levels with
  | @plain _ outside front outer operand =>
      obtain ⟨values, sum⟩ := chain.sum
      have closed := operand.atom ⟨values, .group sum⟩
      have parsed : Parsed vocabulary number .held last openings _ := .held outer closed
      simpa using parsed

/-- So is a call that has the arguments that are due. -/
theorem close_call {start tokens : List Token} {word : Word} {operator : Operator Value}
    {commas : Nat} (last : Option Token)
    (levels : Levels vocabulary number (.call word commas :: openings) start)
    (chain : Chain vocabulary number tokens) (known : vocabulary.get? word = some operator)
    (expected : operator.arity.ofCall commas = commas + 1) :
    Parsed vocabulary number .held last openings (start ++ tokens ++ [.word [')']]) := by
  have admitted : operator.arity.admits (commas + 1) := by
    cases arity : operator.arity with
    | fixed count =>
        rw [arity] at expected
        exact expected.symm
    | variadic => exact Nat.succ_pos commas
  cases levels with
  | call outer operand found function takesArguments arguments =>
      rw [known] at found
      cases found
      obtain ⟨values, given⟩ := arguments chain.sum
      have closed := operand.atom ⟨_, .call known function takesArguments admitted given⟩
      have parsed : Parsed vocabulary number .held last openings _ := .held outer closed
      simpa using parsed

theorem next_argument (lawful : vocabulary.Lawful) {start tokens : List Token} {word : Word}
    {commas : Nat} (levels : Levels vocabulary number (.call word commas :: openings) start)
    (chain : Chain vocabulary number tokens) :
    Parsed vocabulary number .ready (some (.word [','])) (.call word (commas + 1) :: openings)
      (start ++ tokens ++ [.word [',']]) := by
  have plain : Opening.after vocabulary (some (.word [','])) = .plain :=
    plain_after lawful (by simp [Word.symbols])
  cases levels with
  | call outer operand known function takesArguments arguments =>
      have longer := Levels.call outer operand known function takesArguments
        (arguments.comma chain.sum)
      have parsed := Parsed.ready longer BeforeOperand.start plain
      simpa using parsed

theorem after_operand (lawful : vocabulary.Lawful) {start tokens : List Token} {word : Word}
    {later : Turn} (levels : Levels vocabulary number openings start)
    (chain : Chain vocabulary number tokens) (tracks : Tracks vocabulary before openings machine)
    (moves : Moves vocabulary number machine (.word word) next after)
    (turns : Turn.afterOperand word = some later) :
    Parsed vocabulary number later (some (.word word))
      (Opening.read vocabulary before openings (.word word)) (start ++ tokens ++ [.word word]) := by
  unfold Turn.afterOperand at turns
  split at turns
  · next further =>
      cases turns
      rcases further with infixed | rfl
      · obtain ⟨symbol, noMark⟩ := Turn.infix_symbol word infixed
        rw [Opening.read_other _ _ noMark, List.append_assoc]
        exact .ready levels (chain.infix_operand lawful infixed) (plain_after lawful symbol)
      · obtain ⟨name, commas, outer, rfl⟩ := tracks.comma_open lawful moves
        exact next_argument lawful levels chain
  · split at turns
    · next closing =>
        cases turns
        subst closing
        rcases tracks.closing_open lawful moves with
          ⟨outer, rfl⟩ | ⟨name, operator, commas, outer, rfl, known, expected⟩
        · exact close_group _ levels chain
        · exact close_call _ levels chain known expected
    · cases turns

theorem start_operand (lawful : vocabulary.Lawful) {start front : List Token} {word : Word}
    {later : Turn} (levels : Levels vocabulary number openings start)
    (operand : BeforeOperand vocabulary number front)
    (plain : Opening.after vocabulary before = .plain)
    (turns : Turn.ready.next vocabulary (.word word) = some later) :
    Parsed vocabulary number later (some (.word word))
      (Opening.read vocabulary before openings (.word word)) (start ++ front ++ [.word word]) := by
  simp only [Turn.next] at turns
  split at turns
  · next first =>
      cases turns
      rcases first with rfl | sign
      · rw [Opening.read_opening, plain]
        have parsed := Parsed.ready (Levels.plain levels operand) BeforeOperand.start
          (plain_after lawful (by simp [Word.symbols]) : Opening.after vocabulary (some (.word ['('])) = _)
        simpa using parsed
      · have infixed : word ∈ Turn.infixes := by
          rcases sign with rfl | rfl <;> simp [Turn.infixes]
        obtain ⟨symbol, noMark⟩ := Turn.infix_symbol word infixed
        rw [Opening.read_other _ _ noMark, List.append_assoc]
        exact .ready levels (operand.sign lawful sign) (plain_after lawful symbol)
  · split at turns
    · next isConstant =>
        cases turns
        obtain ⟨operator, known, constant⟩ := (Option.any_eq_true _ _).mp isConstant
        have noMark := lawful.function_no_mark known (Operator.constant_function constant)
        rw [Opening.read_other _ _ noMark]
        exact .constant levels operand known constant
    · next noConstant =>
        split at turns
        · next isFunction =>
            cases turns
            obtain ⟨operator, known, function⟩ := Vocabulary.Lawful.function_known isFunction
            have takesArguments : operator.isConstant = false := by
              simpa [Vocabulary.isConstant, known] using noConstant
            rw [Opening.read_other _ _ (lawful.function_no_mark known function)]
            exact .named levels operand known function takesArguments
        · cases turns

theorem literal_atom {text : List Char}
    (reads : ∀ {literal : Literal}, literal.Valid → ∃ value, number literal.toText = some value)
    (found : isLiteral text = true) :
    Sentence vocabulary number .atom [.number (Text.trim text)] := by
  obtain ⟨literal, valid, written⟩ := isLiteral_written found
  obtain ⟨value, reading⟩ := reads valid
  rw [← written]
  exact ⟨_, .number valid reading⟩

/-- What one token preserves, as long as the turns are kept. -/
theorem step (lawful : vocabulary.Lawful)
    (reads : ∀ {literal : Literal}, literal.Valid → ∃ value, number literal.toText = some value)
    {turn later : Turn} {tokens : List Token} {token : Token}
    (parsed : Parsed vocabulary number turn before openings tokens)
    (tracks : Tracks vocabulary before openings machine)
    (moves : Moves vocabulary number machine token next after)
    (found : Scan.Found vocabulary token) (turns : turn.next vocabulary token = some later) :
    Parsed vocabulary number later (some token) (Opening.read vocabulary before openings token)
      (tokens ++ [token.trimmed]) := by
  cases parsed with
  | ready levels operand plain =>
      cases token with
      | number text =>
          cases turns
          rw [List.append_assoc]
          exact .held levels (operand.atom (literal_atom reads found))
      | word word => exact start_operand lawful levels operand plain turns
  | named levels operand known function takesArguments =>
      cases token with
      | number text => cases turns
      | word word =>
          simp only [Turn.next] at turns
          split at turns
          · next opening =>
              cases turns
              subst opening
              have call := Levels.call levels operand known function takesArguments BeforeArgument.start
              have parsed := Parsed.ready call BeforeOperand.start
                (plain_after lawful (by simp [Word.symbols]) :
                  Opening.after vocabulary (some (.word ['('])) = _)
              simpa [Opening.after, Vocabulary.isFunction, Vocabulary.isConstant, known, function,
                takesArguments, Token.trimmed] using parsed
          · cases turns
  | held levels chain =>
      cases token with
      | number text => cases turns
      | word word => exact after_operand lawful levels chain tracks moves turns
  | @constant openings start front name operator levels operand known constant =>
      have function := Operator.constant_function constant
      cases token with
      | number text => cases turns
      | word word =>
          simp only [Turn.next] at turns
          split at turns
          · next opening =>
              cases turns
              subst opening
              have parsed : Parsed vocabulary number .empty (some (.word ['('])) (.plain :: openings) _ :=
                .empty levels operand known constant
              simpa [Opening.after, Vocabulary.isConstant, known, constant, Token.trimmed] using parsed
          · have chain := operand.atom ⟨_, .constant known constant⟩
            rw [List.append_assoc start front]
            exact after_operand lawful levels chain tracks moves turns
  | @empty last openings start front name operator levels operand known constant =>
      cases token with
      | number text => cases turns
      | word word =>
          simp only [Turn.next] at turns
          split at turns
          · next closing =>
              cases turns
              subst closing
              have chain := operand.atom ⟨_, .constantCall known constant⟩
              have parsed : Parsed vocabulary number .held (some (.word [')'])) openings _ :=
                .held levels chain
              simpa [Token.trimmed] using parsed
          · cases turns

/-- What a run preserves, as long as the turns are kept. -/
theorem run (lawful : vocabulary.Lawful)
    (reads : ∀ {literal : Literal}, literal.Valid → ∃ value, number literal.toText = some value)
    {turn later : Turn} {tokens : List Token} {placed : List Placed}
    (parsed : Parsed vocabulary number turn before openings tokens)
    (tracks : Tracks vocabulary before openings machine)
    (reached : placed.foldlM (Machine.step vocabulary number) machine = .ok after)
    (found : ∀ token ∈ placed, Scan.Found vocabulary token.token)
    (turns : (placed.map (·.token)).foldlM (Turn.next vocabulary) turn = some later) :
    ∃ last openings, Tracks vocabulary last openings after ∧
      Parsed vocabulary number later last openings (tokens ++ placed.map (·.token.trimmed)) := by
  induction placed generalizing turn before openings machine tokens with
  | nil =>
      cases reached
      cases turns
      exact ⟨before, openings, tracks, by simpa using parsed⟩
  | cons first rest ih =>
      rw [List.foldlM_cons] at reached
      rw [List.map_cons, List.foldlM_cons] at turns
      obtain ⟨middle, stepped, reached⟩ := bind_ok.mp reached
      obtain ⟨following, turned, turns⟩ := Option.bind_eq_some_iff.mp turns
      have moves := (step_ok lawful).mp stepped
      have longer := parsed.step lawful reads tracks moves (found first (by simp)) turned
      have others : ∀ token ∈ rest, Scan.Found vocabulary token.token :=
        fun token member => found token (by simp [member])
      obtain ⟨last, openings, kept, parsed⟩ := ih longer (tracks.step lawful moves) reached others turns
      exact ⟨last, openings, kept, by simpa using parsed⟩

/-- With all parentheses closed behind an operand, all of the tokens are a sentence. -/
theorem sentence {turn : Turn} {last : Option Token} {tokens : List Token}
    (parsed : Parsed vocabulary number turn last [] tokens) (ends : turn.endsOperand = true) :
    Sentence vocabulary number .sum tokens := by
  cases parsed with
  | ready => cases ends
  | named => cases ends
  | held levels chain =>
      cases levels
      exact chain.sum
  | constant levels operand known constant =>
      cases levels
      exact (operand.atom ⟨_, .constant known constant⟩).sum

end Parsed

namespace Turn

-- The turns look at the words only, so the blanks that a number kept do not matter.
theorem next_trimmed (turn : Turn) (token : Token) :
    turn.next vocabulary token.trimmed = turn.next vocabulary token := by
  cases token <;> cases turn <;> rfl

theorem alternate_trimmed (tokens : List Token) :
    alternate vocabulary (tokens.map Token.trimmed) = alternate vocabulary tokens := by
  have same : ∀ turn, (tokens.map Token.trimmed).foldlM (next vocabulary) turn =
      tokens.foldlM (next vocabulary) turn := by
    intro turn
    induction tokens generalizing turn with
    | nil => rfl
    | cons token rest ih =>
        rw [List.map_cons, List.foldlM_cons, List.foldlM_cons, next_trimmed]
        cases turned : turn.next vocabulary token with
        | none => rfl
        | some later => exact ih later
  rw [alternate, alternate, same]

@[simp]
theorem opens_group : ready.next vocabulary (.word ['(']) = some ready :=
  rfl

@[simp]
theorem opens_call : named.next vocabulary (.word ['(']) = some ready :=
  rfl

@[simp]
theorem opens_empty : constant.next vocabulary (.word ['(']) = some empty :=
  rfl

@[simp]
theorem closes_empty : empty.next vocabulary (.word [')']) = some held :=
  rfl

theorem starts_function (lawful : vocabulary.Lawful) {word : Word} {operator : Operator Value}
    (known : vocabulary.get? word = some operator) (function : operator.isFunction = true) :
    ready.next vocabulary (.word word) = some (if operator.isConstant then constant else named) := by
  have isFunction : vocabulary.isFunction word = true := by
    simp [Vocabulary.isFunction, known, function]
  have noSymbol : ¬ (word = ['('] ∨ word = ['+'] ∨ word = ['-']) := by
    intro symbol
    have isSymbol : word ∈ Word.symbols := by
      rcases symbol with rfl | rfl | rfl <;> simp [Word.symbols]
    rw [lawful.symbol_not_function isSymbol] at isFunction
    cases isFunction
  simp only [next, if_neg noSymbol, isFunction, if_true]
  cases constant : operator.isConstant with
  | true => simp [Vocabulary.isConstant, known, constant]
  | false => simp [Vocabulary.isConstant, known, constant]

theorem next_behind {turn : Turn} (ends : turn.endsOperand = true) {word : Word}
    (noOpening : word ≠ ['(']) : turn.next vocabulary (.word word) = afterOperand word := by
  cases turn with
  | held => rfl
  | constant => simp [next, noOpening]
  | ready | named | empty => cases ends

/-- Behind an operand, an operator or a comma is followed by one more operand. -/
theorem goes_on {first second : List Token} {turn : Turn} {word : Word}
    (left : first.foldlM (next vocabulary) ready = some turn) (ends : turn.endsOperand = true)
    (further : word ∈ infixes ∨ word = [',']) :
    (first ++ .word word :: second).foldlM (next vocabulary) ready =
      second.foldlM (next vocabulary) ready := by
  have noOpening : word ≠ ['('] := by
    rintro rfl
    revert further
    decide
  simp [List.foldlM_append, left, next_behind ends noOpening, afterOperand, further]

theorem closes {first : List Token} {turn : Turn}
    (left : first.foldlM (next vocabulary) ready = some turn) (ends : turn.endsOperand = true) :
    (first ++ [Token.word [')']]).foldlM (next vocabulary) ready = some held := by
  have closing : afterOperand [')'] = some held := by decide
  have behind := @next_behind Value vocabulary turn ends [')'] (by decide)
  simp [List.foldlM_append, left, behind, closing]

end Turn

/-- In whatever the grammar derives, operands and operators take turns. -/
theorem Derives.alternate (lawful : vocabulary.Lawful) {phrase : Phrase} {tokens : List Token}
    {values : Yield Value} (derives : Derives vocabulary number phrase tokens values) :
    ∃ turn, tokens.foldlM (Turn.next vocabulary) .ready = some turn ∧ turn.endsOperand = true := by
  induction derives with
  | number valid reading => exact ⟨.held, rfl, rfl⟩
  | constant known constant =>
      have first := Turn.starts_function lawful known (Operator.constant_function constant)
      exact ⟨.constant, by simp [first, constant], rfl⟩
  | constantCall known constant =>
      have first := Turn.starts_function lawful known (Operator.constant_function constant)
      exact ⟨.held, by simp [first, constant], rfl⟩
  | call known function takesArguments admitted inner ih =>
      obtain ⟨turn, inside, ends⟩ := ih
      have first := Turn.starts_function lawful known function
      have closed := Turn.closes inside ends
      exact ⟨.held, by simpa [first, takesArguments] using closed, rfl⟩
  | group inner ih =>
      obtain ⟨turn, inside, ends⟩ := ih
      have closed := Turn.closes inside ends
      exact ⟨.held, by simpa using closed, rfl⟩
  | negative known inner ih | positive known inner ih =>
      obtain ⟨turn, inside, ends⟩ := ih
      exact ⟨turn, by simpa [Turn.next] using inside, ends⟩
  | argument inner ih | unsigned inner ih | base inner ih | factor inner ih | term inner ih => exact ih
  | oneMore left right first second =>
      obtain ⟨turn, left, ends⟩ := first
      rw [Turn.goes_on left ends (.inr rfl)]
      exact second
  | raise known left right first second =>
      obtain ⟨turn, left, ends⟩ := first
      rw [Turn.goes_on left ends (.inl (by simp [Turn.infixes]))]
      exact second
  | multiply infixed known left right first second =>
      obtain ⟨turn, left, ends⟩ := first
      rw [Turn.goes_on left ends (.inl (Turn.product_infix _ infixed))]
      exact second
  | add infixed known left right first second =>
      obtain ⟨turn, left, ends⟩ := first
      rw [Turn.goes_on left ends (.inl (Turn.sum_infix _ infixed))]
      exact second

end

/-- Just where operands and operators take turns, an accepted expression is a sentence of the grammar. -/
theorem accepted_sentence_iff {vocabulary : Vocabulary Float} (reachable : vocabulary.Reachable)
    {expression : String} {value : Float}
    (accepted : evaluateExact vocabulary expression = .ok value) :
    let tokens := (Scan.ofText vocabulary (Text.normalize expression.toList)).tokens.map (·.token.trimmed)
    Sentence vocabulary readNumber? .sum tokens ↔ Turn.alternate vocabulary tokens = true := by
  have lawful := reachable.lawful
  constructor
  · rintro ⟨values, derives⟩
    obtain ⟨turn, turns, ends⟩ := derives.alternate lawful
    simp [Turn.alternate, turns, ends]
  · intro alternates
    obtain ⟨final, complete, reached, finished⟩ := Machine.run_ok accepted
    have untrimmed := @Turn.alternate_trimmed Float vocabulary
      ((Scan.ofText vocabulary (Text.normalize expression.toList)).tokens.map (·.token))
    rw [List.map_map] at untrimmed
    obtain ⟨turn, turns, ends⟩ := (Option.any_eq_true _ _).mp (untrimmed.symm.trans alternates)
    have start : Parsed vocabulary readNumber? .ready none [] [] :=
      .ready .top BeforeOperand.start rfl
    -- What was read at the end of the run is a sentence up to parentheses, and these are closed.
    obtain ⟨last, openings, tracks, parsed⟩ :=
      start.run lawful (fun valid => ⟨_, readNumber?_toText valid⟩) Machine.Tracks.initial reached
        Scan.resume_found turns
    obtain rfl := tracks.mirrors.entries.finish_closed finished
    exact parsed.sentence ends

theorem accepted_sentence_in_parentheses :
    let one := (⟨['1'], none, none⟩ : Literal).toFloat
    let two := (⟨['2'], none, none⟩ : Literal).toFloat
    evaluateExact (.standard 0) "(1 + 2)" = .ok (one + two) ∧
    Sentence (.standard 0) readNumber? .sum
      [.word ['('], .number ['1'], .word ['+'], .number ['2'], .word [')']] := by
  have reachable : (Vocabulary.standard 0).Reachable := ⟨0, [], rfl⟩
  have accepted : evaluateExact (.standard 0) "(1 + 2)" =
      .ok ((⟨['1'], none, none⟩ : Literal).toFloat + (⟨['2'], none, none⟩ : Literal).toFloat) := rfl
  exact ⟨accepted, (accepted_sentence_iff reachable accepted).mpr (by decide +kernel)⟩

/-- An operator behind its operands is accepted, though the grammar has nothing of the kind. -/
theorem operator_behind_operands_accepted :
    let one := (⟨['1'], none, none⟩ : Literal).toFloat
    let two := (⟨['2'], none, none⟩ : Literal).toFloat
    evaluateExact (.standard 0) "1 2+" = .ok (one + two) ∧
    ¬ Sentence (.standard 0) readNumber? .sum
      ((Scan.ofText (.standard 0) (Text.normalize "1 2+".toList)).tokens.map (·.token.trimmed)) := by
  refine ⟨rfl, ?_⟩
  rintro ⟨values, derives⟩
  have reachable : (Vocabulary.standard 0).Reachable := ⟨0, [], rfl⟩
  obtain ⟨turn, turns, _⟩ := derives.alternate reachable.lawful
  have noTurns : ((Scan.ofText (.standard 0) (Text.normalize "1 2+".toList)).tokens.map
      (·.token.trimmed)).foldlM (Turn.next (.standard 0)) .ready = none := by
    decide +kernel
  rw [noTurns] at turns
  cases turns

end Calculator
