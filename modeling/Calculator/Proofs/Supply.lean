import Calculator.Evaluate
import Calculator.Grammar
import Calculator.Proofs.Moves
import Calculator.Proofs.Spelling

/-!
Token lists that supply operands. Wherever an operand may start, whatever waits below, such a list puts
its values on the stack, save for operators that wait for their turn, or fails as its values do. Larger
lists supply what they combine, each kind of combination by one lemma.
-/

namespace Calculator

namespace Arity

/-- As long as no more arguments are written than are taken, the commas between them are admitted. -/
theorem admits_commas {arity : Arity} {count : Nat}
    (fits : ∀ expected, arity = .fixed expected → count ≤ expected) :
    ∀ more, more + 1 < count → arity.admitsComma more = true := by
  intro more early
  cases arity with
  | fixed expected =>
      have least := fits expected rfl
      simp only [admitsComma, decide_eq_true_eq]
      omega
  | variadic => rfl

theorem ofCall_admitted {arity : Arity} {count : Nat} (nonempty : 0 < count)
    (admitted : arity.admits count) : arity.ofCall (count - 1) = count - 1 + 1 := by
  cases arity with
  | fixed expected =>
      have same : count = expected := admitted
      simp only [ofCall]
      omega
  | variadic => rfl

end Arity

namespace Operator

variable {Value : Type}

/-- A waiting operator is applied before one whose precedence is below its reach. -/
def reach (operator : Operator Value) : Nat :=
  if operator.associativity == .left then operator.precedence + 1 else operator.precedence

theorem bindsBefore_iff {waiting incoming : Operator Value} :
    waiting.bindsBefore incoming = true ↔ incoming.precedence < waiting.reach := by
  unfold bindsBefore reach
  cases left : waiting.associativity == .left with
  | true =>
      simp
      omega
  | false => simp

end Operator

def Vocabulary.opensOperand {Value : Type} (vocabulary : Vocabulary Value) : Option Previous → Bool
  | none => true
  | some (.operator word) => word != [')'] && !vocabulary.isFunction word
  | some _ => false

def Previous.endsOperand : Option Previous → Bool
  | none => false
  | some (.operator word) => word == [')']
  | some _ => true

theorem Word.isSignAt_start {Value : Type} {vocabulary : Vocabulary Value}
    {previous : Option Previous} (opens : vocabulary.opensOperand previous = true) (word : Word)
    (next : Option Char) :
    word.isSignAt next previous = ((word == ['+'] || word == ['-']) && next != some ' ') := by
  rcases previous with _ | _ | constant | before
  · simp [isSignAt]
  · cases opens
  · cases opens
  · simp only [Vocabulary.opensOperand, Bool.and_eq_true] at opens
    simp [isSignAt, opens.1]

theorem Word.no_sign_behind {previous : Option Previous}
    (ends : Previous.endsOperand previous = true) (word : Word) (next : Option Char) :
    word.isSignAt next previous = false := by
  rcases previous with _ | _ | constant | before
  · cases ends
  · simp [isSignAt]
  · simp [isSignAt]
  · simp only [Previous.endsOperand, beq_iff_eq] at ends
    simp [isSignAt, ends]

namespace Machine

variable {Value : Type}

def Agrees (holds : List Value → Machine Value → Prop) (result : Except Fault (Machine Value)) :
    Yield Value → Prop
  | .ok values => ∃ after, result = .ok after ∧ holds values after
  | .error fault => ∃ position, result = .error ⟨fault.cause, position⟩

theorem Agrees.bind {holds further : List Value → Machine Value → Prop}
    {result : Except Fault (Machine Value)} {values : Yield Value}
    {goOn : Machine Value → Except Fault (Machine Value)} {rest : List Value → Yield Value}
    (agrees : Agrees holds result values)
    (later : ∀ {found after}, holds found after → Agrees further (goOn after) (rest found)) :
    Agrees further (result >>= goOn) (Except.bind values rest) := by
  cases values with
  | ok found =>
      obtain ⟨after, rfl, held⟩ := agrees
      exact later held
  | error fault =>
      obtain ⟨position, rfl⟩ := agrees
      exact ⟨position, rfl⟩

theorem Agrees.map {holds further : List Value → Machine Value → Prop}
    {result : Except Fault (Machine Value)} {values : Yield Value}
    {change : List Value → List Value} (agrees : Agrees holds result values)
    (changed : ∀ {found after}, holds found after → further (change found) after) :
    Agrees further result (Except.map change values) := by
  cases values with
  | ok found =>
      obtain ⟨after, same, held⟩ := agrees
      exact ⟨after, same, changed held⟩
  | error fault => exact agrees

theorem Agrees.andThen {holds further : List Value → Machine Value → Prop}
    {result : Except Fault (Machine Value)} {values : Yield Value}
    {goOn : Machine Value → Except Fault (Machine Value)} (agrees : Agrees holds result values)
    (later : ∀ {found after}, holds found after → ∃ final, goOn after = .ok final ∧ further found final) :
    Agrees further (result >>= goOn) values := by
  cases values with
  | ok found =>
      obtain ⟨after, rfl, held⟩ := agrees
      exact later held
  | error fault =>
      obtain ⟨position, rfl⟩ := agrees
      exact ⟨position, rfl⟩

theorem Agrees.weaken {holds further : List Value → Machine Value → Prop}
    {result : Except Fault (Machine Value)} {values : Yield Value}
    (agrees : Agrees holds result values)
    (weaker : ∀ {found after}, holds found after → further found after) :
    Agrees further result values := by
  cases values with
  | ok found =>
      obtain ⟨after, same, held⟩ := agrees
      exact ⟨after, same, weaker held⟩
  | error fault => exact agrees

section

variable (vocabulary : Vocabulary Value) (number : List Char → Option Value)

def follow (index : Nat) (tokens : List Token) (next : Option Char) (machine : Machine Value) :
    Except Fault (Machine Value) :=
  (Token.place index tokens next).foldlM (step vocabulary number) machine

structure Ready (level : Nat) (machine : Machine Value) : Prop where
  yields : ∀ {top rest}, machine.entries = .waiting top :: rest → top.operator.reach ≤ level
  opens : vocabulary.opensOperand machine.previous = true

/-- Some values came on top of the operands, once the operators on top of the others are applied, as
any operator below their reach does. If there is no bound to that, a mark has to follow. -/
structure Leaves (count bound : Nat) (frames : List Frame) (before : Machine Value)
    (values : List Value) (after : Machine Value) : Prop where
  counted : values.length = count
  waiting : ∃ pending, after.entries = pending.map .waiting ++ before.entries ∧
    settle pending after.operands = .ok (values.reverse ++ before.operands) ∧
      ∀ top ∈ pending, bound ≤ top.operator.reach
  frames : after.frames = frames
  previous : 0 < bound → Previous.endsOperand after.previous = true

/-- Signs look ahead, so no blank may follow. -/
def Supplies (level bound : Nat) (tokens : List Token) (values : Yield Value) : Prop :=
  ∀ index next machine, next ≠ some ' ' → Ready vocabulary level machine →
    Agrees (Leaves 1 bound machine.frames machine)
      (follow vocabulary number index tokens next machine) values

def SuppliesArguments (count : Nat) (tokens : List Token) (values : Yield Value) : Prop :=
  ∀ index next machine arity commas base outer rest, next ≠ some ' ' →
    machine.frames = .call arity commas base :: outer → machine.entries = .opening :: rest →
      (∀ more, more + 1 < count → arity.admitsComma (commas + more) = true) →
        vocabulary.opensOperand machine.previous = true →
          Agrees (Leaves count 0 (.call arity (commas + (count - 1)) base :: outer) machine)
            (follow vocabulary number index tokens next machine) values

end

variable {vocabulary : Vocabulary Value} {number : List Char → Option Value}

theorem follow_append (index : Nat) (first second : List Token) (next : Option Char)
    (machine : Machine Value) :
    follow vocabulary number index (first ++ second) next machine =
      follow vocabulary number index first ((Token.spelling second).head?.or next) machine >>=
        follow vocabulary number (index + (Token.spelling first).length) second next := by
  simp only [follow, Token.place_append, List.foldlM_append]
  rfl

theorem follow_cons (index : Nat) (token : Token) (rest : List Token) (next : Option Char)
    (machine : Machine Value) :
    follow vocabulary number index (token :: rest) next machine =
      machine.step vocabulary number
          ⟨token, index + (token.text.length - 1), (Token.spelling rest).head?.or next⟩ >>=
        follow vocabulary number (index + token.text.length) rest next := by
  simp only [follow, Token.place, List.foldlM_cons]
  rfl

theorem follow_single (index : Nat) (token : Token) (next : Option Char) (machine : Machine Value) :
    follow vocabulary number index [token] next machine =
      machine.step vocabulary number ⟨token, index + (token.text.length - 1), next⟩ := by
  rw [follow_cons]
  cases stepped : machine.step vocabulary number ⟨token, index + (token.text.length - 1), next⟩ with
  | ok after => simp [stepped, follow, Token.place, bind, Except.bind, pure, Except.pure]
  | error fault => simp [stepped, bind, Except.bind]

theorem follow_moves (lawful : vocabulary.Lawful) (index : Nat) {token : Token}
    {rest : List Token} {next : Option Char} {machine after : Machine Value}
    (moves : Moves vocabulary number machine token ((Token.spelling rest).head?.or next) after) :
    follow vocabulary number index (token :: rest) next machine =
      follow vocabulary number (index + token.text.length) rest next after := by
  rw [follow_cons, moves_step lawful _ moves]
  rfl

theorem Ready.stops {level : Nat} {machine : Machine Value}
    (ready : Ready vocabulary level machine) {incoming : Operator Value}
    (tight : level ≤ incoming.precedence) : Stops incoming machine.entries := by
  intro top rest entries
  have low := ready.yields entries
  rw [← Bool.not_eq_true, Operator.bindsBefore_iff]
  omega

theorem Ready.weaken {level higher : Nat} {machine : Machine Value}
    (ready : Ready vocabulary level machine) (least : level ≤ higher) :
    Ready vocabulary higher machine :=
  ⟨fun entries => Nat.le_trans (ready.yields entries) least, ready.opens⟩

/-- After a parenthesis or a comma nothing waits above it. -/
theorem ready_opening {machine : Machine Value} {rest : List (Entry Value)}
    (entries : machine.entries = .opening :: rest)
    (opens : vocabulary.opensOperand machine.previous = true) (level : Nat) :
    Ready vocabulary level machine := by
  constructor
  · intro top others same
    rw [entries] at same
    cases same
  · exact opens

theorem opens_after (lawful : vocabulary.Lawful) {word : Word} (symbol : word ∈ Word.symbols)
    (noClosing : word ≠ [')']) : vocabulary.opensOperand (some (.operator word)) = true := by
  simp [Vocabulary.opensOperand, noClosing, lawful.symbol_not_function symbol]

theorem Ready.opens_group {level : Nat} {machine : Machine Value}
    (ready : Ready vocabulary level machine) : machine.opensCall vocabulary = false := by
  have opens := ready.opens
  unfold Vocabulary.opensOperand at opens
  unfold opensCall
  split
  · next word same =>
      rw [same] at opens
      simp only [Bool.and_eq_true, Bool.not_eq_true'] at opens
      exact opens.2
  · rfl

theorem symbol_ahead {word : Word} (symbol : word ∈ Word.symbols) (rest : List Token)
    (next : Option Char) : (Token.spelling (.word word :: rest)).head?.or next ≠ some ' ' := by
  obtain ⟨char, rfl⟩ := Word.symbol_single symbol
  intro blank
  simp only [Token.spelling_cons, Token.text, List.cons_append, List.head?_cons, Option.some_or,
    Option.some.injEq] at blank
  subst blank
  have solid := (Word.symbol_char symbol).2.1
  cases solid

theorem reduce_values {waiting : Waiting Value} {values : List Value}
    (counted : values.length = waiting.count) (operands : List Value) :
    waiting.reduce (values.reverse ++ operands) =
      (waiting.operator.apply values).map (· :: operands) := by
  have enough : ¬ (values.reverse ++ operands).length < waiting.count := by
    simp only [List.length_append, List.length_reverse]
    omega
  have length : values.reverse.length = waiting.count := by simpa using counted
  rw [Waiting.reduce, if_neg enough, ← length, List.take_left, List.drop_left,
    List.reverse_reverse]
  cases waiting.operator.apply values <;> rfl

theorem Supplies.weaken {level lower bound least : Nat} {tokens : List Token}
    {values : Yield Value} (supplies : Supplies vocabulary number level bound tokens values)
    (lowers : lower ≤ level) (loosens : least ≤ bound) :
    Supplies vocabulary number lower least tokens values := by
  intro index next machine solid ready
  apply (supplies index next machine solid (ready.weaken lowers)).weaken
  intro found after leaves
  obtain ⟨pending, entries, settled, reaches⟩ := leaves.waiting
  constructor
  · exact leaves.counted
  · exact ⟨pending, entries, settled, fun top member => Nat.le_trans loosens (reaches top member)⟩
  · exact leaves.frames
  · intro positive
    exact leaves.previous (Nat.lt_of_lt_of_le positive loosens)

/-- What comes as a value at once leaves nothing waiting. -/
theorem leaves_value (machine : Machine Value) (bound : Nat) (value : Value) {previous : Previous}
    (ends : Previous.endsOperand (some previous) = true) :
    Leaves 1 bound machine.frames machine [value] (machine.push value previous) :=
  ⟨rfl, ⟨[], rfl, rfl, by simp⟩, rfl, fun _ => ends⟩

theorem supplies_number {text : List Char} {value : Value} (lawful : vocabulary.Lawful)
    (reading : number text = some value) (level bound : Nat) :
    Supplies vocabulary number level bound [.number text] (.ok [value]) := by
  intro index next machine solid ready
  refine ⟨machine.push value .operand, ?_, leaves_value machine bound value rfl⟩
  rw [follow_single]
  exact moves_step lawful _ (.number reading)

theorem agrees_constant (lawful : vocabulary.Lawful) {word : Word} {operator : Operator Value}
    (known : vocabulary.get? word = some operator) (constant : operator.isConstant = true)
    (machine : Machine Value) (last : Nat) (next : Option Char) :
    Agrees (fun values after => ∃ value, values = [value] ∧
        after = machine.push value (.constant word))
      (machine.step vocabulary number ⟨.word word, last, next⟩) (operator.yield (.ok [])) := by
  rw [step_constant lawful machine known constant, Operator.yield_apply]
  cases operator.apply [] with
  | ok value => simp [Except.map, Agrees, located]
  | error fault => simp [Except.map, Agrees, located, Fault.located]

theorem supplies_constant (lawful : vocabulary.Lawful) {word : Word} {operator : Operator Value}
    (known : vocabulary.get? word = some operator) (constant : operator.isConstant = true)
    (level bound : Nat) :
    Supplies vocabulary number level bound [.word word] (operator.yield (.ok [])) := by
  intro index next machine solid ready
  rw [follow_single]
  apply (agrees_constant lawful known constant machine _ next).weaken
  rintro values after ⟨value, rfl, rfl⟩
  exact leaves_value machine bound value rfl

def opened (entries : List (Entry Value)) (frames : List Frame) (machine : Machine Value) :
    Machine Value :=
  ⟨machine.operands, .opening :: entries, frames, some (.operator ['('])⟩

theorem ready_opened (lawful : vocabulary.Lawful) (level : Nat) (entries : List (Entry Value))
    (frames : List Frame) (machine : Machine Value) :
    Ready vocabulary level (machine.opened entries frames) :=
  ready_opening rfl (opens_after lawful (by simp [Word.symbols]) (by simp)) level

def within (frames : List Frame) : List Frame :=
  if frames.isEmpty then [] else .group :: frames

theorem within_drop (frames : List Frame) : (within frames).drop 1 = frames := by
  cases frames <;> rfl

theorem within_no_call (frames : List Frame) (arity : Arity) (commas base : Nat)
    (outer : List Frame) : within frames ≠ .call arity commas base :: outer := by
  cases frames <;> simp [within]

theorem follow_close_group (lawful : vocabulary.Lawful) (index : Nat) (next : Option Char)
    {machine : Machine Value} {pending : List (Waiting Value)} {below : List (Entry Value)}
    {frames : List Frame} {operands : List Value}
    (entries : machine.entries = pending.map .waiting ++ .opening :: below)
    (settled : settle pending machine.operands = .ok operands)
    (grouped : machine.frames = within frames) :
    follow vocabulary number index [.word [')']] next machine =
      .ok ⟨operands, below, frames, some (.operator [')'])⟩ := by
  have noCall : ∀ arity commas base outer, machine.frames ≠ .call arity commas base :: outer := by
    rw [grouped]
    exact within_no_call frames
  have moves : Moves vocabulary number machine (.word [')']) next
      ⟨operands, below, machine.frames.drop 1, some (.operator [')'])⟩ :=
    .closeGroup noCall entries settled
  rw [grouped, within_drop] at moves
  rw [follow_single]
  exact moves_step lawful _ moves

theorem supplies_group (lawful : vocabulary.Lawful) {level bound : Nat} {tokens : List Token}
    {values : Yield Value} (supplies : Supplies vocabulary number level bound tokens values)
    {first : Char} (starts : (Token.spelling tokens).head? = some first) (noClosing : first ≠ ')')
    (outerLevel outerBound : Nat) :
    Supplies vocabulary number outerLevel outerBound (.word ['('] :: tokens ++ [.word [')']])
      values := by
  intro index next machine solid ready
  have opened : Moves vocabulary number machine (.word ['('])
      ((Token.spelling (tokens ++ [.word [')']])).head?.or next)
      (machine.opened machine.entries (within machine.frames)) := by
    apply Moves.openGroup ready.opens_group
    intro closing
    rw [Token.spelling_append, List.head?_append, starts] at closing
    cases closing
    exact absurd rfl noClosing
  rw [List.cons_append, follow_moves lawful index opened, follow_append]
  apply (supplies _ _ _ (by simp [Token.text]) (ready_opened lawful level _ _ machine)).andThen
  intro found after leaves
  obtain ⟨pending, entries, settled, _⟩ := leaves.waiting
  exact ⟨_, follow_close_group lawful _ next entries settled leaves.frames,
    leaves.counted, ⟨[], rfl, rfl, by simp⟩, rfl, fun _ => rfl⟩

theorem supplies_constant_call (lawful : vocabulary.Lawful) {word : Word}
    {operator : Operator Value} (known : vocabulary.get? word = some operator)
    (constant : operator.isConstant = true) (level bound : Nat) :
    Supplies vocabulary number level bound [.word word, .word ['('], .word [')']]
      (operator.yield (.ok [])) := by
  intro index next machine solid ready
  rw [follow_cons]
  apply (agrees_constant lawful known constant machine _ _).andThen
  rintro values after ⟨value, rfl, rfl⟩
  have moves : Moves vocabulary number (machine.push value (.constant word)) (.word ['(']) (some ')')
      ((machine.push value (.constant word)).opened machine.entries (within machine.frames)) :=
    .openGroup rfl fun _ => rfl
  -- The parentheses open a group on top of the value, and close it with nothing in between.
  have noneWaits : ((machine.push value (.constant word)).opened machine.entries
      (within machine.frames)).entries = List.map .waiting [] ++ .opening :: machine.entries := rfl
  refine ⟨⟨value :: machine.operands, machine.entries, machine.frames, some (.operator [')'])⟩,
    ?_, rfl, ⟨[], rfl, rfl, by simp⟩, rfl, fun _ => rfl⟩
  rw [follow_moves lawful _ moves]
  exact follow_close_group lawful _ next noneWaits rfl rfl

/-- A function is put on the stack, and its parenthesis opens a call. -/
theorem follow_open_call (lawful : vocabulary.Lawful) {word : Word} {operator : Operator Value}
    (known : vocabulary.get? word = some operator) (function : operator.isFunction = true)
    (takesArguments : operator.isConstant = false) {level : Nat} {machine : Machine Value}
    (ready : Ready vocabulary level machine) (tight : level ≤ 4) (index : Nat) (rest : List Token)
    (next : Option Char) :
    ∃ later top, top.operator = operator ∧
      follow vocabulary number index (.word word :: .word ['('] :: rest) next machine =
        follow vocabulary number later rest next
          (machine.opened (.opening :: .waiting top :: machine.entries)
            (.call operator.arity 0 machine.operands.length :: machine.frames)) := by
  have stops : Stops operator machine.entries := by
    apply ready.stops
    rw [(lawful.function known function takesArguments).1]
    exact tight
  have noneWaits : machine.entries = List.map .waiting [] ++ machine.entries := rfl
  let named : Machine Value :=
    ⟨machine.operands, .waiting ⟨word, operator, operator.arity.declared⟩ :: machine.entries,
      machine.frames, some (.operator word)⟩
  have moves : Moves vocabulary number machine (.word word) (some '(') named := by
    have key := lawful.function_written known function (some '(') machine.previous
    have pushed : Moves vocabulary number machine (.word word) (some '(') _ :=
      .operator (key.symm ▸ known) (lawful.function_no_mark known function) takesArguments
        noneWaits rfl (by simp) stops
    rwa [key] at pushed
  have opens : named.opensCall vocabulary = true := by
    simp [named, opensCall, Vocabulary.isFunction, known, function]
  refine ⟨index + word.length + 1, ⟨word, operator, operator.arity.declared⟩, rfl, ?_⟩
  rw [follow_moves lawful index moves, follow_moves lawful _ (.openCall opens rfl)]
  rfl

/-- Each argument left its value, so the function takes just these. -/
theorem agrees_close_call (lawful : vocabulary.Lawful) {machine : Machine Value} {arity : Arity}
    {commas : Nat} {outer : List Frame} {pending : List (Waiting Value)} {top : Waiting Value}
    {rest : List (Entry Value)} {values below : List Value}
    (frames : machine.frames = .call arity commas below.length :: outer)
    (entries : machine.entries = pending.map .waiting ++ .opening :: .opening :: .waiting top :: rest)
    (settled : settle pending machine.operands = .ok (values.reverse ++ below))
    (counted : values.length = commas + 1) (expected : arity.ofCall commas = commas + 1)
    (last : Nat) (next : Option Char) :
    Agrees (fun found after => ∃ value, found = [value] ∧
        after = ⟨value :: below, rest, outer, some (.operator [')'])⟩)
      (machine.step vocabulary number ⟨.word [')'], last, next⟩)
      (top.operator.yield (.ok values)) := by
  have arguments := flush_ok.mpr ⟨pending, entries, settled⟩
  have supplied : (values.reverse ++ below).length - below.length = commas + 1 := by
    simp [counted]
  have call : flush (.opening :: .waiting top :: rest) (values.reverse ++ below) =
      .ok (.waiting top :: rest, values.reverse ++ below) := rfl
  have reduced : Waiting.reduce { top with count := commas + 1 } (values.reverse ++ below) =
      (top.operator.apply values).map (· :: below) := reduce_values counted below
  rw [step_mark lawful machine (by simp [Word.marks])]
  rw [Operator.yield_apply]
  simp only [closeParenthesis, arguments, frames, applyCall, call, supplied, expected, reduced,
    bind, Except.bind]
  cases top.operator.apply values with
  | ok value => simp [Except.map, Agrees, located, remember]
  | error fault => simp [Except.map, Agrees, located, Fault.located]

theorem arguments_one {level bound : Nat} {tokens : List Token}
    {values : Yield Value} (supplies : Supplies vocabulary number level bound tokens values) :
    SuppliesArguments vocabulary number 1 tokens values := by
  intro index next machine arity commas base outer rest solid frames entries _ opens
  apply (supplies index next machine solid (ready_opening entries opens level)).weaken
  intro found after leaves
  obtain ⟨pending, split, settled, _⟩ := leaves.waiting
  exact ⟨leaves.counted, ⟨pending, split, settled, by simp⟩, leaves.frames.trans frames, by simp⟩

/-- A comma that is admitted ends an argument and leaves its value among the operands. -/
theorem follow_comma (lawful : vocabulary.Lawful) {machine : Machine Value} {arity : Arity}
    {commas base : Nat} {outer : List Frame} {pending : List (Waiting Value)}
    {below : List (Entry Value)} {operands : List Value}
    (frames : machine.frames = .call arity commas base :: outer)
    (admitted : arity.admitsComma commas = true)
    (entries : machine.entries = pending.map .waiting ++ .opening :: below)
    (settled : settle pending machine.operands = .ok operands) (index : Nat) (rest : List Token)
    (next : Option Char) :
    follow vocabulary number index (.word [','] :: rest) next machine =
      follow vocabulary number (index + 1) rest next
        ⟨operands, .opening :: below, .call arity (commas + 1) base :: outer,
          some (.operator [','])⟩ :=
  follow_moves lawful index (.comma frames admitted entries settled)

theorem arguments_join (lawful : vocabulary.Lawful) {count more : Nat} {before tokens : List Token}
    {first values : Yield Value} (nonempty : 0 < count) (others : 0 < more)
    (left : SuppliesArguments vocabulary number count before first)
    (right : SuppliesArguments vocabulary number more tokens values) :
    SuppliesArguments vocabulary number (count + more) (before ++ .word [','] :: tokens)
      (first.append values) := by
  intro index next machine arity commas base outer rest solid frames entries admits opens
  have room : ∀ extra, extra + 1 < count → arity.admitsComma (commas + extra) = true :=
    fun extra fits => admits extra (by omega)
  rw [follow_append]
  apply (left _ _ machine _ _ _ _ _ (by simp [Token.text]) frames entries room opens).bind
  intro found after leaves
  obtain ⟨pending, split, settled, _⟩ := leaves.waiting
  rw [entries] at split
  -- The comma between the two lists comes after one comma less than the first has arguments.
  have admitted := admits (count - 1) (by omega)
  rw [follow_comma lawful leaves.frames admitted split settled]
  have further : ∀ extra, extra + 1 < more →
      arity.admitsComma (commas + (count - 1) + 1 + extra) = true := by
    intro extra fits
    have same : commas + (count - 1) + 1 + extra = commas + (count + extra) := by omega
    rw [same]
    exact admits (count + extra) (by omega)
  apply (right _ _ _ _ _ _ _ _ solid rfl rfl further
    (opens_after lawful (by simp [Word.symbols]) (by simp))).map
  intro last final supplied
  obtain ⟨waiting, above, settles, _⟩ := supplied.waiting
  have frame : commas + (count - 1) + 1 + (more - 1) = commas + (count + more - 1) := by omega
  constructor
  · simp [leaves.counted, supplied.counted]
  · exact ⟨waiting, by rw [above, entries], by simpa using settles, by simp⟩
  · rw [supplied.frames, frame]
  · simp

structure HoldsArguments (operator : Operator Value) (count : Nat) (machine : Machine Value)
    (values : List Value) (after : Machine Value) : Prop where
  counted : values.length = count
  frames : after.frames = .call operator.arity (count - 1) machine.operands.length :: machine.frames
  waiting : ∃ top pending, top.operator = operator ∧
    after.entries = pending.map .waiting ++ .opening :: .opening :: .waiting top :: machine.entries ∧
      settle pending after.operands = .ok (values.reverse ++ machine.operands)

theorem agrees_call (lawful : vocabulary.Lawful) {word mark : Word} {operator : Operator Value}
    {count level index : Nat} {tokens rest : List Token} {values : Yield Value} {next : Option Char}
    {machine : Machine Value} {holds : List Value → Machine Value → Prop}
    {outcome : List Value → Yield Value} (known : vocabulary.get? word = some operator)
    (function : operator.isFunction = true) (takesArguments : operator.isConstant = false)
    (room : ∀ more, more + 1 < count → operator.arity.admitsComma more = true)
    (arguments : SuppliesArguments vocabulary number count tokens values)
    (ready : Ready vocabulary level machine) (tight : level ≤ 4) (isMark : mark ∈ Word.marks)
    (goesOn : ∀ {later found after}, HoldsArguments operator count machine found after →
      Agrees holds (follow vocabulary number later (.word mark :: rest) next after) (outcome found)) :
    Agrees holds
      (follow vocabulary number index
        (.word word :: .word ['('] :: (tokens ++ .word mark :: rest)) next machine)
      (Except.bind values outcome) := by
  obtain ⟨later, top, rfl, opened⟩ := follow_open_call lawful known function takesArguments ready
    tight index (tokens ++ .word mark :: rest) next
  have admits : ∀ more, more + 1 < count → top.operator.arity.admitsComma (0 + more) = true := by
    intro more fits
    rw [Nat.zero_add]
    exact room more fits
  have solid := symbol_ahead (Word.mark_symbol mark isMark) rest next
  rw [opened, follow_append]
  apply (arguments _ _ _ _ _ _ _ _ solid rfl rfl admits
    (opens_after lawful (by simp [Word.symbols]) (by simp))).bind
  intro found after leaves
  have frames := leaves.frames
  rw [Nat.zero_add] at frames
  obtain ⟨pending, entries, settled, _⟩ := leaves.waiting
  exact goesOn ⟨leaves.counted, frames, top, pending, rfl, entries, settled⟩

theorem supplies_call (lawful : vocabulary.Lawful) {word : Word} {operator : Operator Value}
    {count : Nat} {tokens : List Token} {values : Yield Value}
    (known : vocabulary.get? word = some operator) (function : operator.isFunction = true)
    (takesArguments : operator.isConstant = false) (nonempty : 0 < count)
    (admitted : operator.arity.admits count)
    (arguments : SuppliesArguments vocabulary number count tokens values) {level : Nat}
    (tight : level ≤ 4) (bound : Nat) :
    Supplies vocabulary number level bound (.word word :: .word ['('] :: tokens ++ [.word [')']])
      (operator.yield values) := by
  intro index next machine solid ready
  have fits : ∀ expected, operator.arity = .fixed expected → count ≤ expected := by
    intro expected arity
    rw [arity] at admitted
    exact Nat.le_of_eq admitted
  have expected := Arity.ofCall_admitted nonempty admitted
  apply agrees_call lawful known function takesArguments (Arity.admits_commas fits) arguments ready
    tight (by simp [Word.marks])
  intro later found after held
  have counted : found.length = count - 1 + 1 := by
    rw [held.counted]
    omega
  obtain ⟨top, pending, rfl, entries, settled⟩ := held.waiting
  rw [follow_single]
  apply (agrees_close_call lawful held.frames entries settled counted expected _ next).weaken
  rintro values final ⟨value, rfl, rfl⟩
  exact ⟨rfl, ⟨[], rfl, rfl, by simp⟩, rfl, fun _ => rfl⟩

/-- With fewer arguments than the function takes, the closing parenthesis fails. -/
theorem supplies_short_call (lawful : vocabulary.Lawful) {word : Word} {operator : Operator Value}
    {count expected : Nat} {tokens : List Token} {values : List Value}
    (known : vocabulary.get? word = some operator) (function : operator.isFunction = true)
    (takesArguments : operator.isConstant = false) (arity : operator.arity = .fixed expected)
    (short : count < expected)
    (arguments : SuppliesArguments vocabulary number count tokens (.ok values)) {level : Nat}
    (tight : level ≤ 4) (bound : Nat) :
    Supplies vocabulary number level bound (.word word :: .word ['('] :: tokens ++ [.word [')']])
      (.error (.of .invalidExpression)) := by
  intro index next machine solid ready
  have fits : ∀ most, operator.arity = .fixed most → count ≤ most := by
    intro most same
    cases arity.symm.trans same
    exact Nat.le_of_lt short
  -- The commas pass, and what is left is the count at the closing parenthesis.
  have closed := @agrees_call Value vocabulary number lawful word [')'] operator count level index
    tokens [] (.ok values) next machine (Leaves 1 bound machine.frames machine)
    (fun _ => .error (.of .invalidExpression)) known function takesArguments
    (Arity.admits_commas fits) arguments ready tight (by simp [Word.marks])
  apply closed
  intro later found after held
  obtain ⟨top, pending, rfl, entries, settled⟩ := held.waiting
  have flushed := flush_ok.mpr ⟨pending, entries, settled⟩
  have call : flush (.opening :: .waiting top :: machine.entries)
      (found.reverse ++ machine.operands) =
        .ok (.waiting top :: machine.entries, found.reverse ++ machine.operands) := rfl
  have mismatch : found.length ≠ expected := by
    rw [held.counted]
    exact Nat.ne_of_lt short
  rw [follow_single, step_mark lawful after (by simp [Word.marks])]
  simp [closeParenthesis, flushed, held.frames, applyCall, call, arity, Arity.ofCall,
    mismatch, Agrees, bind, Except.bind, Except.map, located, Fault.located, Fault.of]

/-- With more arguments than the function takes, the first comma too many fails. -/
theorem supplies_crowded_call (lawful : vocabulary.Lawful) {word : Word} {operator : Operator Value}
    {expected : Nat} {tokens rest : List Token} {values : List Value}
    (known : vocabulary.get? word = some operator) (function : operator.isFunction = true)
    (takesArguments : operator.isConstant = false) (arity : operator.arity = .fixed expected)
    (nonempty : 0 < expected)
    (arguments : SuppliesArguments vocabulary number expected tokens (.ok values)) {level : Nat}
    (tight : level ≤ 4) (bound : Nat) :
    Supplies vocabulary number level bound
      (.word word :: .word ['('] :: (tokens ++ .word [','] :: rest)) (.error (.of .misplacedComma)) := by
  intro index next machine solid ready
  have fits : ∀ most, operator.arity = .fixed most → expected ≤ most := by
    intro most same
    cases arity.symm.trans same
    exact Nat.le_refl expected
  have full : ¬ expected - 1 + 1 < expected := by omega
  have stopped := @agrees_call Value vocabulary number lawful word [','] operator expected level index
    tokens rest (.ok values) next machine (Leaves 1 bound machine.frames machine)
    (fun _ => .error (.of .misplacedComma)) known function takesArguments
    (Arity.admits_commas fits) arguments ready tight (by simp [Word.marks])
  apply stopped
  intro later found after held
  have frames := held.frames
  rw [arity] at frames
  rw [follow_cons, step_mark lawful after (by simp [Word.marks])]
  simp [comma, frames, Arity.admitsComma, full, Agrees, bind, Except.bind, Except.map, located,
    Fault.located, Fault.of]

/-- An arithmetic operator that was put behind some of its operands waits with the operators above it,
and makes one value of all its operands. -/
theorem leaves_behind {machine middle after : Machine Value} {word : Word}
    {count precedence inner bound : Nat} {associativity : Associativity}
    {compute : List Value → Value} {held found : List Value} {frames : List Frame}
    (full : held.length + 1 = count)
    (entries : middle.entries =
      .waiting ⟨word, .arithmetic count precedence associativity compute, count⟩ :: machine.entries)
    (operands : middle.operands = held.reverse ++ machine.operands)
    (leaves : Leaves 1 inner frames middle found after) (loosens : bound ≤ inner)
    (reaches : bound ≤ (@Operator.arithmetic Value count precedence associativity compute).reach) :
    Leaves 1 bound frames machine [compute (held ++ found)] after := by
  obtain ⟨pending, split, settled, above⟩ := leaves.waiting
  let top : Waiting Value := ⟨word, .arithmetic count precedence associativity compute, count⟩
  have applied : settle [top] (found.reverse ++ middle.operands) =
      .ok (compute (held ++ found) :: machine.operands) := by
    have counted : (held ++ found).length = top.count := by simp [top, leaves.counted, full]
    have reduced := reduce_values counted machine.operands
    rw [operands, ← List.append_assoc, ← List.reverse_append, settle, reduced]
    rfl
  constructor
  · rfl
  · refine ⟨pending ++ [top], by simp [split, entries, top], ?_, ?_⟩
    · rw [settle_append, settled]
      exact applied
    · intro other member
      rcases List.mem_append.mp member with early | last
      · exact Nat.le_trans loosens (above other early)
      · rw [List.mem_singleton.mp last]
        exact reaches
  · exact leaves.frames
  · intro positive
    exact leaves.previous (Nat.lt_of_lt_of_le positive loosens)

/-- An infix operator comes after whatever waits in its left operand, and its right one comes first. -/
theorem supplies_infix (lawful : vocabulary.Lawful) {word : Word} {precedence : Nat}
    {associativity : Associativity} {compute : List Value → Value}
    {before tokens : List Token} {first second : Yield Value}
    {leftLevel leftBound rightLevel rightBound level bound : Nat}
    (symbol : word ∈ Word.symbols) (noMark : word ∉ Word.marks)
    (known : vocabulary.get? word = some (.arithmetic 2 precedence associativity compute))
    (left : Supplies vocabulary number leftLevel leftBound before first)
    (right : Supplies vocabulary number rightLevel rightBound tokens second)
    (starts : level ≤ leftLevel) (stays : level ≤ precedence) (applied : precedence < leftBound)
    (goesOn : (@Operator.arithmetic Value 2 precedence associativity compute).reach ≤ rightLevel)
    (loosens : bound ≤ rightBound)
    (reaches : bound ≤ (@Operator.arithmetic Value 2 precedence associativity compute).reach) :
    Supplies vocabulary number level bound (before ++ .word word :: tokens)
      ((Operator.arithmetic 2 precedence associativity compute).yield (first.append second)) := by
  intro index next machine solid ready
  have assembled : (Operator.arithmetic 2 precedence associativity compute).yield
      (first.append second) = Except.bind first fun held =>
        Except.map (fun found => [compute (held ++ found)]) second := by
    cases first with
    | error fault => rfl
    | ok held => cases second <;> rfl
  rw [follow_append, assembled]
  apply (left _ _ machine (symbol_ahead symbol tokens next) (ready.weaken starts)).bind
  intro held after leaves
  obtain ⟨pending, split, settled, above⟩ := leaves.waiting
  have ends := leaves.previous (Nat.lt_of_le_of_lt (Nat.zero_le _) applied)
  let middle : Machine Value :=
    ⟨held.reverse ++ machine.operands,
      .waiting ⟨word, .arithmetic 2 precedence associativity compute, 2⟩ :: machine.entries,
      after.frames, some (.operator word)⟩
  have moves : ∀ ahead, Moves vocabulary number after (.word word) ahead middle := by
    intro ahead
    have key := Word.key_self (Word.no_sign_behind ends word ahead)
    -- What waits in the left operand reaches the operator, and what stood below it does not.
    have pops : ∀ top ∈ pending, top.operator.bindsBefore
        (.arithmetic 2 precedence associativity compute) = true := by
      intro top member
      exact Operator.bindsBefore_iff.mpr (Nat.lt_of_lt_of_le applied (above top member))
    have pushed : Moves vocabulary number after (.word word) ahead _ :=
      .operator (key.symm ▸ known) noMark rfl split settled pops (ready.stops stays)
    rwa [key] at pushed
  have goes : Ready vocabulary rightLevel middle := by
    constructor
    · intro top rest same
      cases same
      exact goesOn
    · apply opens_after lawful symbol
      rintro rfl
      simp [Word.marks] at noMark
  rw [follow_moves lawful _ (moves _)]
  apply (right _ _ middle solid goes).map
  intro found final supplied
  have full : held.length + 1 = 2 := by rw [leaves.counted]
  rw [← leaves.frames]
  exact leaves_behind full rfl rfl supplied loosens reaches

/-- A sign waits until its operand is complete. -/
theorem supplies_sign (lawful : vocabulary.Lawful) (word : Word) {compute : List Value → Value}
    {tokens : List Token} {values : Yield Value} {first : Char} {inner : Nat}
    (sign : word ∈ [['+'], ['-']])
    (known : vocabulary.get? (if word = ['-'] then Word.negative else Word.positive) =
      some (.arithmetic 1 4 .neither compute))
    (supplies : Supplies vocabulary number 4 inner tokens values)
    (starts : (Token.spelling tokens).head? = some first) (noBlank : first ≠ ' ') {level bound : Nat}
    (tight : level ≤ 4) (loosens : bound ≤ inner) (reaches : bound ≤ 4) :
    Supplies vocabulary number level bound (.word word :: tokens)
      ((Operator.arithmetic 1 4 .neither compute).yield values) := by
  intro index next machine solid ready
  have assembled : (Operator.arithmetic 1 4 .neither compute).yield values =
      Except.map (fun found => [compute found]) values := by
    cases values <;> rfl
  have symbol : word ∈ Word.symbols ∧ word ∉ Word.marks ∧ word ≠ [')'] := by
    simp only [List.mem_cons, List.not_mem_nil, or_false] at sign
    rcases sign with rfl | rfl <;> simp [Word.symbols, Word.marks]
  let middle : Machine Value :=
    ⟨machine.operands, .waiting ⟨if word = ['-'] then Word.negative else Word.positive,
        .arithmetic 1 4 .neither compute, 1⟩ :: machine.entries,
      machine.frames, some (.operator word)⟩
  have moves : Moves vocabulary number machine (.word word)
      ((Token.spelling tokens).head?.or next) middle := by
    have solidNext : (Token.spelling tokens).head?.or next ≠ some ' ' := by simp [starts, noBlank]
    have isSign : word.isSignAt ((Token.spelling tokens).head?.or next) machine.previous = true := by
      rw [Word.isSignAt_start ready.opens]
      simpa [solidNext] using sign
    have key : word.key ((Token.spelling tokens).head?.or next) machine.previous =
        if word = ['-'] then Word.negative else Word.positive := by
      simp [Word.key, isSign]
    -- Only other signs could wait, and a sign never goes before a sign.
    have noneWaits : machine.entries = List.map .waiting [] ++ machine.entries := rfl
    have stops : Stops (.arithmetic 1 4 .neither compute) machine.entries := ready.stops tight
    have pushed : Moves vocabulary number machine (.word word) _ _ :=
      .operator (key.symm ▸ known) symbol.2.1 rfl noneWaits rfl (by simp) stops
    rwa [key] at pushed
  have goes : Ready vocabulary 4 middle := by
    constructor
    · intro top rest same
      cases same
      exact Nat.le_refl 4
    · exact opens_after lawful symbol.1 symbol.2.2
  rw [follow_moves lawful _ moves, assembled]
  apply (supplies _ _ middle solid goes).map
  intro found final supplied
  have full : (@List.nil Value).length + 1 = 1 := rfl
  have noneHeld : middle.operands = List.reverse [] ++ machine.operands := rfl
  have tall : bound ≤ (@Operator.arithmetic Value 1 4 .neither compute).reach := reaches
  exact leaves_behind full rfl noneHeld supplied loosens tall

end Machine

/-- An evaluation turns out as expected: the one value there is, or a failure of the same cause. -/
def TurnsOut {Value : Type} (result : Except Fault Value) : Yield Value → Prop
  | .ok values => ∃ value, values = [value] ∧ result = .ok value
  | .error fault => ∃ position, result = .error ⟨fault.cause, position⟩

/-- Alone in a text, the tokens make up an expression. -/
theorem Machine.Supplies.run_text {Value : Type} {vocabulary : Vocabulary Value}
    {number : List Char → Option Value} {level bound : Nat} {tokens : List Token}
    {values : Yield Value} (supplies : Supplies vocabulary number level bound tokens values)
    (legible : Token.Legible vocabulary tokens none) (nonempty : Token.spelling tokens ≠ [])
    {text : List Char} (normal : Text.normalize text = Token.spelling tokens) :
    TurnsOut (run vocabulary number text) values := by
  have ready : Ready vocabulary level (@Machine.initial Value) := by
    constructor
    · intro top rest same
      cases same
    · rfl
  have read := supplies 0 none Machine.initial (by simp) ready
  have scanned := Scan.ofText_legible legible
  have isEmpty : (Token.spelling tokens).isEmpty = false := by simpa using nonempty
  simp only [run, normal, isEmpty, scanned]
  cases values with
  | error fault =>
      obtain ⟨position, failed⟩ := read
      refine ⟨position, ?_⟩
      simp only [follow] at failed
      simp [failed, bind, Except.bind]
  | ok values =>
      obtain ⟨after, reached, leaves⟩ := read
      obtain ⟨value, rfl⟩ := List.length_eq_one_iff.mp leaves.counted
      obtain ⟨pending, entries, settled, _⟩ := leaves.waiting
      have waiting : after.entries = pending.map .waiting := by simpa [Machine.initial] using entries
      have finished : after.finish = .ok value := finish_ok.mpr ⟨pending, waiting, settled⟩
      refine ⟨value, rfl, ?_⟩
      simp only [follow] at reached
      simp [reached, bind, Except.bind, finished]

end Calculator
