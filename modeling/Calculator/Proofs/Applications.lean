import Calculator.Proofs.Nesting
import Calculator.Proofs.Supply
import Calculator.Proofs.Trace

/-!
The operands of every application. A function waits either right below the markers of its own call, or on top
of the stack for the one token that follows its name. So it is applied by the parenthesis that closes its
call, to the arguments of the call, or by the token right behind its name where no call follows; everything
else that is applied is an arithmetic operator.
-/

namespace Calculator

structure Waiting.Applies {Value : Type} (waiting : Waiting Value) (application : Application Value) :
    Prop where
  word : application.word = waiting.word
  operator : application.operator = waiting.operator
  counted : application.operands.length = waiting.count

def Machine.topmost {Value : Type} : List (Entry Value) → List (Waiting Value)
  | .waiting top :: rest => top :: topmost rest
  | _ => []

namespace Trace

open Machine (topmost)

variable {Value : Type} {application : Application Value}

theorem reduce_applies {waiting : Waiting Value} {operands : List Value}
    (member : application ∈ (reduce waiting operands).applications) :
    waiting.Applies application := by
  unfold reduce at member
  split at member
  · cases member
  · next enough =>
      rcases (bind_applications _ _ _).mp member with first | ⟨value, _, none⟩
      · have same := List.mem_singleton.mp first
        subst same
        have length : (operands.take waiting.count).reverse.length = waiting.count := by
          rw [List.length_reverse, List.length_take]
          omega
        exact ⟨rfl, rfl, length⟩
      · cases none

theorem topmost_applies {Result : Type} {top : Waiting Value} {rest : List (Entry Value)}
    {operands : List Value} {next : List Value → Trace Value Result}
    (later : ∀ operands, application ∈ (next operands).applications →
      ∃ waiting ∈ topmost rest, waiting.Applies application)
    (member : application ∈ (reduce top operands >>= next).applications) :
    ∃ waiting ∈ topmost (.waiting top :: rest), waiting.Applies application := by
  rcases (bind_applications _ _ _).mp member with first | ⟨value, _, further⟩
  · exact ⟨top, List.mem_cons_self, reduce_applies first⟩
  · rcases later value further with ⟨waiting, below, applies⟩
    exact ⟨waiting, List.mem_cons_of_mem top below, applies⟩

theorem flush_applies {entries : List (Entry Value)} {operands : List Value}
    (member : application ∈ (flush entries operands).applications) :
    ∃ waiting ∈ topmost entries, waiting.Applies application := by
  induction entries generalizing operands with
  | nil => cases member
  | cons entry rest ih =>
      cases entry with
      | opening => cases member
      | waiting top => exact topmost_applies (fun _ further => ih further) member

theorem makeWay_applies {incoming : Operator Value} {entries : List (Entry Value)}
    {operands : List Value}
    (member : application ∈ (makeWay incoming entries operands).applications) :
    ∃ waiting ∈ topmost entries, waiting.Applies application := by
  induction entries generalizing operands with
  | nil => cases member
  | cons entry rest ih =>
      cases entry with
      | opening => cases member
      | waiting top =>
          unfold makeWay at member
          split at member
          · exact topmost_applies (fun _ further => ih further) member
          · cases member

theorem drain_applies {entries : List (Entry Value)} {operands : List Value}
    (member : application ∈ (drain entries operands).applications) :
    ∃ waiting ∈ topmost entries, waiting.Applies application := by
  induction entries generalizing operands with
  | nil => cases member
  | cons entry rest ih =>
      cases entry with
      | opening => cases member
      | waiting top => exact topmost_applies (fun _ further => ih further) member

theorem finish_applies {machine : Machine Value}
    (member : application ∈ (finish machine).applications) :
    ∃ waiting ∈ topmost machine.entries, waiting.Applies application := by
  rcases (bind_applications _ _ _).mp member with drained | ⟨values, _, none⟩
  · exact drain_applies drained
  · split at none
    · cases none
    · cases none

/-- When an operator is applied: it was topmost, or is a constant, or a call closes. -/
inductive Occasion (vocabulary : Vocabulary Value) (machine : Machine Value)
    (application : Application Value) : Token → Prop where
  | topmost {word : Word} {waiting : Waiting Value} (noOpening : word ≠ ['('])
      (member : waiting ∈ topmost machine.entries) (applies : waiting.Applies application) :
      Occasion vocabulary machine application (.word word)
  | constant (known : vocabulary.get? application.word = some application.operator)
      (constant : application.operator.isConstant = true) (none : application.operands = []) :
      Occasion vocabulary machine application (.word application.word)
  /-- Operators between the two markers of the call. -/
  | between {arity : Arity} {commas base : Nat} {outer : List Frame} {rest : List (Entry Value)}
      {operands : List Value} {waiting : Waiting Value}
      (frames : machine.frames = .call arity commas base :: outer)
      (flushed : Machine.flush machine.entries machine.operands = .ok (rest, operands))
      (member : waiting ∈ topmost rest) (applies : waiting.Applies application) :
      Occasion vocabulary machine application (.word [')'])
  | call {arity : Arity} {commas base : Nat} {outer : List Frame} {rest below : List (Entry Value)}
      {operands arguments : List Value} {top : Waiting Value}
      (frames : machine.frames = .call arity commas base :: outer)
      (flushed : Machine.flush machine.entries machine.operands = .ok (rest, operands))
      (emptied : Machine.flush rest operands = .ok (.waiting top :: below, arguments))
      (expected : arity.ofCall commas = commas + 1)
      (applies : Waiting.Applies { top with count := arity.ofCall commas } application) :
      Occasion vocabulary machine application (.word [')'])

theorem comma_applies {machine : Machine Value}
    (member : application ∈ (comma machine).applications) :
    ∃ waiting ∈ topmost machine.entries, waiting.Applies application := by
  unfold comma at member
  split at member
  · split at member
    · rcases (bind_applications _ _ _).mp member with flushed | ⟨value, _, none⟩
      · exact flush_applies flushed
      · cases none
    · cases member
  · cases member

theorem pushOperator_applies {word : Word} {operator : Operator Value} {machine : Machine Value}
    (member : application ∈ (pushOperator word operator machine).applications) :
    ∃ waiting ∈ topmost machine.entries, waiting.Applies application := by
  rcases (bind_applications _ _ _).mp member with made | ⟨value, _, none⟩
  · exact makeWay_applies made
  · cases none

theorem close_occasion {vocabulary : Vocabulary Value} {machine : Machine Value}
    (member : application ∈ (closeParenthesis machine).applications) :
    Occasion vocabulary machine application (.word [')']) := by
  rcases (bind_applications _ _ _).mp member with first | ⟨⟨rest, operands⟩, flushed, member⟩
  · rcases flush_applies first with ⟨waiting, above, applies⟩
    exact .topmost (by decide) above applies
  rw [flush_result] at flushed
  dsimp only at member
  split at member
  · next arity commas base outer frames =>
      rcases (bind_applications _ _ _).mp member with member | ⟨value, _, none⟩
      · rcases (bind_applications _ _ _).mp member with second | ⟨⟨entries, arguments⟩, emptied, member⟩
        · rcases flush_applies second with ⟨waiting, above, applies⟩
          exact .between frames flushed above applies
        rw [flush_result] at emptied
        dsimp only at member
        split at member
        · cases member
        · next counts =>
            simp only [not_or, ne_eq, Decidable.not_not] at counts
            split at member
            · next top below =>
                rcases (bind_applications _ _ _).mp member with applied | ⟨value, _, none⟩
                · exact .call frames flushed emptied (counts.2.symm.trans counts.1)
                    (reduce_applies applied)
                · cases none
            · cases member
      · cases none
  · cases member

theorem remember_applications {trace : Trace Value (Machine Value)} {word : Word}
    (member : application ∈ (trace >>= fun after => pure (after.remember word)).applications) :
    application ∈ trace.applications := by
  rcases (bind_applications _ _ _).mp member with first | ⟨value, _, none⟩
  · exact first
  · cases none

theorem step_occasion {vocabulary : Vocabulary Value} {number : List Char → Option Value}
    (lawful : vocabulary.Lawful) {machine : Machine Value} {placed : Placed}
    (member : application ∈ (step vocabulary number machine placed).applications) :
    Occasion vocabulary machine application placed.token := by
  rcases placed with ⟨token, last, next⟩
  cases token with
  | number text => cases member
  | word word =>
      simp only [step, readWord] at member
      split at member
      · cases member
      · next operator known =>
          have mark : ∀ mark ∈ Word.marks, word.key next machine.previous = mark → word = mark :=
            fun mark isMark same => (Word.key_mark isMark).mp same
          split at member
          · next same =>
              rw [mark _ (by simp [Word.marks]) same]
              rcases comma_applies (remember_applications member) with ⟨waiting, above, applies⟩
              exact .topmost (by decide) above applies
          split at member
          · cases member
          split at member
          · next same =>
              rw [mark _ (by simp [Word.marks]) same]
              exact close_occasion (remember_applications member)
          · next noComma noOpening noClosing =>
              split at member
              · next constant =>
                  rcases (bind_applications _ _ _).mp member with applied | ⟨value, _, none⟩
                  · have same := List.mem_singleton.mp applied
                    have written := lawful.function_key known (Operator.constant_function constant)
                    rw [written] at known same
                    subst same
                    exact .constant known constant rfl
                  · cases none
              · rcases pushOperator_applies (remember_applications member) with ⟨waiting, above, applies⟩
                apply Occasion.topmost _ above applies
                rintro rfl
                exact noOpening ((Word.key_mark (by simp [Word.marks])).mpr rfl)

end Trace

def Vocabulary.named {Value : Type} (vocabulary : Vocabulary Value) : Option Token → Option Word
  | some (.word word) =>
      if vocabulary.isFunction word && !vocabulary.isConstant word then some word else none
  | _ => none

namespace Vocabulary

variable {Value : Type} {vocabulary : Vocabulary Value}

theorem named_eq_some {before : Option Token} {word : Word} :
    vocabulary.named before = some word ↔
      before = some (.word word) ∧ vocabulary.isFunction word = true ∧
        vocabulary.isConstant word = false := by
  rcases before with _ | ⟨written⟩ | ⟨text⟩
  · simp [named]
  · simp only [named, Option.ite_none_right_eq_some, Bool.and_eq_true, Bool.not_eq_true',
      Option.some.injEq, Token.word.injEq]
    constructor
    · rintro ⟨callable, rfl⟩
      exact ⟨rfl, callable⟩
    · rintro ⟨rfl, callable⟩
      exact ⟨callable, rfl⟩
  · simp [named]

theorem named_eq_none {before : Option Token} :
    vocabulary.named before = none ↔ Opening.after vocabulary before = .plain := by
  rcases before with _ | ⟨written⟩ | ⟨text⟩
  · simp [named, Opening.after]
  · simp only [named, Opening.after]
    split <;> simp
  · simp [named, Opening.after]

theorem named_mark (lawful : vocabulary.Lawful) {word : Word} (isMark : word ∈ Word.marks) :
    vocabulary.named (some (.word word)) = none := by
  simp [named, lawful.mark_no_function isMark]

theorem Lawful.fixed (lawful : vocabulary.Lawful) {word : Word} {operator : Operator Value}
    (known : vocabulary.get? word = some operator) (noFunction : operator.isFunction = false) :
    ∃ count, operator.arity = .fixed count := by
  rcases lawful.mark_or_arithmetic known noFunction with ⟨_, rfl⟩ | ⟨count, _, _, _, rfl, _⟩
  · exact ⟨0, rfl⟩
  · exact ⟨count, rfl⟩

/-- A function binds as tightly as anything but a constant. -/
theorem Lawful.loose (lawful : vocabulary.Lawful) {word : Word} {operator : Operator Value}
    (known : vocabulary.get? word = some operator) (noConstant : operator.isConstant = false) :
    operator.precedence ≤ 4 := by
  cases function : operator.isFunction with
  | true => exact Nat.le_of_eq (lawful.function known function noConstant).1
  | false =>
      rcases lawful.mark_or_arithmetic known function with ⟨_, rfl⟩ | ⟨_, _, _, _, rfl, loose⟩
      · exact Nat.zero_le 4
      · exact loose

end Vocabulary

namespace Opening

variable {Value : Type} {vocabulary : Vocabulary Value}

theorem unclosedFrom_snoc (before : Option Token) (openings : List Opening) (tokens : List Token)
    (token : Token) : unclosedFrom vocabulary before openings (tokens ++ [token]) =
      read vocabulary (tokens.getLast?.or before) (unclosedFrom vocabulary before openings tokens)
        token := by
  induction tokens generalizing before openings with
  | nil => rfl
  | cons first rest ih =>
      rw [List.cons_append, unclosedFrom, ih, unclosedFrom]
      cases last : rest.getLast? <;> simp [List.getLast?_cons, last]

theorem unclosed_snoc (tokens : List Token) (token : Token) :
    unclosed vocabulary (tokens ++ [token]) =
      read vocabulary tokens.getLast? (unclosed vocabulary tokens) token := by
  have last := @unclosedFrom_snoc Value vocabulary none [] tokens token
  rwa [Option.or_none] at last

end Opening

namespace Machine

variable {Value : Type} {vocabulary : Vocabulary Value}

/-- The operator stack where functions wait right below the markers of their own calls only, and all other
operators with the operands that they declare. -/
inductive Sheltered (vocabulary : Vocabulary Value) : List (Entry Value) → List Opening → Prop where
  | empty : Sheltered vocabulary [] []
  | operator {top : Waiting Value} {entries : List (Entry Value)} {openings : List Opening}
      (known : vocabulary.get? top.word = some top.operator)
      (noFunction : top.operator.isFunction = false)
      (declared : top.count = top.operator.arity.declared)
      (below : Sheltered vocabulary entries openings) :
      Sheltered vocabulary (.waiting top :: entries) openings
  | plain {entries : List (Entry Value)} {openings : List Opening}
      (below : Sheltered vocabulary entries openings) :
      Sheltered vocabulary (.opening :: entries) (.plain :: openings)
  | call {top : Waiting Value} {commas : Nat} {entries : List (Entry Value)}
      {openings : List Opening} (known : vocabulary.get? top.word = some top.operator)
      (below : Sheltered vocabulary entries openings) :
      Sheltered vocabulary (.opening :: .opening :: .waiting top :: entries)
        (.call top.word commas :: openings)

inductive Poised (vocabulary : Vocabulary Value) :
    Option Word → List (Entry Value) → List Opening → Prop where
  | settled {entries : List (Entry Value)} {openings : List Opening}
      (sheltered : Sheltered vocabulary entries openings) : Poised vocabulary none entries openings
  | named {word : Word} {operator : Operator Value} {entries : List (Entry Value)}
      {openings : List Opening} (known : vocabulary.get? word = some operator)
      (sheltered : Sheltered vocabulary entries openings) :
      Poised vocabulary (some word) (.waiting ⟨word, operator, operator.arity.declared⟩ :: entries)
        openings

namespace Sheltered

variable {openings : List Opening}

theorem drop_waiting {pending : List (Waiting Value)} {rest : List (Entry Value)}
    (sheltered : Sheltered vocabulary (pending.map .waiting ++ rest) openings) :
    Sheltered vocabulary rest openings := by
  induction pending with
  | nil => exact sheltered
  | cons top others ih =>
      cases sheltered with
      | operator known noFunction declared below => exact ih below

theorem of_topmost {entries : List (Entry Value)} (sheltered : Sheltered vocabulary entries openings) :
    ∀ top ∈ topmost entries, vocabulary.get? top.word = some top.operator ∧
      top.operator.isFunction = false ∧ top.count = top.operator.arity.declared := by
  induction sheltered with
  | operator known noFunction declared below ih =>
      intro top member
      rcases List.mem_cons.mp member with same | later
      · subst same
        exact ⟨known, noFunction, declared⟩
      · exact ih top later
  | empty | plain | call => simp [topmost]

/-- The innermost call, once its arguments are settled: the inner marker is gone. -/
theorem close_call {rest : List (Entry Value)} {word : Word} {commas : Nat} {outer : List Opening}
    (sheltered : Sheltered vocabulary (.opening :: rest) (.call word commas :: outer)) :
    ∃ top below, rest = .opening :: .waiting top :: below ∧ top.word = word ∧
      vocabulary.get? word = some top.operator ∧ Sheltered vocabulary below outer := by
  cases sheltered with
  | call known below => exact ⟨_, _, rfl, rfl, known, below⟩

end Sheltered

namespace Poised

variable {openings : List Opening} {word : Option Word}

theorem above_opening {pending : List (Waiting Value)} {rest : List (Entry Value)}
    (poised : Poised vocabulary word (pending.map .waiting ++ .opening :: rest) openings) :
    Sheltered vocabulary (.opening :: rest) openings := by
  generalize entries : pending.map .waiting ++ .opening :: rest = all at poised
  cases poised with
  | settled sheltered =>
      rw [← entries] at sheltered
      exact sheltered.drop_waiting
  | named known sheltered =>
      cases pending with
      | nil => cases entries
      | cons top others =>
          rcases List.cons.inj entries with ⟨_, same⟩
          rw [← same] at sheltered
          exact sheltered.drop_waiting

/-- A function binds as tightly as any operator, so whichever comes next takes it off. -/
theorem below_operator (lawful : vocabulary.Lawful) {incoming : Operator Value}
    (loose : incoming.precedence ≤ 4) {pending : List (Waiting Value)} {rest : List (Entry Value)}
    (function : ∀ name ∈ word, vocabulary.isFunction name = true ∧ vocabulary.isConstant name = false)
    (stops : Stops incoming rest)
    (poised : Poised vocabulary word (pending.map .waiting ++ rest) openings) :
    Sheltered vocabulary rest openings := by
  generalize entries : pending.map .waiting ++ rest = all at poised
  cases poised with
  | settled sheltered =>
      rw [← entries] at sheltered
      exact sheltered.drop_waiting
  | @named name operator below openings known sheltered =>
      cases pending with
      | nil =>
          rcases function name rfl with ⟨isFunction, takesArguments⟩
          rw [Vocabulary.isFunction, known] at isFunction
          rw [Vocabulary.isConstant, known] at takesArguments
          rcases lawful.function known isFunction takesArguments with ⟨precedence, associativity⟩
          have applied : operator.bindsBefore incoming = true := by
            rw [Operator.bindsBefore_iff, Operator.reach, associativity, precedence]
            exact Nat.lt_succ_of_le loose
          cases applied.symm.trans (stops _ _ entries)
      | cons top others =>
          rcases List.cons.inj entries with ⟨_, same⟩
          rw [← same] at sheltered
          exact sheltered.drop_waiting

end Poised

structure Stands (vocabulary : Vocabulary Value) (tokens : List Token) (machine : Machine Value) :
    Prop where
  tracks : Tracks vocabulary tokens.getLast? (Opening.unclosed vocabulary tokens) machine
  poised : Poised vocabulary (vocabulary.named tokens.getLast?) machine.entries
    (Opening.unclosed vocabulary tokens)

namespace Poised

variable {before : Option Token} {openings : List Opening} {machine after : Machine Value}

/-- What one token preserves. Behind the name of a function only symbols come. -/
theorem step (lawful : vocabulary.Lawful) (tracks : Tracks vocabulary before openings machine)
    (poised : Poised vocabulary (vocabulary.named before) machine.entries openings)
    {number : List Char → Option Value} {token : Token} {next : Option Char}
    (follows : ∀ {word}, vocabulary.named before = some word →
      ∃ symbol ∈ Word.symbols, token = .word symbol)
    (moves : Moves vocabulary number machine token next after) :
    Poised vocabulary (vocabulary.named (some token)) after.entries
      (Opening.read vocabulary before openings token) := by
  cases moves with
  | number reading =>
      cases function : vocabulary.named before with
      | some word =>
          rcases follows function with ⟨symbol, _, same⟩
          cases same
      | none =>
          rw [function] at poised
          exact poised
  | @constant word next operator value known constant applied =>
      have isFunction := operator.constant_function constant
      have noSymbol : word ∉ Word.symbols := by
        intro symbol
        have none := lawful.symbol_not_function symbol
        simp [Vocabulary.isFunction, known, isFunction] at none
      cases function : vocabulary.named before with
      | some name =>
          rcases follows function with ⟨symbol, isSymbol, same⟩
          cases same
          exact absurd isSymbol noSymbol
      | none =>
          have plain : vocabulary.named (some (.word word)) = none := by
            simp [Vocabulary.named, Vocabulary.isConstant, known, constant]
          rw [Opening.read_other _ _ (lawful.function_no_mark known isFunction), plain]
          rw [function] at poised
          exact poised
  | comma frames admitted entries settled =>
      rcases tracks.mirrors.call_frame frames with ⟨word, operator, others, rfl, _⟩
      rw [entries] at poised
      rw [Opening.read_comma, Vocabulary.named_mark lawful (by simp [Word.marks])]
      have sheltered := poised.above_opening
      cases sheltered with
      | call found below => exact .settled (.call found below)
  | openCall opens entries =>
      rcases tracks.opens_call opens with ⟨word, rfl, function, takesArguments, opened⟩
      have named := Vocabulary.named_eq_some.mpr ⟨rfl, function, takesArguments⟩
      rw [named, entries] at poised
      rw [Opening.read_opening, opened, Vocabulary.named_mark lawful (by simp [Word.marks])]
      cases poised with
      | named known sheltered => exact .settled (.call known sheltered)
  | openGroup plain filled =>
      have opened := tracks.opens_group plain
      rw [Vocabulary.named_eq_none.mpr opened] at poised
      rw [Opening.read_opening, opened, Vocabulary.named_mark lawful (by simp [Word.marks])]
      cases poised with
      | settled sheltered => exact .settled (.plain sheltered)
  | @closeCall next arity commas base outer inner between top rest operands middle results frames
      entries first second supplied expected applied =>
      rcases tracks.mirrors.call_frame frames with ⟨word, operator, others, rfl, _⟩
      rw [entries] at poised
      rw [Opening.read_closing, Vocabulary.named_mark lawful (by simp [Word.marks])]
      rcases poised.above_opening.close_call with ⟨own, below, same, _, _, sheltered⟩
      cases between with
      | nil =>
          cases same
          exact .settled sheltered
      | cons other others => cases same
  | closeGroup noCall entries settled =>
      rcases tracks.mirrors.plain_inside noCall entries with ⟨others, rfl, _⟩
      rw [entries] at poised
      rw [Opening.read_closing, Vocabulary.named_mark lawful (by simp [Word.marks])]
      have sheltered := poised.above_opening
      cases sheltered with
      | plain below => exact .settled below
  | @operator word next operator pending rest operands known noMark noConstant entries settled
      applied stops =>
      rw [Opening.read_other _ _ noMark]
      rw [entries] at poised
      have sheltered : Sheltered vocabulary rest openings := by
        apply poised.below_operator lawful (lawful.loose known noConstant) _ stops
        intro name named
        exact (Vocabulary.named_eq_some.mp named).2
      cases function : operator.isFunction with
      | true =>
          have written := lawful.function_key known function
          rw [written] at known ⊢
          have named : vocabulary.named (some (.word word)) = some word := by
            simp [Vocabulary.named, Vocabulary.isFunction, Vocabulary.isConstant, known, function,
              noConstant]
          rw [named]
          exact .named known sheltered
      | false =>
          have plain : vocabulary.named (some (.word word)) = none := by
            cases named : vocabulary.named (some (.word word)) with
            | none => rfl
            | some name =>
                rcases Vocabulary.named_eq_some.mp named with ⟨same, isFunction, _⟩
                cases same
                rcases Vocabulary.Lawful.function_known isFunction with ⟨other, found, callable⟩
                rw [lawful.function_written found callable, found] at known
                cases known
                cases function.symm.trans callable
          rw [plain]
          exact .settled (.operator known function rfl sheltered)

end Poised

namespace Stands

variable {tokens : List Token} {machine after : Machine Value}

theorem start : Stands vocabulary [] (@Machine.initial Value) :=
  ⟨Tracks.initial, .settled .empty⟩

theorem step (lawful : vocabulary.Lawful) (stands : Stands vocabulary tokens machine)
    {number : List Char → Option Value} {token : Token} {next : Option Char}
    (follows : ∀ {word}, vocabulary.named tokens.getLast? = some word →
      ∃ symbol ∈ Word.symbols, token = .word symbol)
    (moves : Moves vocabulary number machine token next after) :
    Stands vocabulary (tokens ++ [token]) after := by
  constructor
  · rw [List.getLast?_concat, Opening.unclosed_snoc]
    exact stands.tracks.step lawful moves
  · rw [List.getLast?_concat, Opening.unclosed_snoc]
    exact stands.poised.step lawful stands.tracks follows moves

/-- What a run preserves. -/
theorem run (lawful : vocabulary.Lawful) (stands : Stands vocabulary tokens machine)
    {number : List Char → Option Value} {placed : List Placed} {next : Option Char}
    (legible : Token.Legible vocabulary (tokens ++ placed.map (·.token)) next)
    (reached : placed.foldlM (Machine.step vocabulary number) machine = .ok after) :
    Stands vocabulary (tokens ++ placed.map (·.token)) after := by
  induction placed generalizing tokens machine with
  | nil =>
      cases reached
      simpa using stands
  | cons first rest ih =>
      rw [List.foldlM_cons] at reached
      rcases bind_ok.mp reached with ⟨middle, stepped, reached⟩
      have follows : ∀ {word}, vocabulary.named tokens.getLast? = some word →
          ∃ symbol ∈ Word.symbols, first.token = .word symbol := by
        intro word named
        rcases Vocabulary.named_eq_some.mp named with ⟨last, function, takesArguments⟩
        rcases List.getLast?_eq_some_iff.mp last with ⟨before, rfl⟩
        rw [List.append_assoc] at legible
        exact lawful.symbol_behind_function (Token.legible_append.mp legible).2 function takesArguments
      have longer := stands.step lawful follows ((step_ok lawful).mp stepped)
      have further := ih longer (by simpa using legible) reached
      simpa using further

/-- The operators above the innermost parenthesis take what they declare, and are no functions but for the
one that was just named. -/
theorem of_topmost (stands : Stands vocabulary tokens machine) {top : Waiting Value}
    (member : top ∈ topmost machine.entries) :
    vocabulary.get? top.word = some top.operator ∧ top.count = top.operator.arity.declared ∧
      (top.operator.isFunction = false ∨ vocabulary.named tokens.getLast? = some top.word) := by
  have poised := stands.poised
  generalize vocabulary.named tokens.getLast? = word at poised
  generalize machine.entries = entries at poised member
  cases poised with
  | settled sheltered =>
      rcases sheltered.of_topmost top member with ⟨known, noFunction, declared⟩
      exact ⟨known, declared, .inl noFunction⟩
  | named known sheltered =>
      rcases List.mem_cons.mp member with rfl | later
      · exact ⟨known, rfl, .inr rfl⟩
      · rcases sheltered.of_topmost top later with ⟨found, noFunction, declared⟩
        exact ⟨found, declared, .inl noFunction⟩

/-- Within a call, its operator is right below what the last argument left on the stack. -/
theorem of_call (stands : Stands vocabulary tokens machine) {arity : Arity} {commas base : Nat}
    {frames : List Frame} (call : machine.frames = .call arity commas base :: frames)
    {rest : List (Entry Value)} {operands : List Value}
    (flushed : flush machine.entries machine.operands = .ok (rest, operands)) :
    ∃ top below outer, rest = .opening :: .waiting top :: below ∧
      Opening.unclosed vocabulary tokens = .call top.word commas :: outer ∧
      vocabulary.get? top.word = some top.operator ∧ arity = top.operator.arity := by
  rcases flush_ok.mp flushed with ⟨pending, entries, _⟩
  rcases stands.tracks.mirrors.call_entries call entries with
    ⟨top, below, outer, rfl, openings, known, same, _⟩
  exact ⟨top, below, outer, rfl, openings, known, same⟩

end Stands

end Machine

/-- An application with the operands that are due: as many as the operator takes; if that is any number, the
arguments of the call that closes, with the commas at its own level between them, or none where the
function was just named and what comes next opens no call. -/
structure Application.Due {Value : Type} (vocabulary : Vocabulary Value) (before : List Token)
    (token : Option Token) (application : Application Value) : Prop where
  known : vocabulary.get? application.word = some application.operator
  fixed : ∀ {count}, application.operator.arity = .fixed count →
    application.operands.length = count
  variadic : application.operator.arity = .variadic →
    (token = some (.word [')']) ∧ ∃ commas outer,
      Opening.unclosed vocabulary before = .call application.word commas :: outer ∧
        application.operands.length = commas + 1) ∨
    (before.getLast? = some (.word application.word) ∧
      (∃ next, token = some next ∧ next ≠ .word ['(']) ∧ application.operands = [])

namespace Machine.Stands

variable {Value : Type} {vocabulary : Vocabulary Value} {tokens : List Token}
  {machine : Machine Value} {application : Application Value}

theorem topmost_due (lawful : vocabulary.Lawful) (stands : Stands vocabulary tokens machine)
    {top : Waiting Value} (member : top ∈ topmost machine.entries)
    (applies : top.Applies application) {token : Option Token}
    (noCall : ∀ word, vocabulary.named tokens.getLast? = some word →
      ∃ next, token = some next ∧ next ≠ .word ['(']) :
    application.Due vocabulary tokens token := by
  rcases stands.of_topmost member with ⟨known, declared, function⟩
  rw [← applies.word, ← applies.operator] at known
  have counted : application.operands.length = application.operator.arity.declared := by
    rw [applies.counted, declared, applies.operator]
  constructor
  · exact known
  · intro count fixed
    rw [counted, fixed]
    rfl
  · intro variadic
    rcases function with noFunction | named
    · rw [← applies.operator] at noFunction
      rcases lawful.fixed known noFunction with ⟨count, fixed⟩
      cases variadic.symm.trans fixed
    · rw [variadic] at counted
      rw [← applies.word] at named
      exact .inr ⟨(Vocabulary.named_eq_some.mp named).1, noCall _ named,
        List.length_eq_zero_iff.mp counted⟩

theorem occasion_due (lawful : vocabulary.Lawful) (stands : Stands vocabulary tokens machine)
    {token : Token} (occasion : Trace.Occasion vocabulary machine application token) :
    application.Due vocabulary tokens (some token) := by
  cases occasion with
  | topmost noOpening member applies =>
      apply stands.topmost_due lawful member applies
      intro name named
      exact ⟨_, rfl, fun same => noOpening (Token.word.inj same)⟩
  | constant known constant none =>
      simp only [Operator.isConstant, Bool.and_eq_true, beq_iff_eq] at constant
      constructor
      · exact known
      · intro count fixed
        cases constant.2.symm.trans fixed
        rw [none]
        rfl
      · intro variadic
        cases constant.2.symm.trans variadic
  | between frames flushed member applies =>
      -- The argument before it ends at the inner marker, and the outer one comes next.
      rcases stands.of_call frames flushed with ⟨top, below, outer, rfl, _⟩
      cases member
  | call frames flushed emptied expected applies =>
      rcases stands.of_call frames flushed with ⟨top, below, outer, rfl, openings, known, rfl⟩
      cases emptied
      rw [← applies.word, ← applies.operator] at known
      have operator := applies.operator
      have counted := applies.counted
      constructor
      · exact known
      · intro count fixed
        rw [counted, ← operator, fixed]
        rfl
      · intro variadic
        rw [← applies.word] at openings
        exact .inl ⟨rfl, _, outer, openings, counted.trans expected⟩

end Machine.Stands

section

variable {Value : Type}

structure Machine.Reaches (vocabulary : Vocabulary Value) (number : List Char → Option Value)
    (text : List Char) (before after : List Placed) (machine : Machine Value) : Prop where
  tokens : (Scan.ofText vocabulary text).tokens = before ++ after
  accepted : before.foldlM (step vocabulary number) initial = .ok machine

inductive Trace.Invokes (vocabulary : Vocabulary Value) (number : List Char → Option Value)
    (text : List Char) : List Token → Option Token → Application Value → Prop where
  | reading {before after : List Placed} {placed : Placed} {machine : Machine Value}
      {application : Application Value}
      (reaches : machine.Reaches vocabulary number text before (placed :: after))
      (member : application ∈ (step vocabulary number machine placed).applications) :
      Invokes vocabulary number text (before.map (·.token)) (some placed.token) application
  | ending {tokens : List Placed} {machine : Machine Value} {application : Application Value}
      (finished : (Scan.ofText vocabulary text).rest = [])
      (reaches : machine.Reaches vocabulary number text tokens [])
      (member : application ∈ (finish machine).applications) :
      Invokes vocabulary number text (tokens.map (·.token)) none application

variable {vocabulary : Vocabulary Value} {number : List Char → Option Value} {text : List Char}

theorem Machine.Reaches.stands (lawful : vocabulary.Lawful) {before after : List Placed}
    {machine : Machine Value} (reaches : machine.Reaches vocabulary number text before after) :
    machine.Stands vocabulary (before.map (·.token)) := by
  have legible := (@Scan.ofText_split Value vocabulary text).2
  rw [reaches.tokens, List.map_append] at legible
  exact Machine.Stands.start.run lawful (Token.legible_append.mp legible).1 reaches.accepted

/-- At the end of a text no function is left: its name is a token before a symbol only. -/
theorem Machine.Reaches.none_named (lawful : vocabulary.Lawful) {tokens : List Placed}
    {machine : Machine Value} (finished : (Scan.ofText vocabulary text).rest = [])
    (reaches : machine.Reaches vocabulary number text tokens []) :
    vocabulary.named (tokens.map (·.token)).getLast? = none := by
  have legible := (@Scan.ofText_split Value vocabulary text).2
  rw [finished, reaches.tokens, List.append_nil] at legible
  cases named : vocabulary.named (tokens.map (·.token)).getLast? with
  | none => rfl
  | some word =>
      rcases Vocabulary.named_eq_some.mp named with ⟨last, function, takesArguments⟩
      rcases List.getLast?_eq_some_iff.mp last with ⟨before, split⟩
      rw [split] at legible
      cases takesArguments.symm.trans (lawful.function_not_last legible function)

namespace Trace

theorem readAll_applies {machine : Machine Value} {tokens : List Placed}
    {application : Application Value}
    (member : application ∈ (readAll vocabulary number machine tokens).applications) :
    ∃ before placed after middle, tokens = before ++ placed :: after ∧
      before.foldlM (Machine.step vocabulary number) machine = .ok middle ∧
      application ∈ (step vocabulary number middle placed).applications := by
  induction tokens generalizing machine with
  | nil => cases member
  | cons first rest ih =>
      rw [readAll, List.foldlM_cons] at member
      rcases (bind_applications _ _ _).mp member with now | ⟨next, stepped, later⟩
      · exact ⟨[], first, rest, machine, rfl, rfl, now⟩
      · rcases ih later with ⟨before, placed, after, middle, rfl, reached, applied⟩
        have accepted := (step_result vocabulary number machine first).symm.trans stepped
        refine ⟨first :: before, placed, after, middle, rfl, ?_, applied⟩
        rw [List.foldlM_cons]
        exact bind_ok.mpr ⟨next, accepted, reached⟩

/-- Whatever a run applies, it applies at one of the tokens or at the end. -/
theorem run_invokes {application : Application Value}
    (member : application ∈ (run vocabulary number text).applications) :
    ∃ before token, Invokes vocabulary number (Text.normalize text) before token application := by
  unfold run at member
  dsimp only at member
  split at member
  · cases member
  rcases (bind_applications _ _ _).mp member with reading | ⟨machine, accepted, ending⟩
  · rcases readAll_applies reading with ⟨before, placed, after, machine, tokens, accepted, applied⟩
    exact ⟨_, _, .reading ⟨tokens, accepted⟩ applied⟩
  · split at ending
    · next finished =>
        rw [readAll_result] at accepted
        have tokens := (List.append_nil (Scan.ofText vocabulary (Text.normalize text)).tokens).symm
        exact ⟨_, _, .ending (List.isEmpty_iff.mp finished) ⟨tokens, accepted⟩ ending⟩
    · cases ending

theorem Invokes.due (lawful : vocabulary.Lawful) {before : List Token} {token : Option Token}
    {application : Application Value}
    (invokes : Invokes vocabulary number text before token application) :
    application.Due vocabulary before token := by
  cases invokes with
  | reading reaches member =>
      exact (reaches.stands lawful).occasion_due lawful (step_occasion lawful member)
  | ending finished reaches member =>
      rcases finish_applies member with ⟨top, above, applies⟩
      apply (reaches.stands lawful).topmost_due lawful above applies
      intro word named
      cases named.symm.trans (reaches.none_named lawful finished)

end Trace

end

/-- Every function gets the operands that are due, and whatever evaluation applies is applied at one of the
tokens or at the end of the text. -/
theorem operands_due {vocabulary : Vocabulary Float} (reachable : vocabulary.Reachable)
    (expression : String) :
    let trace := Trace.run vocabulary readNumber? expression.toList
    let invokes := Trace.Invokes vocabulary readNumber? (Text.normalize expression.toList)
    trace.result = evaluateExact vocabulary expression ∧
      (∀ application ∈ trace.applications, ∃ before token, invokes before token application) ∧
      ∀ before token application, invokes before token application →
        application.Due vocabulary before token := by
  refine ⟨Trace.run_result _ _ _, ?_, ?_⟩
  · intro application member
    exact Trace.run_invokes member
  · intro before token application invokes
    exact invokes.due reachable.lawful

theorem operands_due_mean :
    ∃ before token, ∃ application ∈ (Trace.run (.standard 0) readNumber? "mean(1,2)".toList).applications,
      application.word = "mean".toList ∧ application.operands.length = 2 ∧
        application.Due (.standard 0) before token := by
  have reachable : (Vocabulary.standard 0).Reachable := ⟨0, [], rfl⟩
  have applied : (Trace.run (.standard 0) readNumber? "mean(1,2)".toList).applications.any
      (fun application => application.word = "mean".toList ∧ application.operands.length = 2) = true := by
    decide +kernel
  rcases List.any_eq_true.mp applied with ⟨application, member, shape⟩
  rcases of_decide_eq_true shape with ⟨word, count⟩
  rcases operands_due reachable "mean(1,2)" with ⟨_, invoked, due⟩
  rcases invoked application member with ⟨before, token, invokes⟩
  exact ⟨before, token, application, member, word, count, due before token application invokes⟩

/-- A function of any number of arguments that is named without a call gets none. -/
theorem mean_applied_to_nothing :
    let two := (⟨['2'], none, none⟩ : Literal).toFloat
    evaluateExact (.standard 0) "mean*2" = .ok (mean [] * two) ∧
    ∃ application ∈ (Trace.run (.standard 0) readNumber? "mean*2".toList).applications,
      application.word = "mean".toList ∧ application.operator.arity = .variadic ∧
        application.operands = [] := by
  refine ⟨rfl, ?_⟩
  have applied : (Trace.run (.standard 0) readNumber? "mean*2".toList).applications.any
      (fun application => application.word = "mean".toList ∧
        application.operator.arity = .variadic ∧ application.operands.length = 0) = true := by
    decide +kernel
  rcases List.any_eq_true.mp applied with ⟨application, member, shape⟩
  rcases of_decide_eq_true shape with ⟨word, arity, count⟩
  exact ⟨application, member, word, arity, List.length_eq_zero_iff.mp count⟩

end Calculator
