import Calculator.Machine
import Calculator.Proofs.Words

/-!
What one token does to the machine. Emptying the stacks down to a parenthesis, before an operator or at
the end always settles a run of waiting operators; beyond that, every kind of token that is accepted
changes the stacks in one way, which is written down here as a relation.
-/

namespace Calculator

theorem bind_ok {First Second : Type} {result : Except Fault First}
    {next : First → Except Fault Second} {value : Second} :
    (result >>= next) = .ok value ↔ ∃ first, result = .ok first ∧ next first = .ok value := by
  cases result with
  | ok first => simp [bind, Except.bind]
  | error fault => simp [bind, Except.bind]

theorem bind_error {First Second : Type} {result : Except Fault First}
    {next : First → Except Fault Second} {fault : Fault} :
    (result >>= next) = .error fault ↔
      result = .error fault ∨ ∃ first, result = .ok first ∧ next first = .error fault := by
  cases result with
  | ok first => simp [bind, Except.bind]
  | error other => simp [bind, Except.bind]

theorem map_ok {First Second : Type} {result : Except Fault First} {change : First → Second}
    {value : Second} :
    result.map change = .ok value ↔ ∃ first, result = .ok first ∧ change first = value := by
  cases result <;> simp [Except.map]

theorem located_ok {Result : Type} {position : Nat} {result : Except Fault Result} {value : Result} :
    located position result = .ok value ↔ result = .ok value := by
  cases result <;> simp [located]

theorem located_error {Result : Type} {position : Nat} {result : Except Fault Result} {fault : Fault} :
    located position result = .error fault ↔
      ∃ cause, result = .error cause ∧ fault = cause.located position := by
  cases result with
  | ok value => simp [located]
  | error cause => simp [located, eq_comm]

namespace Machine

variable {Value : Type}

def settle : List (Waiting Value) → List Value → Except Fault (List Value)
  | [], operands => .ok operands
  | top :: rest, operands => do
      let operands ← top.reduce operands
      settle rest operands

theorem settle_append (first second : List (Waiting Value)) (operands : List Value) :
    settle (first ++ second) operands = settle first operands >>= settle second := by
  induction first generalizing operands with
  | nil => rfl
  | cons top rest ih =>
      cases reduced : top.reduce operands with
      | error fault => simp [settle, reduced, bind, Except.bind]
      | ok operands => simpa [settle, reduced, bind, Except.bind] using ih operands

theorem settle_cons_ok {top : Waiting Value} {rest : List (Waiting Value)}
    {operands after : List Value} :
    settle (top :: rest) operands = .ok after ↔
      ∃ middle, top.reduce operands = .ok middle ∧ settle rest middle = .ok after :=
  bind_ok

def Stops (incoming : Operator Value) (entries : List (Entry Value)) : Prop :=
  ∀ top rest, entries = .waiting top :: rest → top.operator.bindsBefore incoming = false

theorem flush_append (pending : List (Waiting Value)) (rest : List (Entry Value))
    (operands : List Value) :
    flush (pending.map .waiting ++ rest) operands = settle pending operands >>= flush rest := by
  induction pending generalizing operands with
  | nil => rfl
  | cons top others ih =>
      cases reduced : top.reduce operands with
      | error fault => simp [flush, settle, reduced, bind, Except.bind]
      | ok middle => simpa [flush, settle, reduced, bind, Except.bind] using ih middle

theorem drain_append (pending : List (Waiting Value)) (rest : List (Entry Value))
    (operands : List Value) :
    drain (pending.map .waiting ++ rest) operands = settle pending operands >>= drain rest := by
  induction pending generalizing operands with
  | nil => rfl
  | cons top others ih =>
      cases reduced : top.reduce operands with
      | error fault => simp [drain, settle, reduced, bind, Except.bind]
      | ok middle => simpa [drain, settle, reduced, bind, Except.bind] using ih middle

theorem makeWay_append {incoming : Operator Value} {pending : List (Waiting Value)}
    (before : ∀ top ∈ pending, top.operator.bindsBefore incoming = true)
    (rest : List (Entry Value)) (operands : List Value) :
    makeWay incoming (pending.map .waiting ++ rest) operands =
      settle pending operands >>= makeWay incoming rest := by
  induction pending generalizing operands with
  | nil => rfl
  | cons top others ih =>
      have binds := before top (by simp)
      cases reduced : top.reduce operands with
      | error fault => simp [makeWay, settle, binds, reduced, bind, Except.bind]
      | ok middle =>
          simpa [makeWay, settle, binds, reduced, bind, Except.bind] using
            ih (fun later member => before later (by simp [member])) middle

theorem makeWay_stops {incoming : Operator Value} {entries : List (Entry Value)}
    (stops : Stops incoming entries) (operands : List Value) :
    makeWay incoming entries operands = .ok (entries, operands) := by
  cases entries with
  | nil => rfl
  | cons entry rest =>
      cases entry with
      | opening => rfl
      | waiting top => rw [makeWay, if_neg (by simp [stops top rest rfl])]

/-- The waiting operators above the innermost parenthesis, if there is one. -/
theorem waiting_split (entries : List (Entry Value)) :
    ∃ (pending : List (Waiting Value)) (rest : List (Entry Value)),
      entries = pending.map .waiting ++ rest ∧ (rest = [] ∨ ∃ below, rest = .opening :: below) := by
  induction entries with
  | nil => exact ⟨[], [], rfl, Or.inl rfl⟩
  | cons entry others ih =>
      cases entry with
      | opening => exact ⟨[], _, rfl, Or.inr ⟨others, rfl⟩⟩
      | waiting top =>
          obtain ⟨pending, rest, rfl, bottom⟩ := ih
          exact ⟨top :: pending, rest, rfl, bottom⟩

theorem binding_split (incoming : Operator Value) (entries : List (Entry Value)) :
    ∃ (pending : List (Waiting Value)) (rest : List (Entry Value)),
      entries = pending.map .waiting ++ rest ∧
      (∀ top ∈ pending, top.operator.bindsBefore incoming = true) ∧ Stops incoming rest := by
  induction entries with
  | nil => exact ⟨[], [], rfl, by simp, by simp [Stops]⟩
  | cons entry others ih =>
      cases entry with
      | opening => exact ⟨[], _, rfl, by simp, by simp [Stops]⟩
      | waiting top =>
          cases binds : top.operator.bindsBefore incoming with
          | true =>
              obtain ⟨pending, rest, rfl, before, stops⟩ := ih
              exact ⟨top :: pending, rest, rfl, by simpa [binds] using before, stops⟩
          | false =>
              refine ⟨[], _, rfl, by simp, ?_⟩
              intro first rest same
              cases same
              exact binds

theorem flush_ok {entries rest : List (Entry Value)} {operands after : List Value} :
    flush entries operands = .ok (rest, after) ↔
      ∃ pending, entries = pending.map .waiting ++ .opening :: rest ∧
        settle pending operands = .ok after := by
  constructor
  · intro flushed
    -- Where nothing is open, the run of operators ends with the stack, and emptying it fails.
    rcases waiting_split entries with ⟨pending, bottom, rfl, rfl | ⟨below, rfl⟩⟩
    · rw [flush_append, bind_ok] at flushed
      obtain ⟨middle, _, missing⟩ := flushed
      cases missing
    · rw [flush_append, bind_ok] at flushed
      obtain ⟨middle, settled, found⟩ := flushed
      cases found
      exact ⟨pending, rfl, settled⟩
  · rintro ⟨pending, rfl, settled⟩
    rw [flush_append, settled]
    rfl

theorem drain_ok {entries : List (Entry Value)} {operands after : List Value} :
    drain entries operands = .ok after ↔
      ∃ pending, entries = pending.map .waiting ∧ settle pending operands = .ok after := by
  constructor
  · intro drained
    rcases waiting_split entries with ⟨pending, bottom, rfl, rfl | ⟨below, rfl⟩⟩
    · rw [drain_append, bind_ok] at drained
      obtain ⟨middle, settled, finished⟩ := drained
      cases finished
      exact ⟨pending, List.append_nil _, settled⟩
    · rw [drain_append, bind_ok] at drained
      obtain ⟨middle, _, unmatched⟩ := drained
      cases unmatched
  · rintro ⟨pending, rfl, settled⟩
    have drained := drain_append pending [] operands
    rw [List.append_nil, settled] at drained
    exact drained

theorem finish_ok {machine : Machine Value} {value : Value} :
    machine.finish = .ok value ↔ ∃ pending, machine.entries = pending.map .waiting ∧
      settle pending machine.operands = .ok [value] := by
  rw [← drain_ok]
  constructor
  · intro finished
    obtain ⟨values, drained, single⟩ := bind_ok.mp finished
    split at single
    · cases single
      exact drained
    · cases single
  · intro drained
    simp [finish, drained, bind, Except.bind]

theorem makeWay_ok {incoming : Operator Value} {entries rest : List (Entry Value)}
    {operands after : List Value} :
    makeWay incoming entries operands = .ok (rest, after) ↔
      ∃ pending, entries = pending.map .waiting ++ rest ∧ settle pending operands = .ok after ∧
        (∀ top ∈ pending, top.operator.bindsBefore incoming = true) ∧ Stops incoming rest := by
  constructor
  · intro made
    obtain ⟨pending, others, rfl, before, stops⟩ := binding_split incoming entries
    rw [makeWay_append before, bind_ok] at made
    obtain ⟨middle, settled, made⟩ := made
    rw [makeWay_stops stops] at made
    cases made
    exact ⟨pending, rfl, settled, before, stops⟩
  · rintro ⟨pending, rfl, settled, before, stops⟩
    rw [makeWay_append before, settled]
    exact makeWay_stops stops after

end Machine

namespace Word

def marks : List Word :=
  [['('], [')'], [',']]

theorem mark_symbol : ∀ word ∈ marks, word ∈ symbols := by
  decide

theorem sum_symbol : ∀ word ∈ [['+'], ['-']], word ∈ symbols ∧ word ∉ marks := by
  decide

theorem product_symbol : ∀ word ∈ [['*'], ['/'], ['%']], word ∈ symbols ∧ word ∉ marks := by
  decide

theorem key_cases (word : Word) (next : Option Char) (previous : Option Previous) :
    word.key next previous = word ∨ word.isSignAt next previous = true ∧
      (word = ['-'] ∧ word.key next previous = negative ∨
        word = ['+'] ∧ word.key next previous = positive) := by
  unfold key
  by_cases sign : word.isSignAt next previous = true
  · have written : word = ['+'] ∨ word = ['-'] := by
      simp only [isSignAt, Bool.and_eq_true, Bool.or_eq_true, beq_iff_eq] at sign
      exact sign.1.1
    rcases written with rfl | rfl
    · exact Or.inr ⟨sign, Or.inr ⟨rfl, by simp [sign]⟩⟩
    · exact Or.inr ⟨sign, Or.inl ⟨rfl, by simp [sign]⟩⟩
  · exact Or.inl (by simp [sign])

theorem key_self {word : Word} {next : Option Char} {previous : Option Previous}
    (plain : word.isSignAt next previous = false) : word.key next previous = word := by
  simp [key, plain]

theorem key_mark {word mark : Word} (isMark : mark ∈ marks) {next : Option Char}
    {previous : Option Previous} : word.key next previous = mark ↔ word = mark := by
  -- A sign changes the word on both sides, and neither what is written nor what is meant is a mark.
  have different : ∀ other ∈ [negative, positive, ['-'], ['+']], other ≠ mark := by
    rintro other member rfl
    simp only [List.mem_cons, List.not_mem_nil, or_false] at member
    rcases member with rfl | rfl | rfl | rfl <;> revert isMark <;> decide
  rcases key_cases word next previous with same | ⟨_, ⟨rfl, minus⟩ | ⟨rfl, plus⟩⟩
  · rw [same]
  · rw [minus]
    exact ⟨fun same => absurd same (different _ (by simp)),
      fun same => absurd same (different _ (by simp))⟩
  · rw [plus]
    exact ⟨fun same => absurd same (different _ (by simp)),
      fun same => absurd same (different _ (by simp))⟩

end Word

namespace Vocabulary.Lawful

variable {Value : Type} {vocabulary : Vocabulary Value}

/-- A function is meant as it is written: signs are no functions. -/
theorem function_key (lawful : vocabulary.Lawful) {word : Word} {operator : Operator Value}
    {next : Option Char} {previous : Option Previous}
    (known : vocabulary.get? (word.key next previous) = some operator)
    (function : operator.isFunction = true) : word.key next previous = word := by
  rcases Word.key_cases word next previous with same | ⟨_, ⟨_, minus⟩ | ⟨_, plus⟩⟩
  · exact same
  · obtain ⟨compute, sign⟩ := lawful.sign Word.negative (by simp)
    rw [minus, sign] at known
    cases known
    cases function
  · obtain ⟨compute, sign⟩ := lawful.sign Word.positive (by simp)
    rw [plus, sign] at known
    cases known
    cases function

theorem function_written (lawful : vocabulary.Lawful) {word : Word} {operator : Operator Value}
    (known : vocabulary.get? word = some operator) (function : operator.isFunction = true)
    (next : Option Char) (previous : Option Previous) : word.key next previous = word := by
  have infixed : word ∉ [['+'], ['-']] := by
    intro member
    obtain ⟨compute, sum⟩ := lawful.sum word member
    rw [sum] at known
    cases known
    cases function
  rcases Word.key_cases word next previous with same | ⟨_, ⟨rfl, _⟩ | ⟨rfl, _⟩⟩
  · exact same
  · simp at infixed
  · simp at infixed

theorem function_no_mark (lawful : vocabulary.Lawful) {word : Word} {operator : Operator Value}
    (known : vocabulary.get? word = some operator) (function : operator.isFunction = true) :
    word ∉ Word.marks := by
  intro mark
  rw [lawful.mark word mark] at known
  cases known
  cases function

theorem mark_no_function (lawful : vocabulary.Lawful) {word : Word} (isMark : word ∈ Word.marks) :
    vocabulary.isFunction word = false := by
  simp [isFunction, lawful.mark word isMark, Operator.isFunction, Operator.mark]

theorem mark_no_constant (lawful : vocabulary.Lawful) {word : Word} (isMark : word ∈ Word.marks) :
    vocabulary.isConstant word = false := by
  simp [isConstant, lawful.mark word isMark, Operator.isConstant, Operator.isFunction, Operator.mark]

/-- Whatever is no function is a mark or an arithmetic operator, which binds no tighter than a function. -/
theorem mark_or_arithmetic (lawful : vocabulary.Lawful) {word : Word} {operator : Operator Value}
    (known : vocabulary.get? word = some operator) (noFunction : operator.isFunction = false) :
    word ∈ Word.marks ∧ operator = .mark ∨ ∃ count precedence associativity compute,
      operator = .arithmetic count precedence associativity compute ∧ precedence ≤ 4 := by
  rcases lawful.other known noFunction with symbol | sign
  · rcases Word.symbol_cases symbol with mark | sum | product | rfl
    · exact .inl ⟨mark, Option.some.inj (known.symm.trans (lawful.mark word mark))⟩
    · rcases lawful.sum word sum with ⟨compute, same⟩
      exact .inr ⟨2, 1, .left, compute, Option.some.inj (known.symm.trans same), by decide⟩
    · rcases lawful.product word product with ⟨compute, same⟩
      exact .inr ⟨2, 2, .left, compute, Option.some.inj (known.symm.trans same), by decide⟩
    · rcases lawful.power with ⟨compute, same⟩
      exact .inr ⟨2, 3, .right, compute, Option.some.inj (known.symm.trans same), by decide⟩
  · have member : word ∈ [Word.negative, Word.positive] := by simpa [Word.isSign] using sign
    rcases lawful.sign word member with ⟨compute, same⟩
    exact .inr ⟨1, 4, .neither, compute, Option.some.inj (known.symm.trans same), by decide⟩

/-- Every operator but the marks computes something. -/
theorem computes (lawful : vocabulary.Lawful) {word : Word} {operator : Operator Value}
    (known : vocabulary.get? word = some operator) (noMark : word ∉ Word.marks) :
    operator.action ≠ .mark := by
  intro action
  have noFunction : operator.isFunction = false := by simp [Operator.isFunction, action]
  rcases lawful.mark_or_arithmetic known noFunction with ⟨mark, _⟩ | ⟨_, _, _, _, rfl, _⟩
  · exact noMark mark
  · cases action

end Vocabulary.Lawful

namespace Machine

variable {Value : Type}

inductive Moves (vocabulary : Vocabulary Value) (read : List Char → Option Value)
    (machine : Machine Value) : Token → Option Char → Machine Value → Prop where
  | number {text : List Char} {next : Option Char} {value : Value}
      (reading : read text = some value) :
      Moves vocabulary read machine (.number text) next (machine.push value .operand)
  | constant {word : Word} {next : Option Char} {operator : Operator Value} {value : Value}
      (known : vocabulary.get? word = some operator) (constant : operator.isConstant = true)
      (applied : operator.apply [] = .ok value) :
      Moves vocabulary read machine (.word word) next (machine.push value (.constant word))
  | comma {next : Option Char} {arity : Arity} {commas base : Nat} {outer : List Frame}
      {pending : List (Waiting Value)} {rest : List (Entry Value)} {operands : List Value}
      (frames : machine.frames = .call arity commas base :: outer)
      (admitted : arity.admitsComma commas = true)
      (entries : machine.entries = pending.map .waiting ++ .opening :: rest)
      (settled : settle pending machine.operands = .ok operands) :
      Moves vocabulary read machine (.word [',']) next
        ⟨operands, .opening :: rest, .call arity (commas + 1) base :: outer,
          some (.operator [','])⟩
  | openCall {next : Option Char} {top : Waiting Value} {rest : List (Entry Value)}
      (opens : machine.opensCall vocabulary = true) (entries : machine.entries = .waiting top :: rest) :
      Moves vocabulary read machine (.word ['(']) next
        ⟨machine.operands, .opening :: .opening :: .waiting top :: rest,
          .call top.operator.arity 0 machine.operands.length :: machine.frames,
          some (.operator ['('])⟩
  | openGroup {next : Option Char} (plain : machine.opensCall vocabulary = false)
      (filled : next = some ')' → machine.admitsEmpty vocabulary = true) :
      Moves vocabulary read machine (.word ['(']) next
        ⟨machine.operands, .opening :: machine.entries,
          if machine.frames.isEmpty then [] else .group :: machine.frames,
          some (.operator ['('])⟩
  | closeCall {next : Option Char} {arity : Arity} {commas base : Nat} {outer : List Frame}
      {inner between : List (Waiting Value)} {top : Waiting Value} {rest : List (Entry Value)}
      {operands middle after : List Value}
      (frames : machine.frames = .call arity commas base :: outer)
      (entries : machine.entries = inner.map .waiting ++
        .opening :: (between.map .waiting ++ .opening :: .waiting top :: rest))
      (first : settle inner machine.operands = .ok middle)
      (second : settle between middle = .ok operands)
      (supplied : operands.length - base = commas + 1)
      (expected : arity.ofCall commas = commas + 1)
      (applied : Waiting.reduce { top with count := commas + 1 } operands = .ok after) :
      Moves vocabulary read machine (.word [')']) next
        ⟨after, rest, outer, some (.operator [')'])⟩
  | closeGroup {next : Option Char} {pending : List (Waiting Value)} {rest : List (Entry Value)}
      {operands : List Value}
      (noCall : ∀ arity commas base outer, machine.frames ≠ .call arity commas base :: outer)
      (entries : machine.entries = pending.map .waiting ++ .opening :: rest)
      (settled : settle pending machine.operands = .ok operands) :
      Moves vocabulary read machine (.word [')']) next
        ⟨operands, rest, machine.frames.drop 1, some (.operator [')'])⟩
  | operator {word : Word} {next : Option Char} {operator : Operator Value}
      {pending : List (Waiting Value)} {rest : List (Entry Value)} {operands : List Value}
      (known : vocabulary.get? (word.key next machine.previous) = some operator)
      (noMark : word ∉ Word.marks) (noConstant : operator.isConstant = false)
      (entries : machine.entries = pending.map .waiting ++ rest)
      (settled : settle pending machine.operands = .ok operands)
      (before : ∀ top ∈ pending, top.operator.bindsBefore operator = true)
      (stops : Stops operator rest) :
      Moves vocabulary read machine (.word word) next
        ⟨operands,
          .waiting ⟨word.key next machine.previous, operator, operator.arity.declared⟩ :: rest,
          machine.frames, some (.operator word)⟩

variable {vocabulary : Vocabulary Value} {read : List Char → Option Value}

theorem comma_moves {machine after : Machine Value} {next : Option Char}
    (accepted : machine.comma.map (remember [',']) = .ok after) :
    Moves vocabulary read machine (.word [',']) next after := by
  obtain ⟨changed, done, rfl⟩ := map_ok.mp accepted
  unfold comma at done
  split at done
  · next arity commas base outer frames =>
      split at done
      · next admitted =>
          obtain ⟨⟨entries, operands⟩, flushed, done⟩ := bind_ok.mp done
          obtain ⟨pending, split, settled⟩ := flush_ok.mp flushed
          cases done
          exact .comma frames admitted split settled
      · cases done
  · cases done

theorem open_moves {machine after : Machine Value} {next : Option Char}
    (accepted : (machine.openParenthesis vocabulary next).map (remember ['(']) = .ok after) :
    Moves vocabulary read machine (.word ['(']) next after := by
  obtain ⟨changed, done, rfl⟩ := map_ok.mp accepted
  unfold openParenthesis at done
  split at done
  · cases done
  · next filled =>
      split at done
      · next opens =>
          split at done
          · next top rest entries =>
              cases done
              simp only [entries, remember]
              exact .openCall opens entries
          · cases done
      · next plain =>
          cases done
          apply Moves.openGroup
          · simpa using plain
          · rintro rfl
            simpa using filled

theorem close_moves {machine after : Machine Value} {next : Option Char}
    (accepted : machine.closeParenthesis.map (remember [')']) = .ok after) :
    Moves vocabulary read machine (.word [')']) next after := by
  obtain ⟨changed, done, rfl⟩ := map_ok.mp accepted
  obtain ⟨⟨entries, operands⟩, flushed, done⟩ := bind_ok.mp done
  obtain ⟨inner, split, first⟩ := flush_ok.mp flushed
  dsimp only at done
  split at done
  · next arity commas base outer frames =>
      obtain ⟨⟨rest, results⟩, applied, done⟩ := bind_ok.mp done
      cases done
      obtain ⟨⟨below, supply⟩, flushed, counted⟩ := bind_ok.mp applied
      obtain ⟨between, rfl, second⟩ := flush_ok.mp flushed
      dsimp only at counted
      split at counted
      · cases counted
      · next counts =>
          simp only [not_or, ne_eq, Decidable.not_not] at counts
          have expected : arity.ofCall commas = commas + 1 := counts.2.symm.trans counts.1
          split at counted
          · next top rest =>
              obtain ⟨reduced, reducing, same⟩ := bind_ok.mp counted
              cases same
              -- The count of the call replaces the declared one, also where they are the same.
              rw [expected] at reducing
              exact .closeCall frames split first second counts.1 expected reducing
          · cases counted
  · next noCall =>
      cases done
      exact .closeGroup (fun arity commas base outer same => noCall arity commas base outer same)
        split first

theorem push_moves {machine after : Machine Value} {word : Word} {next : Option Char}
    {operator : Operator Value}
    (known : vocabulary.get? (word.key next machine.previous) = some operator)
    (noMark : word ∉ Word.marks) (noConstant : operator.isConstant = false)
    (accepted : (machine.pushOperator (word.key next machine.previous) operator).map
      (remember word) = .ok after) :
    Moves vocabulary read machine (.word word) next after := by
  obtain ⟨changed, done, rfl⟩ := map_ok.mp accepted
  obtain ⟨⟨entries, operands⟩, made, done⟩ := bind_ok.mp done
  obtain ⟨pending, split, settled, before, stops⟩ := makeWay_ok.mp made
  cases done
  exact .operator known noMark noConstant split settled before stops

/-- Whatever a token does, it does in one of these ways. -/
theorem step_moves (lawful : vocabulary.Lawful) {machine after : Machine Value} {placed : Placed}
    (stepped : machine.step vocabulary read placed = .ok after) :
    Moves vocabulary read machine placed.token placed.next after := by
  obtain ⟨token, last, next⟩ := placed
  have done := located_ok.mp stepped
  cases token with
  | number text =>
      simp only [readNumber] at done
      split at done
      · next value reading =>
          cases done
          exact .number reading
      · cases done
  | word word =>
      simp only [readWord] at done
      split at done
      · cases done
      · next operator known =>
          have mark : ∀ mark ∈ Word.marks, word.key next machine.previous = mark → word = mark :=
            fun mark isMark same => (Word.key_mark isMark).mp same
          split at done
          · next same =>
              obtain rfl := mark _ (by simp [Word.marks]) same
              exact comma_moves done
          split at done
          · next same =>
              obtain rfl := mark _ (by simp [Word.marks]) same
              exact open_moves done
          split at done
          · next same =>
              obtain rfl := mark _ (by simp [Word.marks]) same
              exact close_moves done
          · next noComma noOpening noClosing =>
              split at done
              · next constant =>
                  obtain ⟨value, applied, pushed⟩ := bind_ok.mp done
                  have same := lawful.function_key known (Operator.constant_function constant)
                  rw [same] at known pushed
                  cases pushed
                  exact .constant known constant applied
              · next noConstant =>
                  apply push_moves known _ (by simpa using noConstant) done
                  intro isMark
                  have same : word.key next machine.previous = word :=
                    (Word.key_mark isMark).mpr rfl
                  simp only [Word.marks, List.mem_cons, List.not_mem_nil, or_false] at isMark
                  rcases isMark with rfl | rfl | rfl
                  · exact noOpening same
                  · exact noClosing same
                  · exact noComma same

/-- A mark goes to its own operation, whatever surrounds it. -/
theorem step_mark (lawful : vocabulary.Lawful) (machine : Machine Value) {word : Word}
    (isMark : word ∈ Word.marks) (last : Nat) (next : Option Char) :
    machine.step vocabulary read ⟨.word word, last, next⟩ = located last
      (if word = [','] then machine.comma.map (remember word)
      else if word = ['('] then (machine.openParenthesis vocabulary next).map (remember word)
      else machine.closeParenthesis.map (remember word)) := by
  have key : word.key next machine.previous = word := (Word.key_mark isMark).mpr rfl
  have known := lawful.mark word isMark
  have closing : word ≠ [','] → word ≠ ['('] → word = [')'] := by
    simp only [Word.marks, List.mem_cons, List.not_mem_nil, or_false] at isMark
    rcases isMark with rfl | rfl | rfl <;> simp
  simp only [step, readWord, key, known]
  by_cases comma : word = [',']
  · simp [comma]
  · by_cases opening : word = ['(']
    · simp [opening]
    · obtain rfl := closing comma opening
      simp

theorem mark_step (lawful : vocabulary.Lawful) {machine after : Machine Value} {word : Word}
    {next : Option Char} (last : Nat) (isMark : word ∈ Word.marks)
    (done : (if word = [','] then machine.comma.map (remember word)
      else if word = ['('] then (machine.openParenthesis vocabulary next).map (remember word)
      else machine.closeParenthesis.map (remember word)) = .ok after) :
    machine.step vocabulary read ⟨.word word, last, next⟩ = .ok after := by
  rw [step_mark lawful machine isMark]
  exact located_ok.mpr done

theorem step_constant (lawful : vocabulary.Lawful) (machine : Machine Value) {word : Word}
    {operator : Operator Value} (known : vocabulary.get? word = some operator)
    (constant : operator.isConstant = true) (last : Nat) (next : Option Char) :
    machine.step vocabulary read ⟨.word word, last, next⟩ = located last
      ((operator.apply []).map fun value => machine.push value (.constant word)) := by
  have function := Operator.constant_function constant
  have key := lawful.function_written known function next machine.previous
  have noMark := lawful.function_no_mark known function
  simp only [Word.marks, List.mem_cons, List.not_mem_nil, or_false, not_or] at noMark
  simp only [step, readWord, key, known, noMark, if_false, constant, if_true]
  cases operator.apply [] <;> rfl

theorem moves_step (lawful : vocabulary.Lawful) {machine after : Machine Value} {token : Token}
    {next : Option Char} (last : Nat) (moves : Moves vocabulary read machine token next after) :
    machine.step vocabulary read ⟨token, last, next⟩ = .ok after := by
  cases moves with
  | number reading =>
      apply located_ok.mpr
      simp [readNumber, reading]
  | @constant word next operator value known constant applied =>
      rw [step_constant lawful machine known constant, applied]
      rfl
  | comma frames admitted entries settled =>
      apply mark_step lawful last (by simp [Word.marks])
      have flushed := flush_ok.mpr ⟨_, entries, settled⟩
      simp [Machine.comma, frames, admitted, flushed, Except.map, bind, Except.bind, remember]
  | openCall opens entries =>
      apply mark_step lawful last (by simp [Word.marks])
      -- Behind a function nothing may stand in parentheses, so what follows does not matter.
      have admits : machine.admitsEmpty vocabulary = true := by
        unfold opensCall at opens
        unfold admitsEmpty
        split at opens
        · next word same => simp [same, opens]
        · cases opens
      simp [openParenthesis, admits, opens, entries, Except.map, remember]
  | @openGroup next plain filled =>
      apply mark_step lawful last (by simp [Word.marks])
      have admits : (next == some ')' && !machine.admitsEmpty vocabulary) = false := by
        by_cases empty : next = some ')'
        · simp [filled empty]
        · simp [empty]
      simp [openParenthesis, admits, plain, Except.map, remember]
  | @closeCall _ arity commas base outer inner between top rest operands middle results frames
      entries first second supplied expected applied =>
      apply mark_step lawful last (by simp [Word.marks])
      have arguments := flush_ok.mpr ⟨_, entries, first⟩
      have call : flush (between.map .waiting ++ .opening :: .waiting top :: rest) middle =
          .ok (.waiting top :: rest, operands) := flush_ok.mpr ⟨_, rfl, second⟩
      simp [closeParenthesis, applyCall, arguments, call, frames, supplied, expected, applied,
        Except.map, bind, Except.bind, remember]
  | closeGroup noCall entries settled =>
      apply mark_step lawful last (by simp [Word.marks])
      have flushed := flush_ok.mpr ⟨_, entries, settled⟩
      cases frames : machine.frames with
      | nil =>
          simp [closeParenthesis, flushed, frames, Except.map, bind, Except.bind, remember]
      | cons frame outer =>
          cases frame with
          | group =>
              simp [closeParenthesis, flushed, frames, Except.map, bind, Except.bind, remember]
          | call arity commas base => exact absurd frames (noCall arity commas base outer)
  | @operator word next operator pending rest operands known noMark noConstant entries settled
      before stops =>
      have made := makeWay_ok.mpr ⟨pending, entries, settled, before, stops⟩
      have key : ∀ mark ∈ Word.marks, word.key next machine.previous ≠ mark := by
        intro mark isMark same
        exact noMark ((Word.key_mark isMark).mp same ▸ isMark)
      simp only [Word.marks, List.mem_cons, List.not_mem_nil, or_false, forall_eq_or_imp,
        forall_eq] at key
      apply located_ok.mpr
      simp [readWord, known, key, noConstant, pushOperator, made, Except.map, bind, Except.bind,
        remember]

theorem step_ok (lawful : vocabulary.Lawful) {machine after : Machine Value} {placed : Placed} :
    machine.step vocabulary read placed = .ok after ↔
      Moves vocabulary read machine placed.token placed.next after :=
  ⟨step_moves lawful, moves_step lawful placed.last⟩

end Machine

end Calculator
