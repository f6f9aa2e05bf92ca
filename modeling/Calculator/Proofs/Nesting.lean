import Calculator.Evaluate
import Calculator.Proofs.Moves
import Calculator.Proofs.Spelling
import Mathlib.Data.List.DropRight

/-!
Open parentheses. The stacks of the machine show, after every token, just the parentheses that the text
has opened and not closed: each of them between the operators, those within a call also as frames. So the
machine never misses an operator that a parenthesis relies on.
-/

namespace Calculator

inductive Opening where
  | plain
  | call (word : Word) (commas : Nat)
deriving DecidableEq, Repr

namespace Opening

def isPlain : Opening → Bool
  | .plain => true
  | .call _ _ => false

section

variable {Value : Type} (vocabulary : Vocabulary Value)

def after : Option Token → Opening
  | some (.word word) =>
      if vocabulary.isFunction word && !vocabulary.isConstant word then .call word 0 else .plain
  | _ => .plain

def read (before : Option Token) (openings : List Opening) : Token → List Opening
  | .number _ => openings
  | .word word =>
      if word = ['('] then after vocabulary before :: openings
      else if word = [')'] then openings.drop 1
      else if word = [','] then
        match openings with
        | .call name commas :: outer => .call name (commas + 1) :: outer
        | _ => openings
      else openings

def unclosedFrom : Option Token → List Opening → List Token → List Opening
  | _, openings, [] => openings
  | before, openings, token :: rest => unclosedFrom (some token) (read vocabulary before openings token) rest

def unclosed (tokens : List Token) : List Opening :=
  unclosedFrom vocabulary none [] tokens

variable {vocabulary}

theorem read_other (before : Option Token) (openings : List Opening) {word : Word}
    (noMark : word ∉ Word.marks) : read vocabulary before openings (.word word) = openings := by
  simp only [Word.marks, List.mem_cons, List.not_mem_nil, or_false, not_or] at noMark
  simp [read, noMark]

@[simp]
theorem read_opening (before : Option Token) (openings : List Opening) :
    read vocabulary before openings (.word ['(']) = after vocabulary before :: openings :=
  rfl

@[simp]
theorem read_closing (before : Option Token) (opening : Opening) (outer : List Opening) :
    read vocabulary before (opening :: outer) (.word [')']) = outer :=
  rfl

@[simp]
theorem read_comma (before : Option Token) (word : Word) (commas : Nat) (outer : List Opening) :
    read vocabulary before (.call word commas :: outer) (.word [',']) =
      .call word (commas + 1) :: outer :=
  rfl

theorem kept_cons (opening : Opening) (outer : List Opening) :
    (opening :: outer).rdropWhile isPlain =
      if (outer.rdropWhile isPlain).isEmpty && opening.isPlain then []
      else opening :: outer.rdropWhile isPlain := by
  simp only [List.rdropWhile, List.reverse_cons, List.dropWhile_append, List.isEmpty_reverse]
  cases empty : (outer.reverse.dropWhile isPlain).isEmpty with
  | false => simp
  | true =>
      rw [List.isEmpty_iff] at empty
      cases plain : opening.isPlain <;> simp [empty, plain]

theorem kept_call (word : Word) (commas : Nat) (outer : List Opening) :
    (Opening.call word commas :: outer).rdropWhile isPlain =
      .call word commas :: outer.rdropWhile isPlain := by
  simp [kept_cons, isPlain]

end

end Opening

namespace Machine

variable {Value : Type}

/-- The operator stack from its top down: one marker for a plain parenthesis, two adjacent ones directly
on the operator of its function for a call, and operators only everywhere else. -/
inductive Interleaves (vocabulary : Vocabulary Value) : List (Entry Value) → List Opening → Prop where
  | empty : Interleaves vocabulary [] []
  | waiting {top : Waiting Value} {entries : List (Entry Value)} {openings : List Opening}
      (below : Interleaves vocabulary entries openings) :
      Interleaves vocabulary (.waiting top :: entries) openings
  | plain {entries : List (Entry Value)} {openings : List Opening}
      (below : Interleaves vocabulary entries openings) :
      Interleaves vocabulary (.opening :: entries) (.plain :: openings)
  | call {top : Waiting Value} {commas : Nat} {entries : List (Entry Value)}
      {openings : List Opening} (known : vocabulary.get? top.word = some top.operator)
      (below : Interleaves vocabulary entries openings) :
      Interleaves vocabulary (.opening :: .opening :: .waiting top :: entries)
        (.call top.word commas :: openings)

inductive Shows (vocabulary : Vocabulary Value) : Frame → Opening → Prop where
  | group : Shows vocabulary .group .plain
  | call {word : Word} {operator : Operator Value} {commas base : Nat}
      (known : vocabulary.get? word = some operator) :
      Shows vocabulary (.call operator.arity commas base) (.call word commas)

/-- Both stacks show the open parentheses; there are frames from the first call on. -/
structure Mirrors (vocabulary : Vocabulary Value) (openings : List Opening)
    (machine : Machine Value) : Prop where
  entries : Interleaves vocabulary machine.entries openings
  frames : List.Forall₂ (Shows vocabulary) machine.frames (openings.rdropWhile Opening.isPlain)

namespace Interleaves

variable {vocabulary : Vocabulary Value}

theorem drop_waiting {pending : List (Waiting Value)} {rest : List (Entry Value)}
    {openings : List Opening}
    (interleaves : Interleaves vocabulary (pending.map .waiting ++ rest) openings) :
    Interleaves vocabulary rest openings := by
  induction pending with
  | nil => exact interleaves
  | cons top others ih =>
      cases interleaves with
      | waiting below => exact ih below

theorem none_open {entries : List (Entry Value)} {openings : List Opening}
    (interleaves : Interleaves vocabulary entries openings) (closed : .opening ∉ entries) :
    openings = [] := by
  induction interleaves with
  | empty => rfl
  | waiting below ih => exact ih fun member => closed (List.mem_cons_of_mem _ member)
  | plain below ih => exact absurd List.mem_cons_self closed
  | call known below ih => exact absurd List.mem_cons_self closed

end Interleaves

namespace Mirrors

variable {vocabulary : Vocabulary Value} {openings : List Opening} {machine : Machine Value}

theorem call_frame (mirrors : Mirrors vocabulary openings machine) {arity : Arity}
    {commas base : Nat} {outer : List Frame} (frames : machine.frames = .call arity commas base :: outer) :
    ∃ word operator others, openings = .call word commas :: others ∧
      vocabulary.get? word = some operator ∧ arity = operator.arity ∧
      List.Forall₂ (Shows vocabulary) outer (others.rdropWhile Opening.isPlain) := by
  have shown := mirrors.frames
  rw [frames] at shown
  cases openings with
  | nil => cases shown
  | cons opening others =>
      cases opening with
      | plain =>
          rw [Opening.kept_cons] at shown
          split at shown
          · cases shown
          · obtain ⟨first, _⟩ := List.forall₂_cons.mp shown
            cases first
      | call word count =>
          rw [Opening.kept_call] at shown
          obtain ⟨first, rest⟩ := List.forall₂_cons.mp shown
          cases first with
          | call known => exact ⟨word, _, others, rfl, known, rfl, rest⟩

/-- What is left on the stack of its last argument is the outer marker on the operator of the call. -/
theorem call_entries (mirrors : Mirrors vocabulary openings machine) {arity : Arity}
    {commas base : Nat} {outer : List Frame} (frames : machine.frames = .call arity commas base :: outer)
    {pending : List (Waiting Value)} {rest : List (Entry Value)}
    (entries : machine.entries = pending.map .waiting ++ .opening :: rest) :
    ∃ top below others, rest = .opening :: .waiting top :: below ∧
      openings = .call top.word commas :: others ∧ vocabulary.get? top.word = some top.operator ∧
      arity = top.operator.arity ∧ Interleaves vocabulary below others ∧
      List.Forall₂ (Shows vocabulary) outer (others.rdropWhile Opening.isPlain) := by
  rcases mirrors.call_frame frames with ⟨word, operator, others, rfl, known, rfl, shown⟩
  have interleaves := mirrors.entries
  rw [entries] at interleaves
  cases interleaves.drop_waiting with
  | call found below =>
      cases known.symm.trans found
      exact ⟨_, _, others, rfl, rfl, found, rfl, below, shown⟩

/-- The two markers of the innermost call stand directly on its operator. -/
theorem close_entries (mirrors : Mirrors vocabulary openings machine) {arity : Arity}
    {commas base : Nat} {outer : List Frame} (frames : machine.frames = .call arity commas base :: outer)
    {inner between : List (Waiting Value)} {top : Waiting Value} {rest : List (Entry Value)}
    (entries : machine.entries = inner.map .waiting ++
      .opening :: (between.map .waiting ++ .opening :: .waiting top :: rest)) :
    ∃ others, openings = .call top.word commas :: others ∧ arity = top.operator.arity ∧
      Interleaves vocabulary rest others ∧
      List.Forall₂ (Shows vocabulary) outer (others.rdropWhile Opening.isPlain) := by
  rcases mirrors.call_entries frames entries with
    ⟨own, below, others, same, opened, known, arity, remaining, shown⟩
  cases between with
  | nil =>
      cases same
      exact ⟨others, opened, arity, remaining, shown⟩
  | cons first more => cases same

/-- Without such a frame on top, the innermost parenthesis is a plain one. -/
theorem plain_inside (mirrors : Mirrors vocabulary openings machine)
    (noCall : ∀ arity commas base outer, machine.frames ≠ .call arity commas base :: outer)
    {pending : List (Waiting Value)} {rest : List (Entry Value)}
    (entries : machine.entries = pending.map .waiting ++ .opening :: rest) :
    ∃ others, openings = .plain :: others ∧ Interleaves vocabulary rest others ∧
      List.Forall₂ (Shows vocabulary) (machine.frames.drop 1) (others.rdropWhile Opening.isPlain) := by
  have interleaves := mirrors.entries
  have shown := mirrors.frames
  rw [entries] at interleaves
  cases interleaves.drop_waiting with
  | @plain below others inner =>
      refine ⟨others, rfl, inner, ?_⟩
      -- The group has a frame of its own just if something below it has one.
      rw [Opening.kept_cons] at shown
      generalize machine.frames = frames at shown
      split at shown
      · next bottom =>
          simp only [Bool.and_eq_true, List.isEmpty_iff] at bottom
          cases shown
          simp [bottom.1]
      · cases shown with
        | cons first rest => exact rest
  | call known below =>
      rw [Opening.kept_call] at shown
      generalize frames : machine.frames = all at shown
      cases shown with
      | cons first rest =>
          cases first
          exact absurd frames (noCall _ _ _ _)

/-- A group within a call gets a frame, and any other group none. -/
theorem group_frames (mirrors : Mirrors vocabulary openings machine) :
    List.Forall₂ (Shows vocabulary)
      (if machine.frames.isEmpty then [] else .group :: machine.frames)
      ((Opening.plain :: openings).rdropWhile Opening.isPlain) := by
  have shown := mirrors.frames
  rw [Opening.kept_cons]
  generalize openings.rdropWhile Opening.isPlain = kept at shown
  generalize machine.frames = frames at shown
  cases shown with
  | nil => exact .nil
  | cons first rest => exact .cons .group (.cons first rest)

end Mirrors

theorem Interleaves.finish_closed {vocabulary : Vocabulary Value} {machine : Machine Value}
    {openings : List Opening} (interleaves : Interleaves vocabulary machine.entries openings)
    {value : Value} (finished : machine.finish = .ok value) : openings = [] := by
  obtain ⟨pending, entries, _⟩ := finish_ok.mp finished
  apply interleaves.none_open
  simp [entries]

def taken (vocabulary : Vocabulary Value) : Token → Previous
  | .number _ => .operand
  | .word word => if vocabulary.isConstant word then .constant word else .operator word

/-- The invariant of a run: besides the stacks, the last token, and the operator of a function that was
just named. -/
structure Tracks (vocabulary : Vocabulary Value) (before : Option Token) (openings : List Opening)
    (machine : Machine Value) : Prop where
  mirrors : Mirrors vocabulary openings machine
  previous : machine.previous = before.map (taken vocabulary)
  named : ∀ {word}, before = some (.word word) → vocabulary.isFunction word = true →
    vocabulary.isConstant word = false → ∃ top rest, machine.entries = .waiting top :: rest ∧
      top.word = word ∧ vocabulary.get? word = some top.operator
  computes : ∀ {top}, .waiting top ∈ machine.entries → top.operator.action ≠ .mark

namespace Tracks

variable {vocabulary : Vocabulary Value} {before : Option Token} {openings : List Opening}
  {machine : Machine Value}

theorem initial : Tracks vocabulary none [] (@Machine.initial Value) := by
  constructor
  · exact ⟨.empty, .nil⟩
  · rfl
  · intro word noToken
    cases noToken
  · intro top member
    cases member

theorem opens_call (tracks : Tracks vocabulary before openings machine)
    (opens : machine.opensCall vocabulary = true) :
    ∃ word, before = some (.word word) ∧ vocabulary.isFunction word = true ∧
      vocabulary.isConstant word = false ∧ Opening.after vocabulary before = .call word 0 := by
  unfold opensCall at opens
  rw [tracks.previous] at opens
  rcases before with _ | ⟨word⟩ | ⟨text⟩
  · cases opens
  · cases constant : vocabulary.isConstant word with
    | true => simp [taken, constant] at opens
    | false =>
        have function : vocabulary.isFunction word = true := by simpa [taken, constant] using opens
        exact ⟨word, rfl, function, constant, by simp [Opening.after, function, constant]⟩
  · cases opens

theorem opens_group (tracks : Tracks vocabulary before openings machine)
    (opens : machine.opensCall vocabulary = false) :
    Opening.after vocabulary before = .plain := by
  unfold opensCall at opens
  rw [tracks.previous] at opens
  rcases before with _ | ⟨word⟩ | ⟨text⟩
  · rfl
  · cases constant : vocabulary.isConstant word with
    | true => simp [Opening.after, constant]
    | false =>
        have noFunction : vocabulary.isFunction word = false := by simpa [taken, constant] using opens
        simp [Opening.after, noFunction]
  · rfl

theorem after_mark (lawful : vocabulary.Lawful) {word : Word} (isMark : word ∈ Word.marks)
    (mirrors : Mirrors vocabulary openings machine)
    (previous : machine.previous = some (.operator word))
    (computes : ∀ {top}, .waiting top ∈ machine.entries → top.operator.action ≠ .mark) :
    Tracks vocabulary (some (.word word)) openings machine := by
  have noFunction := lawful.mark_no_function isMark
  constructor
  · exact mirrors
  · simp [previous, taken, lawful.mark_no_constant isMark]
  · intro name same function
    cases same
    rw [noFunction] at function
    cases function
  · exact computes

theorem after_operand {value : Value} {token : Token} {previous : Previous}
    (tracks : Tracks vocabulary before openings machine) (takes : taken vocabulary token = previous)
    (noFunction : ∀ {word}, token = .word word → vocabulary.isConstant word = true) :
    Tracks vocabulary (some token) openings (machine.push value previous) := by
  constructor
  · exact ⟨tracks.mirrors.entries, tracks.mirrors.frames⟩
  · simp [push, takes]
  · intro word same _ takesArguments
    rw [noFunction (Option.some.inj same)] at takesArguments
    cases takesArguments
  · exact tracks.computes

/-- Operators that wait above the innermost parenthesis come and go; the parentheses stay. -/
theorem after_operator (lawful : vocabulary.Lawful)
    (tracks : Tracks vocabulary before openings machine) {word : Word} {next : Option Char}
    {operator : Operator Value} {pending : List (Waiting Value)} {rest : List (Entry Value)}
    (known : vocabulary.get? (word.key next machine.previous) = some operator)
    (noMark : word ∉ Word.marks) (noConstant : operator.isConstant = false)
    (entries : machine.entries = pending.map .waiting ++ rest) {operands : List Value} {count : Nat} :
    Tracks vocabulary (some (.word word)) openings
      ⟨operands, .waiting ⟨word.key next machine.previous, operator, count⟩ :: rest, machine.frames,
        some (.operator word)⟩ := by
  -- A function is never a sign, so what waits for its parenthesis is the word itself.
  have written : vocabulary.isFunction word = true →
      word.key next machine.previous = word ∧ vocabulary.get? word = some operator := by
    intro isFunction
    obtain ⟨other, found, function⟩ := Vocabulary.Lawful.function_known isFunction
    have same := lawful.function_written found function next machine.previous
    exact ⟨same, same ▸ known⟩
  have noMarkKey : word.key next machine.previous ∉ Word.marks := by
    intro isMark
    exact noMark ((Word.key_mark isMark).mp rfl ▸ isMark)
  constructor
  · have interleaves := tracks.mirrors.entries
    rw [entries] at interleaves
    exact ⟨.waiting interleaves.drop_waiting, tracks.mirrors.frames⟩
  · have plain : vocabulary.isConstant word = false := by
      by_cases constant : vocabulary.isConstant word = true
      · have found := (written (Vocabulary.constant_function constant)).2
        simp [Vocabulary.isConstant, found, noConstant] at constant
      · simpa using constant
    simp [taken, plain]
  · intro name same function _
    cases same
    obtain ⟨key, found⟩ := written function
    exact ⟨_, rest, rfl, key, by simpa [key] using found⟩
  · intro top member
    rcases List.mem_cons.mp member with same | below
    · cases same
      exact lawful.computes known noMarkKey
    · apply tracks.computes
      rw [entries]
      exact List.mem_append_right _ below

/-- What one token preserves. -/
theorem step (lawful : vocabulary.Lawful) (tracks : Tracks vocabulary before openings machine)
    {number : List Char → Option Value} {token : Token} {next : Option Char}
    {after : Machine Value} (moves : Moves vocabulary number machine token next after) :
    Tracks vocabulary (some token) (Opening.read vocabulary before openings token) after := by
  cases moves with
  | number reading =>
      apply tracks.after_operand rfl
      intro word same
      cases same
  | @constant word next operator value known constant applied =>
      have isConstant : vocabulary.isConstant word = true := by
        simp [Vocabulary.isConstant, known, constant]
      rw [Opening.read_other _ _ (lawful.function_no_mark known (operator.constant_function constant))]
      apply tracks.after_operand
      · simp [taken, isConstant]
      · intro name same
        cases same
        exact isConstant
  | @comma next arity commas base outer pending rest operands frames admitted entries settled =>
      obtain ⟨word, operator, others, rfl, known, rfl, shown⟩ := tracks.mirrors.call_frame frames
      have interleaves := tracks.mirrors.entries
      rw [entries] at interleaves
      apply after_mark lawful (by simp [Word.marks]) _ rfl
      · intro top member
        apply tracks.computes
        rw [entries]
        exact List.mem_append_right _ member
      · constructor
        · cases interleaves.drop_waiting with
          | call found below => exact .call found below
        · rw [Opening.read_comma, Opening.kept_call]
          exact .cons (.call known) shown
  | @openCall next top rest opens entries =>
      -- The function was named by the token right before, so its operator still is on top.
      obtain ⟨word, rfl, function, takesArguments, opened⟩ := tracks.opens_call opens
      obtain ⟨named, below, same, rfl, known⟩ := tracks.named rfl function takesArguments
      rw [entries] at same
      cases same
      have interleaves := tracks.mirrors.entries
      rw [entries] at interleaves
      apply after_mark lawful (by simp [Word.marks]) _ rfl
      · intro other member
        apply tracks.computes
        simpa [entries] using member
      · rw [Opening.read_opening, opened]
        constructor
        · cases interleaves with
          | waiting below => exact .call known below
        · rw [Opening.kept_call]
          exact .cons (.call known) tracks.mirrors.frames
  | openGroup plain filled =>
      apply after_mark lawful (by simp [Word.marks]) _ rfl
      · intro top member
        apply tracks.computes
        simpa using member
      · rw [Opening.read_opening, tracks.opens_group plain]
        constructor
        · exact .plain tracks.mirrors.entries
        · exact tracks.mirrors.group_frames
  | @closeCall next arity commas base outer inner between top rest operands middle results frames
      entries first second supplied expected applied =>
      -- Of the two markers the inner one ends the last argument, so nothing waits between them.
      rcases tracks.mirrors.close_entries frames entries with ⟨others, rfl, _, remaining, shown⟩
      apply after_mark lawful (by simp [Word.marks]) _ rfl
      · intro other member
        apply tracks.computes
        simp only at member
        simp [entries, member]
      · exact ⟨remaining, shown⟩
  | closeGroup noCall entries settled =>
      obtain ⟨others, rfl, remaining, shown⟩ := tracks.mirrors.plain_inside noCall entries
      apply after_mark lawful (by simp [Word.marks]) _ rfl
      · intro top member
        apply tracks.computes
        simp only at member
        simp [entries, member]
      · exact ⟨remaining, shown⟩
  | operator known noMark noConstant entries settled applied stops =>
      rw [Opening.read_other _ _ noMark]
      exact tracks.after_operator lawful known noMark noConstant entries

/-- A comma is accepted directly within a call only. -/
theorem comma_open (lawful : vocabulary.Lawful) (tracks : Tracks vocabulary before openings machine)
    {number : List Char → Option Value} {next : Option Char} {after : Machine Value}
    (moves : Moves vocabulary number machine (.word [',']) next after) :
    ∃ word commas outer, openings = .call word commas :: outer := by
  cases moves with
  | comma frames =>
      obtain ⟨word, operator, others, same, _⟩ := tracks.mirrors.call_frame frames
      exact ⟨word, _, others, same⟩
  | constant known constant =>
      have noMark := lawful.function_no_mark known (Operator.constant_function constant)
      simp [Word.marks] at noMark
  | operator known noMark => simp [Word.marks] at noMark

/-- A closing parenthesis is accepted for a plain one, or for a call with the arguments that are due. -/
theorem closing_open (lawful : vocabulary.Lawful)
    (tracks : Tracks vocabulary before openings machine) {number : List Char → Option Value}
    {next : Option Char} {after : Machine Value}
    (moves : Moves vocabulary number machine (.word [')']) next after) :
    (∃ outer, openings = .plain :: outer) ∨ ∃ word operator commas outer,
      openings = .call word commas :: outer ∧ vocabulary.get? word = some operator ∧
        operator.arity.ofCall commas = commas + 1 := by
  cases moves with
  | closeCall frames entries first second supplied expected =>
      obtain ⟨word, operator, others, same, known, rfl, _⟩ := tracks.mirrors.call_frame frames
      exact .inr ⟨word, operator, _, others, same, known, expected⟩
  | closeGroup noCall entries =>
      obtain ⟨others, same, _⟩ := tracks.mirrors.plain_inside noCall entries
      exact .inl ⟨others, same⟩
  | constant known constant =>
      have noMark := lawful.function_no_mark known (Operator.constant_function constant)
      simp [Word.marks] at noMark
  | operator known noMark => simp [Word.marks] at noMark

/-- What a run preserves. -/
theorem run (lawful : vocabulary.Lawful) {number : List Char → Option Value} {placed : List Placed}
    {after : Machine Value} (tracks : Tracks vocabulary before openings machine)
    (reached : placed.foldlM (Machine.step vocabulary number) machine = .ok after) :
    ∃ last, Tracks vocabulary last
      (Opening.unclosedFrom vocabulary before openings (placed.map (·.token))) after := by
  induction placed generalizing before openings machine with
  | nil =>
      cases reached
      exact ⟨before, tracks⟩
  | cons first rest ih =>
      rw [List.foldlM_cons] at reached
      obtain ⟨middle, stepped, reached⟩ := bind_ok.mp reached
      exact ih (tracks.step lawful ((step_ok lawful).mp stepped)) reached

end Tracks

/-- No check that a step makes for safety alone can fail: words are known and literals have a value, what
opens or closes a call stands on the operator of its function, and marks are never applied. -/
structure Prepared (vocabulary : Vocabulary Value) (number : List Char → Option Value)
    (machine : Machine Value) (placed : Placed) : Prop where
  known : ∀ {word}, placed.token = .word word →
    ∃ operator, vocabulary.get? (word.key placed.next machine.previous) = some operator
  numeral : ∀ {text}, placed.token = .number text → ∃ value, number text = some value
  opens : machine.opensCall vocabulary = true → ∃ top rest, machine.entries = .waiting top :: rest
  closes : ∀ {arity commas base outer rest operands},
    machine.frames = .call arity commas base :: outer →
      flush machine.entries machine.operands = .ok (rest, operands) →
        ∃ top below, rest = .opening :: .waiting top :: below ∧ top.operator.arity = arity
  computes : ∀ {top}, .waiting top ∈ machine.entries → top.operator.action ≠ .mark

theorem Tracks.prepared {vocabulary : Vocabulary Value} (lawful : vocabulary.Lawful)
    {before : Option Token} {openings : List Opening} {machine : Machine Value}
    (tracks : Tracks vocabulary before openings machine) {number : List Char → Option Value}
    (reads : ∀ text, isLiteral text = true → ∃ value, number text = some value) {placed : Placed}
    (found : Scan.Found vocabulary placed.token) : Prepared vocabulary number machine placed := by
  constructor
  · intro word same
    rw [same] at found
    rcases Word.key_cases word placed.next machine.previous with written | ⟨_, ⟨_, minus⟩ | ⟨_, plus⟩⟩
    · rw [written]
      exact Option.isSome_iff_exists.mp found.1
    · obtain ⟨compute, sign⟩ := lawful.sign Word.negative (by simp)
      exact ⟨_, minus ▸ sign⟩
    · obtain ⟨compute, sign⟩ := lawful.sign Word.positive (by simp)
      exact ⟨_, plus ▸ sign⟩
  · intro text same
    rw [same] at found
    exact reads text found
  · intro opens
    obtain ⟨word, isLast, function, takesArguments, _⟩ := tracks.opens_call opens
    obtain ⟨top, rest, entries, _⟩ := tracks.named isLast function takesArguments
    exact ⟨top, rest, entries⟩
  · intro arity commas base outer rest operands frames flushed
    rcases flush_ok.mp flushed with ⟨pending, entries, _⟩
    rcases tracks.mirrors.call_entries frames entries with ⟨top, below, _, rfl, _, _, same, _⟩
    exact ⟨top, below, rfl, same.symm⟩
  · exact tracks.computes

theorem run_ok {vocabulary : Vocabulary Value} {number : List Char → Option Value} {text : List Char}
    {value : Value} (accepted : Calculator.run vocabulary number text = .ok value) :
    ∃ machine, (Scan.ofText vocabulary (Text.normalize text)).rest = [] ∧
      (Scan.ofText vocabulary (Text.normalize text)).tokens.foldlM (step vocabulary number) initial =
        .ok machine ∧ machine.finish = .ok value := by
  unfold Calculator.run at accepted
  dsimp only at accepted
  split at accepted
  · cases accepted
  · obtain ⟨machine, reached, ended⟩ := bind_ok.mp accepted
    split at ended
    · next complete => exact ⟨machine, List.isEmpty_iff.mp complete, reached, ended⟩
    · cases ended

/-- Between any two tokens of any run, accepted in the end or not, the stacks mirror the parentheses that
are open, and no check that is there for safety alone fails at the next token. -/
theorem open_parentheses_mirrored {vocabulary : Vocabulary Float} (reachable : vocabulary.Reachable)
    {expression : String} {before after : List Placed} {machine : Machine Float}
    (tokens : (Scan.ofText vocabulary (Text.normalize expression.toList)).tokens = before ++ after)
    (reached : before.foldlM (Machine.step vocabulary readNumber?) .initial = .ok machine) :
    Mirrors vocabulary (Opening.unclosed vocabulary (before.map (·.token))) machine ∧
      ∀ placed ∈ after.head?, Prepared vocabulary readNumber? machine placed := by
  have lawful := reachable.lawful
  obtain ⟨last, tracks⟩ := Tracks.initial.run lawful reached
  refine ⟨tracks.mirrors, ?_⟩
  intro placed isNext
  apply tracks.prepared lawful
  · intro text literal
    exact readNumber?_literal literal
  · apply Scan.resume_found
    change placed ∈ (Scan.ofText vocabulary (Text.normalize expression.toList)).tokens
    rw [tokens]
    exact List.mem_append_right _ (List.mem_of_mem_head? isNext)

theorem open_parentheses_mirrored_in_group :
    ∃ (before after : List Placed) (machine : Machine Float),
      (Scan.ofText (.standard 0) "max((1),2)".toList).tokens = before ++ after ∧
      before.map (·.token.text) = ["max".toList, ['('], ['('], ['1']] ∧
      before.foldlM (Machine.step (.standard 0) readNumber?) .initial = .ok machine ∧
      Mirrors (.standard 0) [.plain, .call "max".toList 0] machine ∧
      ∀ placed ∈ after.head?, Prepared (.standard 0) readNumber? machine placed := by
  have reachable : (Vocabulary.standard 0).Reachable := ⟨0, [], rfl⟩
  have split := (List.take_append_drop 4 (Scan.ofText (.standard 0) "max((1),2)".toList).tokens).symm
  have accepted : (((Scan.ofText (.standard 0) "max((1),2)".toList).tokens.take 4).foldlM
      (Machine.step (.standard 0) readNumber?) .initial).toOption.isSome = true := by
    decide +kernel
  cases reached : ((Scan.ofText (.standard 0) "max((1),2)".toList).tokens.take 4).foldlM
      (Machine.step (.standard 0) readNumber?) .initial with
  | error fault =>
      rw [reached] at accepted
      cases accepted
  | ok machine =>
      have mirrored := @open_parentheses_mirrored (.standard 0) reachable "max((1),2)" _ _ machine split
        reached
      exact ⟨_, _, machine, split, by decide +kernel, reached, mirrored⟩

end Machine

end Calculator
