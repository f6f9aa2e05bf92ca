import Calculator.Proofs.Nesting
import Calculator.Proofs.Normalizing
import Calculator.Proofs.Supply

/-!
Expressions within expressions. A run that succeeds on its own can be repeated above whatever the stacks
hold, right after a parenthesis or a comma: the machine does the same, with one frame more for every group
if there is a call around it. So whatever is an expression supplies its value in parentheses and as an
argument.
-/

namespace Calculator

namespace Frame

def raise (depth : Nat) : Frame → Frame
  | .call arity commas base => .call arity commas (base + depth)
  | .group => .group

end Frame

namespace Machine

variable {Value : Type} {vocabulary : Vocabulary Value} {number : List Char → Option Value}

theorem reduce_above {top : Waiting Value} {operands after : List Value}
    (reduced : top.reduce operands = .ok after) (below : List Value) :
    top.reduce (operands ++ below) = .ok (after ++ below) := by
  unfold Waiting.reduce at reduced ⊢
  split at reduced
  · cases reduced
  · next enough =>
      obtain ⟨value, applied, same⟩ := bind_ok.mp reduced
      cases same
      have fits : top.count ≤ operands.length := Nat.le_of_not_lt enough
      have more : ¬ (operands ++ below).length < top.count := by
        rw [List.length_append]
        omega
      rw [if_neg more, List.take_append_of_le_length fits, List.drop_append_of_le_length fits, applied]
      rfl

theorem settle_above {pending : List (Waiting Value)} {operands after : List Value}
    (settled : settle pending operands = .ok after) (below : List Value) :
    settle pending (operands ++ below) = .ok (after ++ below) := by
  induction pending generalizing operands with
  | nil =>
      cases settled
      rfl
  | cons top rest ih =>
      obtain ⟨middle, reduced, settled⟩ := settle_cons_ok.mp settled
      exact settle_cons_ok.mpr ⟨middle ++ below, reduce_above reduced below, ih settled⟩

def surround (frames : List Frame) : Nat → List Frame
  | 0 => frames
  | count + 1 => within (surround frames count)

/-- The outer machine does what the inner one does, above what was there before. -/
structure Repeats (base : Machine Value) (openings : List Opening) (inner outer : Machine Value) :
    Prop where
  operands : outer.operands = inner.operands ++ base.operands
  entries : outer.entries = inner.entries ++ base.entries
  frames : ∃ outside, openings.length = inner.frames.length + outside ∧
    outer.frames = inner.frames.map (Frame.raise base.operands.length) ++ surround base.frames outside
  previous : outer.previous = inner.previous ∨ inner.previous = none ∧ outer.previous = base.previous

/-- What follows the inner text may be the end or, in the outer one, no blank. -/
def Ahead (next following : Option Char) : Prop :=
  following = next ∨ next = none ∧ following ≠ some ' '

namespace Repeats

variable {base inner outer : Machine Value} {openings : List Opening}

theorem start (base : Machine Value) : Repeats base [] Machine.initial base :=
  ⟨rfl, rfl, ⟨0, rfl, rfl⟩, .inr ⟨rfl, rfl⟩⟩

theorem same_key (repeats : Repeats base openings inner outer) (ready : Ready vocabulary 0 base)
    {next following : Option Char} (ahead : Ahead next following) (word : Word) :
    word.key following outer.previous = word.key next inner.previous := by
  have follows : (following != some ' ') = (next != some ' ') := by
    rcases ahead with rfl | ⟨rfl, solid⟩
    · rfl
    · rw [bne_iff_ne.mpr solid]
      rfl
  have sign : word.isSignAt following outer.previous = word.isSignAt next inner.previous := by
    rcases repeats.previous with same | ⟨first, before⟩
    · rw [same]
      unfold Word.isSignAt
      rw [follows]
    · have starts : vocabulary.opensOperand none = true := rfl
      rw [first, before, Word.isSignAt_start ready.opens, Word.isSignAt_start starts, follows]
  rw [Word.key, Word.key, sign]

theorem same_opensCall (repeats : Repeats base openings inner outer) (ready : Ready vocabulary 0 base) :
    outer.opensCall vocabulary = inner.opensCall vocabulary := by
  rcases repeats.previous with same | ⟨first, before⟩
  · unfold opensCall
    rw [same]
  · have plain := ready.opens_group
    unfold opensCall at plain ⊢
    rw [before, plain, first]

theorem admits (repeats : Repeats base openings inner outer)
    (admitted : inner.admitsEmpty vocabulary = true) : outer.admitsEmpty vocabulary = true := by
  rcases repeats.previous with same | ⟨first, _⟩
  · simpa [admitsEmpty, same] using admitted
  · simp [admitsEmpty, first] at admitted

theorem entries_split (repeats : Repeats base openings inner outer) {pending : List (Waiting Value)}
    {rest : List (Entry Value)} (split : inner.entries = pending.map .waiting ++ rest) :
    outer.entries = pending.map .waiting ++ (rest ++ base.entries) := by
  rw [repeats.entries, split, List.append_assoc]

theorem settles (repeats : Repeats base openings inner outer) {pending : List (Waiting Value)}
    {operands : List Value} (settled : settle pending inner.operands = .ok operands) :
    settle pending outer.operands = .ok (operands ++ base.operands) := by
  rw [repeats.operands]
  exact settle_above settled base.operands

theorem frames_call (repeats : Repeats base openings inner outer) {arity : Arity} {commas depth : Nat}
    {others : List Frame} (frames : inner.frames = .call arity commas depth :: others) :
    ∃ outside, openings.length = others.length + outside + 1 ∧
      outer.frames = .call arity commas (depth + base.operands.length) ::
        (others.map (Frame.raise base.operands.length) ++ surround base.frames outside) := by
  obtain ⟨outside, count, same⟩ := repeats.frames
  refine ⟨outside, ?_, ?_⟩
  · rw [count, frames, List.length_cons]
    omega
  · rw [same, frames]
    rfl

/-- One more group: the inner machine has a frame for it only within a call, the outer one also if the
text is within a call. -/
theorem frames_open (repeats : Repeats base openings inner outer) (opening : Opening) :
    ∃ outside, (opening :: openings).length = (within inner.frames).length + outside ∧
      within outer.frames = (within inner.frames).map (Frame.raise base.operands.length) ++
        surround base.frames outside := by
  obtain ⟨outside, count, same⟩ := repeats.frames
  cases frames : inner.frames with
  | nil =>
      rw [frames] at count same
      refine ⟨outside + 1, ?_, ?_⟩
      · rw [List.length_cons, count]
        rfl
      · rw [same]
        rfl
  | cons frame others =>
      rw [frames] at count same
      refine ⟨outside, ?_, ?_⟩
      · simp only [within, List.isEmpty_cons, Bool.false_eq_true, if_false, List.length_cons] at count ⊢
        omega
      · simp [same, within, Frame.raise]

/-- One group less, if the innermost parenthesis is a plain one. -/
theorem frames_close {others : List Opening}
    (repeats : Repeats base (.plain :: others) inner outer)
    (noCall : ∀ arity commas depth rest, inner.frames ≠ .call arity commas depth :: rest) :
    (∀ arity commas depth rest, outer.frames ≠ .call arity commas depth :: rest) ∧
      ∃ outside, others.length = (inner.frames.drop 1).length + outside ∧
        outer.frames.drop 1 = (inner.frames.drop 1).map (Frame.raise base.operands.length) ++
          surround base.frames outside := by
  obtain ⟨outside, count, same⟩ := repeats.frames
  cases frames : inner.frames with
  | nil =>
      rw [frames] at count same
      cases outside with
      | zero => simp at count
      | succ outside =>
          rw [same]
          exact ⟨within_no_call _, outside, by simpa using count, within_drop _⟩
  | cons frame rest =>
      rw [frames] at count same
      cases frame with
      | call arity commas depth => exact absurd frames (noCall arity commas depth rest)
      | group =>
          rw [same]
          refine ⟨?_, outside, ?_, rfl⟩
          · intro arity commas depth remaining call
            cases call
          · simp only [List.length_cons, List.drop_one, List.tail_cons] at count ⊢
            omega

/-- What one token does to the inner machine it does to the outer one. -/
theorem step (lawful : vocabulary.Lawful) (ready : Ready vocabulary 0 base)
    {before : Option Token} (tracks : Tracks vocabulary before openings inner)
    (repeats : Repeats base openings inner outer) {token : Token} {next following : Option Char}
    {after : Machine Value} (moves : Moves vocabulary number inner token next after)
    (ahead : Ahead next following) (sees : token = .word ['('] → following = next) :
    ∃ outerAfter, Moves vocabulary number outer token following outerAfter ∧
      Repeats base (Opening.read vocabulary before openings token) after outerAfter := by
  cases moves with
  | @number text next value reading =>
      refine ⟨outer.push value .operand, .number reading, ?_, repeats.entries, repeats.frames, .inl rfl⟩
      simp [push, repeats.operands]
  | @constant word next operator value known constant applied =>
      have noMark := lawful.function_no_mark known (operator.constant_function constant)
      rw [Opening.read_other _ _ noMark]
      refine ⟨outer.push value (.constant word), .constant known constant applied, ?_, repeats.entries,
        repeats.frames, .inl rfl⟩
      simp [push, repeats.operands]
  | @comma next arity commas depth others pending rest operands frames admitted entries settled =>
      obtain ⟨word, operator, outerOpenings, rfl, _⟩ := tracks.mirrors.call_frame frames
      obtain ⟨outside, count, same⟩ := repeats.frames_call frames
      refine ⟨_, .comma same admitted (repeats.entries_split entries) (repeats.settles settled), rfl, rfl,
        ⟨outside, ?_, rfl⟩, .inl rfl⟩
      simp only [Opening.read_comma, List.length_cons] at count ⊢
      omega
  | @openCall next top rest opens entries =>
      have outerOpens := (repeats.same_opensCall ready).trans opens
      have outerEntries : outer.entries = .waiting top :: (rest ++ base.entries) := by
        rw [repeats.entries, entries]
        rfl
      obtain ⟨outside, count, same⟩ := repeats.frames
      refine ⟨_, .openCall outerOpens outerEntries, repeats.operands, rfl, ⟨outside, ?_, ?_⟩, .inl rfl⟩
      · rw [Opening.read_opening, List.length_cons, count, List.length_cons]
        omega
      · simp [same, repeats.operands, Frame.raise]
  | openGroup plain filled =>
      have outerPlain := (repeats.same_opensCall ready).trans plain
      have outerFilled : following = some ')' → outer.admitsEmpty vocabulary = true := by
        intro closing
        apply repeats.admits
        apply filled
        rw [← sees rfl, closing]
      refine ⟨_, .openGroup outerPlain outerFilled, repeats.operands, ?_, repeats.frames_open _, .inl rfl⟩
      rw [repeats.entries]
      rfl
  | @closeCall next arity commas depth others pending between top rest operands middle results frames
      entries first second supplied expected applied =>
      obtain ⟨word, operator, outerOpenings, rfl, _⟩ := tracks.mirrors.call_frame frames
      obtain ⟨outside, count, same⟩ := repeats.frames_call frames
      have outerEntries : outer.entries = pending.map .waiting ++
          .opening :: (between.map .waiting ++ .opening :: .waiting top :: (rest ++ base.entries)) := by
        simpa using repeats.entries_split entries
      -- The operands below the text lie below the call, too, and cancel out of its count.
      have outerSupplied : (operands ++ base.operands).length - (depth + base.operands.length) =
          commas + 1 := by
        rw [List.length_append]
        omega
      refine ⟨_, .closeCall same outerEntries (repeats.settles first) (settle_above second base.operands)
        outerSupplied expected (reduce_above applied base.operands), rfl, rfl, ⟨outside, ?_, rfl⟩,
        .inl rfl⟩
      simp only [Opening.read_closing, List.length_cons] at count ⊢
      omega
  | closeGroup noCall entries settled =>
      obtain ⟨outerOpenings, rfl, _, _⟩ := tracks.mirrors.plain_inside noCall entries
      obtain ⟨outerNoCall, frames⟩ := repeats.frames_close noCall
      exact ⟨_, .closeGroup outerNoCall (repeats.entries_split entries) (repeats.settles settled), rfl,
        rfl, frames, .inl rfl⟩
  | @operator word next operator pending rest operands known noMark noConstant entries settled
      applied stops =>
      have key := repeats.same_key ready ahead word
      -- Nothing right below the text reaches any operator, so the outer machine stops there, too.
      have outerStops : Stops operator (rest ++ base.entries) := by
        cases rest with
        | nil => exact ready.stops (Nat.zero_le _)
        | cons entry others =>
            intro top remaining same
            cases same
            exact stops top others rfl
      have pushed : Moves vocabulary number outer (.word word) following _ :=
        .operator (key.symm ▸ known) noMark noConstant (repeats.entries_split entries)
          (repeats.settles settled) applied outerStops
      rw [key] at pushed
      rw [Opening.read_other _ _ noMark]
      exact ⟨_, pushed, rfl, rfl, repeats.frames, .inl rfl⟩

/-- What the inner machine does with a text, the outer one does too; only what follows may differ. -/
theorem run (lawful : vocabulary.Lawful) (ready : Ready vocabulary 0 base) {before : Option Token}
    (tracks : Tracks vocabulary before openings inner) (repeats : Repeats base openings inner outer)
    {tokens : List Token} (legible : Token.Legible vocabulary tokens none) {index : Nat}
    {final : Machine Value}
    (reached : follow vocabulary number index tokens none inner = .ok final)
    (closed : .opening ∉ final.entries) {next : Option Char} (solid : next ≠ some ' ')
    (later : Nat) :
    ∃ outerFinal last openings, follow vocabulary number later tokens next outer = .ok outerFinal ∧
      Tracks vocabulary last openings final ∧ Repeats base openings final outerFinal := by
  -- Both machines and the openings move on together, and only the last token sees what follows.
  induction tokens generalizing before openings inner outer index later with
  | nil =>
      cases reached
      exact ⟨outer, before, openings, rfl, tracks, repeats⟩
  | cons token rest ih =>
      rw [follow_cons] at reached
      obtain ⟨middle, stepped, reached⟩ := bind_ok.mp reached
      have moves := (step_ok lawful).mp stepped
      have tracked := tracks.step lawful moves
      have ahead : Ahead ((Token.spelling rest).head?.or none) ((Token.spelling rest).head?.or next) := by
        cases (Token.spelling rest).head? with
        | none => exact .inr ⟨rfl, solid⟩
        | some char => exact .inl rfl
      -- A parenthesis that nothing follows would still be open at the end.
      have sees : token = .word ['('] →
          (Token.spelling rest).head?.or next = (Token.spelling rest).head?.or none := by
        rintro rfl
        cases rest with
        | nil =>
            cases reached
            have none := tracked.mirrors.entries.none_open closed
            rw [Opening.read_opening] at none
            cases none
        | cons second others =>
            have emits := legible.2.1
            cases text : second.text with
            | nil =>
                rw [text] at emits
                cases emits
            | cons char more => simp [text]
      obtain ⟨outerMiddle, outerMoves, related⟩ := repeats.step lawful ready tracks moves ahead sees
      rw [follow_moves lawful later outerMoves]
      exact ih tracked related legible.2 reached _

end Repeats

/-- An accepted text supplies its value wherever a mark stands before and behind it. -/
theorem accepted_supplies (lawful : vocabulary.Lawful) {tokens : List Token} {value : Value}
    (legible : Token.Legible vocabulary tokens none) {final : Machine Value}
    (reached : follow vocabulary number 0 tokens none Machine.initial = .ok final)
    (finished : final.finish = .ok value) : Supplies vocabulary number 0 0 tokens (.ok [value]) := by
  intro index next machine solid ready
  obtain ⟨pending, entries, settled⟩ := finish_ok.mp finished
  have closed : .opening ∉ final.entries := by simp [entries]
  obtain ⟨outer, last, openings, followed, tracks, repeats⟩ :=
    (Repeats.start machine).run lawful ready Tracks.initial legible reached closed solid index
  have noneOpen := tracks.mirrors.entries.none_open closed
  obtain ⟨outside, count, frames⟩ := repeats.frames
  rw [noneOpen, List.length_nil] at count
  -- Nothing is open at the end, so neither machine has a frame more than before.
  have noFrames : final.frames = [] := List.length_eq_zero_iff.mp (by omega)
  have noneOutside : outside = 0 := by omega
  refine ⟨outer, followed, rfl, ⟨pending, ?_, ?_, by simp⟩, ?_, by simp⟩
  · rw [repeats.entries, entries]
  · rw [repeats.operands, settle_above settled]
    rfl
  · rw [frames, noFrames, noneOutside]
    rfl

theorem accepted_starts (lawful : vocabulary.Lawful) {tokens : List Token} {value : Value}
    (legible : Token.Legible vocabulary tokens none) {final : Machine Value}
    (reached : follow vocabulary number 0 tokens none Machine.initial = .ok final)
    (finished : final.finish = .ok value) :
    ∃ first, (Token.spelling tokens).head? = some first ∧ first ≠ ')' := by
  cases tokens with
  | nil =>
      cases reached
      cases finished
  | cons token rest =>
      rw [follow_cons] at reached
      obtain ⟨middle, stepped, _⟩ := bind_ok.mp reached
      have emits := legible.1
      cases text : token.text with
      | nil =>
          rw [text] at emits
          cases emits
      | cons char more =>
          refine ⟨char, by simp [text], ?_⟩
          rintro rfl
          rw [text] at emits
          have same := (lawful.emits_from_symbol (by simp [Word.symbols]) emits).2
          rw [same, step_mark lawful _ (by simp [Word.marks])] at stepped
          cases stepped

end Machine

structure Accepted {Value : Type} (vocabulary : Vocabulary Value)
    (number : List Char → Option Value) (text : List Char) (value : Value) (tokens : List Token) :
    Prop where
  spelled : Text.normalize text = Token.spelling tokens
  legible : Token.Legible vocabulary tokens none
  supplies : Machine.Supplies vocabulary number 0 0 tokens (.ok [value])
  starts : ∃ first, (Token.spelling tokens).head? = some first ∧ first ≠ ')'

theorem accepted_of_run {Value : Type} {vocabulary : Vocabulary Value}
    {number : List Char → Option Value} (lawful : vocabulary.Lawful) {text : List Char} {value : Value}
    (accepted : run vocabulary number text = .ok value) :
    ∃ tokens, Accepted vocabulary number text value tokens := by
  obtain ⟨final, complete, reached, finished⟩ := Machine.run_ok accepted
  obtain ⟨tokens, spelled, legible, placed⟩ := Scan.legible_of_resume complete
  have followed : Machine.follow vocabulary number 0 tokens none Machine.initial = .ok final := by
    rw [Machine.follow, ← placed]
    exact reached
  exact ⟨tokens, spelled, legible, Machine.accepted_supplies lawful legible followed finished,
    Machine.accepted_starts lawful legible followed finished⟩

namespace Text

/-- A symbol keeps the blanks on its two sides apart. -/
theorem normalize_symbol {char : Char} (symbol : [char] ∈ Word.symbols) (first rest : List Char) :
    normalize (first ++ char :: rest) = normalize first ++ char :: normalize rest := by
  obtain ⟨_, solid, noNumber, _⟩ := Word.symbol_char symbol
  -- Whether blanks stand before changes within the first text, so both cases go along.
  have squeezed : ∀ gap, squeeze gap (first ++ char :: rest) =
      squeeze gap first ++ char :: squeeze false rest := by
    intro gap
    induction first generalizing gap with
    | nil => simp [squeeze, solid, noNumber]
    | cons other more ih =>
        simp only [List.cons_append, squeeze, ih]
        split
        · rfl
        · split <;> rfl
  exact squeezed false

end Text

section

variable {Value : Type} {vocabulary : Vocabulary Value} {number : List Char → Option Value}

namespace Accepted

variable {text : List Char} {value : Value} {tokens : List Token}

theorem group_text (accepted : Accepted vocabulary number text value tokens) :
    Text.normalize ('(' :: (text ++ [')'])) =
      Token.spelling (.word ['('] :: tokens ++ [.word [')']]) := by
  have opening := @Text.normalize_symbol '(' (by simp [Word.symbols]) [] (text ++ [')'])
  have closing := @Text.normalize_symbol ')' (by simp [Word.symbols]) text []
  rw [List.nil_append] at opening
  rw [opening, closing, accepted.spelled]
  simp [Token.text, Text.normalize, Text.squeeze]

theorem group_legible (lawful : vocabulary.Lawful)
    (accepted : Accepted vocabulary number text value tokens) (next : Option Char) :
    Token.Legible vocabulary (.word ['('] :: tokens ++ [.word [')']]) next :=
  lawful.legible_between (by simp [Word.symbols]) (by simp [Word.symbols]) accepted.legible trivial

theorem group (lawful : vocabulary.Lawful)
    (accepted : Accepted vocabulary number text value tokens) (level bound : Nat) :
    Machine.Supplies vocabulary number level bound (.word ['('] :: tokens ++ [.word [')']])
      (.ok [value]) := by
  obtain ⟨first, head, noClosing⟩ := accepted.starts
  exact Machine.supplies_group lawful accepted.supplies head noClosing level bound

theorem run_group (lawful : vocabulary.Lawful)
    (accepted : Accepted vocabulary number text value tokens) :
    run vocabulary number ('(' :: (text ++ [')'])) = .ok value := by
  have evaluated := (accepted.group lawful 0 0).run_text (accepted.group_legible lawful none)
    (by simp [Token.text]) accepted.group_text
  obtain ⟨result, same, evaluated⟩ := evaluated
  cases same
  exact evaluated

end Accepted

theorem Vocabulary.Lawful.infix_operator (lawful : vocabulary.Lawful) {char : Char}
    (infixed : [char] ∈ [['+'], ['-'], ['*'], ['/'], ['%'], ['^']]) :
    [char] ∈ Word.symbols ∧ [char] ∉ Word.marks ∧ ∃ precedence associativity compute,
      vocabulary.get? [char] = some (.arithmetic 2 precedence associativity compute) := by
  rcases Word.infix_cases infixed with sum | product | power
  · obtain ⟨symbol, noMark⟩ := Word.sum_symbol _ sum
    obtain ⟨compute, known⟩ := lawful.sum _ sum
    exact ⟨symbol, noMark, _, _, compute, known⟩
  · obtain ⟨symbol, noMark⟩ := Word.product_symbol _ product
    obtain ⟨compute, known⟩ := lawful.product _ product
    exact ⟨symbol, noMark, _, _, compute, known⟩
  · obtain ⟨compute, known⟩ := lawful.power
    rw [power]
    exact ⟨by simp [Word.symbols], by simp [Word.marks], _, _, compute, known⟩

theorem Vocabulary.Computes.infixed {symbol : Char} {compute : Float → Float → Float}
    (computes : Vocabulary.Computes symbol compute) :
    [symbol] ∈ [['+'], ['-'], ['*'], ['/'], ['%'], ['^']] := by
  cases computes <;> decide

theorem run_infix (lawful : vocabulary.Lawful) {first second : List Char} {left right : Value}
    {leftTokens rightTokens : List Token}
    (leftAccepted : Accepted vocabulary number first left leftTokens)
    (rightAccepted : Accepted vocabulary number second right rightTokens) {char : Char}
    (infixed : [char] ∈ [['+'], ['-'], ['*'], ['/'], ['%'], ['^']]) :
    ∃ operator value, vocabulary.get? [char] = some operator ∧
      operator.apply [left, right] = .ok value ∧
        run vocabulary number ('(' :: (first ++ [')']) ++ char :: '(' :: (second ++ [')'])) =
          .ok value := by
  obtain ⟨symbol, noMark, precedence, associativity, compute, known⟩ := lawful.infix_operator infixed
  refine ⟨_, compute [left, right], known, rfl, ?_⟩
  have supplies := Machine.supplies_infix lawful symbol noMark known
    (leftAccepted.group lawful 0 (precedence + 1)) (rightAccepted.group lawful _ 0) (Nat.le_refl 0)
    (Nat.zero_le _) (Nat.lt_succ_self _) (Nat.le_refl _) (Nat.le_refl 0) (Nat.zero_le _)
  have legible : Token.Legible vocabulary ((.word ['('] :: leftTokens ++ [.word [')']]) ++
      .word [char] :: (.word ['('] :: rightTokens ++ [.word [')']])) none :=
    Token.legible_append.mpr ⟨leftAccepted.group_legible lawful _,
      lawful.legible_symbol symbol (rightAccepted.group_legible lawful none)⟩
  have normal := Text.normalize_symbol symbol ('(' :: (first ++ [')'])) ('(' :: (second ++ [')']))
  rw [leftAccepted.group_text, rightAccepted.group_text] at normal
  have evaluated := supplies.run_text legible (by simp [Token.text])
    (normal.trans (by simp [Token.text]))
  obtain ⟨result, same, evaluated⟩ := evaluated
  cases same
  exact evaluated

structure Listed (vocabulary : Vocabulary Value) (number : List Char → Option Value)
    (text : List Char) (values : List Value) (tokens : List Token) : Prop where
  spelled : Text.normalize text = Token.spelling tokens
  legible : Token.Legible vocabulary tokens none
  supplies : Machine.SuppliesArguments vocabulary number values.length tokens (.ok values)
  nonempty : 0 < values.length

theorem Accepted.listed {text : List Char} {value : Value} {tokens : List Token}
    (accepted : Accepted vocabulary number text value tokens) :
    Listed vocabulary number text [value] tokens :=
  ⟨accepted.spelled, accepted.legible, Machine.arguments_one accepted.supplies, Nat.one_pos⟩

namespace Listed

variable {text : List Char} {values : List Value} {tokens : List Token}

theorem join (lawful : vocabulary.Lawful) (listed : Listed vocabulary number text values tokens)
    {next : List Char} {more : List Value} {others : List Token}
    (further : Listed vocabulary number next more others) :
    Listed vocabulary number (text ++ ',' :: next) (values ++ more)
      (tokens ++ .word [','] :: others) := by
  have symbol : [','] ∈ Word.symbols := by simp [Word.symbols]
  constructor
  · rw [Text.normalize_symbol symbol, listed.spelled, further.spelled]
    simp [Token.text]
  · exact Token.legible_append.mpr ⟨lawful.legible_before_symbol symbol listed.legible,
      lawful.legible_symbol symbol further.legible⟩
  · rw [List.length_append]
    exact Machine.arguments_join lawful listed.nonempty further.nonempty listed.supplies
      further.supplies
  · rw [List.length_append]
    exact Nat.add_pos_left listed.nonempty _

theorem of_runs (lawful : vocabulary.Lawful) {pairs : List (List Char × Value)}
    (nonempty : pairs ≠ [])
    (accepted : ∀ pair ∈ pairs, run vocabulary number pair.1 = .ok pair.2) :
    ∃ tokens, Listed vocabulary number ([','].intercalate (pairs.map (·.1))) (pairs.map (·.2))
      tokens := by
  induction pairs with
  | nil => exact absurd rfl nonempty
  | cons pair rest ih =>
      obtain ⟨tokens, first⟩ := accepted_of_run lawful (accepted pair (by simp))
      cases rest with
      | nil => exact ⟨tokens, by simpa using first.listed⟩
      | cons second others =>
          obtain ⟨more, further⟩ :=
            ih (by simp) fun later member => accepted later (by simp [member])
          exact ⟨_, by simpa [List.intercalate_cons_cons] using first.listed.join lawful further⟩

theorem call_text (listed : Listed vocabulary number text values tokens) {word : Word}
    (solid : ∀ char ∈ word, Text.isBlank char = false) :
    Text.normalize (word ++ '(' :: (text ++ [')'])) =
      Token.spelling (.word word :: .word ['('] :: tokens ++ [.word [')']]) := by
  rw [Text.normalize_symbol (by simp [Word.symbols]), Text.normalize_symbol (by simp [Word.symbols]),
    Text.normalize_solid solid, listed.spelled]
  simp [Token.text, Text.normalize, Text.squeeze]

theorem call_legible (lawful : vocabulary.Lawful)
    (listed : Listed vocabulary number text values tokens) {word : Word}
    (function : vocabulary.isFunction word = true) :
    Token.Legible vocabulary (.word word :: .word ['('] :: tokens ++ [.word [')']]) none :=
  lawful.legible_function function (lawful.legible_between (by simp [Word.symbols])
    (by simp [Word.symbols]) listed.legible trivial)

theorem run_call (lawful : vocabulary.Lawful)
    (listed : Listed vocabulary number text values tokens) {word : Word}
    (function : vocabulary.isFunction word = true) {results : Yield Value}
    (supplies : Machine.Supplies vocabulary number 0 0
      (.word word :: .word ['('] :: tokens ++ [.word [')']]) results) :
    TurnsOut (run vocabulary number (word ++ '(' :: (text ++ [')']))) results := by
  apply supplies.run_text (listed.call_legible lawful function) (by simp [Token.text])
  apply listed.call_text
  intro char member
  have name := Word.functionName_chars (lawful.function_callable function)
  exact Word.alphanum_not_blank (name.1 char member)

theorem separator_append {front back : List (List Char)} (some : front ≠ []) (more : back ≠ []) :
    [','].intercalate (front ++ back) = [','].intercalate front ++ ',' :: [','].intercalate back := by
  induction front with
  | nil => exact absurd rfl some
  | cons first rest ih =>
      cases rest with
      | nil =>
          cases back with
          | nil => exact absurd rfl more
          | cons second others => simp [List.intercalate_cons_cons]
      | cons second others =>
          have later := ih (by simp)
          rw [List.cons_append] at later
          rw [List.cons_append, List.cons_append, List.intercalate_cons_cons, later,
            List.intercalate_cons_cons]
          simp

/-- What a call of accepted texts comes to: as many arguments as the function admits, fewer, or more. -/
theorem call_outcomes (lawful : vocabulary.Lawful) {word : Word} {operator : Operator Value}
    (known : vocabulary.get? word = some operator) (function : operator.isFunction = true)
    (takesArguments : operator.isConstant = false) {pairs : List (List Char × Value)}
    (nonempty : pairs ≠ [])
    (accepted : ∀ pair ∈ pairs, run vocabulary number pair.1 = .ok pair.2) :
    let call := run vocabulary number (word ++ '(' :: ([','].intercalate (pairs.map (·.1)) ++ [')']))
    (operator.arity = .variadic ∨ operator.arity = .fixed pairs.length →
      TurnsOut call (operator.yield (.ok (pairs.map (·.2))))) ∧
    (∀ expected, operator.arity = .fixed expected → pairs.length < expected →
      TurnsOut call (.error (.of .invalidExpression))) ∧
    (∀ expected, operator.arity = .fixed expected → expected < pairs.length →
      TurnsOut call (.error (.of .misplacedComma))) := by
  have isFunction : vocabulary.isFunction word = true := by
    simp [Vocabulary.isFunction, known, function]
  obtain ⟨tokens, listed⟩ := of_runs lawful nonempty accepted
  have supplies := listed.supplies
  rw [List.length_map] at supplies
  refine ⟨?_, ?_, ?_⟩
  · intro fits
    have count : 0 < pairs.length := List.length_pos_iff.mpr nonempty
    have admitted : operator.arity.admits pairs.length := by
      rcases fits with arity | arity
      · rw [arity]
        exact count
      · rw [arity]
        rfl
    apply listed.run_call lawful isFunction
    exact Machine.supplies_call lawful known function takesArguments count admitted supplies
      (Nat.zero_le 4) 0
  · intro expected arity short
    apply listed.run_call lawful isFunction
    exact Machine.supplies_short_call lawful known function takesArguments arity short supplies
      (Nat.zero_le 4) 0
  · intro expected arity crowded
    have some : 0 < expected := by
      rcases Nat.eq_zero_or_pos expected with rfl | positive
      · simp [Operator.isConstant, function, arity] at takesArguments
      · exact positive
    -- The arguments that fit make a list of their own, and the comma behind it is the one that fails.
    have frontSome : pairs.take expected ≠ [] := by
      simp only [ne_eq, List.take_eq_nil_iff, nonempty, or_false]
      omega
    have backSome : pairs.drop expected ≠ [] := by
      simp only [ne_eq, List.drop_eq_nil_iff]
      omega
    obtain ⟨first, front⟩ :=
      of_runs lawful frontSome fun pair member => accepted pair (List.mem_of_mem_take member)
    obtain ⟨second, back⟩ :=
      of_runs lawful backSome fun pair member => accepted pair (List.mem_of_mem_drop member)
    have joined := front.join lawful back
    have frontSupplies := front.supplies
    rw [List.length_map, List.length_take, Nat.min_eq_left (Nat.le_of_lt crowded)] at frontSupplies
    have texts : pairs.map (·.1) = (pairs.take expected).map (·.1) ++ (pairs.drop expected).map (·.1) := by
      rw [← List.map_append, List.take_append_drop]
    rw [texts, separator_append (by simpa using frontSome) (by simpa using backSome)]
    apply joined.run_call lawful isFunction
    have crowd := @Machine.supplies_crowded_call Value vocabulary number lawful word operator expected
      first (second ++ [.word [')']]) _ known function takesArguments arity some frontSupplies 0
      (Nat.zero_le 4) 0
    simpa using crowd

end Listed

end

/-- Accepted expressions combine: in parentheses they keep their value, operators and functions apply to
the values, and a call with too few or too many of them fails for that reason. -/
theorem evaluation_composes {vocabulary : Vocabulary Float} (reachable : vocabulary.Reachable) :
    (∀ {text : String} {value : Float}, evaluateExact vocabulary text = .ok value →
      evaluateExact vocabulary ("(" ++ text ++ ")") = .ok value) ∧
    (∀ {first second : String} {left right : Float}, evaluateExact vocabulary first = .ok left →
      evaluateExact vocabulary second = .ok right →
        ∀ {symbol : Char} {compute : Float → Float → Float}, Vocabulary.Computes symbol compute →
          evaluateExact vocabulary ("(" ++ first ++ ")" ++ String.ofList [symbol] ++ "(" ++ second ++ ")") =
            .ok (compute left right)) ∧
    (∀ {name : String} {operator : Operator Float} {body : Body Float} (arguments : List (String × Float)),
      vocabulary.get? name.toList = some operator → operator.action = .function body →
        operator.arity ≠ .fixed 0 → arguments ≠ [] →
          (∀ argument ∈ arguments, evaluateExact vocabulary argument.1 = .ok argument.2) →
      let call := evaluateExact vocabulary
        (name ++ "(" ++ ",".intercalate (arguments.map (·.1)) ++ ")")
      (operator.arity = .variadic ∨ operator.arity = .fixed arguments.length →
        TurnsOut call ((body (arguments.map (·.2))).map fun value => [value])) ∧
      (∀ count, operator.arity = .fixed count → arguments.length < count →
        TurnsOut call (.error (.of .invalidExpression))) ∧
      (∀ count, operator.arity = .fixed count → count < arguments.length →
        TurnsOut call (.error (.of .misplacedComma)))) := by
  have lawful := reachable.lawful
  refine ⟨?_, ?_, ?_⟩
  · intro text value accepted
    obtain ⟨tokens, known⟩ := accepted_of_run lawful accepted
    have evaluated := known.run_group lawful
    simpa [evaluateExact] using evaluated
  · intro first second left right firstAccepted secondAccepted symbol compute computes
    obtain ⟨leftTokens, leftKnown⟩ := accepted_of_run lawful firstAccepted
    obtain ⟨rightTokens, rightKnown⟩ := accepted_of_run lawful secondAccepted
    obtain ⟨operator, value, found, applied, evaluated⟩ :=
      run_infix lawful leftKnown rightKnown computes.infixed
    obtain ⟨precedence, associativity, kept⟩ := reachable.computes computes
    obtain rfl := Option.some.inj (found.symm.trans kept)
    have computed : compute left right = value := Except.ok.inj applied
    rw [computed]
    simpa [evaluateExact] using evaluated
  · intro name operator body arguments known action takesArguments nonempty accepted
    let pairs := arguments.map fun argument => (argument.1.toList, argument.2)
    have somePairs : pairs ≠ [] := by simpa [pairs] using nonempty
    have runs : ∀ pair ∈ pairs, run vocabulary readNumber? pair.1 = .ok pair.2 := by
      intro pair member
      obtain ⟨argument, among, rfl⟩ := List.mem_map.mp member
      exact accepted argument among
    have function : operator.isFunction = true := by rw [Operator.isFunction, action]
    have noConstant : operator.isConstant = false := by simp [Operator.isConstant, takesArguments]
    have outcomes := Listed.call_outcomes lawful known function noConstant somePairs runs
    have applied : operator.apply = body := by
      funext values
      rw [Operator.apply, action]
    rw [Operator.yield_apply, applied] at outcomes
    simpa [evaluateExact, pairs, String.toList_intercalate, Function.comp_def] using outcomes

/-- Which operand comes first, and which argument a function answers with, make a difference here. -/
theorem evaluation_composes_digits :
    evaluateExact (.standard 0) "(1)" = .ok 1 ∧
    evaluateExact (.standard 0) "(7)-(4)" = .ok (7 - 4) ∧ (7 - 4 : Float) = 3 ∧
    evaluateExact (.standard 0) "(7)%(4)" = .ok (remainder 7 4) ∧
    TurnsOut (evaluateExact (.standard 0) "max(7,4)") (.ok [7]) ∧
    TurnsOut (evaluateExact (.standard 0) "mean(7,1,4)") (.ok [4]) ∧
    TurnsOut (evaluateExact (.standard 0) "max(1)") (.error (.of .invalidExpression)) ∧
    TurnsOut (evaluateExact (.standard 0) "max(1,7,4)") (.error (.of .misplacedComma)) := by
  have reachable : (Vocabulary.standard 0).Reachable := ⟨0, [], rfl⟩
  obtain ⟨groups, operations, calls⟩ := evaluation_composes reachable
  have one : evaluateExact (.standard 0) "1" = .ok 1 := rfl
  have four : evaluateExact (.standard 0) "4" = .ok 4 := rfl
  have seven : evaluateExact (.standard 0) "7" = .ok 7 := rfl
  have max : (Vocabulary.standard 0).get? "max".toList = some (Predefined.dyadic larger) := rfl
  have mean : (Vocabulary.standard 0).get? "mean".toList =
      some (.function .variadic fun numbers => .ok (Calculator.mean numbers)) := rfl
  have pair := calls [("7", 7), ("4", 4)] max rfl (by decide) (by simp) (by simp [seven, four])
  have variadic := calls [("7", 7), ("1", 1), ("4", 4)] mean rfl (by decide) (by simp)
    (by simp [seven, one, four])
  have single := calls [("1", 1)] max rfl (by decide) (by simp) (by simp [one])
  have triple := calls [("1", 1), ("7", 7), ("4", 4)] max rfl (by decide) (by simp)
    (by simp [seven, one, four])
  have largest : larger 7 4 = 7 := by decide +kernel
  have middle : Calculator.mean [7, 1, 4] = 4 := by decide +kernel
  have greater : TurnsOut (evaluateExact (.standard 0) "max(7,4)") (.ok [larger 7 4]) := pair.1 (.inr rfl)
  have average : TurnsOut (evaluateExact (.standard 0) "mean(7,1,4)") (.ok [Calculator.mean [7, 1, 4]]) :=
    variadic.1 (.inl rfl)
  rw [largest] at greater
  rw [middle] at average
  have grouped := groups one
  have difference := operations seven four .difference
  have remainder := operations seven four .remainder
  have short := single.2.1 2 rfl (by decide)
  have crowded := triple.2.2 2 rfl (by decide)
  exact ⟨grouped, difference, by decide +kernel, remainder, greater, average, short, crowded⟩

end Calculator
