import Calculator.Proofs.Applications
import Calculator.Proofs.Composition

/-!
Arguments of a call. Only the number of operands is checked when a call is closed, so that one argument may
leave two of them where another one leaves none. But where each argument leaves one value when it is read on its
own, the function is applied to just these values, and the operands below the call stay as they are.
-/

namespace Calculator

def Token.depth (depth : Nat) (token : Token) : Nat :=
  if token = .word ['('] then depth + 1
  else if token = .word [')'] then depth - 1
  else depth

/-- The parts of an argument list between the commas that are in no further parentheses. -/
def Placed.segments : Nat → List Placed → List (List Placed)
  | _, [] => [[]]
  | depth, placed :: rest =>
      if depth = 0 ∧ placed.token = .word [','] then [] :: segments 0 rest
      else match segments (placed.token.depth depth) rest with
        | [] => [[placed]]
        | first :: others => (placed :: first) :: others

inductive Segmented : List (List Placed) → List Placed → Prop where
  | last (segment : List Placed) : Segmented [segment] segment
  | more {segment rest : List Placed} {comma : Placed} {others : List (List Placed)}
      (isComma : comma.token = .word [',']) (later : Segmented others rest) :
      Segmented (segment :: others) (segment ++ comma :: rest)

theorem Segmented.cons {segments : List (List Placed)} {tokens : List Placed}
    (segmented : Segmented segments tokens) (placed : Placed) :
    ∃ first others, segments = first :: others ∧
      Segmented ((placed :: first) :: others) (placed :: tokens) := by
  cases segmented with
  | last => exact ⟨tokens, [], rfl, .last _⟩
  | @more segment rest comma others isComma later =>
      exact ⟨segment, others, rfl, @Segmented.more (placed :: segment) rest comma others isComma later⟩

theorem Placed.segments_cut (depth : Nat) (tokens : List Placed) :
    Segmented (segments depth tokens) tokens := by
  induction tokens generalizing depth with
  | nil => exact .last []
  | cons placed rest ih =>
      unfold segments
      split
      · next separates => exact @Segmented.more [] rest placed _ separates.2 (ih 0)
      · rcases (ih (placed.token.depth depth)).cons placed with ⟨first, others, same, segmented⟩
        rw [same]
        exact segmented

namespace Machine

variable {Value : Type} {vocabulary : Vocabulary Value} {number : List Char → Option Value}

def behind (mark : Word) : Machine Value :=
  ⟨[], [], [], some (.operator mark)⟩

def alone (vocabulary : Vocabulary Value) (number : List Char → Option Value) (segment : List Placed) :
    Except Fault Value := do
  let machine ← segment.foldlM (step vocabulary number) (behind ['('])
  machine.finish

theorem tracks_behind (lawful : vocabulary.Lawful) {mark : Word} (isMark : mark ∈ Word.marks) :
    Tracks vocabulary (some (.word mark)) [] (behind mark : Machine Value) := by
  apply Tracks.after_mark lawful isMark ⟨.empty, .nil⟩ rfl
  intro top member
  cases member

/-- Behind a comma a token does what it does behind an opening parenthesis, unless empty parentheses start
with it. -/
theorem Moves.behind_comma (lawful : vocabulary.Lawful) {token : Token} {next : Option Char}
    {after : Machine Value} (filled : token = .word ['('] → next ≠ some ')')
    (moves : Moves vocabulary number (behind ['(']) token next after) :
    Moves vocabulary number (behind [',']) token next after := by
  generalize start : (behind ['('] : Machine Value) = machine at moves
  cases moves with
  | number reading => exact start ▸ .number reading
  | constant known constant applied => exact start ▸ .constant known constant applied
  | comma frames => cases start ▸ frames
  | openCall opens entries => cases start ▸ entries
  | openGroup plain empty =>
      subst start
      apply Moves.openGroup
      · exact lawful.mark_no_function (by simp [Word.marks])
      · intro closing
        exact absurd closing (filled rfl)
  | closeCall frames => cases start ▸ frames
  | @closeGroup _ pending _ _ noCall entries settled =>
      subst start
      cases pending <;> cases entries
  | @operator word _ operator pending rest operands known noMark noConstant entries settled before stops =>
      subst start
      exact .operator known noMark noConstant entries settled before stops

/-- A machine reads the same tokens above other stacks. -/
theorem Repeats.read (lawful : vocabulary.Lawful) {base inner outer final : Machine Value}
    (ready : Ready vocabulary 0 base) {before : Option Token} {openings : List Opening}
    (tracks : Tracks vocabulary before openings inner) (repeats : Repeats base openings inner outer)
    {placed : List Placed} (reached : placed.foldlM (Machine.step vocabulary number) inner = .ok final) :
    ∃ outerFinal last openings, placed.foldlM (Machine.step vocabulary number) outer = .ok outerFinal ∧
      Tracks vocabulary last openings final ∧ Repeats base openings final outerFinal := by
  induction placed generalizing before openings inner outer with
  | nil =>
      cases reached
      exact ⟨outer, before, openings, rfl, tracks, repeats⟩
  | cons first rest ih =>
      rw [List.foldlM_cons] at reached
      rcases bind_ok.mp reached with ⟨middle, stepped, reached⟩
      have moves := (step_ok lawful).mp stepped
      rcases repeats.step lawful ready tracks moves (.inl rfl) (fun _ => rfl) with
        ⟨outerMiddle, outerMoves, related⟩
      rcases ih (tracks.step lawful moves) related reached with
        ⟨outerFinal, last, openings, outerReached, tracked, repeated⟩
      refine ⟨outerFinal, last, openings, ?_, tracked, repeated⟩
      rw [List.foldlM_cons]
      exact bind_ok.mpr ⟨outerMiddle, (step_ok lawful).mpr outerMoves, outerReached⟩

structure AtArgument (top : Waiting Value) (rest : List (Entry Value)) (frames : List Frame)
    (below values : List Value) (machine : Machine Value) : Prop where
  operands : machine.operands = values.reverse ++ below
  entries : machine.entries = .opening :: .opening :: .waiting top :: rest
  frames : machine.frames = .call top.operator.arity values.length below.length :: frames
  previous : ∃ mark ∈ [['('], [',']], machine.previous = some (.operator mark)

namespace AtArgument

variable {top : Waiting Value} {rest : List (Entry Value)} {frames : List Frame}
  {below values : List Value} {machine after : Machine Value}

/-- An argument that is accepted here is read on its own as if it stood behind the same mark. -/
theorem alone_behind (lawful : vocabulary.Lawful) (starts : AtArgument top rest frames below values machine)
    {segment : List Placed} {value : Value} (single : alone vocabulary number segment = .ok value)
    (reached : segment.foldlM (step vocabulary number) machine = .ok after) :
    ∃ mark ∈ [['('], [',']], machine.previous = some (.operator mark) ∧ ∃ final,
      segment.foldlM (step vocabulary number) (behind mark) = .ok final ∧ final.finish = .ok value := by
  rcases starts.previous with ⟨mark, isMark, previous⟩
  refine ⟨mark, isMark, previous, ?_⟩
  rcases bind_ok.mp single with ⟨final, inner, finished⟩
  simp only [List.mem_cons, List.not_mem_nil, or_false] at isMark
  rcases isMark with rfl | rfl
  · exact ⟨final, inner, finished⟩
  cases segment with
  | nil =>
      cases inner
      cases finished
  | cons placed others =>
      rw [List.foldlM_cons] at inner reached
      rcases bind_ok.mp inner with ⟨middle, stepped, inner⟩
      rcases bind_ok.mp reached with ⟨_, outerStepped, _⟩
      refine ⟨final, ?_, finished⟩
      rw [List.foldlM_cons]
      refine bind_ok.mpr ⟨middle, (step_ok lawful).mpr ?_, inner⟩
      apply Moves.behind_comma lawful _ ((step_ok lawful).mp stepped)
      -- Behind a comma no empty parentheses are accepted.
      intro isOpening closing
      have outerMoves := (step_ok lawful).mp outerStepped
      have noFunction := lawful.mark_no_function (show [','] ∈ Word.marks by simp [Word.marks])
      rw [isOpening, closing] at outerMoves
      cases outerMoves with
      | openCall opens => simp [opensCall, previous, noFunction] at opens
      | openGroup plain filled => simp [admitsEmpty, previous, noFunction] at filled
      | constant known constant =>
          have noMark := lawful.function_no_mark known (Operator.constant_function constant)
          simp [Word.marks] at noMark
      | operator known noMark => simp [Word.marks] at noMark

/-- Such an argument leaves its value above the operands before it. -/
theorem leaves (lawful : vocabulary.Lawful) (starts : AtArgument top rest frames below values machine)
    {segment : List Placed} {value : Value} (single : alone vocabulary number segment = .ok value)
    (reached : segment.foldlM (step vocabulary number) machine = .ok after) :
    Leaves 1 0 machine.frames machine [value] after := by
  rcases starts.alone_behind lawful single reached with ⟨mark, isMark, previous, final, inner, finished⟩
  have symbol : mark ∈ Word.marks ∧ mark ∈ Word.symbols ∧ mark ≠ [')'] := by
    simp only [List.mem_cons, List.not_mem_nil, or_false] at isMark
    rcases isMark with rfl | rfl <;> decide
  have opens : vocabulary.opensOperand machine.previous = true := by
    rw [previous]
    exact opens_after lawful symbol.2.1 symbol.2.2
  have repeats : Repeats machine [] (behind mark) machine :=
    ⟨rfl, rfl, ⟨0, rfl, rfl⟩, .inl previous⟩
  rcases repeats.read lawful (ready_opening starts.entries opens 0) (tracks_behind lawful symbol.1) inner
    with ⟨outer, last, openings, outerReached, tracks, repeated⟩
  cases outerReached.symm.trans reached
  rcases finish_ok.mp finished with ⟨pending, entries, settled⟩
  have noneOpen := tracks.mirrors.entries.finish_closed finished
  rcases repeated.frames with ⟨outside, count, same⟩
  rw [noneOpen, List.length_nil] at count
  have noFrames : final.frames = [] := List.length_eq_zero_iff.mp (by omega)
  have noneOutside : outside = 0 := by omega
  refine ⟨rfl, ⟨pending, ?_, ?_, by simp⟩, ?_, by simp⟩
  · rw [repeated.entries, entries]
  · -- What is settled alone is settled in the same way above the operands that were there.
    rw [repeated.operands, settle_above settled]
    rfl
  · rw [same, noFrames, noneOutside]
    rfl

/-- A comma settles an argument, and the next one starts. -/
theorem comma (lawful : vocabulary.Lawful) (starts : AtArgument top rest frames below values machine)
    {value : Value} {middle : Machine Value} (leaves : Leaves 1 0 machine.frames machine [value] middle)
    {placed : Placed} (isComma : placed.token = .word [','])
    (stepped : middle.step vocabulary number placed = .ok after) :
    AtArgument top rest frames below (values ++ [value]) after := by
  rcases leaves.waiting with ⟨pending, entries, settled, _⟩
  rcases placed with ⟨token, last, next⟩
  cases isComma
  have flushed := flush_ok.mpr ⟨pending, entries.trans (by rw [starts.entries]), settled⟩
  rw [step_mark lawful middle (by simp [Word.marks]), located_ok, if_pos rfl] at stepped
  rcases map_ok.mp stepped with ⟨changed, done, rfl⟩
  unfold Machine.comma at done
  rw [leaves.frames, starts.frames] at done
  dsimp only at done
  split at done
  · rw [flushed] at done
    cases done
    constructor
    · simp [remember, starts.operands]
    · rfl
    · simp [remember]
    · exact ⟨[','], by simp, rfl⟩
  · cases done

/-- Right before a call is closed, the values of its arguments are on top of the operands, once what waits
above the two markers is applied. -/
theorem run (lawful : vocabulary.Lawful) {segments : List (List Placed)} {inside : List Placed}
    (segmented : Segmented segments inside)
    (starts : AtArgument top rest frames below values machine)
    (each : ∀ segment ∈ segments, ∃ value, alone vocabulary number segment = .ok value)
    (reached : inside.foldlM (step vocabulary number) machine = .ok after) :
    ∃ more commas, List.Forall₂ (fun segment value => alone vocabulary number segment = .ok value)
        segments more ∧ (values ++ more).length = commas + 1 ∧
      after.frames = .call top.operator.arity commas below.length :: frames ∧
      flush after.entries after.operands =
        .ok (.opening :: .waiting top :: rest, (values ++ more).reverse ++ below) := by
  -- Along the segments: each leaves its value, and the comma behind it starts the next argument.
  induction segmented generalizing values machine with
  | last segment =>
      rcases each segment List.mem_cons_self with ⟨value, single⟩
      have left := starts.leaves lawful single reached
      rcases left.waiting with ⟨pending, entries, settled, _⟩
      refine ⟨[value], values.length, .cons single .nil, by simp, ?_, ?_⟩
      · rw [left.frames, starts.frames]
      · rw [starts.operands] at settled
        have flushed := flush_ok.mpr ⟨pending, entries.trans (by rw [starts.entries]), settled⟩
        simpa using flushed
  | @more segment others comma _ isComma later ih =>
      rcases each segment List.mem_cons_self with ⟨value, single⟩
      rw [List.foldlM_append] at reached
      rcases bind_ok.mp reached with ⟨middle, first, reached⟩
      rw [List.foldlM_cons] at reached
      rcases bind_ok.mp reached with ⟨next, stepped, reached⟩
      have left := starts.leaves lawful single first
      have further := starts.comma lawful left isComma stepped
      rcases ih further (fun other member => each other (List.mem_cons_of_mem _ member)) reached with
        ⟨more, commas, found, counted, framed, flushed⟩
      rw [List.append_assoc, List.singleton_append] at counted flushed
      exact ⟨value :: more, commas, .cons single found, counted, framed, flushed⟩

end AtArgument

end Machine

namespace Trace

variable {Value First Second : Type} {vocabulary : Vocabulary Value} {number : List Char → Option Value}

theorem bind_of_ok {first : Trace Value First} {value : First} (succeeded : first.result = .ok value)
    (next : First → Trace Value Second) :
    first >>= next = ⟨first.applications ++ (next value).applications, (next value).result⟩ := by
  change Trace.bind first next = _
  simp [Trace.bind, succeeded]

theorem bind_of_pure (value : First) (next : First → Trace Value Second) :
    (pure value : Trace Value First) >>= next = next value :=
  bind_of_ok rfl next

/-- What only looks at a result applies nothing more. -/
theorem applications_bind {first : Trace Value First} {next : First → Trace Value Second}
    (nothing : ∀ value, (next value).applications = []) :
    (first >>= next).applications = first.applications := by
  change (Trace.bind first next).applications = _
  unfold Trace.bind
  cases first.result with
  | ok value => simp [nothing]
  | error fault => rfl

theorem reduce_call {waiting : Waiting Value} {values : List Value}
    (counted : values.length = waiting.count) (below : List Value) :
    (reduce waiting (values.reverse ++ below)).applications =
      [⟨waiting.word, waiting.operator, values⟩] := by
  have enough : ¬ (values.reverse ++ below).length < waiting.count := by
    simp only [List.length_append, List.length_reverse]
    omega
  have taken : ((values.reverse ++ below).take waiting.count).reverse = values := by
    rw [← counted, ← List.length_reverse, List.take_left, List.reverse_reverse]
  rw [reduce, if_neg enough, applications_bind fun _ => rfl, apply_applications, taken]

/-- With one operand for each argument, a call is applied if its function takes as many. -/
theorem applyCall_supplied {arity : Arity} {commas : Nat} {rest : List (Entry Value)}
    {top : Waiting Value} {below values : List Value} (counted : values.length = commas + 1) :
    applyCall arity commas below.length (.opening :: .waiting top :: rest) (values.reverse ++ below) =
      if arity.ofCall commas = commas + 1 then
        reduce { top with count := commas + 1 } (values.reverse ++ below) >>= fun operands =>
          pure (rest, operands)
      else lift (.error (.of .invalidExpression)) := by
  rw [applyCall, flush, bind_of_pure]
  by_cases expected : arity.ofCall commas = commas + 1
  · simp [counted, expected]
  · have other : ¬ commas + 1 = arity.ofCall commas := fun same => expected same.symm
    simp [counted, expected, other]

/-- A call is closed with the values of its arguments on top: if the function takes as many, it is applied to
them last. -/
theorem close_call {machine : Machine Value} {commas : Nat} {frames : List Frame}
    {rest : List (Entry Value)} {top : Waiting Value} {below values : List Value}
    (framed : machine.frames = .call top.operator.arity commas below.length :: frames)
    (flushed : Machine.flush machine.entries machine.operands =
      .ok (.opening :: .waiting top :: rest, values.reverse ++ below))
    (counted : values.length = commas + 1) :
    (top.operator.arity.ofCall commas = commas + 1 →
      (closeParenthesis machine).applications.getLast? = some ⟨top.word, top.operator, values⟩ ∧
      (closeParenthesis machine).result.map (·.operands) =
        (top.operator.apply values).map (· :: below)) ∧
    (top.operator.arity.ofCall commas ≠ commas + 1 →
      (closeParenthesis machine).result = .error (.of .invalidExpression)) := by
  have settled := (flush_result machine.entries machine.operands).trans flushed
  rw [closeParenthesis, bind_of_ok settled]
  dsimp only
  rw [framed]
  dsimp only
  rw [applyCall_supplied counted]
  constructor
  · intro expected
    rw [if_pos expected]
    have applied := @reduce_call Value { top with count := commas + 1 } values counted below
    have reduced := @Machine.reduce_values Value { top with count := commas + 1 } values counted below
    constructor
    · rw [applications_bind fun _ => rfl, applications_bind fun _ => rfl, applied]
      exact List.getLast?_concat
    · rw [bind_result, bind_result, reduce_result, reduced]
      cases top.operator.apply values <;> rfl
  · intro other
    rw [if_neg other]
    rfl

theorem step_closing (lawful : vocabulary.Lawful) (machine : Machine Value) {placed : Placed}
    (closes : placed.token = .word [')']) : step vocabulary number machine placed =
      closeParenthesis machine >>= fun after => pure (after.remember [')']) := by
  have isMark : [')'] ∈ Word.marks := by simp [Word.marks]
  have key : Word.key [')'] placed.next machine.previous = [')'] := (Word.key_mark isMark).mpr rfl
  simp only [step, closes, readWord, key, lawful.mark _ isMark]
  rfl

end Trace

namespace Machine

variable {Value : Type} {vocabulary : Vocabulary Value} {number : List Char → Option Value}

/-- The parenthesis behind the name of a function opens its first argument. -/
theorem Tracks.opens_argument (lawful : vocabulary.Lawful) {before : Option Token}
    {openings : List Opening} {machine after : Machine Value}
    (tracks : Tracks vocabulary before openings machine) {word : Word}
    (named : vocabulary.named before = some word) {placed : Placed}
    (opens : placed.token = .word ['('])
    (stepped : machine.step vocabulary number placed = .ok after) :
    ∃ top rest frames, top.word = word ∧ vocabulary.get? word = some top.operator ∧
      AtArgument top rest frames after.operands [] after := by
  rcases Vocabulary.named_eq_some.mp named with ⟨isLast, function, takesArguments⟩
  rcases tracks.named isLast function takesArguments with ⟨top, rest, entries, isNamed, known⟩
  have moves := (step_ok lawful).mp stepped
  rw [opens] at moves
  cases moves with
  | openCall _ same =>
      cases entries.symm.trans same
      exact ⟨top, rest, machine.frames, isNamed, known, rfl, rfl, rfl, ['('], by simp, rfl⟩
  | openGroup plain =>
      cases (Vocabulary.named_eq_none.mpr (tracks.opens_group plain)).symm.trans named
  | constant known constant =>
      have noMark := lawful.function_no_mark known (Operator.constant_function constant)
      simp [Word.marks] at noMark
  | operator known noMark => simp [Word.marks] at noMark

end Machine

/-- Where every argument of a call leaves one value on its own, the parenthesis that closes the call applies the
function to just these values, in their order, if it takes as many, and the operands from before the call are
below the result. -/
theorem arguments_supply_operands {vocabulary : Vocabulary Float} (reachable : vocabulary.Reachable)
    {expression : String} {before inside after : List Placed} {opening closing : Placed} {word : Word}
    {start full : Machine Float}
    (opened : start.Reaches vocabulary readNumber? (Text.normalize expression.toList)
      (before ++ [opening]) (inside ++ closing :: after))
    (filled : full.Reaches vocabulary readNumber? (Text.normalize expression.toList)
      (before ++ opening :: inside) (closing :: after))
    (named : vocabulary.named (before.map (·.token)).getLast? = some word)
    (opens : opening.token = .word ['(']) (closes : closing.token = .word [')'])
    (each : ∀ segment ∈ Placed.segments 0 inside,
      ∃ value, Machine.alone vocabulary readNumber? segment = .ok value) :
    ∃ operator values, vocabulary.get? word = some operator ∧
      List.Forall₂ (fun segment value => Machine.alone vocabulary readNumber? segment = .ok value)
        (Placed.segments 0 inside) values ∧
      let trace := Trace.step vocabulary readNumber? full closing
      (operator.arity.ofCall (values.length - 1) = values.length →
        trace.applications.getLast? = some ⟨word, operator, values⟩ ∧
          trace.result.map (·.operands) = (operator.apply values).map (· :: start.operands)) ∧
      (operator.arity.ofCall (values.length - 1) ≠ values.length →
        trace.result = .error (.of .invalidExpression)) := by
  have lawful := reachable.lawful
  have accepted := opened.accepted
  rw [List.foldlM_append] at accepted
  rcases bind_ok.mp accepted with ⟨outer, reached, stepped⟩
  have fromStart := filled.accepted
  rw [List.append_cons, List.foldlM_append, opened.accepted] at fromStart
  have outerReaches : outer.Reaches vocabulary readNumber? (Text.normalize expression.toList) before
      (opening :: (inside ++ closing :: after)) := ⟨by simpa using opened.tokens, reached⟩
  rw [List.foldlM_cons] at stepped
  rcases bind_ok.mp stepped with ⟨_, stepped, same⟩
  cases same
  rcases (outerReaches.stands lawful).tracks.opens_argument lawful named opens stepped with
    ⟨top, rest, frames, rfl, known, starts⟩
  rcases starts.run lawful (Placed.segments_cut 0 inside) each fromStart with
    ⟨values, commas, found, counted, framed, flushed⟩
  have closed := Trace.close_call framed flushed counted
  rw [List.nil_append] at counted closed
  refine ⟨top.operator, values, known, found, ?_⟩
  rw [counted, Nat.add_sub_cancel]
  dsimp only
  rw [Trace.step_closing lawful full closes]
  constructor
  · intro expected
    rcases closed.1 expected with ⟨applied, operands⟩
    rw [Trace.applications_bind fun _ => rfl]
    refine ⟨applied, ?_⟩
    rw [← operands, Trace.bind_result]
    cases (Trace.closeParenthesis full).result <;> rfl
  · intro other
    rw [Trace.bind_result, closed.2 other]
    rfl

theorem arguments_supply_operands_max :
    let one := (⟨['1'], none, none⟩ : Literal).toFloat
    let two := (⟨['2'], none, none⟩ : Literal).toFloat
    let closing : Placed := ⟨.word [')'], 7, none⟩
    ∃ (before : List Placed) (full : Machine Float) (operator : Operator Float),
      full.Reaches (.standard 0) readNumber? "max(1,2)".toList before [closing] ∧
      (Vocabulary.standard 0).get? "max".toList = some operator ∧
      (Trace.step (.standard 0) readNumber? full closing).applications.getLast? =
        some ⟨"max".toList, operator, [one, two]⟩ := by
  intro one two closing
  have reachable : (Vocabulary.standard 0).Reachable := ⟨0, [], rfl⟩
  let name : Placed := ⟨.word "max".toList, 2, some '('⟩
  let opening : Placed := ⟨.word ['('], 3, some '1'⟩
  let inside : List Placed := [⟨.number ['1'], 4, some ','⟩, ⟨.word [','], 5, some '2'⟩,
    ⟨.number ['2'], 6, some ')'⟩]
  have tokens : (Scan.ofText (.standard 0) "max(1,2)".toList).tokens =
      name :: opening :: (inside ++ [closing]) := by
    decide +kernel
  have alone : ∀ segment ∈ Placed.segments 0 inside,
      ∃ value, Machine.alone (.standard 0) readNumber? segment = .ok value := by
    intro segment member
    have listed : segment = [⟨.number ['1'], 4, some ','⟩] ∨
        segment = [⟨.number ['2'], 6, some ')'⟩] := by
      simpa [Placed.segments, inside, Token.depth] using member
    rcases listed with rfl | rfl
    · exact ⟨one, rfl⟩
    · exact ⟨two, rfl⟩
  obtain ⟨start, opened⟩ : ∃ start,
      [name, opening].foldlM (Machine.step (.standard 0) readNumber?) .initial = .ok start := ⟨_, rfl⟩
  obtain ⟨full, filled⟩ : ∃ full,
      (name :: opening :: inside).foldlM (Machine.step (.standard 0) readNumber?) .initial = .ok full :=
    ⟨_, rfl⟩
  rcases @arguments_supply_operands (.standard 0) reachable "max(1,2)" [name] inside [] opening closing
    "max".toList start full ⟨tokens, opened⟩ ⟨tokens, filled⟩ (by decide +kernel) rfl rfl alone with
    ⟨operator, values, known, found, applied, _⟩
  have same : values = [one, two] := by
    cases found with
    | cons first rest =>
        cases rest with
        | cons second none =>
            cases none
            cases first
            cases second
            rfl
  subst same
  cases known
  exact ⟨_, full, _, ⟨tokens, filled⟩, rfl, (applied rfl).1⟩

/-- The second argument of this call is empty, and the first one has two values, which the function takes. -/
theorem empty_argument_accepted :
    let one := (⟨['1'], none, none⟩ : Literal).toFloat
    let two := (⟨['2'], none, none⟩ : Literal).toFloat
    evaluateExact (.standard 0) "max(1 2,)" = .ok (larger one two) ∧
    ∃ inside : List Placed, (Scan.ofText (.standard 0) (Text.normalize "max(1 2,)".toList)).tokens =
        [⟨.word "max".toList, 2, some '('⟩, ⟨.word ['('], 3, some '1'⟩] ++ inside ++
          [⟨.word [')'], 8, none⟩] ∧
      (Placed.segments 0 inside).map (·.map (·.token)) =
        [[.number ['1', ' '], .number ['2']], []] := by
  refine ⟨rfl, [⟨.number ['1', ' '], 5, some '2'⟩, ⟨.number ['2'], 6, some ','⟩,
    ⟨.word [','], 7, some ')'⟩], ?_, ?_⟩
  · decide +kernel
  · decide +kernel

end Calculator
