import Calculator.Proofs.Arguments
import Calculator.Proofs.Matching

/-!
Commas. Which parenthesis a comma stands in is told by the text in front of it: it is the last one with nothing but
matched parentheses behind it. The comma is accepted if this is the argument list of a function that takes more
arguments than the list has so far; only the commas of its own level count.
-/

namespace Calculator

namespace Token

structure Within (tokens front inside : List Token) : Prop where
  split : tokens = front ++ .word ['('] :: inside
  matched : Matched inside

def commas : Nat → List Token → Nat
  | _, [] => 0
  | depth, token :: rest =>
      (if depth = 0 ∧ token = .word [','] then 1 else 0) + commas (token.depth depth) rest

/-- Why a comma has no place behind some tokens: nothing is open there, or what is open is no argument list, or it is
that of a function that takes no more arguments. -/
inductive NoComma {Value : Type} (vocabulary : Vocabulary Value) (tokens : List Token) : Prop where
  | outside (closed : ∀ front inside, ¬ Within tokens front inside)
  | group {front inside : List Token} (within : Within tokens front inside)
      (noCall : vocabulary.named front.getLast? = none)
  | complete {front inside : List Token} {word : Word} {operator : Operator Value} {count : Nat}
      (within : Within tokens front inside) (named : vocabulary.named front.getLast? = some word)
      (known : vocabulary.get? word = some operator) (arity : operator.arity = .fixed count)
      (accepted : commas 0 inside + 1 = count)

theorem depth_count {depth : Nat} {token : Token} (closes : token = .word [')'] → 0 < depth) :
    token.depth depth + (if token = .word [')'] then 1 else 0) =
      depth + if token = .word ['('] then 1 else 0 := by
  by_cases opening : token = .word ['(']
  · simp [Token.depth, opening]
  · by_cases closing : token = .word [')']
    · have deep := closes closing
      simp [Token.depth, closing]
      omega
    · simp [Token.depth, opening, closing]

@[simp]
theorem openings_append (first second : List Token) :
    openings (first ++ second) = openings first + openings second := by
  simp [openings]

@[simp]
theorem closings_append (first second : List Token) :
    closings (first ++ second) = closings first + closings second := by
  simp [closings]

@[simp]
theorem openings_nil : openings [] = 0 :=
  rfl

@[simp]
theorem closings_nil : closings [] = 0 :=
  rfl

namespace Matched

theorem nil : Matched [] := by
  constructor
  · intro front leads
    rw [List.prefix_nil.mp leads]
    exact Nat.le_refl 0
  · rfl

theorem append {first second : List Token} (left : Matched first) (right : Matched second) :
    Matched (first ++ second) := by
  have before := left.closed
  constructor
  · intro front leads
    rcases List.prefix_or_prefix_of_prefix leads (List.prefix_append first second) with within | longer
    · exact left.opened within
    · rcases longer with ⟨rest, rfl⟩
      have later := right.opened ((List.prefix_append_right_inj first).mp leads)
      simp only [openings_append, closings_append]
      omega
  · have after := right.closed
    simp only [openings_append, closings_append]
    omega

theorem single {token : Token} (noOpening : token ≠ .word ['(']) (noClosing : token ≠ .word [')']) :
    Matched [token] := by
  constructor
  · intro front leads
    rcases List.prefix_cons_iff.mp leads with rfl | ⟨rest, rfl, none⟩
    · exact Nat.le_refl 0
    · simp [List.prefix_nil.mp none, noClosing]
  · simp [noOpening, noClosing]

theorem enclose {inside : List Token} (matched : Matched inside) :
    Matched (.word ['('] :: (inside ++ [.word [')']])) := by
  have closed := matched.closed
  constructor
  · intro front leads
    rcases List.prefix_cons_iff.mp leads with rfl | ⟨rest, rfl, within⟩
    · exact Nat.le_refl 0
    · rcases List.prefix_concat_iff.mp within with rfl | shorter
      · simp
        omega
      · have opened := matched.opened shorter
        simp
        omega
  · simp
    omega

end Matched

end Token

namespace Opening

variable {Value : Type} {vocabulary : Vocabulary Value}

def addCommas (opening : Opening) (count : Nat) : Opening :=
  match opening with
  | .plain => .plain
  | .call word commas => .call word (commas + count)

@[simp]
theorem addCommas_zero (opening : Opening) : opening.addCommas 0 = opening := by
  cases opening <;> rfl

@[simp]
theorem addCommas_add (opening : Opening) (first second : Nat) :
    (opening.addCommas first).addCommas second = opening.addCommas (first + second) := by
  cases opening <;> simp [addCommas, Nat.add_assoc]

theorem read_comma_inside (before : Option Token) (opening : Opening) (outer : List Opening) :
    read vocabulary before (opening :: outer) (.word [',']) = opening.addCommas 1 :: outer := by
  cases opening <;> simp [read, addCommas]

theorem read_outside (before : Option Token) {token : Token} (noOpening : token ≠ .word ['(']) :
    read vocabulary before [] token = [] := by
  cases token with
  | number text => rfl
  | word word =>
      have other : word ≠ ['('] := fun same => noOpening (congrArg _ same)
      simp [read, other]

theorem unclosedFrom_append (before : Option Token) (openings : List Opening) (first second : List Token) :
    unclosedFrom vocabulary before openings (first ++ second) =
      unclosedFrom vocabulary (first.getLast?.or before) (unclosedFrom vocabulary before openings first)
        second := by
  induction first generalizing before openings with
  | nil => rfl
  | cons token rest ih =>
      rw [List.cons_append, unclosedFrom, ih, unclosedFrom]
      cases last : rest.getLast? <;> simp [List.getLast?_cons, last]

/-- Within a parenthesis a token reaches it only as a comma of its own level. -/
theorem read_within (before : Option Token) {inner : List Opening} (opening : Opening)
    (outer : List Opening) {token : Token} (closes : token = .word [')'] → 0 < inner.length) :
    ∃ rest : List Opening, rest.length = token.depth inner.length ∧
      read vocabulary before (inner ++ opening :: outer) token =
        rest ++ opening.addCommas (if inner.length = 0 ∧ token = .word [','] then 1 else 0) :: outer := by
  cases token with
  | number text => exact ⟨inner, by simp [Token.depth], by simp [read]⟩
  | word word =>
      by_cases isMark : word ∈ Word.marks
      · simp only [Word.marks, List.mem_cons, List.not_mem_nil, or_false] at isMark
        rcases isMark with rfl | rfl | rfl
        · exact ⟨after vocabulary before :: inner, by simp [Token.depth], by simp⟩
        · cases inner with
          | nil => exact absurd (closes rfl) (Nat.lt_irrefl 0)
          | cons first rest => exact ⟨rest, by simp [Token.depth], by simp⟩
        · cases inner with
          | nil =>
              exact ⟨[], by simp [Token.depth], by simp [read_comma_inside]⟩
          | cons first rest =>
              exact ⟨first.addCommas 1 :: rest, by simp [Token.depth], by simp [read_comma_inside]⟩
      · refine ⟨inner, ?_, ?_⟩
        · simp only [Word.marks, List.mem_cons, List.not_mem_nil, or_false, not_or] at isMark
          simp [Token.depth, isMark]
        · rw [read_other _ _ isMark]
          simp only [Word.marks, List.mem_cons, List.not_mem_nil, or_false, not_or] at isMark
          simp [isMark]

/-- What is read within a parenthesis leaves it open, with the commas of its own level. -/
theorem unclosedFrom_within (before : Option Token) {inner : List Opening} (opening : Opening)
    (outer : List Opening) {tokens : List Token}
    (opened : ∀ {front}, front <+: tokens → Token.closings front ≤ Token.openings front + inner.length) :
    ∃ rest : List Opening, rest.length + Token.closings tokens = inner.length + Token.openings tokens ∧
      unclosedFrom vocabulary before (inner ++ opening :: outer) tokens =
        rest ++ opening.addCommas (Token.commas inner.length tokens) :: outer := by
  induction tokens generalizing before inner opening with
  | nil => exact ⟨inner, rfl, by simp [unclosedFrom, Token.commas]⟩
  | cons token others ih =>
      have closes : token = .word [')'] → 0 < inner.length := by
        rintro rfl
        have first := opened (List.prefix_append [.word [')']] others)
        simp only [Token.openings_cons, Token.closings_cons] at first
        simpa [Nat.lt_iff_add_one_le] using first
      rcases @read_within Value vocabulary before inner opening outer token closes with ⟨middle, deep, now⟩
      have counted := Token.depth_count closes
      rw [← deep] at counted
      have later : ∀ {front}, front <+: others →
          Token.closings front ≤ Token.openings front + middle.length := by
        intro front leads
        have longer := opened ((List.prefix_cons_inj token).mpr leads)
        simp only [Token.openings_cons, Token.closings_cons] at longer
        omega
      rcases ih (some token) (opening.addCommas _) later with ⟨rest, total, reached⟩
      refine ⟨rest, ?_, ?_⟩
      · simp only [Token.openings_cons, Token.closings_cons]
        omega
      · rw [unclosedFrom, now, reached, Token.commas, ← deep, addCommas_add]

/-- The innermost parenthesis that is open is the last one with matched ones behind it. -/
theorem unclosed_within {tokens front inside : List Token} (within : Token.Within tokens front inside) :
    unclosed vocabulary tokens = (after vocabulary front.getLast?).addCommas (Token.commas 0 inside) ::
      unclosed vocabulary front := by
  have closed := within.matched.closed
  rcases @unclosedFrom_within Value vocabulary (some (.word ['('])) [] (after vocabulary front.getLast?)
    (unclosed vocabulary front) inside within.matched.opened with ⟨rest, counted, reached⟩
  have none : rest = [] := List.length_eq_zero_iff.mp (by simp only [List.length_nil] at counted; omega)
  subst none
  rw [unclosed, within.split, unclosedFrom_append, unclosedFrom, Option.or_none, read_opening]
  exact reached

/-- Where a parenthesis is open, there is one with matched ones behind it. -/
theorem unclosed_cases (tokens : List Token) :
    unclosed vocabulary tokens = [] ∨ ∃ front inside, Token.Within tokens front inside := by
  -- A closing parenthesis leads back to the text in front of the one that it closes.
  induction size : tokens.length using Nat.strongRecOn generalizing tokens with
  | ind length ih =>
      rcases List.eq_nil_or_concat tokens with rfl | ⟨before, token, rfl⟩
      · exact .inl rfl
      rw [List.concat_eq_append, List.length_append, List.length_singleton] at size
      rw [List.concat_eq_append, unclosed_snoc]
      by_cases opening : token = .word ['(']
      · exact .inr ⟨before, [], by rw [opening], .nil⟩
      rcases ih _ (by omega) before rfl with closed | ⟨front, inside, within⟩
      · rw [closed, read_outside _ opening]
        exact .inl rfl
      have leads := congrArg List.length within.split
      simp only [List.length_append, List.length_cons] at leads
      by_cases closing : token = .word [')']
      · rw [unclosed_within within, closing, read_closing]
        refine (ih _ (by omega) front rfl).imp_right ?_
        rintro ⟨farther, outside, further⟩
        refine ⟨farther, outside ++ (.word ['('] :: (inside ++ [.word [')']])), ?_,
          further.matched.append within.matched.enclose⟩
        rw [within.split, further.split]
        simp
      · refine .inr ⟨front, inside ++ [token], ?_, within.matched.append (.single opening closing)⟩
        rw [within.split, List.append_assoc, List.cons_append]


theorem after_call {before : Option Token} {word : Word} {commas : Nat} :
    after vocabulary before = .call word commas ↔ vocabulary.named before = some word ∧ commas = 0 := by
  rcases before with _ | ⟨written⟩ | ⟨text⟩
  · simp [after, Vocabulary.named]
  · simp only [after, Vocabulary.named]
    split
    · simp [eq_comm]
    · simp
  · simp [after, Vocabulary.named]

/-- A call that is open has fewer commas than its function takes arguments. -/
def Roomy (vocabulary : Vocabulary Value) (openings : List Opening) : Prop :=
  ∀ word commas operator count, .call word commas ∈ openings → vocabulary.get? word = some operator →
    operator.arity = .fixed count → commas < count

end Opening

variable {Value : Type} {vocabulary : Vocabulary Value} {number : List Char → Option Value}

/-- A function that has to be called takes at least one argument. -/
theorem Vocabulary.named_takes {before : Option Token} {word : Word} {operator : Operator Value} {count : Nat}
    (named : vocabulary.named before = some word) (known : vocabulary.get? word = some operator)
    (arity : operator.arity = .fixed count) : 0 < count := by
  rcases named_eq_some.mp named with ⟨_, function, takesArguments⟩
  have isFunction : operator.isFunction = true := by simpa [Vocabulary.isFunction, known] using function
  have noConstant : operator.isConstant = false := by
    simpa [Vocabulary.isConstant, known] using takesArguments
  rw [Operator.isConstant, isFunction, arity] at noConstant
  cases count with
  | zero => cases noConstant
  | succ more => exact Nat.succ_pos more

namespace Machine

/-- What one token preserves: a comma is accepted only if there is room for it. -/
theorem Tracks.roomy {before : Option Token} {openings : List Opening} {machine after : Machine Value}
    (lawful : vocabulary.Lawful) (tracks : Tracks vocabulary before openings machine)
    (room : Opening.Roomy vocabulary openings) {token : Token} {next : Option Char}
    (moves : Moves vocabulary number machine token next after) :
    Opening.Roomy vocabulary (Opening.read vocabulary before openings token) := by
  intro word commas operator count member known arity
  cases token with
  | number text => exact room _ _ _ _ member known arity
  | word written =>
      by_cases isMark : written ∈ Word.marks
      · simp only [Word.marks, List.mem_cons, List.not_mem_nil, or_false] at isMark
        rcases isMark with rfl | rfl | rfl
        · rw [Opening.read_opening] at member
          rcases List.mem_cons.mp member with opened | outer
          · rcases Opening.after_call.mp opened.symm with ⟨named, rfl⟩
            exact Vocabulary.named_takes named known arity
          · exact room _ _ _ _ outer known arity
        · exact room _ _ _ _ (List.mem_of_mem_drop member) known arity
        · cases moves with
          | @comma _ own commas base frames pending rest operands framed admitted entries settled =>
              rcases tracks.mirrors.call_frame framed with ⟨name, found, others, rfl, same, rfl, _⟩
              rw [Opening.read_comma] at member
              rcases List.mem_cons.mp member with counted | outer
              · cases counted
                cases known.symm.trans same
                simpa [arity, Arity.admitsComma] using admitted
              · exact room _ _ _ _ (List.mem_cons_of_mem _ outer) known arity
          | constant known constant =>
              have noMark := lawful.function_no_mark known (Operator.constant_function constant)
              simp [Word.marks] at noMark
          | operator known noMark => simp [Word.marks] at noMark
      · rw [Opening.read_other _ _ isMark] at member
        exact room _ _ _ _ member known arity

/-- What a run preserves. -/
theorem Tracks.run_roomy {before : Option Token} {openings : List Opening} {machine after : Machine Value}
    (lawful : vocabulary.Lawful) (tracks : Tracks vocabulary before openings machine)
    (room : Opening.Roomy vocabulary openings) {placed : List Placed}
    (reached : placed.foldlM (Machine.step vocabulary number) machine = .ok after) :
    Opening.Roomy vocabulary
      (Opening.unclosedFrom vocabulary before openings (placed.map (·.token))) := by
  induction placed generalizing before openings machine with
  | nil => exact room
  | cons first rest ih =>
      rw [List.foldlM_cons] at reached
      rcases bind_ok.mp reached with ⟨middle, stepped, reached⟩
      have moves := (step_ok lawful).mp stepped
      exact ih (tracks.step lawful moves) (tracks.roomy lawful room moves) reached

/-- A frame of a call that admits a comma stands for a call with room for one. -/
theorem Mirrors.admits_comma {openings : List Opening} {machine : Machine Value}
    (mirrors : Mirrors vocabulary openings machine) :
    (∃ arity commas base outer, machine.frames = .call arity commas base :: outer ∧
        arity.admitsComma commas = true) ↔
      ∃ word operator commas outer, openings = .call word commas :: outer ∧
        vocabulary.get? word = some operator ∧ operator.arity.admitsComma commas = true := by
  constructor
  · rintro ⟨arity, commas, base, outer, framed, admitted⟩
    rcases mirrors.call_frame framed with ⟨word, operator, others, rfl, known, rfl, _⟩
    exact ⟨word, operator, commas, others, rfl, known, admitted⟩
  · rintro ⟨word, operator, commas, outer, rfl, known, admitted⟩
    have shown := mirrors.frames
    rw [Opening.kept_call] at shown
    generalize frames : machine.frames = all at shown
    cases shown with
    | cons first rest =>
        cases first with
        | call found =>
            cases known.symm.trans found
            exact ⟨_, _, _, _, rfl, admitted⟩

end Machine

namespace Token

/-- The call that a text ends within, with the commas of its own level. -/
theorem Within.unclosed_call {tokens front inside : List Token} {word : Word}
    (within : Within tokens front inside) (named : vocabulary.named front.getLast? = some word) :
    Opening.unclosed vocabulary tokens =
      .call word (commas 0 inside) :: Opening.unclosed vocabulary front := by
  rw [Opening.unclosed_within within, Opening.after_call.mpr ⟨named, rfl⟩, Opening.addCommas, Nat.zero_add]

/-- A comma has no place just where the innermost parenthesis is no call with room for one. -/
theorem noComma_iff {tokens : List Token} (room : Opening.Roomy vocabulary (Opening.unclosed vocabulary tokens)) :
    NoComma vocabulary tokens ↔
      ¬ ∃ word operator commas outer, Opening.unclosed vocabulary tokens = .call word commas :: outer ∧
        vocabulary.get? word = some operator ∧ operator.arity.admitsComma commas = true := by
  constructor
  · rintro place ⟨word, operator, commas, outer, opened, known, admitted⟩
    cases place with
    | outside closed =>
        rcases @Opening.unclosed_cases Value vocabulary tokens with none | ⟨front, inside, within⟩
        · cases none.symm.trans opened
        · exact closed front inside within
    | group within noCall =>
        rw [Opening.unclosed_within within, Vocabulary.named_eq_none.mp noCall] at opened
        cases opened
    | complete within named same arity accepted =>
        rw [within.unclosed_call named] at opened
        cases opened
        cases known.symm.trans same
        simp only [arity, Arity.admitsComma, decide_eq_true_eq] at admitted
        omega
  · intro noRoom
    rcases @Opening.unclosed_cases Value vocabulary tokens with none | ⟨front, inside, within⟩
    · apply NoComma.outside
      intro front inside within
      cases none.symm.trans (Opening.unclosed_within within)
    · cases named : vocabulary.named front.getLast? with
      | none => exact .group within named
      | some word =>
          have opened := within.unclosed_call named
          rcases Vocabulary.named_eq_some.mp named with ⟨_, function, _⟩
          rcases Vocabulary.Lawful.function_known function with ⟨operator, known, _⟩
          cases arity : operator.arity with
          | variadic => exact absurd ⟨word, operator, _, _, opened, known, by rw [arity]; rfl⟩ noRoom
          | fixed count =>
              have least := room word _ operator count (opened ▸ List.mem_cons_self) known arity
              have most : ¬ commas 0 inside + 1 < count := by
                intro more
                exact noRoom ⟨word, operator, _, _, opened, known, by simpa [arity, Arity.admitsComma] using more⟩
              exact .complete within named known arity (by omega)

end Token

namespace Trace

/-- A comma is rejected as misplaced just where the frame on top does not admit it. -/
theorem rejects_comma_iff (machine : Machine Value) :
    Rejects .misplacedComma (comma machine) ↔
      ¬ ∃ arity commas base outer, machine.frames = .call arity commas base :: outer ∧
        arity.admitsComma commas = true := by
  constructor
  · rintro rejects ⟨arity, commas, base, outer, framed, admitted⟩
    simp only [comma, framed, admitted, if_true] at rejects
    have flushed := rejects.first fun _ => not_rejects_pure _
    rcases flushed.flush with same | ⟨same, _⟩ <;> cases same
  · intro noFrame
    have refused : comma machine = lift (.error (.of .misplacedComma)) := by
      unfold comma
      split
      · next arity commas base outer framed =>
          have noRoom : arity.admitsComma commas ≠ true := fun admitted =>
            noFrame ⟨arity, commas, base, outer, framed, admitted⟩
          rw [if_neg noRoom]
      · rfl
    rw [refused]
    exact ⟨rfl, rfl⟩

theorem Rejects.andThen {First Second : Type} {cause : Cause} {first : Trace Value First}
    (rejects : Rejects cause first) (next : First → Trace Value Second) : Rejects cause (first >>= next) := by
  have stopped : first >>= next = ⟨first.applications, .error ⟨cause, none⟩⟩ := by
    change Trace.bind first next = _
    simp [Trace.bind, rejects.failed]
  rw [stopped]
  exact ⟨rfl, rejects.blameless⟩

theorem step_comma (lawful : vocabulary.Lawful) (machine : Machine Value) {placed : Placed}
    (isComma : placed.token = .word [',']) : step vocabulary number machine placed =
      comma machine >>= fun after => pure (after.remember [',']) := by
  have isMark : [','] ∈ Word.marks := by simp [Word.marks]
  have key : Word.key [','] placed.next machine.previous = [','] := (Word.key_mark isMark).mpr rfl
  simp only [step, isComma, readWord, key, lawful.mark _ isMark]
  rfl

end Trace

variable {text : List Char}

namespace Machine.Reaches

variable {before after others behind more : List Placed} {placed further : Placed}
  {machine later : Machine Value}

/-- A run that has come farther has accepted the token, which ends before the one that it has come to. -/
theorem passed (reaches : machine.Reaches vocabulary number text before (placed :: after))
    (farther : later.Reaches vocabulary number text (before ++ placed :: more) (further :: behind)) :
    (∃ next, machine.step vocabulary number placed = .ok next) ∧ placed.last < further.last := by
  constructor
  · have accepted := farther.accepted
    rw [List.foldlM_append, reaches.accepted] at accepted
    rcases bind_ok.mp accepted with ⟨_, same, rest⟩
    cases same
    rw [List.foldlM_cons] at rest
    rcases bind_ok.mp rest with ⟨next, stepped, _⟩
    exact ⟨next, stepped⟩
  · have legible := (@Scan.ofText_split Value vocabulary text).2
    have written := Token.legible_nonempty legible further.token
      (List.mem_map_of_mem (by simp [farther.tokens]))
    have length := List.length_pos_iff.mpr written
    have ends := (Scan.within reaches.tokens).ends
    have endsLater := (Scan.within farther.tokens).ends
    simp only [List.map_append, List.map_cons, Token.spelling_append, Token.spelling_cons,
      List.length_append] at ends endsLater
    omega

/-- Of two places in one run, one is behind the other, or they are the same. -/
theorem order (reaches : machine.Reaches vocabulary number text before (placed :: after))
    (other : later.Reaches vocabulary number text others (further :: behind)) :
    before = others ∧ placed = further ∧ machine = later ∨
      ((∃ next, machine.step vocabulary number placed = .ok next) ∧ placed.last < further.last) ∨
      (∃ next, later.step vocabulary number further = .ok next) ∧ further.last < placed.last := by
  have same := reaches.tokens.symm.trans other.tokens
  rcases List.append_eq_append_iff.mp same with ⟨between, rfl, rest⟩ | ⟨between, rfl, rest⟩
  · cases between with
    | nil =>
        cases rest
        rw [List.append_nil] at other ⊢
        cases reaches.accepted.symm.trans other.accepted
        exact .inl ⟨rfl, rfl, rfl⟩
    | cons first more =>
        cases rest
        exact .inr (.inl (reaches.passed other))
  · cases between with
    | nil =>
        cases rest
        rw [List.append_nil] at reaches ⊢
        cases reaches.accepted.symm.trans other.accepted
        exact .inl ⟨rfl, rfl, rfl⟩
    | cons first more =>
        cases rest
        exact .inr (.inr (other.passed reaches))

/-- A token is rejected for its own sake just if the whole text is rejected there and no function says so. -/
theorem rejects_iff (lawful : vocabulary.Lawful) {expression : List Char}
    (reaches : machine.Reaches vocabulary number (Text.normalize expression) before (placed :: after))
    {cause : Cause} (scanned : cause ≠ .unrecognizedToken) :
    Calculator.run vocabulary number expression = .error ⟨cause, some placed.last⟩ ∧
        (Trace.run vocabulary number expression).refusal = none ↔
      Trace.Rejects cause (Trace.step vocabulary number machine placed) := by
  constructor
  · rintro ⟨failed, blameless⟩
    have accepts := List.findSome?_eq_none_iff.mp blameless
    have failure := (run_error lawful).mp failed
    generalize reported : (⟨cause, some placed.last⟩ : Fault) = fault at failure
    cases failure with
    | refused elsewhere within member refusal =>
        have said := accepts _ (Trace.run_applied elsewhere member)
        cases said.symm.trans ((Application.refusal_eq_some _).mpr refusal)
    | @rejected front back other place reason elsewhere within noRefusal rejected =>
        rcases Fault.mk.inj reported with ⟨rfl, position⟩
        have same := Option.some.inj position
        rcases reaches.order elsewhere with ⟨rfl, rfl, rfl⟩ | ⟨_, apart⟩ | ⟨_, apart⟩
        · refine ⟨rejected, List.findSome?_eq_none_iff.mpr ?_⟩
          intro application member
          exact accepts application (Trace.run_applied reaches member)
        · omega
        · omega
    | unfinished => exact absurd (congrArg Fault.cause reported) scanned
    | empty | unclosed | unbalanced => cases reported
  · intro rejects
    have accepts := List.findSome?_eq_none_iff.mp rejects.blameless
    constructor
    · apply (run_error lawful).mpr
      apply Failure.rejected reaches (Scan.within reaches.tokens) _ rejects.failed
      intro application member
      exact application.refusal_eq_none.mp (accepts application member)
    · apply List.findSome?_eq_none_iff.mpr
      intro application member
      rcases Trace.run_invokes member with ⟨_, _, invokes⟩
      cases invokes with
      | @reading front back other elsewhere _ arrives applied =>
          rcases reaches.order arrives with ⟨rfl, rfl, rfl⟩ | ⟨⟨next, stepped⟩, _⟩ | ⟨⟨next, stepped⟩, _⟩
          · exact accepts application applied
          · -- The run does not come past the token that it is rejected for.
            have failed := Trace.step_result vocabulary number machine placed
            rw [rejects.failed, stepped] at failed
            cases failed
          · have blames := Trace.blames_step vocabulary number elsewhere other
            have accepted := located_ok.mp ((Trace.step_result vocabulary number elsewhere other).trans stepped)
            simp only [Trace.Blames, accepted] at blames
            exact List.findSome?_eq_none_iff.mp blames application applied
      | ending finished arrives applied =>
          cases arrives.all_read.symm.trans (reaches.fails rejects.failed)

end Machine.Reaches

/-- A comma that a run comes to is rejected as misplaced, and by no function, just where the text in front of it
leaves no place for one. -/
theorem commas_in_place {vocabulary : Vocabulary Float} (reachable : vocabulary.Reachable)
    {expression : String} {before after : List Placed} {comma : Placed} {machine : Machine Float}
    (reached : machine.Reaches vocabulary readNumber? (Text.normalize expression.toList) before
      (comma :: after))
    (isComma : comma.token = .word [',']) :
    evaluateExact vocabulary expression = .error ⟨.misplacedComma, some comma.last⟩ ∧
        (Trace.run vocabulary readNumber? expression.toList).refusal = none ↔
      Token.NoComma vocabulary (before.map (·.token)) := by
  have lawful := reachable.lawful
  have mirrors := (reached.stands lawful).tracks.mirrors
  have room := Machine.Tracks.initial.run_roomy lawful (by simp [Opening.Roomy]) reached.accepted
  have rejection : Trace.Rejects .misplacedComma (Trace.step vocabulary readNumber? machine comma) ↔
      Trace.Rejects .misplacedComma (Trace.comma machine) := by
    rw [Trace.step_comma lawful machine isComma]
    exact ⟨fun rejects => rejects.first fun _ => Trace.not_rejects_pure _, fun rejects => rejects.andThen _⟩
  calc
    _ ↔ _ := reached.rejects_iff lawful (by simp)
    _ ↔ _ := rejection
    _ ↔ _ := Trace.rejects_comma_iff machine
    _ ↔ _ := not_congr mirrors.admits_comma
    _ ↔ _ := (Token.noComma_iff room).symm

/-- The commas of the inner call leave the outer one room for one comma, and for no second one. -/
theorem commas_in_place_max :
    let tokens := (Scan.ofText (.standard 0) "max(min(1,2),3,4)".toList).tokens.map (·.token)
    ¬ Token.NoComma (.standard 0) (tokens.take 8) ∧ Token.NoComma (.standard 0) (tokens.take 10) := by
  have reachable : (Vocabulary.standard 0).Reachable := ⟨0, [], rfl⟩
  let tokens := (Scan.ofText (.standard 0) "max(min(1,2),3,4)".toList).tokens
  have failed : evaluateExact (.standard 0) "max(min(1,2),3,4)" = .error ⟨.misplacedComma, some 14⟩ := rfl
  obtain ⟨first, firstReached⟩ : ∃ machine,
      (tokens.take 8).foldlM (Machine.step (.standard 0) readNumber?) .initial = .ok machine := ⟨_, rfl⟩
  obtain ⟨second, secondReached⟩ : ∃ machine,
      (tokens.take 10).foldlM (Machine.step (.standard 0) readNumber?) .initial = .ok machine := ⟨_, rfl⟩
  constructor
  · have place := @commas_in_place (.standard 0) reachable "max(min(1,2),3,4)" (tokens.take 8)
      (tokens.drop 9) ⟨.word [','], 12, some '3'⟩ first ⟨by decide +kernel, firstReached⟩ rfl
    intro none
    cases failed.symm.trans (place.mpr none).1
  · have place := @commas_in_place (.standard 0) reachable "max(min(1,2),3,4)" (tokens.take 10)
      (tokens.drop 11) ⟨.word [','], 14, some '4'⟩ second ⟨by decide +kernel, secondReached⟩ rfl
    exact place.mp ⟨failed, by decide +kernel⟩

end Calculator
