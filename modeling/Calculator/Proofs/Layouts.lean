import Calculator.Proofs.Normalizing
import Calculator.Proofs.Turns

/-!
Layouts of texts. Normalizing leaves single spaces before some numbers and no other blanks, so that a normal
text is a list of words and literals, some literals with a space before them. The scanner gives such a space to
the number in front of it, or to the literal itself where no number is in front.
-/

namespace Calculator

namespace Text

theorem trim_before {front : List Char} (blank : ∀ char ∈ front, isBlank char = true)
    (text : List Char) : trim (front ++ text) = trim text := by
  rw [trim, trim, trimStart, trimStart, List.dropWhile_append_of_pos blank]

theorem trimEnd_behind {back : List Char} (blank : ∀ char ∈ back, isBlank char = true)
    (text : List Char) : trimEnd (text ++ back) = trimEnd text := by
  have turned : ∀ char ∈ back.reverse, isBlank char = true := fun char member =>
    blank char (List.mem_reverse.mp member)
  rw [trimEnd, trimEnd, List.reverse_append, List.dropWhile_append_of_pos turned]

theorem trim_behind {back : List Char} (blank : ∀ char ∈ back, isBlank char = true)
    (text : List Char) : trim (text ++ back) = trim text := by
  rw [trim, trim, trimStart, trimStart, List.dropWhile_append]
  split
  · next nothing =>
      rw [List.isEmpty_iff.mp nothing, List.dropWhile_eq_nil_iff.mpr blank]
  · exact trimEnd_behind blank _

theorem single_blank {blank : Char} (isBlank : Text.isBlank blank = true) :
    ∀ char ∈ [blank], Text.isBlank char = true := by
  intro char member
  rwa [List.mem_singleton.mp member]

theorem trim_blanks {text : List Char} (blank : ∀ char ∈ text, isBlank char = true) :
    trim text = [] := by
  rw [trim, trimStart, List.dropWhile_eq_nil_iff.mpr blank]
  rfl

theorem trim_parts (text : List Char) : ∃ front back, text = front ++ (trim text ++ back) ∧
    (∀ char ∈ front, isBlank char = true) ∧ ∀ char ∈ back, isBlank char = true := by
  refine ⟨text.takeWhile isBlank, ((trimStart text).reverse.takeWhile isBlank).reverse, ?_, ?_, ?_⟩
  · have ends : trim text ++ ((trimStart text).reverse.takeWhile isBlank).reverse = trimStart text := by
      rw [trim, trimEnd, ← List.reverse_append, List.takeWhile_append_dropWhile, List.reverse_reverse]
    rw [ends]
    exact List.takeWhile_append_dropWhile.symm
  · exact fun char member => List.mem_takeWhile_imp member
  · exact fun char member => List.mem_takeWhile_imp (List.mem_reverse.mp member)

end Text

theorem isLiteral_before {front : List Char} (blank : ∀ char ∈ front, Text.isBlank char = true)
    (text : List Char) : isLiteral (front ++ text) = isLiteral text := by
  rw [isLiteral, isLiteral, Text.trim_before blank]

theorem isLiteral_behind {back : List Char} (blank : ∀ char ∈ back, Text.isBlank char = true)
    (text : List Char) : isLiteral (text ++ back) = isLiteral text := by
  rw [isLiteral, isLiteral, Text.trim_behind blank]

theorem blanks_no_literal {text : List Char} (blank : ∀ char ∈ text, Text.isBlank char = true) :
    isLiteral text = false := by
  rw [isLiteral, Text.trim_blanks blank]
  rfl

/-- A literal with blanks behind it stays one with one more of them. -/
theorem isLiteral_one_more {literal : Literal} (valid : literal.Valid) {pad back others : List Char}
    {following : Char} (behind : ∀ char ∈ back, Text.isBlank char = true)
    (split : back = pad ++ following :: others) :
    isLiteral (literal.toText ++ pad ++ [following]) = true := by
  rw [List.append_assoc, isLiteral_behind, isLiteral_toText valid]
  intro char member
  apply behind char
  rw [split, List.append_cons]
  exact List.mem_append_left _ member

/-- Where a literal with blanks around it is read up to some character and a literal so far, that character is
the mark of its exponent, or it is a literal with it as well. -/
theorem isLiteral_goes_further {literal : Literal} (valid : literal.Valid)
    {front back candidate others : List Char} {following : Char}
    (before : ∀ char ∈ front, Text.isBlank char = true)
    (behind : ∀ char ∈ back, Text.isBlank char = true)
    (split : front ++ (literal.toText ++ back) = candidate ++ following :: others)
    (accepted : isLiteral candidate = true) :
    Exponent.isMark following = true ∨ isLiteral (candidate ++ [following]) = true := by
  rcases List.append_eq_append_iff.mp split with ⟨read, rfl, inner⟩ | ⟨ahead, rfl, _⟩
  · rw [isLiteral_before before] at accepted
    rw [List.append_assoc, isLiteral_before before]
    rcases List.append_eq_append_iff.mp inner with ⟨pad, rfl, more⟩ | ⟨ahead, text, more⟩
    · exact .inr (isLiteral_one_more valid behind more)
    · cases ahead with
      | nil =>
          -- The literal ends here, and the blanks behind it start.
          have longer := @isLiteral_one_more literal valid [] back others following behind more.symm
          rw [List.append_nil] at longer text
          exact .inr (text ▸ longer)
      | cons char rest =>
          cases (List.cons.inj more).1
          exact isLiteral_goes_on valid text accepted
  · have blank := blanks_no_literal fun char member => before char (List.mem_append_left _ member)
    cases accepted.symm.trans blank

/-- A blank within a text that ends in something else keeps it from being a literal. -/
theorem isLiteral_apart {literal : Literal} (valid : literal.Valid) {char : Char}
    (solid : Text.isBlank char = false) : isLiteral (literal.toText ++ [' '] ++ [char]) = false := by
  cases accepted : isLiteral (literal.toText ++ [' '] ++ [char]) with
  | false => rfl
  | true =>
      obtain ⟨other, otherValid, written⟩ := isLiteral_written accepted
      rcases Literal.toText_head valid with ⟨first, rest, text, starts⟩
      have firstSolid := Literal.toText_solid valid first (by simp [text])
      rw [Text.trim_snoc _ solid, text, List.cons_append, Text.trimStart,
        List.dropWhile_cons_of_neg (by simp [firstSolid])] at written
      have blank := Literal.toText_solid otherValid ' ' (by simp [written])
      cases blank

variable {Value : Type} {vocabulary : Vocabulary Value}

theorem Token.completesWord_known {word : Word} {next : Option Char}
    (complete : completesWord vocabulary word next = true) :
    vocabulary.knows word = true ∧ word.isSign = false := by
  simp only [completesWord, Bool.and_eq_true, Bool.not_eq_true'] at complete
  exact complete.1

namespace Vocabulary.Lawful

open Token

theorem blank_unknown (lawful : vocabulary.Lawful) {char : Char} {rest : List Char}
    (blank : Text.isBlank char = true) : vocabulary.knows (char :: rest) = false := by
  by_cases known : vocabulary.knows (char :: rest) = true
  · rcases lawful.known_head known with ⟨first, tail, same, solid, _⟩
    cases same
    cases blank.symm.trans solid
  · simpa using known

/-- With blanks around it, a literal is no word, nor does it start with one. -/
theorem padded_unknown (lawful : vocabulary.Lawful) {literal : Literal} (valid : literal.Valid)
    {front back candidate others : List Char} (blank : ∀ char ∈ front, Text.isBlank char = true)
    (split : front ++ (literal.toText ++ back) = candidate ++ others) (nonempty : candidate ≠ []) :
    vocabulary.knows candidate = false := by
  cases candidate with
  | nil => exact absurd rfl nonempty
  | cons first rest =>
      cases front with
      | nil =>
          rcases Literal.toText_head valid with ⟨char, tail, text, starts⟩
          rw [text] at split
          cases (List.cons.inj split).1
          exact lawful.numeral_unknown starts
      | cons char tail =>
          cases (List.cons.inj split).1
          exact lawful.blank_unknown (blank first List.mem_cons_self)

/-- No part of a literal with blanks around it is a token. -/
theorem padded_pending (lawful : vocabulary.Lawful) {literal : Literal} (valid : literal.Valid)
    {front back : List Char} (before : ∀ char ∈ front, Text.isBlank char = true)
    (behind : ∀ char ∈ back, Text.isBlank char = true) {candidate others : List Char}
    {following : Char} (split : front ++ (literal.toText ++ back) = candidate ++ following :: others)
    (nonempty : candidate ≠ []) : complete? vocabulary candidate (some following) = none := by
  have noWord : completesWord vocabulary candidate (some following) = false := by
    simp [completesWord, lawful.padded_unknown valid before split nonempty]
  have noNumber : completesNumber candidate (some following) = false := by
    cases accepted : isLiteral candidate with
    | false => simp [completesNumber, accepted]
    | true =>
        rcases isLiteral_goes_further valid before behind split accepted with mark | longer
        · simp [completesNumber, mark]
        · simp [completesNumber, longer]
  simp [complete?, noWord, noNumber]

theorem emits_padded (lawful : vocabulary.Lawful) {literal : Literal} (valid : literal.Valid)
    {front back : List Char} (before : ∀ char ∈ front, Text.isBlank char = true)
    (behind : ∀ char ∈ back, Text.isBlank char = true) {next : Option Char}
    (complete : completesNumber (front ++ (literal.toText ++ back)) next = true) :
    Emits vocabulary (.number (front ++ (literal.toText ++ back))) []
      (front ++ (literal.toText ++ back)) next := by
  have nonempty : front ++ (literal.toText ++ back) ≠ [] := by
    rcases Literal.toText_head valid with ⟨char, rest, text, _⟩
    simp [text]
  apply emits_whole nonempty
  · intro candidate following others split some
    exact lawful.padded_pending valid before behind split some
  · have unknown := lawful.padded_unknown valid before (List.append_nil _).symm nonempty
    simp [complete?, completesWord, unknown, complete]

theorem emits_word (lawful : vocabulary.Lawful) {word : Word} {next : Option Char}
    (complete : completesWord vocabulary word next = true) :
    Emits vocabulary (.word word) [] word next := by
  have known := completesWord_known complete
  rcases lawful.known_cases known.1 with symbol | sign | ⟨_, callable⟩
  · rcases Word.symbol_single symbol with ⟨char, rfl⟩
    exact lawful.emits_symbol symbol next
  · cases known.2.symm.trans sign
  · exact lawful.emits_name callable complete

end Vocabulary.Lawful

structure Item where
  spaced : Bool
  token : Token
deriving DecidableEq, Repr

namespace Item

def space (present : Bool) : List Char :=
  if present then [' '] else []

def text (item : Item) : List Char :=
  space item.spaced ++ item.token.text

def layout (items : List Item) : List Char :=
  items.flatMap text

def spaceAhead : List Item → Bool
  | [] => false
  | item :: _ => item.spaced

/-- The tokens that are read from items: numbers take the spaces around them, unless the number before has
taken the one in front already. -/
def tokens : Bool → List Item → List Token
  | _, [] => []
  | _, ⟨_, .word word⟩ :: rest => .word word :: tokens false rest
  | behindNumber, ⟨spaced, .number text⟩ :: rest =>
      .number (space (spaced && !behindNumber) ++ (text ++ space (spaceAhead rest))) :: tokens true rest

@[simp]
theorem space_false : space false = [] :=
  rfl

@[simp]
theorem space_true : space true = [' '] :=
  rfl

@[simp]
theorem spaceAhead_cons (item : Item) (rest : List Item) : spaceAhead (item :: rest) = item.spaced :=
  rfl

@[simp]
theorem layout_nil : layout [] = [] :=
  rfl

@[simp]
theorem layout_cons (item : Item) (rest : List Item) : layout (item :: rest) = item.text ++ layout rest := by
  simp [layout]

section

variable (vocabulary)

/-- Items that do not run into each other: each word is complete before what comes next, and each number is,
or there is a space between. -/
inductive Apart : List Item → Prop where
  | nil : Apart []
  | word {word : Word} {rest : List Item}
      (complete : Token.completesWord vocabulary word (layout rest).head? = true)
      (later : Apart rest) : Apart (⟨false, .word word⟩ :: rest)
  | number {spaced : Bool} {literal : Literal} {rest : List Item} (valid : literal.Valid)
      (complete : spaceAhead rest = true ∨
        Token.completesNumber literal.toText (layout rest).head? = true)
      (later : Apart rest) : Apart (⟨spaced, .number literal.toText⟩ :: rest)

variable {vocabulary} {items : List Item}

theorem space_blank (present : Bool) : ∀ char ∈ space present, Text.isBlank char = true := by
  cases present with
  | false => exact fun char none => absurd none List.not_mem_nil
  | true => exact Text.single_blank rfl

namespace Apart

theorem space_before_number (apart : Apart vocabulary items) (space : spaceAhead items = true) :
    ∃ (literal : Literal) (rest : List Item), literal.Valid ∧
      items = ⟨true, .number literal.toText⟩ :: rest := by
  cases apart with
  | nil | word => cases space
  | number valid complete later =>
      cases space
      exact ⟨_, _, valid, rfl⟩

theorem layout_tokens (apart : Apart vocabulary items) (behindNumber : Bool) :
    layout items = space (behindNumber && spaceAhead items) ++
      Token.spelling (tokens behindNumber items) := by
  induction apart generalizing behindNumber with
  | nil => simp [spaceAhead, tokens]
  | word complete later ih => simp [tokens, text, Token.text, ih false]
  | @number spaced literal rest valid complete later ih =>
      rw [layout_cons, ih true]
      cases spaced <;> cases behindNumber <;> simp [tokens, text, Token.text]

/-- What the tokens behind a number start with: the layout, or where a space was taken, another number. -/
theorem head_tokens (apart : Apart vocabulary items) :
    spaceAhead items = false ∧ (Token.spelling (tokens true items)).head? = (layout items).head? ∨
      spaceAhead items = true ∧ ∃ char, Text.isBlank char = false ∧ Text.startsNumber char = true ∧
        (Token.spelling (tokens true items)).head? = some char := by
  cases space : spaceAhead items with
  | false =>
      left
      rw [apart.layout_tokens true, space]
      exact ⟨rfl, rfl⟩
  | true =>
      right
      rcases apart.space_before_number space with ⟨literal, rest, valid, rfl⟩
      rcases Literal.toText_head valid with ⟨char, others, text, starts⟩
      have solid := Literal.toText_solid valid char (by simp [text])
      exact ⟨rfl, char, solid, starts, by simp [tokens, Token.text, text]⟩

theorem completes_padded {literal : Literal} {rest : List Item} (valid : literal.Valid)
    (complete : spaceAhead rest = true ∨
      Token.completesNumber literal.toText (layout rest).head? = true)
    (later : Apart vocabulary rest) (spaced : Bool) :
    Token.completesNumber (space spaced ++ (literal.toText ++ space (spaceAhead rest)))
      (Token.spelling (tokens true rest)).head? = true := by
  rw [Token.completesNumber, isLiteral_before (space_blank spaced), isLiteral_behind (space_blank _),
    isLiteral_toText valid, Bool.true_and]
  rcases later.head_tokens with ⟨noSpace, ahead⟩ | ⟨space, char, solid, starts, ahead⟩
  · rw [ahead, noSpace]
    rcases complete with space | complete
    · cases noSpace.symm.trans space
    · simp only [Token.completesNumber, Bool.and_eq_true] at complete
      simpa [isLiteral_before (space_blank spaced)] using complete.2
  · -- The number behind the space neither goes on with the exponent nor with the digits of this one.
    have mark : Exponent.isMark char = false := by
      cases mark : Exponent.isMark char with
      | false => rfl
      | true =>
          simp only [Exponent.isMark, Bool.or_eq_true, beq_iff_eq] at mark
          rcases mark with rfl | rfl <;> cases starts
    have longer := isLiteral_apart valid solid
    rw [ahead, space]
    simp only [space_true, Option.all_some, mark, List.append_assoc]
    rw [isLiteral_before (space_blank spaced), ← List.append_assoc, longer]
    rfl

theorem legible (lawful : vocabulary.Lawful) (apart : Apart vocabulary items) (behindNumber : Bool) :
    Token.Legible vocabulary (tokens behindNumber items) none := by
  induction apart generalizing behindNumber with
  | nil => trivial
  | @word word rest complete later ih =>
      refine ⟨?_, ih false⟩
      rw [later.layout_tokens false, Bool.false_and] at complete
      rw [Option.or_none]
      exact lawful.emits_word complete
  | @number spaced literal rest valid complete later ih =>
      refine ⟨?_, ih true⟩
      rw [Option.or_none]
      apply lawful.emits_padded valid (space_blank _) (space_blank _)
      exact later.completes_padded valid complete _

theorem trimmed_tokens (apart : Apart vocabulary items) (behindNumber : Bool) :
    (tokens behindNumber items).map Token.trimmed = items.map Item.token := by
  induction apart generalizing behindNumber with
  | nil => rfl
  | word complete later ih => simp [tokens, Token.trimmed, ih]
  | number valid complete later ih =>
      simp [tokens, Token.trimmed, ih, Text.trim_before (space_blank _),
        Text.trim_behind (space_blank _), Text.trim_solid (Literal.toText_solid valid)]

theorem scan (lawful : vocabulary.Lawful) (apart : Apart vocabulary items) :
    Scan.ofText vocabulary (layout items) = ⟨Token.place 0 (tokens false items) none, []⟩ := by
  have spelled := apart.layout_tokens false
  rw [Bool.false_and, space_false, List.nil_append] at spelled
  rw [spelled]
  exact Scan.ofText_legible (apart.legible lawful false)

end Apart

end

end Item

end Calculator
