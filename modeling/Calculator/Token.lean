import Calculator.Literal
import Calculator.Vocabulary

/-!
Tokens. The scanner looks one character ahead: a name ends where a mark or an operator of one character
follows, a number where the next character would not make a longer literal of it.
-/

namespace Calculator

/-- The text is as written, with the blanks around a number. -/
inductive Token where
  | word (text : Word)
  | number (text : List Char)
deriving DecidableEq, Repr

namespace Token

def text : Token → List Char
  | word text => text
  | number text => text

section

variable {Value : Type} (vocabulary : Vocabulary Value)

def endsName (char : Char) : Bool :=
  vocabulary.knows [char] && !vocabulary.isFunction [char]

def completesWord (candidate : Word) (next : Option Char) : Bool :=
  vocabulary.knows candidate && !candidate.isSign &&
    ((next.isNone && vocabulary.isConstant candidate) || next.any (endsName vocabulary) ||
      !vocabulary.isFunction candidate || next == some '(')

/-- A mark of an exponent keeps a number open, though `1e` is not a literal yet. -/
def completesNumber (candidate : List Char) (next : Option Char) : Bool :=
  isLiteral candidate &&
    next.all fun char => !Exponent.isMark char && !isLiteral (candidate ++ [char])

def complete? (candidate : List Char) (next : Option Char) : Option Token :=
  if completesWord vocabulary candidate next then some (.word candidate)
  else if completesNumber candidate next then some (.number candidate)
  else none

def classify (buffer : List Char) (char : Char) (next : Option Char) : Option Token :=
  complete? vocabulary (buffer ++ [char]) next

theorem complete?_text {candidate : List Char} {next : Option Char} {token : Token}
    (complete : complete? vocabulary candidate next = some token) : token.text = candidate := by
  unfold complete? at complete
  split at complete
  · cases complete
    rfl
  · split at complete
    · cases complete
      rfl
    · cases complete

end

end Token

/-- A token, the index of its last character, and the character after it. -/
structure Placed where
  token : Token
  last : Nat
  next : Option Char
deriving DecidableEq, Repr

structure Scan where
  tokens : List Placed
  rest : List Char
deriving DecidableEq, Repr

namespace Scan

variable {Value : Type} (vocabulary : Vocabulary Value)

def resume (index : Nat) (buffer : List Char) : List Char → Scan
  | [] => ⟨[], buffer⟩
  | char :: rest =>
      match Token.classify vocabulary buffer char rest.head? with
      | some token =>
          let scan := Scan.resume (index + 1) [] rest
          { scan with tokens := ⟨token, index, rest.head?⟩ :: scan.tokens }
      | none => Scan.resume (index + 1) (buffer ++ [char]) rest

def ofText (text : List Char) : Scan :=
  Scan.resume vocabulary 0 [] text

def read (scan : Scan) : List Char :=
  scan.tokens.flatMap (·.token.text) ++ scan.rest

/-- Scanning loses nothing. -/
theorem resume_read (index : Nat) (buffer text : List Char) :
    (resume vocabulary index buffer text).read = buffer ++ text := by
  induction text generalizing index buffer with
  | nil => simp [resume, read]
  | cons char rest ih =>
      unfold resume
      split
      · next token complete =>
          have tail := ih (index + 1) []
          simp only [read, List.nil_append] at tail ⊢
          simp [Token.complete?_text vocabulary complete, tail]
      · next pending =>
          rw [ih]
          simp

theorem ofText_read (text : List Char) : (ofText vocabulary text).read = text :=
  resume_read vocabulary 0 [] text

end Scan

end Calculator
