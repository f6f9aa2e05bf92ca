import Calculator.Operator

/-!
Vocabularies: the words that an expression may use, and what each of them stands for. The predefined
words stay as they are; functions of other names come and go.
-/

namespace Calculator

abbrev Word := List Char

structure Vocabulary (Value : Type) where
  entries : List (Word × Operator Value)
  predefined : List Word

namespace Word

/-- The words of the signs in front of operands. They are never written: a `-` or `+` stands for them. -/
def negative : Word := "uminus".toList

def positive : Word := "uplus".toList

def isSign (word : Word) : Bool :=
  word == negative || word == positive

def isAtMost : Word → Word → Bool
  | [], _ => true
  | _ :: _, [] => false
  | first :: rest, second :: others =>
      first.toNat < second.toNat || (first == second && isAtMost rest others)

def isName (word : Word) : Bool :=
  !word.isEmpty && word.all Char.isAlphanum

def isNewName (word : Word) : Bool :=
  word.isName && 2 ≤ word.length && word.head?.any Char.isAlpha

end Word

namespace Vocabulary

variable {Value : Type}

def ofTable (table : List (Word × Operator Value)) : Vocabulary Value :=
  ⟨table, table.map Prod.fst⟩

def get? (vocabulary : Vocabulary Value) (word : Word) : Option (Operator Value) :=
  vocabulary.entries.lookup word

def knows (vocabulary : Vocabulary Value) (word : Word) : Bool :=
  (vocabulary.get? word).isSome

def isFunction (vocabulary : Vocabulary Value) (word : Word) : Bool :=
  (vocabulary.get? word).any Operator.isFunction

def isConstant (vocabulary : Vocabulary Value) (word : Word) : Bool :=
  (vocabulary.get? word).any Operator.isConstant

def isPredefined (vocabulary : Vocabulary Value) (word : Word) : Bool :=
  vocabulary.predefined.contains word

def insert (vocabulary : Vocabulary Value) (word : Word) (operator : Operator Value) :
    Vocabulary Value :=
  { vocabulary with entries := (word, operator) :: vocabulary.entries.filter (·.1 != word) }

def erase (vocabulary : Vocabulary Value) (word : Word) : Vocabulary Value :=
  { vocabulary with entries := vocabulary.entries.filter (·.1 != word) }

theorem lookup_filter_self (entries : List (Word × Operator Value)) (word : Word) :
    (entries.filter (·.1 != word)).lookup word = none := by
  rw [List.lookup_eq_none_iff]
  intro entry member
  have kept := (List.mem_filter.mp member).2
  exact bne_comm.trans kept

theorem lookup_filter_other (entries : List (Word × Operator Value)) {word other : Word}
    (different : other ≠ word) :
    (entries.filter (·.1 != word)).lookup other = entries.lookup other := by
  induction entries with
  | nil => rfl
  | cons entry rest ih =>
      obtain ⟨key, operator⟩ := entry
      by_cases same : key = word
      · simp [same, List.lookup_cons, beq_false_of_ne different, ih]
      · simp [same, List.lookup_cons, ih]

theorem get?_insert_self (vocabulary : Vocabulary Value) (word : Word)
    (operator : Operator Value) : (vocabulary.insert word operator).get? word = some operator := by
  simp [get?, insert]

theorem get?_insert_other (vocabulary : Vocabulary Value) {word other : Word}
    (operator : Operator Value) (different : other ≠ word) :
    (vocabulary.insert word operator).get? other = vocabulary.get? other := by
  simp [get?, insert, List.lookup_cons, beq_false_of_ne different, lookup_filter_other, different]

theorem get?_erase_self (vocabulary : Vocabulary Value) (word : Word) :
    (vocabulary.erase word).get? word = none :=
  lookup_filter_self vocabulary.entries word

theorem get?_erase_other (vocabulary : Vocabulary Value) {word other : Word}
    (different : other ≠ word) : (vocabulary.erase word).get? other = vocabulary.get? other :=
  lookup_filter_other vocabulary.entries different

def add (vocabulary : Vocabulary Value) (name : Word) (arity : Arity) (body : Body Value) :
    Except Fault (Vocabulary Value) :=
  if !name.isNewName then .error (.of (.invalidName (String.ofList name)))
  else if vocabulary.isPredefined name then .error (.of (.overridesPredefined (String.ofList name)))
  else .ok (vocabulary.insert name (.function arity body))

def remove (vocabulary : Vocabulary Value) (name : Word) : Except Fault (Vocabulary Value) :=
  if !name.isName then .error (.of (.invalidName (String.ofList name)))
  else if !vocabulary.isFunction name then .error (.of (.unknownFunction (String.ofList name)))
  else if vocabulary.isPredefined name then .error (.of (.removesPredefined (String.ofList name)))
  else .ok (vocabulary.erase name)

def words (vocabulary : Vocabulary Value) : List Word :=
  (vocabulary.entries.map Prod.fst).mergeSort Word.isAtMost

def size (vocabulary : Vocabulary Value) : Nat :=
  vocabulary.entries.length

def isEmpty (vocabulary : Vocabulary Value) : Bool :=
  vocabulary.entries.isEmpty

end Vocabulary

inductive Edit (Value : Type) where
  | add (name : Word) (arity : Arity) (body : Body Value)
  | remove (name : Word)

namespace Edit

variable {Value : Type}

def attempt (vocabulary : Vocabulary Value) : Edit Value → Except Fault (Vocabulary Value)
  | .add name arity body => vocabulary.add name arity body
  | .remove name => vocabulary.remove name

def apply (vocabulary : Vocabulary Value) (edit : Edit Value) : Vocabulary Value :=
  match edit.attempt vocabulary with
  | .ok changed => changed
  | .error _ => vocabulary

def applyAll (vocabulary : Vocabulary Value) (edits : List (Edit Value)) : Vocabulary Value :=
  edits.foldl apply vocabulary

end Edit

end Calculator
