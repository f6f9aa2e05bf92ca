import Calculator.Predefined

/-!
What all vocabularies of a calculator have in common. Edits leave the predefined words as they are, and
whatever they add is a function under a name, so that marks, operators and signs keep their meaning.
-/

namespace Calculator

namespace Word

def symbols : List Word :=
  [['('], [')'], [','], ['+'], ['-'], ['*'], ['/'], ['%'], ['^']]

def isFunctionName (word : Word) : Bool :=
  word.isName && word.head?.any Char.isAlpha

theorem negative_chars : negative = ['u', 'm', 'i', 'n', 'u', 's'] :=
  rfl

theorem positive_chars : positive = ['u', 'p', 'l', 'u', 's'] :=
  rfl

theorem symbol_cases {word : Word} (symbol : word ∈ symbols) :
    word ∈ [['('], [')'], [',']] ∨ word ∈ [['+'], ['-']] ∨ word ∈ [['*'], ['/'], ['%']] ∨
      word = ['^'] := by
  simpa [symbols, or_assoc] using symbol

theorem infix_cases {word : Word}
    (infixed : word ∈ [['+'], ['-'], ['*'], ['/'], ['%'], ['^']]) :
    word ∈ [['+'], ['-']] ∨ word ∈ [['*'], ['/'], ['%']] ∨ word = ['^'] := by
  simpa [or_assoc] using infixed

theorem single_not_sign (char : Char) : isSign [char] = false := by
  simp [isSign, negative_chars, positive_chars]

end Word

theorem Operator.constant_function {Value : Type} {operator : Operator Value}
    (constant : operator.isConstant = true) : operator.isFunction = true := by
  simp only [isConstant, Bool.and_eq_true] at constant
  exact constant.1

namespace Vocabulary

section

variable {Value : Type}

/-- The words that every expression may rely on, and how operators and functions bind. -/
structure Lawful (vocabulary : Vocabulary Value) : Prop where
  mark : ∀ word ∈ [['('], [')'], [',']], vocabulary.get? word = some .mark
  sum : ∀ word ∈ [['+'], ['-']], ∃ compute,
    vocabulary.get? word = some (.arithmetic 2 1 .left compute)
  product : ∀ word ∈ [['*'], ['/'], ['%']], ∃ compute,
    vocabulary.get? word = some (.arithmetic 2 2 .left compute)
  power : ∃ compute, vocabulary.get? ['^'] = some (.arithmetic 2 3 .right compute)
  sign : ∀ word ∈ [Word.negative, Word.positive], ∃ compute,
    vocabulary.get? word = some (.arithmetic 1 4 .neither compute)
  name : ∀ {word operator}, vocabulary.get? word = some operator →
    operator.isFunction = true → word.isFunctionName = true
  function : ∀ {word operator}, vocabulary.get? word = some operator →
    operator.isFunction = true → operator.isConstant = false →
      operator.precedence = 4 ∧ operator.associativity = .left
  other : ∀ {word operator}, vocabulary.get? word = some operator →
    operator.isFunction = false → word ∈ Word.symbols ∨ word.isSign = true

theorem constant_function {vocabulary : Vocabulary Value} {word : Word}
    (constant : vocabulary.isConstant word = true) : vocabulary.isFunction word = true := by
  obtain ⟨operator, known, isConstant⟩ := (Option.any_eq_true _ _).mp constant
  simp [isFunction, known, operator.constant_function isConstant]

namespace Lawful

variable {vocabulary : Vocabulary Value}

theorem symbol_operator (lawful : vocabulary.Lawful) {word : Word} (symbol : word ∈ Word.symbols) :
    ∃ operator, vocabulary.get? word = some operator ∧ operator.isFunction = false := by
  rcases Word.symbol_cases symbol with mark | sum | product | rfl
  · exact ⟨.mark, lawful.mark word mark, rfl⟩
  · obtain ⟨compute, known⟩ := lawful.sum word sum
    exact ⟨_, known, rfl⟩
  · obtain ⟨compute, known⟩ := lawful.product word product
    exact ⟨_, known, rfl⟩
  · obtain ⟨compute, known⟩ := lawful.power
    exact ⟨_, known, rfl⟩

theorem symbol_not_function (lawful : vocabulary.Lawful) {word : Word}
    (symbol : word ∈ Word.symbols) : vocabulary.isFunction word = false := by
  obtain ⟨operator, known, notFunction⟩ := lawful.symbol_operator symbol
  simp [isFunction, known, notFunction]

theorem symbol_known (lawful : vocabulary.Lawful) {word : Word}
    (symbol : word ∈ Word.symbols) : vocabulary.knows word = true := by
  obtain ⟨operator, known, _⟩ := lawful.symbol_operator symbol
  simp [knows, known]

theorem function_known {word : Word} (function : vocabulary.isFunction word = true) :
    ∃ operator, vocabulary.get? word = some operator ∧ operator.isFunction = true := by
  simpa [isFunction, Option.any_eq_true] using function

theorem known_cases (lawful : vocabulary.Lawful) {word : Word} (known : vocabulary.knows word = true) :
    word ∈ Word.symbols ∨ word.isSign = true ∨
      vocabulary.isFunction word = true ∧ word.isFunctionName = true := by
  obtain ⟨operator, found⟩ := Option.isSome_iff_exists.mp known
  cases function : operator.isFunction with
  | false =>
      cases lawful.other found function with
      | inl symbol => exact Or.inl symbol
      | inr sign => exact Or.inr (Or.inl sign)
  | true =>
      exact Or.inr (Or.inr ⟨by simp [isFunction, found, function], lawful.name found function⟩)

end Lawful

end

structure Extends (base vocabulary : Vocabulary Float) : Prop where
  predefined : vocabulary.predefined = base.predefined
  kept : ∀ word ∈ base.predefined, vocabulary.get? word = base.get? word
  added : ∀ {word operator}, word ∉ base.predefined → vocabulary.get? word = some operator →
    word.isNewName = true ∧ ∃ arity body, operator = .function arity body

namespace Extends

variable {base vocabulary : Vocabulary Float}

theorem not_predefined (extension : base.Extends vocabulary) {word : Word}
    (free : vocabulary.isPredefined word = false) : word ∉ base.predefined := by
  intro member
  rw [isPredefined, extension.predefined] at free
  simp [member] at free

-- Adding and removing both touch one name, which is not predefined, and leave the other entries.
theorem replace (extension : base.Extends vocabulary) {changed : Vocabulary Float} {name : Word}
    (free : vocabulary.isPredefined name = false)
    (predefined : changed.predefined = vocabulary.predefined)
    (others : ∀ word, word ≠ name → changed.get? word = vocabulary.get? word)
    (own : ∀ operator, changed.get? name = some operator →
      name.isNewName = true ∧ ∃ arity body, operator = .function arity body) :
    base.Extends changed := by
  have fresh := extension.not_predefined free
  constructor
  · rw [predefined, extension.predefined]
  · intro word member
    have different : word ≠ name := by
      intro same
      exact fresh (same ▸ member)
    rw [others word different]
    exact extension.kept word member
  · intro word operator absent found
    by_cases same : word = name
    · subst same
      exact own operator found
    · rw [others word same] at found
      exact extension.added absent found

theorem insert (extension : base.Extends vocabulary) {name : Word} {arity : Arity}
    {body : Body Float} (valid : name.isNewName = true)
    (free : vocabulary.isPredefined name = false) :
    base.Extends (vocabulary.insert name (.function arity body)) := by
  refine extension.replace free ?_ ?_ ?_
  · rfl
  · intro word different
    exact get?_insert_other _ _ different
  · intro operator found
    rw [get?_insert_self] at found
    cases found
    exact ⟨valid, arity, body, rfl⟩

theorem erase (extension : base.Extends vocabulary) {name : Word}
    (free : vocabulary.isPredefined name = false) : base.Extends (vocabulary.erase name) := by
  refine extension.replace free ?_ ?_ ?_
  · rfl
  · intro word different
    exact get?_erase_other _ different
  · intro operator found
    rw [get?_erase_self] at found
    cases found

theorem edit (extension : base.Extends vocabulary) (change : Edit Float) :
    base.Extends (change.apply vocabulary) := by
  cases change with
  | add name arity body =>
      simp only [Edit.apply, Edit.attempt, add]
      by_cases valid : name.isNewName = true
      · cases free : vocabulary.isPredefined name with
        | false => simpa [valid] using extension.insert valid free
        | true => simpa [valid] using extension
      · simpa [valid] using extension
  | remove name =>
      simp only [Edit.apply, Edit.attempt, remove]
      by_cases valid : name.isName = true
      · by_cases function : vocabulary.isFunction name = true
        · cases free : vocabulary.isPredefined name with
          | false => simpa [valid, function] using extension.erase free
          | true => simpa [valid, function] using extension
        · simpa [valid, function] using extension
      · simpa [valid] using extension

theorem edits (extension : base.Extends vocabulary) (changes : List (Edit Float)) :
    base.Extends (Edit.applyAll vocabulary changes) := by
  induction changes generalizing vocabulary with
  | nil => exact extension
  | cons change rest ih => exact ih (extension.edit change)

end Extends

def fits (entry : Word × Operator Float) : Bool :=
  if entry.2.isFunction then
    entry.1.isFunctionName &&
      (entry.2.isConstant || entry.2.precedence == 4 && entry.2.associativity == .left)
  else Word.symbols.contains entry.1 || entry.1.isSign

-- Evaluation checks the table as it stands, whatever number was drawn for the random constant.
theorem table_fits (draw : Float) : (Predefined.table draw).all fits = true := by
  rfl

theorem standard_fits {draw : Float} {word : Word} {operator : Operator Float}
    (found : (standard draw).get? word = some operator) : fits (word, operator) = true := by
  obtain ⟨before, after, entries, _⟩ := List.lookup_eq_some_iff.mp found
  apply List.all_eq_true.mp (table_fits draw)
  have member : (word, operator) ∈ (standard draw).entries := by simp [entries]
  exact member

theorem standard_predefined {draw : Float} {word : Word} {operator : Operator Float}
    (found : (standard draw).get? word = some operator) : word ∈ (standard draw).predefined := by
  obtain ⟨before, after, entries, _⟩ := List.lookup_eq_some_iff.mp found
  have member : (word, operator) ∈ Predefined.table draw := by
    change (word, operator) ∈ (standard draw).entries
    simp [entries]
  exact List.mem_map.mpr ⟨_, member, rfl⟩

theorem extends_self (draw : Float) : (standard draw).Extends (standard draw) := by
  constructor
  · rfl
  · intro word _
    rfl
  · intro word operator absent found
    exact absurd (standard_predefined found) absent

theorem newName_callable {word : Word} (valid : word.isNewName = true) :
    word.isFunctionName = true := by
  simp only [Word.isNewName, Bool.and_eq_true] at valid
  simp [Word.isFunctionName, valid.1.1, valid.2]

namespace Extends

variable {vocabulary : Vocabulary Float} {draw : Float}

theorem found (extension : (standard draw).Extends vocabulary) {word : Word}
    {operator : Operator Float} (known : (standard draw).get? word = some operator) :
    vocabulary.get? word = some operator := by
  rw [extension.kept word (standard_predefined known), known]

theorem cases (extension : (standard draw).Extends vocabulary) {word : Word}
    {operator : Operator Float} (known : vocabulary.get? word = some operator) :
    fits (word, operator) = true ∨
      word.isFunctionName = true ∧ ∃ arity body, operator = .function arity body := by
  by_cases member : word ∈ (standard draw).predefined
  · rw [extension.kept word member] at known
    exact Or.inl (standard_fits known)
  · obtain ⟨valid, shape⟩ := extension.added member known
    exact Or.inr ⟨newName_callable valid, shape⟩

theorem lawful (extension : (standard draw).Extends vocabulary) : vocabulary.Lawful where
  mark := by
    intro word member
    simp only [List.mem_cons, List.not_mem_nil, or_false] at member
    rcases member with rfl | rfl | rfl <;> exact extension.found rfl
  sum := by
    intro word member
    simp only [List.mem_cons, List.not_mem_nil, or_false] at member
    rcases member with rfl | rfl <;> exact ⟨_, extension.found rfl⟩
  product := by
    intro word member
    simp only [List.mem_cons, List.not_mem_nil, or_false] at member
    rcases member with rfl | rfl | rfl <;> exact ⟨_, extension.found rfl⟩
  power := ⟨_, extension.found rfl⟩
  sign := by
    intro word member
    simp only [List.mem_cons, List.not_mem_nil, or_false] at member
    rcases member with rfl | rfl <;> exact ⟨_, extension.found rfl⟩
  name := by
    intro word operator known function
    rcases extension.cases known with fit | ⟨callable, _⟩
    · simp only [fits, function, if_true, Bool.and_eq_true] at fit
      exact fit.1
    · exact callable
  function := by
    intro word operator known function takesOperands
    rcases extension.cases known with fit | ⟨_, arity, body, rfl⟩
    · simp only [fits, function, takesOperands, if_true, Bool.false_or, Bool.and_eq_true,
        beq_iff_eq] at fit
      exact fit.2
    · exact ⟨rfl, rfl⟩
  other := by
    intro word operator known notFunction
    rcases extension.cases known with fit | ⟨_, arity, body, rfl⟩
    · simpa [fits, notFunction] using fit
    · cases notFunction

end Extends

inductive Computes : Char → (Float → Float → Float) → Prop where
  | sum : Computes '+' (· + ·)
  | difference : Computes '-' (· - ·)
  | product : Computes '*' (· * ·)
  | quotient : Computes '/' (· / ·)
  | remainder : Computes '%' remainder
  | power : Computes '^' Float.pow

/-- The operators between operands are the predefined ones in every vocabulary. -/
theorem Reachable.computes {vocabulary : Vocabulary Float} (reachable : vocabulary.Reachable) {symbol : Char}
    {compute : Float → Float → Float} (computes : Computes symbol compute) : ∃ precedence associativity,
      vocabulary.get? [symbol] = some (Predefined.binary precedence associativity compute) := by
  obtain ⟨draw, edits, rfl⟩ := reachable
  have extension := (extends_self draw).edits edits
  cases computes <;> exact ⟨_, _, extension.found rfl⟩

theorem Reachable.lawful {vocabulary : Vocabulary Float} (reachable : vocabulary.Reachable) :
    vocabulary.Lawful := by
  obtain ⟨draw, edits, rfl⟩ := reachable
  exact ((extends_self draw).edits edits).lawful

end Vocabulary

end Calculator
