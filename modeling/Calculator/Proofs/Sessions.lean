import Calculator.Proofs.Words

/-!
Sessions of edits. A vocabulary keeps its predefined words, and any other word stands for the function that the
last edit of it has added, if an edit of it was made at all and was no removal. Whether an edit is made depends
on its name and on what the vocabulary has at that moment.
-/

namespace Calculator

namespace Word

/-- Some letters and digits: `[a-zA-Z0-9]+`. -/
structure Alphanumeric (word : Word) : Prop where
  nonempty : word ≠ []
  chars : ∀ char ∈ word, char.isAlpha = true ∨ char.isDigit = true

/-- A letter with more letters and digits behind it: `[a-zA-Z][a-zA-Z0-9]+`. -/
structure Nameable (word : Word) : Prop where
  split : ∃ first rest, word = first :: rest ∧ first.isAlpha = true ∧ Alphanumeric rest

theorem isName_iff (word : Word) : word.isName = true ↔ word.Alphanumeric := by
  constructor
  · intro name
    simp only [isName, Bool.and_eq_true, Bool.not_eq_true', List.isEmpty_eq_false_iff,
      List.all_eq_true, Char.isAlphanum, Bool.or_eq_true] at name
    exact ⟨name.1, name.2⟩
  · rintro ⟨nonempty, chars⟩
    simpa [isName, Char.isAlphanum, nonempty] using chars

theorem isNewName_iff (word : Word) : word.isNewName = true ↔ word.Nameable := by
  rw [isNewName, Bool.and_eq_true, Bool.and_eq_true, isName_iff]
  constructor
  · rintro ⟨⟨name, long⟩, letter⟩
    cases word with
    | nil => cases letter
    | cons first rest =>
        have more : rest ≠ [] := by
          rintro rfl
          simp at long
        exact ⟨first, rest, rfl, letter, more, fun char member =>
          name.chars char (List.mem_cons_of_mem _ member)⟩
  · rintro ⟨first, rest, rfl, letter, more, chars⟩
    refine ⟨⟨⟨by simp, ?_⟩, ?_⟩, letter⟩
    · intro char member
      rcases List.mem_cons.mp member with rfl | later
      · exact .inl letter
      · exact chars char later
    · have length := List.length_pos_iff.mpr more
      simp only [List.length_cons, decide_eq_true_eq]
      omega

theorem Nameable.alphanumeric {word : Word} (nameable : word.Nameable) : word.Alphanumeric := by
  have valid := (isNewName_iff word).mpr nameable
  simp only [isNewName, Bool.and_eq_true] at valid
  exact (isName_iff word).mp valid.1.1

theorem isAtMost_total (first second : Word) :
    (first.isAtMost second || second.isAtMost first) = true := by
  induction first generalizing second with
  | nil => rfl
  | cons char rest ih =>
      cases second with
      | nil => rfl
      | cons other others =>
          rcases Nat.lt_trichotomy char.toNat other.toNat with less | same | greater
          · simp [isAtMost, less]
          · have same := Char.toNat_inj.mp same
            simpa [isAtMost, same] using ih others
          · simp [isAtMost, greater]

theorem isAtMost_trans (first second third : Word) (low : first.isAtMost second = true)
    (high : second.isAtMost third = true) : first.isAtMost third = true := by
  induction first generalizing second third with
  | nil => rfl
  | cons char rest ih =>
      cases second with
      | nil => cases low
      | cons middle between =>
          cases third with
          | nil => cases high
          | cons last others =>
              simp only [isAtMost, Bool.or_eq_true, decide_eq_true_eq, Bool.and_eq_true,
                beq_iff_eq] at low high ⊢
              rcases low with less | ⟨rfl, low⟩
              · rcases high with further | ⟨rfl, _⟩
                · exact .inl (Nat.lt_trans less further)
                · exact .inl less
              · rcases high with further | ⟨rfl, high⟩
                · exact .inl further
                · exact .inr ⟨rfl, ih between others low high⟩

theorem isAtMost_antisymm (first second : Word) (low : first.isAtMost second = true)
    (high : second.isAtMost first = true) : first = second := by
  induction first generalizing second with
  | nil =>
      cases second with
      | nil => rfl
      | cons => cases high
  | cons char rest ih =>
      cases second with
      | nil => cases low
      | cons other others =>
          simp only [isAtMost, Bool.or_eq_true, decide_eq_true_eq, Bool.and_eq_true, beq_iff_eq] at low high
          rcases low with less | ⟨rfl, low⟩
          · rcases high with more | ⟨rfl, _⟩ <;> omega
          · rcases high with more | ⟨_, high⟩
            · omega
            · rw [ih others low high]

def Before : Word → Word → Prop :=
  List.Lex fun first second => first.toNat < second.toNat

theorem isAtMost_iff (first second : Word) : first.isAtMost second = true ↔ ¬ second.Before first := by
  induction first generalizing second with
  | nil => exact iff_of_true rfl List.not_lex_nil
  | cons char rest ih =>
      cases second with
      | nil => exact iff_of_false Bool.false_ne_true (not_not_intro .nil)
      | cons other others =>
          simp only [isAtMost, Bool.or_eq_true, decide_eq_true_eq, Bool.and_eq_true, beq_iff_eq, ih, Before,
            List.cons_lex_cons_iff, not_or, not_and]
          rcases Nat.lt_trichotomy char.toNat other.toNat with less | same | greater
          · have different : other ≠ char := by
              rintro rfl
              exact Nat.lt_irrefl _ less
            simp [less, Nat.le_of_lt less, different]
          · have same := Char.toNat_inj.mp same
            simp [same]
          · have different : char ≠ other := by
              rintro rfl
              exact Nat.lt_irrefl _ greater
            simp [greater, Nat.not_lt.mpr (Nat.le_of_lt greater), different]

end Word

namespace Edit

variable {Value : Type}

def name : Edit Value → Word
  | .add name _ _ => name
  | .remove name => name

def result : Edit Value → Option (Operator Value)
  | .add _ arity body => some (.function arity body)
  | .remove _ => none

def made (vocabulary : Vocabulary Value) : List (Edit Value) → List (Edit Value)
  | [] => []
  | edit :: rest =>
      match edit.attempt vocabulary with
      | .ok changed => edit :: made changed rest
      | .error _ => made vocabulary rest

def last? (vocabulary : Vocabulary Value) (edits : List (Edit Value)) (word : Word) :
    Option (Edit Value) :=
  (made vocabulary edits).reverse.find? (·.name == word)

end Edit

namespace Vocabulary

section

variable {Value : Type} {vocabulary changed : Vocabulary Value}

structure Adds (vocabulary : Vocabulary Value) (name : Word) (arity : Arity) (body : Body Value) :
    Prop where
  invalid : vocabulary.add name arity body = .error (.of (.invalidName (String.ofList name))) ↔
    ¬ name.Nameable
  overrides : vocabulary.add name arity body =
    .error (.of (.overridesPredefined (String.ofList name))) ↔
      name.Nameable ∧ name ∈ vocabulary.predefined
  made : (∃ changed, vocabulary.add name arity body = .ok changed) ↔
    name.Nameable ∧ name ∉ vocabulary.predefined

structure Removes (vocabulary : Vocabulary Value) (name : Word) : Prop where
  invalid : vocabulary.remove name = .error (.of (.invalidName (String.ofList name))) ↔
    ¬ name.Alphanumeric
  unknown : vocabulary.remove name = .error (.of (.unknownFunction (String.ofList name))) ↔
    name.Alphanumeric ∧ vocabulary.isFunction name = false
  removes : vocabulary.remove name = .error (.of (.removesPredefined (String.ofList name))) ↔
    name.Alphanumeric ∧ vocabulary.isFunction name = true ∧ name ∈ vocabulary.predefined
  made : (∃ changed, vocabulary.remove name = .ok changed) ↔
    name.Alphanumeric ∧ vocabulary.isFunction name = true ∧ name ∉ vocabulary.predefined

theorem isPredefined_iff (word : Word) :
    vocabulary.isPredefined word = true ↔ word ∈ vocabulary.predefined :=
  List.contains_iff_mem

theorem adds (vocabulary : Vocabulary Value) (name : Word) (arity : Arity) (body : Body Value) :
    vocabulary.Adds name arity body := by
  by_cases valid : name.Nameable
  · have accepted := (Word.isNewName_iff name).mpr valid
    by_cases member : name ∈ vocabulary.predefined
    · have predefined := (isPredefined_iff name).mpr member
      constructor <;> simp [add, accepted, predefined, valid, member, Fault.of]
    · have free : vocabulary.isPredefined name = false := by
        simpa [← isPredefined_iff] using member
      constructor <;> simp [add, accepted, free, valid, member]
  · have refused : name.isNewName = false := by simpa [← Word.isNewName_iff] using valid
    constructor <;> simp [add, refused, valid, Fault.of]

theorem removes (vocabulary : Vocabulary Value) (name : Word) : vocabulary.Removes name := by
  by_cases valid : name.Alphanumeric
  · have accepted := (Word.isName_iff name).mpr valid
    cases function : vocabulary.isFunction name with
    | false => constructor <;> simp [remove, accepted, function, valid, Fault.of]
    | true =>
        by_cases member : name ∈ vocabulary.predefined
        · have predefined := (isPredefined_iff name).mpr member
          constructor <;> simp [remove, accepted, function, predefined, valid, member, Fault.of]
        · have free : vocabulary.isPredefined name = false := by
            simpa [← isPredefined_iff] using member
          constructor <;> simp [remove, accepted, function, free, valid, member]
  · have refused : name.isName = false := by simpa [← Word.isName_iff] using valid
    constructor <;> simp [remove, refused, valid, Fault.of]

structure Listed (vocabulary : Vocabulary Value) : Prop where
  sorted : vocabulary.words.Pairwise fun first second => first.isAtMost second = true
  distinct : vocabulary.words.Nodup
  known : ∀ word, word ∈ vocabulary.words ↔ vocabulary.knows word = true
  size : vocabulary.words.length = vocabulary.size

def Distinct (vocabulary : Vocabulary Value) : Prop :=
  (vocabulary.entries.map Prod.fst).Nodup

theorem knows_iff (word : Word) :
    vocabulary.knows word = true ↔ word ∈ vocabulary.entries.map Prod.fst := by
  have absent : vocabulary.get? word = none ↔ word ∉ vocabulary.entries.map Prod.fst := by
    simp only [get?, List.lookup_eq_none_iff, List.mem_map, not_exists, not_and, bne_iff_ne]
    exact forall₂_congr fun entry _ => ne_comm
  rw [knows, Option.isSome_iff_ne_none, ne_eq, absent, Decidable.not_not]

theorem Distinct.listed (distinct : vocabulary.Distinct) : vocabulary.Listed := by
  have order := List.mergeSort_perm (vocabulary.entries.map Prod.fst) Word.isAtMost
  constructor
  · exact List.pairwise_mergeSort Word.isAtMost_trans Word.isAtMost_total _
  · exact order.nodup_iff.mpr distinct
  · intro word
    exact order.mem_iff.trans (knows_iff word).symm
  · rw [words, List.length_mergeSort, List.length_map, size]

theorem Distinct.found (distinct : vocabulary.Distinct) {word : Word} {operator : Operator Value}
    (member : (word, operator) ∈ vocabulary.entries) : vocabulary.get? word = some operator := by
  unfold Distinct at distinct
  rcases List.append_of_mem member with ⟨before, after, entries⟩
  rw [get?, List.lookup_eq_some_iff]
  refine ⟨before, after, entries, ?_⟩
  intro entry earlier
  rw [entries, List.map_append, List.map_cons] at distinct
  have different := (List.nodup_append.mp distinct).2.2 _ (List.mem_map_of_mem earlier) _
    List.mem_cons_self
  simpa [bne_iff_ne] using different.symm

theorem Distinct.erase (distinct : vocabulary.Distinct) (word : Word) :
    (vocabulary.erase word).Distinct :=
  (List.filter_sublist.map Prod.fst).nodup distinct

theorem Distinct.insert (distinct : vocabulary.Distinct) (word : Word) (operator : Operator Value) :
    (vocabulary.insert word operator).Distinct := by
  have absent : (vocabulary.erase word).knows word = false := by
    simp [knows, get?_erase_self]
  rw [← Bool.not_eq_true, knows_iff] at absent
  exact List.nodup_cons.mpr ⟨absent, distinct.erase word⟩

end

end Vocabulary

namespace Edit

variable {Value : Type} {vocabulary changed : Vocabulary Value} {edit : Edit Value}

structure Makes (vocabulary : Vocabulary Value) (edit : Edit Value) (changed : Vocabulary Value) :
    Prop where
  own : changed.get? edit.name = edit.result
  others : ∀ word, word ≠ edit.name → changed.get? word = vocabulary.get? word
  distinct : vocabulary.Distinct → changed.Distinct

theorem makes (accepted : edit.attempt vocabulary = .ok changed) : edit.Makes vocabulary changed := by
  cases edit with
  | add name arity body =>
      simp only [attempt, Vocabulary.add] at accepted
      split at accepted
      · cases accepted
      split at accepted
      · cases accepted
      · cases accepted
        constructor
        · exact Vocabulary.get?_insert_self _ _ _
        · intro word different
          exact Vocabulary.get?_insert_other _ _ different
        · intro distinct
          exact distinct.insert _ _
  | remove name =>
      simp only [attempt, Vocabulary.remove] at accepted
      split at accepted
      · cases accepted
      split at accepted
      · cases accepted
      split at accepted
      · cases accepted
      · cases accepted
        constructor
        · exact Vocabulary.get?_erase_self _ _
        · intro word different
          exact Vocabulary.get?_erase_other _ different
        · intro distinct
          exact distinct.erase _

theorem apply_ok (accepted : edit.attempt vocabulary = .ok changed) : edit.apply vocabulary = changed := by
  simp [apply, accepted]

theorem apply_error {fault : Fault} (refused : edit.attempt vocabulary = .error fault) :
    edit.apply vocabulary = vocabulary := by
  simp [apply, refused]

theorem applyAll_snoc (edits : List (Edit Value)) (edit : Edit Value) :
    applyAll vocabulary (edits ++ [edit]) = edit.apply (applyAll vocabulary edits) := by
  simp [applyAll]

theorem last?_ok (accepted : edit.attempt vocabulary = .ok changed) (rest : List (Edit Value))
    (word : Word) : last? vocabulary (edit :: rest) word =
      (last? changed rest word).or (if edit.name = word then some edit else none) := by
  by_cases same : edit.name = word
  · simp [last?, made, accepted, List.find?_append, same]
  · simp [last?, made, accepted, List.find?_append, same]

/-- A word means what the last edit of it has made of it, or what it meant at the start. -/
theorem get?_applyAll (vocabulary : Vocabulary Value) (edits : List (Edit Value)) (word : Word) :
    (applyAll vocabulary edits).get? word =
      ((last? vocabulary edits word).map result).getD (vocabulary.get? word) := by
  induction edits generalizing vocabulary with
  | nil => rfl
  | cons edit rest ih =>
      change (applyAll (edit.apply vocabulary) rest).get? word = _
      cases attempted : edit.attempt vocabulary with
      | error fault =>
          rw [apply_error attempted, ih]
          simp [last?, made, attempted]
      | ok changed =>
          have meaning := makes attempted
          rw [apply_ok attempted, ih, last?_ok attempted]
          cases last? changed rest word with
          | some later => rfl
          | none =>
              by_cases same : edit.name = word
              · simpa [same] using same ▸ meaning.own
              · simpa [same] using meaning.others word (Ne.symm same)

end Edit

namespace Vocabulary

theorem standard_distinct (draw : Float) : (standard draw).Distinct := by
  -- The words of the table do not depend on the number that is drawn.
  have same : (Predefined.table draw).map Prod.fst = (Predefined.table 0).map Prod.fst := rfl
  have distinct : ((Predefined.table 0).map Prod.fst).Nodup := by decide +kernel
  change ((Predefined.table draw).map Prod.fst).Nodup
  rwa [same]

theorem Distinct.applyAll {Value : Type} {vocabulary : Vocabulary Value} (distinct : vocabulary.Distinct)
    (edits : List (Edit Value)) : (Edit.applyAll vocabulary edits).Distinct := by
  induction edits generalizing vocabulary with
  | nil => exact distinct
  | cons edit rest ih =>
      apply ih
      cases attempted : edit.attempt vocabulary with
      | error fault =>
          rw [Edit.apply_error attempted]
          exact distinct
      | ok changed =>
          rw [Edit.apply_ok attempted]
          exact (Edit.makes attempted).distinct distinct

theorem standard_absent {draw : Float} {word : Word}
    (noKey : word ∉ (Predefined.table draw).map Prod.fst) : (standard draw).get? word = none := by
  cases found : (standard draw).get? word with
  | none => rfl
  | some operator => exact absurd (standard_predefined found) noKey

namespace Extends

variable {base vocabulary : Vocabulary Float}

/-- A word that is not predefined stands for a function, and has a name that may be added. -/
theorem own (extension : base.Extends vocabulary) {word : Word} {operator : Operator Float}
    (noKey : word ∉ base.predefined) (found : vocabulary.get? word = some operator) :
    word.Nameable ∧ ∃ arity body, operator = .function arity body := by
  rcases extension.added noKey found with ⟨valid, shape⟩
  exact ⟨(Word.isNewName_iff word).mp valid, shape⟩

/-- The words that may be removed are those that are not predefined. -/
theorem removal_made (extension : base.Extends vocabulary) (name : Word) :
    (∃ changed, vocabulary.remove name = .ok changed) ↔
      vocabulary.knows name = true ∧ name ∉ base.predefined := by
  rw [(removes vocabulary name).made, extension.predefined]
  constructor
  · rintro ⟨_, function, noKey⟩
    rcases Lawful.function_known function with ⟨operator, found, _⟩
    exact ⟨by simp [knows, found], noKey⟩
  · rintro ⟨known, noKey⟩
    rcases Option.isSome_iff_exists.mp known with ⟨operator, found⟩
    rcases extension.own noKey found with ⟨nameable, arity, body, rfl⟩
    have function : vocabulary.isFunction name = true := by
      simp [isFunction, found, Operator.isFunction, Operator.function]
    exact ⟨nameable.alphanumeric, function, noKey⟩

end Extends

end Vocabulary

/-- A session keeps the predefined words, and gives every other word the meaning of the last edit that was made
of it, which is a function. What it may do next depends on the name, and on the words as they are. -/
theorem session_kept (draw : Float) (edits : List (Edit Float)) :
    let table := Predefined.table draw
    let start := Vocabulary.standard draw
    let vocabulary := Edit.applyAll start edits
    (∀ entry ∈ table, vocabulary.get? entry.1 = some entry.2) ∧
    (∀ word, word ∉ table.map Prod.fst →
      vocabulary.get? word = (Edit.last? start edits word).bind Edit.result) ∧
    (∀ word operator, word ∉ table.map Prod.fst → vocabulary.get? word = some operator →
      word.Nameable ∧ operator.isFunction = true ∧ operator.precedence = 4 ∧
        operator.associativity = .left) ∧
    vocabulary.Listed ∧ vocabulary.predefined = table.map Prod.fst ∧
    (∀ name arity body, vocabulary.Adds name arity body) ∧ (∀ name, vocabulary.Removes name ∧
      ((∃ changed, vocabulary.remove name = .ok changed) ↔
        vocabulary.knows name = true ∧ name ∉ table.map Prod.fst)) ∧
    ∀ edit fault, edit.attempt vocabulary = .error fault →
      Edit.applyAll start (edits ++ [edit]) = vocabulary := by
  have extension := (Vocabulary.extends_self draw).edits edits
  have distinct := Vocabulary.standard_distinct draw
  refine ⟨?_, ?_, ?_, (distinct.applyAll edits).listed, extension.predefined, ?_, ?_, ?_⟩
  · rintro ⟨word, operator⟩ member
    exact extension.found (distinct.found member)
  · intro word noKey
    rw [Edit.get?_applyAll, Vocabulary.standard_absent noKey]
    cases Edit.last? (.standard draw) edits word <;> rfl
  · intro word operator noKey found
    rcases extension.own noKey found with ⟨nameable, arity, body, rfl⟩
    exact ⟨nameable, rfl, rfl, rfl⟩
  · exact Vocabulary.adds _
  · intro name
    exact ⟨Vocabulary.removes _ name, extension.removal_made name⟩
  · intro edit fault refused
    rw [Edit.applyAll_snoc, Edit.apply_error refused]

theorem session_kept_twice :
    let once : Edit Float := .add "twice".toList (.fixed 1) fun _ => .ok 1
    let again : Edit Float := .add "twice".toList .variadic fun _ => .ok 2
    let override : Edit Float := .add "max".toList .variadic fun _ => .ok 3
    let vocabulary := Edit.applyAll (.standard 0) [once, .remove "twice".toList, again, override]
    vocabulary.get? "twice".toList = again.result ∧
      vocabulary.get? "max".toList = some (Predefined.dyadic larger) := by
  intro once again override vocabulary
  rcases session_kept 0 [once, .remove "twice".toList, again, override] with ⟨kept, added, _⟩
  constructor
  · exact added "twice".toList (by decide +kernel)
  · exact kept ("max".toList, Predefined.dyadic larger) (by simp [Predefined.table, Predefined.functions])

end Calculator
