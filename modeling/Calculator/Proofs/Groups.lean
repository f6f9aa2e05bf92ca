import Calculator.Command
import Mathlib.Data.List.Induction

/-!
The arguments of a command in groups: an expression, an option, or an option with its value. They are read from the
left. A command is refused where no further group can be read, and where its groups do not go together; what any other
command asks for is in its groups, but for the precision that the environment may give.
-/

namespace Calculator

def Counts (text : List Char) (count : UInt32) : Prop :=
  ∃ digits, (text = digits ∨ text = '+' :: digits) ∧ digits ≠ [] ∧
    (∀ char ∈ digits, char.isDigit = true) ∧ Digits.read digits = count.toNat

theorem readCount?_iff (text : List Char) (count : UInt32) :
    readCount? text = some count ↔ Counts text count := by
  have digits_read : ∀ digits : List Char,
      (if digits.isEmpty || !digits.all Char.isDigit then none
        else if Digits.read digits < UInt32.size then some (UInt32.ofNat (Digits.read digits)) else none) =
          some count ↔
        digits ≠ [] ∧ (∀ char ∈ digits, char.isDigit = true) ∧ Digits.read digits = count.toNat := by
    intro digits
    by_cases written : digits ≠ [] ∧ ∀ char ∈ digits, char.isDigit = true
    · rw [if_neg (by simpa using written)]
      have below := count.toNat_lt
      constructor
      · intro found
        split at found
        case isTrue small =>
          cases found
          exact ⟨written.1, written.2, (UInt32.toNat_ofNat_of_lt small).symm⟩
        case isFalse => cases found
      · rintro ⟨_, _, same⟩
        rw [same, if_pos below, UInt32.ofNat_toNat]
    · rw [if_pos (by simpa [Decidable.imp_iff_not_or] using written)]
      constructor
      · intro found
        cases found
      · rintro ⟨nonempty, chars, _⟩
        exact absurd ⟨nonempty, chars⟩ written
  unfold readCount?
  rw [digits_read]
  split
  case h_1 rest =>
    constructor
    · rintro ⟨nonempty, chars, same⟩
      exact ⟨rest, .inr rfl, nonempty, chars, same⟩
    · rintro ⟨digits, rfl | signed, nonempty, chars, same⟩
      · exact absurd (chars '+' List.mem_cons_self) (by decide)
      · cases signed
        exact ⟨nonempty, chars, same⟩
  case h_2 unsigned =>
    constructor
    · rintro ⟨nonempty, chars, same⟩
      exact ⟨text, .inl rfl, nonempty, chars, same⟩
    · rintro ⟨digits, rfl | signed, nonempty, chars, same⟩
      · exact ⟨nonempty, chars, same⟩
      · exact absurd signed (unsigned digits)

theorem readCount?_none {text : List Char} (uncounted : ∀ count, ¬ Counts text count) : readCount? text = none := by
  rw [Option.eq_none_iff_forall_ne_some]
  intro count found
  exact uncounted count ((readCount?_iff _ _).mp found)

namespace Command

inductive Group where
  | expression (text : String)
  | json
  | list
  | precision (value : String) (places : UInt32)
deriving DecidableEq

namespace Group

def options : List String :=
  ["--output-json", "--list", "--precision"]

def words : Group → List String
  | expression text => [text]
  | json => ["--output-json"]
  | list => ["--list"]
  | precision value _ => ["--precision", value]

def Valid : Group → Prop
  | expression text => text ∉ options
  | json | list => True
  | precision value places => Counts value.toList places

def text? : Group → Option String
  | expression text => some text
  | _ => none

def places? : Group → Option UInt32
  | precision _ places => some places
  | _ => none

def argument : Group → Argument
  | expression text => .expression text
  | json => .json
  | list => .list
  | precision _ places => .precision places

def writing (groups : List Group) : List String :=
  groups.flatMap words

def texts (groups : List Group) : List String :=
  groups.filterMap text?

def counts (groups : List Group) : List UInt32 :=
  groups.filterMap places?

@[simp]
theorem writing_append (before after : List Group) :
    writing (before ++ after) = writing before ++ writing after :=
  List.flatMap_append

@[simp]
theorem texts_append (before after : List Group) : texts (before ++ after) = texts before ++ texts after :=
  List.filterMap_append

@[simp]
theorem texts_singleton (group : Group) : texts [group] = group.text?.toList := by
  cases group <;> rfl

@[simp]
theorem counts_append (before after : List Group) :
    counts (before ++ after) = counts before ++ counts after :=
  List.filterMap_append

@[simp]
theorem counts_singleton (group : Group) : counts [group] = group.places?.toList := by
  cases group <;> rfl

theorem mem_texts {groups : List Group} {text : String} :
    text ∈ texts groups ↔ .expression text ∈ groups := by
  rw [texts, List.mem_filterMap]
  constructor
  · rintro ⟨group, member, found⟩
    cases group <;> cases found
    exact member
  · intro member
    exact ⟨_, member, rfl⟩

def Stray (rest : List String) : Prop :=
  ∃ tail, rest = "--precision" :: tail ∧ ∀ value ∈ tail.head?, ∀ count, ¬ Counts value.toList count

theorem cut_cons (word : String) (rest : List String) : Argument.cut (word :: rest) =
    if word = "--output-json" then .json :: Argument.cut rest
    else if word = "--list" then .list :: Argument.cut rest
    else if word = "--precision" then
      match rest with
      | [] => [.badPrecision]
      | value :: rest =>
          match readCount? value.toList with
          | some places => .precision places :: Argument.cut rest
          | none => [.badPrecision]
    else .expression word :: Argument.cut rest :=
  Argument.cut.eq_def _

theorem cut_words (group : Group) (valid : group.Valid) (rest : List String) :
    Argument.cut (group.words ++ rest) = group.argument :: Argument.cut rest := by
  cases group with
  | expression text =>
      simp only [Valid, options, List.mem_cons, List.not_mem_nil, or_false, not_or] at valid
      simp [words, argument, cut_cons, valid]
  | json => simp [words, argument, cut_cons]
  | list => simp [words, argument, cut_cons]
  | precision value places =>
      have found := (readCount?_iff value.toList places).mpr valid
      simp [words, argument, cut_cons, found]

theorem cut_writing {groups : List Group} (valid : ∀ group ∈ groups, group.Valid) (rest : List String) :
    Argument.cut (writing groups ++ rest) = groups.map argument ++ Argument.cut rest := by
  induction groups with
  | nil => rfl
  | cons group others ih =>
      rw [List.forall_mem_cons] at valid
      have tail := ih valid.2
      rw [writing, List.flatMap_cons, List.append_assoc, cut_words group valid.1, ← writing, tail]
      rfl

theorem Stray.cut {rest : List String} (stray : Stray rest) : Argument.cut rest = [.badPrecision] := by
  rcases stray with ⟨_ | ⟨value, tail⟩, rfl, uncounted⟩
  · simp [cut_cons]
  · have missing := readCount?_none (uncounted value rfl)
    simp [cut_cons, missing]

/-- Every command line can be read in groups up to its end or to a stray precision. -/
theorem exists_groups (arguments : List String) : ∃ groups rest, (∀ group ∈ groups, Valid group) ∧
    arguments = writing groups ++ rest ∧ (rest = [] ∨ Stray rest) := by
  have behind : ∀ (group : Group) {tail : List String}, group.Valid →
      (∃ groups rest, (∀ group ∈ groups, Valid group) ∧ tail = writing groups ++ rest ∧
        (rest = [] ∨ Stray rest)) →
      ∃ groups rest, (∀ group ∈ groups, Valid group) ∧ group.words ++ tail = writing groups ++ rest ∧
        (rest = [] ∨ Stray rest) := by
    rintro group _ valid ⟨groups, rest, others, rfl, ending⟩
    refine ⟨group :: groups, rest, ?_, ?_, ending⟩
    · exact List.forall_mem_cons.mpr ⟨valid, others⟩
    · simp [writing]
  fun_induction Argument.cut arguments with
  | case1 => exact ⟨[], [], by simp, rfl, .inl rfl⟩
  | case2 rest ih => exact behind .json trivial ih
  | case3 rest _ ih => exact behind .list trivial ih
  | case4 _ _ => exact ⟨[], ["--precision"], by simp, rfl, .inr ⟨[], rfl, by simp⟩⟩
  | case5 value rest places found _ _ ih =>
      exact behind (.precision value places) ((readCount?_iff _ _).mp found) ih
  | case6 value rest missing =>
      refine ⟨[], "--precision" :: value :: rest, by simp, rfl, .inr ⟨value :: rest, rfl, ?_⟩⟩
      rintro _ ⟨⟩ count counts
      rw [(readCount?_iff _ _).mpr counts] at missing
      cases missing
  | case7 word rest json list precision ih =>
      exact behind (.expression word) (by simp [Valid, options, json, list, precision]) ih

theorem second_text {groups : List Group} (many : 1 < (texts groups).length) :
    ∃ before text after, groups = before ++ .expression text :: after ∧ (texts before).length = 1 := by
  induction groups using List.reverseRecOn with
  | nil => cases many
  | append_singleton before last ih =>
      by_cases already : 1 < (texts before).length
      · rcases ih already with ⟨front, text, after, rfl, single⟩
        exact ⟨front, text, after ++ [last], by simp, single⟩
      · cases last with
        | expression text =>
            have single : (texts before).length = 1 := by
              simp [text?] at many
              omega
            exact ⟨before, text, [], rfl, single⟩
        | json | list | precision =>
            simp [text?] at many
            omega

def request (settings : Settings) (groups : List Group) : Request where
  expression := (texts groups).head?
  settings := ⟨(counts groups).getLast?.getD settings.precision⟩
  json := .json ∈ groups
  list := .list ∈ groups

theorem accept_argument {settings : Settings} {before : List Group} {last : Group}
    (single : (texts (before ++ [last])).length ≤ 1) :
    (request settings before).accept last.argument = .ok (request settings (before ++ [last])) := by
  cases last with
  | expression text =>
      have first : texts before = [] := by simpa [text?] using single
      simp [request, Request.accept, argument, text?, places?, first]
  | json | list | precision => simp [request, Request.accept, argument, text?, places?]

theorem fold_argument (settings : Settings) {groups : List Group} (single : (texts groups).length ≤ 1) :
    (groups.map argument).foldlM Request.accept (Request.initial settings) = .ok (request settings groups) := by
  induction groups using List.reverseRecOn with
  | nil => rfl
  | append_singleton before last ih =>
      have shorter : (texts before).length ≤ 1 := by
        rw [texts_append, List.length_append] at single
        omega
      rw [List.map_append, List.foldlM_append, ih shorter]
      change ((request settings before).accept last.argument >>= pure) = _
      rw [accept_argument single]
      rfl

end Group

open Command.Group

/-- What is wrong with a command that is refused: its groups end at a stray precision, there is a second expression
behind them, or nothing is asked for. -/
inductive Refused : List String → Complaint → Prop where
  | stray {groups : List Group} {rest : List String} : (∀ group ∈ groups, group.Valid) →
      (texts groups).length ≤ 1 → Stray rest → Refused (writing groups ++ rest) .badPrecision
  | second {groups : List Group} {text : String} {rest : List String} : (∀ group ∈ groups, group.Valid) →
      (texts groups).length = 1 → text ∉ options → Refused (writing groups ++ text :: rest) (.unexpected text)
  | nothing {groups : List Group} : (∀ group ∈ groups, group.Valid) → texts groups = [] → .list ∉ groups →
      Refused (writing groups) .incomplete

structure Accepted (arguments : List String) (groups : List Group) : Prop where
  written : arguments = writing groups
  valid : ∀ group ∈ groups, group.Valid
  single : (texts groups).length ≤ 1
  something : texts groups ≠ [] ∨ .list ∈ groups

/-- The number of places that counts: that of the last precision, else that of the environment, else ten. -/
inductive InForce (environment : Option String) : List Group → UInt32 → Prop where
  | last {before after : List Group} {value : String} {places : UInt32} : counts after = [] →
      InForce environment (before ++ .precision value places :: after) places
  | environment {groups : List Group} {text : String} {places : UInt32} : counts groups = [] →
      environment = some text → Counts (Text.trim text.toList) places → InForce environment groups places
  | standard {groups : List Group} : counts groups = [] →
      (∀ text, environment = some text → ∀ places, ¬ Counts (Text.trim text.toList) places) →
      InForce environment groups 10

structure Asks (environment : Option String) (groups : List Group) (request : Request) : Prop where
  expression : ∀ text, request.expression = some text ↔ .expression text ∈ groups
  json : request.json = true ↔ .json ∈ groups
  list : request.list = true ↔ .list ∈ groups
  places : InForce environment groups request.settings.precision

section

variable {settings : Settings} {environment : Option String} {arguments : List String} {groups : List Group}
  {places : UInt32}

theorem refused_or_accepted (arguments : List String) :
    (∃ complaint, Refused arguments complaint) ∨ ∃ groups, Accepted arguments groups := by
  rcases exists_groups arguments with ⟨groups, rest, valid, rfl, ending⟩
  by_cases single : (texts groups).length ≤ 1
  · rcases ending with rfl | stray
    · rw [List.append_nil]
      by_cases something : texts groups ≠ [] ∨ .list ∈ groups
      · exact .inr ⟨groups, rfl, valid, single, something⟩
      · rw [not_or, ne_eq, Decidable.not_not] at something
        exact .inl ⟨_, .nothing valid something.1 something.2⟩
    · exact .inl ⟨_, .stray valid single stray⟩
  · rcases second_text (Nat.lt_of_not_le single) with ⟨before, text, after, rfl, first⟩
    rw [List.forall_mem_append, List.forall_mem_cons] at valid
    have refused : Refused (writing before ++ text :: (writing after ++ rest)) _ :=
      .second valid.1 first valid.2.1
    rw [writing_append, List.append_assoc]
    exact .inl ⟨_, refused⟩

/-- Behind groups that go together, what is read goes on from the request that they come to. -/
theorem ofArguments_writing (settings : Settings) (valid : ∀ group ∈ groups, group.Valid)
    (single : (texts groups).length ≤ 1) (rest : List String) : Request.ofArguments settings (writing groups ++ rest) = (do
      let request ← (Argument.cut rest).foldlM Request.accept (Group.request settings groups)
      if request.expression.isNone && !request.list then .error .incomplete else .ok request) := by
  rw [Request.ofArguments, cut_writing valid, List.foldlM_append, fold_argument settings single]
  rfl

theorem Refused.ofArguments {complaint : Complaint} (refused : Refused arguments complaint) :
    Request.ofArguments settings arguments = .error complaint := by
  cases refused with
  | stray valid single stray =>
      rw [ofArguments_writing settings valid single, stray.cut]
      rfl
  | @second groups text rest valid single unlike =>
      have taken : (Group.request settings groups).expression.isSome = true := by
        rw [Group.request, List.isSome_head?, ← List.length_pos_iff, single]
        exact Nat.one_pos
      have cut : Argument.cut (text :: rest) = .expression text :: Argument.cut rest :=
        cut_words (.expression text) unlike rest
      rw [ofArguments_writing settings valid (Nat.le_of_eq single), cut, List.foldlM_cons, Request.accept,
        if_pos taken]
      rfl
  | @nothing groups valid none noList =>
      have written := ofArguments_writing settings valid (by simp [none]) []
      rw [List.append_nil] at written
      rw [written]
      simp [Argument.cut, Group.request, none, noList]

theorem Accepted.ofArguments (accepted : Accepted arguments groups) :
    Request.ofArguments settings arguments = .ok (Group.request settings groups) := by
  have written := ofArguments_writing settings accepted.valid accepted.single []
  rw [List.append_nil, ← accepted.written] at written
  rw [written]
  rcases accepted.something with text | listed
  · simp [Argument.cut, Group.request, text]
  · simp [Argument.cut, Group.request, listed]

theorem InForce.snoc (inForce : InForce environment groups places) (group : Group)
    (other : group.places? = none) : InForce environment (groups ++ [group]) places := by
  have counts_snoc : ∀ {groups}, counts groups = [] → counts (groups ++ [group]) = [] := by
    intro groups none
    simp [none, other]
  cases inForce with
  | last none =>
      rw [List.append_assoc]
      exact .last (counts_snoc none)
  | environment none present counts => exact .environment (counts_snoc none) present counts
  | standard none uncounted => exact .standard (counts_snoc none) uncounted

theorem ofEnvironment_counts {text : String} (counted : Counts (Text.trim text.toList) places) :
    Settings.ofEnvironment (some text) = ⟨places⟩ := by
  simp [Settings.ofEnvironment, (readCount?_iff _ _).mpr counted]

theorem ofEnvironment_standard
    (uncounted : ∀ text, environment = some text → ∀ places, ¬ Counts (Text.trim text.toList) places) :
    Settings.ofEnvironment environment = .standard := by
  cases environment with
  | none => rfl
  | some text =>
      have missing := readCount?_none (uncounted text rfl)
      simp [Settings.ofEnvironment, missing]

theorem in_force (environment : Option String) (groups : List Group) :
    InForce environment groups (Group.request (.ofEnvironment environment) groups).settings.precision := by
  induction groups using List.reverseRecOn with
  | nil =>
      by_cases counted : ∃ text, environment = some text ∧ ∃ places, Counts (Text.trim text.toList) places
      · rcases counted with ⟨text, rfl, places, counted⟩
        rw [ofEnvironment_counts counted]
        exact .environment rfl rfl counted
      · have uncounted : ∀ text, environment = some text → ∀ places,
            ¬ Counts (Text.trim text.toList) places := by
          intro text present places counts
          exact counted ⟨text, present, places, counts⟩
        rw [ofEnvironment_standard uncounted]
        exact .standard rfl uncounted
  | append_singleton before last ih =>
      cases last with
      | precision value places =>
          have same : (Group.request (.ofEnvironment environment)
              (before ++ [.precision value places])).settings.precision = places := by
            simp [Group.request, places?]
          rw [same]
          exact .last rfl
      | expression text => simpa [Group.request, places?] using ih.snoc (.expression text) rfl
      | json => simpa [Group.request, places?] using ih.snoc .json rfl
      | list => simpa [Group.request, places?] using ih.snoc .list rfl

theorem InForce.eq (inForce : InForce environment groups places) :
    (Group.request (.ofEnvironment environment) groups).settings.precision = places := by
  cases inForce with
  | @last before after value _ none =>
      have behind : counts (.precision value places :: after) = places :: counts after := rfl
      simp [Group.request, behind, none]
  | environment none present counted =>
      rw [present, ofEnvironment_counts counted]
      simp [Group.request, none]
  | standard none uncounted =>
      rw [ofEnvironment_standard uncounted]
      simp [Group.request, none, Settings.standard]

theorem Accepted.asks (accepted : Accepted arguments groups) (environment : Option String) :
    Asks environment groups (Group.request (.ofEnvironment environment) groups) := by
  refine ⟨?_, by simp [Group.request], by simp [Group.request], in_force environment groups⟩
  intro text
  rw [← mem_texts]
  change (texts groups).head? = some text ↔ _
  -- A list of at most one element has the first for all of them.
  match found : texts groups, accepted.single with
  | [], _ => simp
  | [single], _ => simp [eq_comm]

theorem Asks.eq {request : Request} (asks : Asks environment groups request)
    (accepted : Accepted arguments groups) :
    Group.request (.ofEnvironment environment) groups = request := by
  have own := accepted.asks environment
  have expression : (Group.request (.ofEnvironment environment) groups).expression = request.expression := by
    ext text
    exact (own.expression text).trans (asks.expression text).symm
  have settings := asks.places.eq
  have json := Bool.eq_iff_iff.mpr (own.json.trans asks.json.symm)
  have list := Bool.eq_iff_iff.mpr (own.list.trans asks.list.symm)
  cases request
  simp_all [Group.request]

end

end Command

end Calculator
