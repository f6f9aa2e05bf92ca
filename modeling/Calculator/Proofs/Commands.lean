import Calculator.Evaluate
import Calculator.Proofs.Groups
import Calculator.Proofs.Projection
import Calculator.Proofs.Sessions

/-!
How commands end. A command is refused, or it ends as its groups and the environment say. Warnings for the log come
first on standard error, as far as the log lets them through, and nothing else of an outcome depends on the log.
-/

namespace Calculator.Command

open Command.Group

def Lists (vocabulary : Vocabulary Float) (text : String) : Prop :=
  ∃ words : List Word, words.Perm (vocabulary.entries.map Prod.fst) ∧
    words.Pairwise (fun first second => ¬ second.Before first) ∧
    text = String.join (words.map fun word => String.ofList word ++ "\n")

inductive Listing (vocabulary : Vocabulary Float) (request : Request) : String → Prop where
  | asked {text : String} : request.list = true → Lists vocabulary text → Listing vocabulary request text
  | unasked : request.list = false → Listing vocabulary request ""

/-- Numbers that are not finite have names; any other is its sign and a decimal that is read back as its magnitude. -/
inductive Shows (value : Float) : String → Prop where
  | notANumber : value.isNaN = true → Shows value "NaN"
  | infinite : value.isInf = true → Shows value (if signBit value then "-inf" else "inf")
  | finite {decimal : Plain} : value.isFinite = true → decimal.Valid →
      Printed.read? decimal.toText = some value.abs →
      Shows value ((if signBit value then "-" else "") ++ String.ofList decimal.toText)

/-- What the log writes: that the precision of the environment is no count, if there are arguments. -/
inductive Noted (host : Host) : List String → String → Prop where
  | unasked : Noted host [] ""
  | absent {arguments : List String} : host.precision = none → Noted host arguments ""
  | counted {arguments : List String} {text : String} {places : UInt32} : host.precision = some text →
      Counts (Text.trim text.toList) places → Noted host arguments ""
  | ignored {arguments : List String} {text : String} : arguments ≠ [] → host.precision = some text →
      (∀ places, ¬ Counts (Text.trim text.toList) places) →
      Noted host arguments (host.log ⟨"ignoring invalid SHUNT_PRECISION", text⟩)

structure Begins (vocabulary : Vocabulary Float) (host : Host) (arguments : List String) (request : Request)
    (list notes : String) : Prop where
  asks : ∃ groups, Accepted arguments groups ∧ Asks host.precision groups request
  list : Listing vocabulary request list
  notes : Noted host arguments notes

inductive Ends (vocabulary : Vocabulary Float) (host : Host) (elapsed : String) (arguments : List String) :
    Outcome → Prop where
  | refused {complaint : Complaint} {notes : String} : Refused arguments complaint →
      Noted host arguments notes →
      Ends vocabulary host elapsed arguments ⟨1, "", notes ++ complaint.message⟩
  | failed {request : Request} {list notes text : String} {fault : Fault} :
      Begins vocabulary host arguments request list notes → request.expression = some text →
      host.evaluate request.settings text = .error fault →
      Ends vocabulary host elapsed arguments ⟨2, list, notes ++ ("Error: " ++ fault.message ++ "\n")⟩
  | listed {request : Request} {list notes : String} :
      Begins vocabulary host arguments request list notes → request.expression = none →
      Ends vocabulary host elapsed arguments ⟨0, list, notes⟩
  | plain {request : Request} {list notes text : String} {value : Float} :
      Begins vocabulary host arguments request list notes → request.expression = some text →
      request.json = false → host.evaluate request.settings text = .ok value →
      Ends vocabulary host elapsed arguments ⟨0, list ++ plainText value ++ "\n", notes⟩
  | document {request : Request} {list notes text : String} {value : Float} :
      Begins vocabulary host arguments request list notes → request.expression = some text →
      request.json = true → host.evaluate request.settings text = .ok value →
      Ends vocabulary host elapsed arguments
        ⟨0, list ++ host.document ⟨text, value, request.settings, elapsed⟩ ++ "\n", notes⟩

section

variable {vocabulary : Vocabulary Float} {host : Host} {elapsed : String} {arguments : List String}
  {request : Request} {text other notes : String} {outcome : Outcome}

theorem lists_words (vocabulary : Vocabulary Float) :
    Lists vocabulary (String.join (vocabulary.words.map fun word => String.ofList word ++ "\n")) := by
  have sorted := List.pairwise_mergeSort Word.isAtMost_trans Word.isAtMost_total (vocabulary.entries.map Prod.fst)
  refine ⟨vocabulary.words, List.mergeSort_perm _ _, ?_, rfl⟩
  exact sorted.imp fun less => (Word.isAtMost_iff _ _).mp less

theorem Lists.eq (lists : Lists vocabulary text) (others : Lists vocabulary other) : text = other := by
  rcases lists with ⟨words, same, sorted, rfl⟩
  rcases others with ⟨words', same', sorted', rfl⟩
  have antisymm : ∀ first second, first ∈ words → second ∈ words' → ¬ second.Before first →
      ¬ first.Before second → first = second := by
    intro first second _ _ low high
    exact Word.isAtMost_antisymm _ _ ((Word.isAtMost_iff _ _).mpr low) ((Word.isAtMost_iff _ _).mpr high)
  rw [List.Perm.eq_of_pairwise antisymm sorted sorted' (same.trans same'.symm)]

theorem listing_iff : Listing vocabulary request text ↔ text = request.listing vocabulary := by
  constructor
  · rintro (⟨asked, lists⟩ | unasked)
    · rw [Request.listing, if_pos asked]
      exact lists.eq (lists_words vocabulary)
    · rw [Request.listing, if_neg (by simp [unasked])]
  · rintro rfl
    cases asked : request.list with
    | true =>
        rw [Request.listing, if_pos asked]
        exact .asked asked (lists_words vocabulary)
    | false =>
        rw [Request.listing, if_neg (by simp [asked])]
        exact .unasked asked

theorem plainText_shows (value : Float) : Shows value (plainText value) := by
  unfold plainText specialText
  cases number : value.isNaN with
  | true => exact .notANumber number
  | false =>
      cases bounded : value.isInf with
      | true => exact .infinite bounded
      | false =>
          have finite := isFinite_of number bounded
          exact .finite finite (Plain.ofScaled_valid _) (read_shortest finite)

def Host.written (host : Host) (arguments : List String) : String :=
  if arguments.isEmpty then "" else host.notes

theorem notes_counts {places : UInt32} (given : host.precision = some text)
    (counted : Counts (Text.trim text.toList) places) : host.notes = "" := by
  simp [Host.notes, given, Settings.warning?, (readCount?_iff _ _).mpr counted]

theorem notes_ignored (given : host.precision = some text)
    (uncounted : ∀ places, ¬ Counts (Text.trim text.toList) places) :
    host.notes = host.log ⟨"ignoring invalid SHUNT_PRECISION", text⟩ := by
  have missing := readCount?_none uncounted
  have message : "ignoring invalid " ++ Settings.variableName = "ignoring invalid SHUNT_PRECISION" := rfl
  rw [← message, Host.notes, given, Settings.warning?, Option.bind_some, missing]
  rfl

theorem noted_iff : Noted host arguments notes ↔ notes = host.written arguments := by
  constructor
  · intro noted
    cases noted with
    | unasked => rfl
    | absent given => simp [Host.written, Host.notes, given, Settings.warning?]
    | counted given counted => simp [Host.written, notes_counts given counted]
    | ignored some given uncounted => simp [Host.written, some, notes_ignored given uncounted]
  · rintro rfl
    cases arguments with
    | nil => exact .unasked
    | cons argument rest =>
        change Noted host (argument :: rest) host.notes
        cases given : host.precision with
        | none =>
            have nothing : host.notes = "" := by simp [Host.notes, given, Settings.warning?]
            rw [nothing]
            exact .absent given
        | some text =>
            by_cases counted : ∃ places, Counts (Text.trim text.toList) places
            · rcases counted with ⟨places, counted⟩
              rw [notes_counts given counted]
              exact .counted given counted
            · have uncounted := not_exists.mp counted
              rw [notes_ignored given uncounted]
              exact .ignored (List.cons_ne_nil _ _) given uncounted

theorem run_written (vocabulary : Vocabulary Float) (host : Host) (elapsed : String) (arguments : List String) :
    run vocabulary host elapsed arguments =
      match Request.ofArguments (.ofEnvironment host.precision) arguments with
      | .ok request => (request.outcome vocabulary host elapsed).behind (host.written arguments)
      | .error complaint => complaint.outcome.behind (host.written arguments) := by
  cases arguments with
  | nil => rfl
  | cons argument rest => rfl

theorem run_refused {complaint : Complaint} (refused : Refused arguments complaint) :
    run vocabulary host elapsed arguments = complaint.outcome.behind (host.written arguments) := by
  rw [run_written, refused.ofArguments]

theorem run_accepted {groups : List Group} (accepted : Accepted arguments groups)
    (asks : Asks host.precision groups request) : run vocabulary host elapsed arguments =
      (request.outcome vocabulary host elapsed).behind (host.written arguments) := by
  rw [run_written, accepted.ofArguments, asks.eq accepted]

theorem Begins.run {list : String} (begins : Begins vocabulary host arguments request list notes)
    (elapsed : String) :
    run vocabulary host elapsed arguments = (request.outcome vocabulary host elapsed).behind notes ∧
      request.listing vocabulary = list := by
  rcases begins.asks with ⟨groups, accepted, asks⟩
  rw [noted_iff.mp begins.notes, listing_iff.mp begins.list]
  exact ⟨run_accepted accepted asks, rfl⟩

theorem Ends.run (ends : Ends vocabulary host elapsed arguments outcome) :
    run vocabulary host elapsed arguments = outcome := by
  cases ends with
  | refused refused noted =>
      rw [run_refused refused, noted_iff.mp noted]
      rfl
  | failed begins expression failed =>
      rcases begins.run elapsed with ⟨same, listing⟩
      simp [same, Request.outcome, expression, failed, Request.report, listing, Outcome.behind]
  | listed begins expression =>
      rcases begins.run elapsed with ⟨same, listing⟩
      simp [same, Request.outcome, expression, listing, Outcome.behind]
  | plain begins expression form evaluated =>
      rcases begins.run elapsed with ⟨same, listing⟩
      simp [same, Request.outcome, expression, evaluated, Request.report, Request.resultText, form, listing,
        Outcome.behind]
  | document begins expression form evaluated =>
      rcases begins.run elapsed with ⟨same, listing⟩
      simp [same, Request.outcome, expression, evaluated, Request.report, Request.resultText, form, listing,
        Outcome.behind]

theorem exists_end (vocabulary : Vocabulary Float) (host : Host) (elapsed : String) (arguments : List String) :
    ∃ outcome, Ends vocabulary host elapsed arguments outcome := by
  have noted : Noted host arguments (host.written arguments) := noted_iff.mpr rfl
  rcases refused_or_accepted arguments with ⟨complaint, refused⟩ | ⟨groups, accepted⟩
  · exact ⟨_, .refused refused noted⟩
  · let request := Group.request (.ofEnvironment host.precision) groups
    have begins : Begins vocabulary host arguments request _ _ :=
      ⟨⟨groups, accepted, accepted.asks host.precision⟩, listing_iff.mpr rfl, noted⟩
    cases expression : request.expression with
    | none => exact ⟨_, .listed begins expression⟩
    | some text =>
        cases evaluated : host.evaluate request.settings text with
        | error fault => exact ⟨_, .failed begins expression evaluated⟩
        | ok value =>
            cases form : request.json with
            | false => exact ⟨_, .plain begins expression form evaluated⟩
            | true => exact ⟨_, .document begins expression form evaluated⟩

theorem run_iff : run vocabulary host elapsed arguments = outcome ↔
    Ends vocabulary host elapsed arguments outcome := by
  rcases exists_end vocabulary host elapsed arguments with ⟨own, ends⟩
  constructor
  · intro same
    rwa [← same, ends.run]
  · exact Ends.run

theorem Ends.refused_iff (ends : Ends vocabulary host elapsed arguments outcome) :
    outcome.code = 1 ↔ ∃ complaint, Refused arguments complaint := by
  constructor
  · intro code
    cases ends with
    | @refused complaint _ refused => exact ⟨complaint, refused⟩
    | failed | listed | plain | document => cases code
  · rintro ⟨complaint, refused⟩
    rw [← ends.run, run_refused refused]
    rfl

def Fails (host : Host) (arguments : List String) (fault : Fault) : Prop :=
  ∃ groups request text, Accepted arguments groups ∧ Asks host.precision groups request ∧
    request.expression = some text ∧ host.evaluate request.settings text = .error fault

theorem Fails.ends {fault : Fault} (fails : Fails host arguments fault) (vocabulary : Vocabulary Float)
    (elapsed : String) (noted : Noted host arguments notes) :
    ∃ list, Ends vocabulary host elapsed arguments ⟨2, list, notes ++ ("Error: " ++ fault.message ++ "\n")⟩ := by
  rcases fails with ⟨groups, request, text, accepted, asks, expression, failed⟩
  have begins : Begins vocabulary host arguments request _ notes :=
    ⟨⟨groups, accepted, asks⟩, listing_iff.mpr rfl, noted⟩
  exact ⟨_, .failed begins expression failed⟩

theorem Ends.failed_iff (ends : Ends vocabulary host elapsed arguments outcome) :
    outcome.code = 2 ↔ ∃ fault, Fails host arguments fault := by
  constructor
  · intro code
    cases ends with
    | @failed request _ _ text fault begins expression failed =>
        rcases begins.asks with ⟨groups, accepted, asks⟩
        exact ⟨fault, groups, request, text, accepted, asks, expression, failed⟩
    | refused | listed | plain | document => cases code
  · rintro ⟨fault, fails⟩
    rcases fails.ends vocabulary elapsed (noted_iff.mpr rfl) with ⟨list, own⟩
    rw [← ends.run, own.run]

theorem Ends.done (ends : Ends vocabulary host elapsed arguments outcome) (accepted : outcome.code ≠ 1)
    (evaluated : outcome.code ≠ 2) : outcome.code = 0 ∧ Noted host arguments outcome.errors := by
  cases ends with
  | refused => exact absurd rfl accepted
  | failed => exact absurd rfl evaluated
  | listed begins | plain begins | document begins => exact ⟨rfl, begins.notes⟩

theorem noted_silent (off : ∀ warning, host.log warning = "") (arguments : List String) :
    Noted host arguments "" := by
  have unsaid : host.notes = "" := by
    cases warned : Settings.warning? host.precision with
    | none => simp [Host.notes, warned]
    | some warning => simp [Host.notes, warned, off]
  rw [noted_iff, Host.written, unsaid, ite_self]

theorem message_nonempty (complaint : Complaint) : complaint.message ≠ "" := by
  cases complaint with
  | incomplete => decide
  | badPrecision => decide
  | unexpected argument =>
      intro empty
      have front := (String.append_eq_empty_iff.mp (String.append_eq_empty_iff.mp
        (String.append_eq_empty_iff.mp empty).1).1).1
      exact absurd front (by decide)

end

namespace Request

def asDocument (request : Request) : Request :=
  { request with json := true }

theorem accept_asDocument (request : Request) (argument : Argument) :
    request.asDocument.accept argument = (request.accept argument).map asDocument := by
  cases argument with
  | expression text =>
      cases taken : request.expression with
      | none => simp [accept, asDocument, taken, Except.map]
      | some other => simp [accept, asDocument, taken, Except.map]
  | json | list | precision | badPrecision => rfl

theorem fold_asDocument (request : Request) (arguments : List Argument) :
    arguments.foldlM accept request.asDocument = (arguments.foldlM accept request).map asDocument := by
  induction arguments generalizing request with
  | nil => rfl
  | cons argument rest ih =>
      rw [List.foldlM_cons, List.foldlM_cons, accept_asDocument]
      cases request.accept argument with
      | error complaint => rfl
      | ok next => exact ih next

theorem ofArguments_document {settings : Settings} {before : List Group}
    (valid : ∀ group ∈ before, group.Valid) (rest : List String) :
    ofArguments settings (writing before ++ "--output-json" :: rest) =
      (ofArguments settings (writing before ++ rest)).map asDocument := by
  have cut : Argument.cut ("--output-json" :: rest) = .json :: Argument.cut rest :=
    cut_words .json trivial rest
  rw [ofArguments, ofArguments, cut_writing valid, cut_writing valid, cut, List.foldlM_append,
    List.foldlM_append]
  cases (before.map argument).foldlM accept (initial settings) with
  | error complaint => rfl
  | ok request =>
      change (List.foldlM accept request.asDocument (Argument.cut rest) >>= _) = _
      rw [fold_asDocument]
      change _ = Except.map asDocument (List.foldlM accept request (Argument.cut rest) >>= _)
      cases (Argument.cut rest).foldlM accept request with
      | error complaint => rfl
      | ok final =>
          change (if final.expression.isNone && !final.list then _ else _) =
            Except.map asDocument (if final.expression.isNone && !final.list then _ else _)
          split <;> rfl

end Request

/-- What the option for a document changes: at most the form in which a value is printed. Standard error stays as it
is behind the notes, which only arguments bring up. -/
structure Reformats (vocabulary : Vocabulary Float) (host : Host) (elapsed notes : String)
    (plain marked : Outcome) : Prop where
  code : marked.code = plain.code
  errors : marked.errors = notes ++ plain.errors
  output : marked.output = plain.output ∨
    ∃ (list text : String) (value : Float) (settings : Settings), (list = "" ∨ Lists vocabulary list) ∧
      plain.output = list ++ plainText value ++ "\n" ∧
      marked.output = list ++ host.document ⟨text, value, settings, elapsed⟩ ++ "\n"

theorem Reformats.behind {vocabulary : Vocabulary Float} {host : Host} {elapsed : String} {plain marked : Outcome}
    (reformats : Reformats vocabulary host elapsed "" plain marked) (notes : String) :
    Reformats vocabulary host elapsed "" (plain.behind notes) (marked.behind notes) := by
  refine ⟨reformats.code, ?_, reformats.output⟩
  simp [Outcome.behind, reformats.errors]

theorem listing_cases (request : Request) (vocabulary : Vocabulary Float) :
    request.listing vocabulary = "" ∨ Lists vocabulary (request.listing vocabulary) := by
  cases asked : request.list with
  | true =>
      rw [Request.listing, if_pos asked]
      exact .inr (lists_words vocabulary)
  | false =>
      rw [Request.listing, if_neg (by simp [asked])]
      exact .inl rfl

theorem outcome_asDocument (request : Request) (vocabulary : Vocabulary Float) (host : Host) (elapsed : String) :
    Reformats vocabulary host elapsed "" (request.outcome vocabulary host elapsed)
      (request.asDocument.outcome vocabulary host elapsed) := by
  unfold Request.outcome
  rw [show request.asDocument.expression = request.expression from rfl]
  cases request.expression with
  | none => exact ⟨rfl, by simp, .inl rfl⟩
  | some text =>
      have same : request.asDocument.settings = request.settings := rfl
      simp only [same]
      cases host.evaluate request.settings text with
      | error fault => exact ⟨rfl, by simp [Request.report], .inl rfl⟩
      | ok value =>
          refine ⟨rfl, by simp [Request.report], ?_⟩
          cases form : request.json with
          | true =>
              simp only [Request.report, Request.resultText, Request.asDocument, form]
              exact .inl rfl
          | false =>
              refine .inr ⟨request.listing vocabulary, text, value, request.settings,
                listing_cases request vocabulary, ?_, rfl⟩
              simp [Request.report, Request.resultText, form]

/-- The option is marked by `notes`: there are none unless it is the first argument of all. -/
theorem run_document {before : List Group} (valid : ∀ group ∈ before, group.Valid) (rest : List String)
    (vocabulary : Vocabulary Float) (host : Host) (elapsed : String) : ∃ notes,
    (notes = "" ∨ writing before ++ rest = [] ∧ Noted host ["--output-json"] notes) ∧
      Reformats vocabulary host elapsed notes (run vocabulary host elapsed (writing before ++ rest))
        (run vocabulary host elapsed (writing before ++ "--output-json" :: rest)) := by
  rw [run_written, run_written, Request.ofArguments_document valid]
  by_cases empty : writing before ++ rest = []
  · rcases List.append_eq_nil_iff.mp empty with ⟨none, rfl⟩
    refine ⟨host.notes, .inr ⟨empty, noted_iff.mpr rfl⟩, ?_⟩
    rw [none]
    exact ⟨rfl, rfl, .inl rfl⟩
  · have same : host.written (writing before ++ "--output-json" :: rest) =
        host.written (writing before ++ rest) := by
      simp [Host.written, empty]
    refine ⟨"", .inl rfl, ?_⟩
    rw [same]
    cases Request.ofArguments (.ofEnvironment host.precision) (writing before ++ rest) with
    | error complaint => exact ⟨rfl, by simp [Except.map], .inl rfl⟩
    | ok request => exact (outcome_asDocument request vocabulary host elapsed).behind _

structure KeepsProtocol (vocabulary : Vocabulary Float) (host : Host) (elapsed : String)
    (arguments : List String) (outcome : Outcome) : Prop where
  ends : ∀ other, outcome = other ↔ Ends vocabulary host elapsed arguments other
  refused : outcome.code = 1 ↔ ∃ complaint, Refused arguments complaint
  refusal : outcome.code = 1 → outcome.output = "" ∧ outcome.errors ≠ ""
  failed : outcome.code = 2 ↔ ∃ fault, Fails host arguments fault
  done : outcome.code ≠ 1 → outcome.code ≠ 2 → outcome.code = 0 ∧ Noted host arguments outcome.errors
  silent : (∀ warning, host.log warning = "") → Noted host arguments ""
  quiet : Noted host arguments "" → (outcome.code = 0 → outcome.errors = "") ∧
    ∀ fault, Fails host arguments fault → outcome.errors = "Error: " ++ fault.message ++ "\n"
  document : ∀ before rest, (∀ group ∈ before, Group.Valid group) → arguments = writing before ++ rest →
    ∃ notes, (notes = "" ∨ arguments = [] ∧ Noted host ["--output-json"] notes) ∧
      Reformats vocabulary host elapsed notes outcome
        (run vocabulary host elapsed (writing before ++ "--output-json" :: rest))

end Calculator.Command
