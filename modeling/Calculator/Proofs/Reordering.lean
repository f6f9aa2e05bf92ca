import Calculator.Proofs.Commands

/-!
The groups of a command in another order. Arguments are written as groups in only one way, so that groups put in any
order are read back as they are. What they come to depends on the order of the precisions alone.
-/

namespace Calculator.Command

namespace Group

def isPrecision (group : Group) : Bool :=
  group.places?.isSome

def precisions (groups : List Group) : List Group :=
  groups.filter isPrecision

theorem counts_precisions (groups : List Group) : counts (precisions groups) = counts groups := by
  have own : (fun group : Group => if group.isPrecision then group.places? else none) = places? := by
    funext group
    cases group <;> rfl
  rw [counts, precisions, List.filterMap_filter, own, counts]

/-- The first group of arguments is told by the arguments. -/
theorem words_append {group other : Group} {rest more : List String} (valid : group.Valid)
    (otherValid : other.Valid) (same : group.words ++ rest = other.words ++ more) :
    group = other ∧ rest = more := by
  have read : group.argument = other.argument := by
    have cut := cut_words group valid rest
    rw [same, cut_words other otherValid more] at cut
    exact (List.cons.inj cut).1.symm
  -- Groups of two kinds are read as two arguments, and only the arguments tell how a precision is written.
  cases group <;> cases other <;> cases read <;> cases same <;> exact ⟨rfl, rfl⟩

theorem writing_injective {groups others : List Group} (valid : ∀ group ∈ groups, group.Valid)
    (otherValid : ∀ group ∈ others, group.Valid) (same : writing groups = writing others) : groups = others := by
  induction groups generalizing others with
  | nil =>
      cases others with
      | nil => rfl
      | cons other _ => cases other <;> cases same
  | cons group rest ih =>
      cases others with
      | nil => cases group <;> cases same
      | cons other more =>
          rw [List.forall_mem_cons] at valid otherValid
          rw [writing, List.flatMap_cons, writing, List.flatMap_cons] at same
          rcases words_append valid.1 otherValid.1 same with ⟨rfl, later⟩
          rw [ih valid.2 otherValid.2 later]

end Group

open Command.Group

def scan (settings : Settings) (arguments : List String) : Except Complaint Request :=
  (Argument.cut arguments).foldlM Request.accept (.initial settings)

structure Cut (arguments : List String) (groups : List Group) : Prop where
  written : arguments = writing groups
  valid : ∀ group ∈ groups, group.Valid

structure Reordered (groups others : List Group) : Prop where
  same : groups.Perm others
  precisions : precisions groups = precisions others

section

variable {settings : Settings} {arguments : List String} {groups others : List Group} {request : Request}

theorem ofArguments_scan (settings : Settings) (arguments : List String) :
    Request.ofArguments settings arguments = (do
      let request ← scan settings arguments
      if request.expression.isNone && !request.list then .error .incomplete else .ok request) :=
  rfl

theorem Cut.iff (cut : Cut arguments groups) (other : List Group) : Cut arguments other ↔ other = groups := by
  constructor
  · intro again
    apply writing_injective again.valid cut.valid
    rw [← again.written, cut.written]
  · rintro rfl
    exact cut

theorem Cut.scan (cut : Cut arguments groups) (single : (texts groups).length ≤ 1) :
    scan settings arguments = .ok (Group.request settings groups) := by
  have read := cut_writing cut.valid []
  rw [List.append_nil, ← cut.written, Argument.cut, List.append_nil] at read
  rw [Command.scan, read, fold_argument settings single]

/-- Arguments that are read to their end can only be refused for asking nothing. -/
theorem incomplete_of_scan {complaint : Complaint} (read : scan settings arguments = .ok request)
    (stopped : Request.ofArguments settings arguments = .error complaint) : complaint = .incomplete := by
  rw [ofArguments_scan, read] at stopped
  change (if request.expression.isNone && !request.list then _ else _) = _ at stopped
  split at stopped <;> cases stopped
  rfl

theorem exists_cut (read : scan settings arguments = .ok request) :
    ∃ groups, Cut arguments groups ∧ (texts groups).length ≤ 1 := by
  rcases refused_or_accepted arguments with ⟨complaint, refused⟩ | ⟨groups, accepted⟩
  · cases incomplete_of_scan read refused.ofArguments
    cases refused with
    | @nothing groups valid none _ => exact ⟨groups, ⟨rfl, valid⟩, by simp [none]⟩
  · exact ⟨groups, ⟨accepted.written, accepted.valid⟩, accepted.single⟩

namespace Reordered

theorem texts_eq (reordered : Reordered groups others) (single : (texts groups).length ≤ 1) :
    texts others = texts groups := by
  have same : (texts groups).Perm (texts others) := reordered.same.filterMap _
  match found : texts groups, single with
  | [], _ =>
      rw [found] at same
      exact List.nil_perm.mp same
  | [text], _ =>
      rw [found] at same
      exact (List.singleton_perm.mp same).symm

theorem request_eq (reordered : Reordered groups others) (single : (texts groups).length ≤ 1)
    (settings : Settings) : Group.request settings others = Group.request settings groups := by
  have counts : counts others = counts groups := by
    rw [← counts_precisions, ← reordered.precisions, counts_precisions]
  rw [Group.request, Group.request, reordered.texts_eq single, counts]
  simp only [reordered.same.mem_iff]

end Reordered

end

/-- What a command that took another time prints: the same, but for the time in a document. -/
structure Retimed (vocabulary : Vocabulary Float) (host : Host) (elapsed later : String)
    (outcome other : Outcome) : Prop where
  code : other.code = outcome.code
  errors : other.errors = outcome.errors
  output : other.output = outcome.output ∨
    ∃ (list text : String) (value : Float) (settings : Settings), (list = "" ∨ Lists vocabulary list) ∧
      outcome.output = list ++ host.document ⟨text, value, settings, elapsed⟩ ++ "\n" ∧
      other.output = list ++ host.document ⟨text, value, settings, later⟩ ++ "\n"

theorem outcome_retimed (request : Request) (vocabulary : Vocabulary Float) (host : Host) (elapsed later : String) :
    Retimed vocabulary host elapsed later (request.outcome vocabulary host elapsed)
      (request.outcome vocabulary host later) := by
  unfold Request.outcome
  cases request.expression with
  | none => exact ⟨rfl, rfl, .inl rfl⟩
  | some text =>
      simp only
      cases host.evaluate request.settings text with
      | error fault => exact ⟨rfl, rfl, .inl rfl⟩
      | ok value =>
          refine ⟨rfl, rfl, ?_⟩
          cases form : request.json with
          | false => exact .inl (by simp [Request.report, Request.resultText, form])
          | true =>
              refine .inr ⟨request.listing vocabulary, text, value, request.settings,
                listing_cases request vocabulary, ?_, ?_⟩ <;>
              simp [Request.report, Request.resultText, form]

theorem run_retimed (vocabulary : Vocabulary Float) (host : Host) (elapsed later : String)
    (arguments : List String) : Retimed vocabulary host elapsed later (run vocabulary host elapsed arguments)
      (run vocabulary host later arguments) := by
  rw [run_written, run_written]
  cases Request.ofArguments (.ofEnvironment host.precision) arguments with
  | error complaint => exact ⟨rfl, rfl, .inl rfl⟩
  | ok request =>
      have retimed := outcome_retimed request vocabulary host elapsed later
      exact ⟨retimed.code, congrArg (host.written arguments ++ ·) retimed.errors, retimed.output⟩

/-- Arguments that are read to their end are cut into groups in one way. In any order that keeps that of the
precisions, the groups are read back as they are and come to the same, so that the command ends in the same way, given
that `rand` draws the same numbers. -/
theorem groups_reordered (vocabulary : Vocabulary Float) (host : Host) {arguments : List String}
    {request : Request} (read : scan (.ofEnvironment host.precision) arguments = .ok request) :
    ∃ groups, (∀ other, Cut arguments other ↔ other = groups) ∧
      ∀ others, Reordered groups others →
        scan (.ofEnvironment host.precision) (writing others) = .ok request ∧
        (∀ other, Cut (writing others) other ↔ other = others) ∧
        (∀ elapsed, run vocabulary host elapsed (writing others) = run vocabulary host elapsed arguments) ∧
        ∀ elapsed later, Retimed vocabulary host elapsed later (run vocabulary host elapsed arguments)
          (run vocabulary host later (writing others)) := by
  rcases exists_cut read with ⟨groups, cut, single⟩
  have same : Group.request (.ofEnvironment host.precision) groups = request :=
    Except.ok.inj ((cut.scan single).symm.trans read)
  refine ⟨groups, cut.iff, ?_⟩
  intro others reordered
  have otherCut : Cut (writing others) others :=
    ⟨rfl, fun group member => cut.valid group (reordered.same.mem_iff.mpr member)⟩
  have otherSingle : (texts others).length ≤ 1 := by
    rwa [reordered.texts_eq single]
  have otherRead : scan (.ofEnvironment host.precision) (writing others) = .ok request := by
    rw [otherCut.scan otherSingle, reordered.request_eq single, same]
  have written : host.written (writing others) = host.written arguments := by
    have length := (reordered.same.flatMap_right words).length_eq
    change (writing groups).length = (writing others).length at length
    rw [cut.written]
    simp only [Host.written, List.isEmpty_iff_length_eq_zero, length]
  have ends : ∀ elapsed, run vocabulary host elapsed (writing others) =
      run vocabulary host elapsed arguments := by
    intro elapsed
    rw [run_written, run_written, ofArguments_scan, ofArguments_scan, otherRead, read, written]
  refine ⟨otherRead, otherCut.iff, ends, ?_⟩
  intro elapsed later
  rw [ends later]
  exact run_retimed vocabulary host elapsed later arguments

/-- An expression that moves between two precisions; the later one counts as before. -/
theorem groups_reordered_precisions :
    let host : Host := ⟨some "2", fun warning => warning.message,
      fun settings => evaluate (.standard 0) settings.precision.toNat, fun document => document.elapsed⟩
    scan (.ofEnvironment (some "2")) ["2/3", "--precision", "3", "--precision", "+4"] =
      .ok ⟨some "2/3", ⟨4⟩, false, false⟩ ∧
    scan (.ofEnvironment (some "2")) ["--precision", "3", "2/3", "--precision", "+4"] =
      .ok ⟨some "2/3", ⟨4⟩, false, false⟩ ∧
    run (.standard 0) host "0" ["--precision", "3", "2/3", "--precision", "+4"] =
      run (.standard 0) host "0" ["2/3", "--precision", "3", "--precision", "+4"] ∧
    run (.standard 0) host "0" ["2/3", "--precision", "3", "--precision", "+4"] = ⟨0, "0.6667\n", ""⟩ := by
  intro host
  have read : scan (.ofEnvironment host.precision) ["2/3", "--precision", "3", "--precision", "+4"] =
      .ok ⟨some "2/3", ⟨4⟩, false, false⟩ := rfl
  have cut : Cut ["2/3", "--precision", "3", "--precision", "+4"]
      [.expression "2/3", .precision "3" 3, .precision "+4" 4] := by
    refine ⟨rfl, ?_⟩
    simp only [List.forall_mem_cons, Group.Valid, ← readCount?_iff]
    exact ⟨by decide, by decide, by decide, by simp⟩
  have reordered : Reordered [.expression "2/3", .precision "3" 3, .precision "+4" 4]
      [.precision "3" 3, .expression "2/3", .precision "+4" 4] := ⟨by decide, by decide⟩
  rcases groups_reordered (.standard 0) host read with ⟨groups, only, orders⟩
  rw [(only _).mp cut] at reordered
  rcases orders _ reordered with ⟨otherRead, _, ends, _⟩
  exact ⟨read, otherRead, ends "0", by decide +kernel⟩

end Calculator.Command
