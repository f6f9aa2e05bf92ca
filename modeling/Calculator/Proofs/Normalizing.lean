import Calculator.Text.Spacing
import Mathlib.Data.List.SplitBy

/-!
Normal texts. Normalizing replaces each run of blanks as a whole, by a space or by nothing, and which of the two it
is depends on the character behind the run alone. So it keeps all other characters, does not see how long a run is,
and leaves a normal text as it is.
-/

namespace Calculator.Text

/-- A run of blanks is remembered, and nothing else of it. -/
theorem squeeze_blanks {gap : List Char} (blank : ∀ char ∈ gap, isBlank char = true) (before : Bool)
    (rest : List Char) : squeeze before (gap ++ rest) = squeeze (before || !gap.isEmpty) rest := by
  induction gap generalizing before with
  | nil => simp
  | cons char others ih =>
      have later := ih (fun other member => blank other (List.mem_cons_of_mem _ member)) true
      simp [squeeze, blank char List.mem_cons_self, later]

theorem squeeze_run {run : List Char} (some : run ≠ []) (blank : ∀ char ∈ run, isBlank char = true)
    (before : Bool) (rest : List Char) : squeeze before (run ++ rest) = squeeze true rest := by
  have present : (!run.isEmpty) = true := by simpa using some
  rw [squeeze_blanks blank, present, Bool.or_true]

theorem squeeze_end {blanks : List Char} (blank : ∀ char ∈ blanks, isBlank char = true) (before : Bool) :
    squeeze before blanks = [] := by
  have squeezed := squeeze_blanks blank before []
  rw [List.append_nil] at squeezed
  rw [squeezed, squeeze]

theorem squeeze_solid {text : List Char} (solid : ∀ char ∈ text, isBlank char = false)
    (rest : List Char) : squeeze false (text ++ rest) = text ++ squeeze false rest := by
  induction text with
  | nil => rfl
  | cons char others ih =>
      have later := ih fun other member => solid other (List.mem_cons_of_mem _ member)
      simp [squeeze, solid char List.mem_cons_self, later]

theorem squeeze_word {char : Char} {others : List Char}
    (solid : ∀ other ∈ char :: others, isBlank other = false) (noNumber : startsNumber char = false)
    (gap : Bool) (rest : List Char) :
    squeeze gap (char :: others ++ rest) = char :: others ++ squeeze false rest := by
  have later := squeeze_solid (fun other member => solid other (List.mem_cons_of_mem _ member)) rest
  simp [squeeze, solid char List.mem_cons_self, noNumber, later]

theorem squeeze_number {char : Char} {others : List Char}
    (solid : ∀ other ∈ char :: others, isBlank other = false) (starts : startsNumber char = true)
    (gap : Bool) (rest : List Char) : squeeze gap (char :: others ++ rest) =
      (if gap then [' '] else []) ++ (char :: others ++ squeeze false rest) := by
  have later := squeeze_solid (fun other member => solid other (List.mem_cons_of_mem _ member)) rest
  cases gap <;> simp [squeeze, solid char List.mem_cons_self, starts, later]

theorem normalize_solid {text : List Char} (solid : ∀ char ∈ text, isBlank char = false) :
    normalize text = text := by
  have kept := squeeze_solid solid []
  rw [List.append_nil] at kept
  rw [normalize, kept, squeeze, List.append_nil]

inductive Alternating : Bool → List (List Char) → Prop where
  | nil {blank : Bool} : Alternating blank []
  | run {blank : Bool} {run : List Char} {later : List (List Char)} : run ≠ [] →
      (∀ char ∈ run, isBlank char = blank) → Alternating (!blank) later → Alternating blank (run :: later)

def alike (char next : Char) : Bool :=
  isBlank char == isBlank next

def runs (text : List Char) : List (List Char) :=
  text.splitBy alike

namespace Alternating

variable {blank : Bool} {cut : List (List Char)}

theorem nonempty (alternating : Alternating blank cut) : [] ∉ cut := by
  induction alternating with
  | nil => exact List.not_mem_nil
  | run some kind later ih =>
      rw [List.mem_cons, not_or]
      exact ⟨some.symm, ih⟩

theorem uniform (alternating : Alternating blank cut) : ∀ run ∈ cut, run.IsChain (alike · ·) := by
  induction alternating with
  | nil => exact fun run none => absurd none List.not_mem_nil
  | run some kind later ih =>
      rw [List.forall_mem_cons]
      refine ⟨List.Pairwise.isChain (List.pairwise_of_forall_mem_list ?_), ih⟩
      intro char member next other
      rw [alike, kind char member, kind next other, beq_self_eq_true]

theorem turns (alternating : Alternating blank cut) :
    cut.IsChain fun run next => ∃ some more, alike (run.getLast some) (next.head more) = false := by
  induction alternating with
  | nil => exact .nil
  | run some kind later ih =>
      rw [List.isChain_cons]
      refine ⟨?_, ih⟩
      intro next first
      cases later with
      | nil => cases first
      | run more other _ =>
          cases first
          refine ⟨some, more, ?_⟩
          rw [alike, kind _ (List.getLast_mem some), other _ (List.head_mem more)]
          simp

theorem runs_eq (alternating : Alternating blank cut) : runs cut.flatten = cut :=
  List.splitBy_flatten alternating.nonempty alternating.uniform alternating.turns

end Alternating

theorem exists_alternating (text : List Char) : ∃ blank cut, Alternating blank cut ∧ cut.flatten = text := by
  induction text with
  | nil => exact ⟨true, [], .nil, rfl⟩
  | cons char rest ih =>
      rcases ih with ⟨blank, cut, alternating, rfl⟩
      -- The character goes on with the first run, or is a run of its own in front of it.
      by_cases same : isBlank char = blank
      · cases alternating with
        | nil => exact ⟨isBlank char, [[char]], .run (by simp) (by simp) .nil, rfl⟩
        | @run _ run later some kind turned =>
            refine ⟨blank, (char :: run) :: later, .run (by simp) ?_ turned, rfl⟩
            rw [List.forall_mem_cons]
            exact ⟨same, kind⟩
      · refine ⟨isBlank char, [char] :: cut, .run (by simp) (by simp) ?_, rfl⟩
        rwa [Bool.not_eq.mpr same]

/-- The runs of a text are the one way to cut it into runs of blanks and others by turns. -/
theorem runs_iff (text : List Char) (cut : List (List Char)) :
    cut = runs text ↔ cut.flatten = text ∧ ∃ blank, Alternating blank cut := by
  constructor
  · rintro rfl
    rcases exists_alternating text with ⟨blank, cut, alternating, rfl⟩
    rw [alternating.runs_eq]
    exact ⟨rfl, blank, alternating⟩
  · rintro ⟨rfl, blank, alternating⟩
    exact alternating.runs_eq.symm

def spaceBefore : List Char → List Char
  | [] => []
  | next :: _ => if startsNumber next then [' '] else []

def respaced : List (List Char) → List Char
  | [] => []
  | run :: later => (if run.all isBlank then spaceBefore later.flatten else run) ++ respaced later

theorem squeeze_gap {char : Char} (solid : isBlank char = false) (rest : List Char) :
    squeeze true (char :: rest) = spaceBefore (char :: rest) ++ squeeze false (char :: rest) := by
  by_cases starts : startsNumber char = true <;> simp [squeeze, spaceBefore, solid, starts]

theorem Alternating.normalize {blank : Bool} {cut : List (List Char)} (alternating : Alternating blank cut) :
    normalize cut.flatten = respaced cut := by
  induction alternating with
  | nil => rfl
  | @run blank run later some kind turned ih =>
      rw [List.flatten_cons, respaced, ← ih]
      cases blank with
      | false =>
          have solid : run.all isBlank = false := by
            rw [List.all_eq_false]
            exact ⟨_, List.head_mem some, by rw [kind _ (List.head_mem some)]; simp⟩
          rw [solid, Text.normalize, squeeze_solid kind]
          rfl
      | true =>
          have blank : run.all isBlank = true := List.all_eq_true.mpr kind
          rw [blank, Text.normalize, squeeze_run some kind]
          cases turned with
          | nil => rfl
          | @run _ next others more other _ =>
              rcases List.exists_cons_of_ne_nil more with ⟨char, rest, rfl⟩
              exact squeeze_gap (other char List.mem_cons_self) _

inductive Normal : List Char → Prop where
  | nil : Normal []
  | solid {char : Char} {rest : List Char} : isBlank char = false → Normal rest → Normal (char :: rest)
  | space {char : Char} {rest : List Char} : startsNumber char = true → Normal (char :: rest) →
      Normal (' ' :: char :: rest)

theorem normal_squeeze (gap : Bool) (text : List Char) : Normal (squeeze gap text) := by
  fun_induction squeeze gap text with
  | case1 => exact .nil
  | case2 gap char rest blank ih => exact ih
  | case3 gap char rest solid starts ih =>
      rw [Bool.and_eq_true] at starts
      exact .space starts.2 (.solid (startsNumber_solid starts.2) ih)
  | case4 gap char rest solid _ ih => exact .solid (by simpa using solid) ih

theorem Normal.normalize {text : List Char} (normal : Normal text) : normalize text = text := by
  unfold Text.normalize
  induction normal with
  | nil => rfl
  | solid solid _ ih => simp [squeeze, solid, ih]
  | @space char rest starts _ ih =>
      have solid := startsNumber_solid starts
      have inner : squeeze false rest = rest := by simpa [squeeze, solid] using ih
      have blank : isBlank ' ' = true := by decide
      simp [squeeze, solid, starts, inner, blank]

theorem Normal.blank {text front back : List Char} {char : Char} (normal : Normal text)
    (split : text = front ++ char :: back) (blank : isBlank char = true) :
    char = ' ' ∧ ∃ next rest, back = next :: rest ∧ startsNumber next = true := by
  induction normal generalizing front with
  | nil => cases front <;> cases split
  | solid solid _ ih =>
      cases front with
      | nil =>
          cases split
          cases blank.symm.trans solid
      | cons first more => exact ih (List.cons.inj split).2
  | space starts _ ih =>
      cases front with
      | nil =>
          cases split
          exact ⟨rfl, _, _, rfl, starts⟩
      | cons first more => exact ih (List.cons.inj split).2

theorem normalize_blank {text : List Char} :
    ∀ char ∈ normalize text, isBlank char = true → char = ' ' := by
  intro char member blank
  rcases List.append_of_mem member with ⟨front, back, split⟩
  exact ((normal_squeeze false text).blank split blank).1

theorem squeeze_kept (gap : Bool) (text : List Char) :
    (squeeze gap text).filter (!isBlank ·) = text.filter (!isBlank ·) := by
  have blank : isBlank ' ' = true := by decide
  fun_induction squeeze gap text with
  | case1 => rfl
  | case2 gap char rest blank ih => simp [blank, ih]
  | case3 gap char rest solid starts ih => simp [solid, blank, ih]
  | case4 gap char rest solid _ ih => simp [solid, ih]

/-- What is the same behind any blanks is the same behind any text. -/
theorem squeeze_congr {text other : List Char} (same : ∀ gap, squeeze gap text = squeeze gap other)
    (front : List Char) (gap : Bool) : squeeze gap (front ++ text) = squeeze gap (front ++ other) := by
  induction front generalizing gap with
  | nil => exact same gap
  | cons char rest ih => simp [squeeze, ih]

/-- Some blanks are as good as others. -/
theorem normalize_exchange {run other : List Char} (some : run ≠ []) (more : other ≠ [])
    (blank : ∀ char ∈ run, isBlank char = true) (otherBlank : ∀ char ∈ other, isBlank char = true)
    (front back : List Char) : normalize (front ++ (other ++ back)) = normalize (front ++ (run ++ back)) := by
  apply squeeze_congr
  intro gap
  rw [squeeze_run some blank, squeeze_run more otherBlank]

/-- Normalizing puts a space or nothing in the place of each longest run of blanks, as the next character may start a
number or not. -/
theorem blank_runs_replaced (text : List Char) :
    (∀ cut, cut = runs text ↔ cut.flatten = text ∧ ∃ blank, Alternating blank cut) ∧
    normalize text = respaced (runs text) ∧
    (normalize text).filter (!isBlank ·) = text.filter (!isBlank ·) ∧
    (∀ front char back, normalize text = front ++ char :: back → isBlank char = true →
      char = ' ' ∧ ∃ next rest, back = next :: rest ∧ startsNumber next = true) ∧
    normalize (normalize text) = normalize text ∧
    ∀ front run other back, text = front ++ (run ++ back) → run ≠ [] → other ≠ [] →
      (∀ char ∈ run, isBlank char = true) → (∀ char ∈ other, isBlank char = true) →
      normalize (front ++ (other ++ back)) = normalize text := by
  have normal : Normal (normalize text) := normal_squeeze false text
  refine ⟨runs_iff text, ?_, squeeze_kept false text, fun _ _ _ => normal.blank, normal.normalize, ?_⟩
  · rcases (runs_iff text _).mp rfl with ⟨whole, blank, alternating⟩
    rw [← alternating.normalize, whole]
  · rintro front run other back rfl some more blank otherBlank
    exact normalize_exchange some more blank otherBlank front back

/-- Blanks leave a space before a point, and none before a sum sign or at the end. -/
theorem blank_runs_replaced_sum :
    normalize ['2', ' ', '+', '\t', ' ', '.', '5', ' '] = ['2', '+', ' ', '.', '5'] ∧
    normalize ['2', ' ', '+', '\n', '.', '5', ' '] =
      normalize ['2', ' ', '+', '\t', ' ', '.', '5', ' '] := by
  rcases blank_runs_replaced ['2', ' ', '+', '\t', ' ', '.', '5', ' '] with
    ⟨_, replaced, _, _, _, exchanged⟩
  have run : ∀ char ∈ ['\t', ' '], isBlank char = true := List.all_eq_true.mp rfl
  have other : ∀ char ∈ ['\n'], isBlank char = true := List.all_eq_true.mp rfl
  exact ⟨replaced.trans (by decide),
    exchanged ['2', ' ', '+'] _ _ ['.', '5', ' '] rfl (by simp) (by simp) run other⟩

end Calculator.Text
