import Calculator.Evaluate
import Calculator.Proofs.Moves

/-!
Evaluation with a record of what is applied. The traced machine works like the machine and writes down every
operator that is given operands, also the one that fails; without the record it is the machine. A fault either
is the one that the last application ended in, or was found without applying anything and has no position yet.
-/

namespace Calculator

structure Application (Value : Type) where
  word : Word
  operator : Operator Value
  operands : List Value

def Application.refusal {Value : Type} (application : Application Value) : Option Fault :=
  match application.operator.apply application.operands with
  | .ok _ => none
  | .error fault => some fault

namespace Application

variable {Value : Type} (application : Application Value)

theorem refusal_eq_none :
    application.refusal = none ↔ ∃ value, application.operator.apply application.operands = .ok value := by
  unfold refusal
  cases application.operator.apply application.operands <;> simp

theorem refusal_eq_some {fault : Fault} :
    application.refusal = some fault ↔ application.operator.apply application.operands = .error fault := by
  unfold refusal
  cases application.operator.apply application.operands <;> simp

end Application

structure Trace (Value Result : Type) where
  applications : List (Application Value)
  result : Except Fault Result

namespace Trace

variable {Value First Second : Type}

def lift (result : Except Fault First) : Trace Value First :=
  ⟨[], result⟩

def bind (first : Trace Value First) (next : First → Trace Value Second) : Trace Value Second :=
  match first.result with
  | .ok value => ⟨first.applications ++ (next value).applications, (next value).result⟩
  | .error fault => ⟨first.applications, .error fault⟩

instance : Monad (Trace Value) where
  pure value := ⟨[], .ok value⟩
  bind := Trace.bind

@[simp]
theorem lift_applications (result : Except Fault First) :
    (lift result : Trace Value First).applications = [] :=
  rfl

@[simp]
theorem lift_result (result : Except Fault First) :
    (lift result : Trace Value First).result = result :=
  rfl

@[simp]
theorem pure_applications (value : First) : (pure value : Trace Value First).applications = [] :=
  rfl

@[simp]
theorem pure_result (value : First) : (pure value : Trace Value First).result = .ok value :=
  rfl

@[simp]
theorem bind_result (first : Trace Value First) (next : First → Trace Value Second) :
    (first >>= next).result = first.result >>= fun value => (next value).result := by
  change (Trace.bind first next).result = _
  unfold Trace.bind
  cases first.result <;> rfl

theorem bind_applications (first : Trace Value First) (next : First → Trace Value Second)
    (application : Application Value) :
    application ∈ (first >>= next).applications ↔ application ∈ first.applications ∨
      ∃ value, first.result = .ok value ∧ application ∈ (next value).applications := by
  change application ∈ (Trace.bind first next).applications ↔ _
  unfold Trace.bind
  cases first.result <;> simp

def refusal (trace : Trace Value First) : Option Fault :=
  trace.applications.findSome? Application.refusal

/-- Applications go on only as long as none is refused, and a fault that none of them is to blame for has no
position. -/
def Blames (trace : Trace Value First) : Prop :=
  match trace.result with
  | .ok _ => trace.refusal = none
  | .error fault => trace.refusal = some fault ∨ trace.refusal = none ∧ fault.position = none

theorem blames_lift {result : Except Fault First}
    (unplaced : ∀ fault, result = .error fault → fault.position = none) :
    Blames (lift result : Trace Value First) := by
  cases result with
  | ok value => rfl
  | error fault => exact .inr ⟨rfl, unplaced fault rfl⟩

theorem blames_fault (cause : Cause) :
    Blames (lift (.error (.of cause)) : Trace Value First) := by
  apply blames_lift
  intro fault same
  cases same
  rfl

theorem blames_pure (value : First) : Blames (pure value : Trace Value First) :=
  rfl

theorem Blames.bind {first : Trace Value First} {next : First → Trace Value Second}
    (blames : first.Blames) (later : ∀ value, (next value).Blames) : (first >>= next).Blames := by
  change (Trace.bind first next).Blames
  cases result : first.result with
  | error fault =>
      simp only [Blames, result] at blames
      simpa [Trace.bind, Blames, result, refusal] using blames
  | ok value =>
      have none : first.applications.findSome? Application.refusal = none := by
        simpa [Blames, result, refusal] using blames
      have rest := later value
      simp only [Blames, refusal] at rest
      simpa [Trace.bind, Blames, result, refusal, List.findSome?_append, none] using rest

def apply (word : Word) (operator : Operator Value) (operands : List Value) : Trace Value Value :=
  ⟨[⟨word, operator, operands⟩], operator.apply operands⟩

@[simp]
theorem apply_applications (word : Word) (operator : Operator Value) (operands : List Value) :
    (apply word operator operands).applications = [⟨word, operator, operands⟩] :=
  rfl

@[simp]
theorem apply_result (word : Word) (operator : Operator Value) (operands : List Value) :
    (apply word operator operands).result = operator.apply operands :=
  rfl

theorem blames_apply (word : Word) (operator : Operator Value) (operands : List Value) :
    (apply word operator operands).Blames := by
  unfold Blames
  cases applied : operator.apply operands with
  | ok value => simp [applied, refusal, Application.refusal]
  | error fault => simp [applied, refusal, Application.refusal]

def reduce (waiting : Waiting Value) (operands : List Value) : Trace Value (List Value) :=
  if operands.length < waiting.count then lift (.error (.of .invalidExpression))
  else do
    let value ← apply waiting.word waiting.operator (operands.take waiting.count).reverse
    pure (value :: operands.drop waiting.count)

def flush : List (Entry Value) → List Value → Trace Value (List (Entry Value) × List Value)
  | [], _ => lift (.error (.of .unmatchedParenthesis))
  | .opening :: rest, operands => pure (rest, operands)
  | .waiting top :: rest, operands => do
      let operands ← reduce top operands
      flush rest operands

def makeWay (incoming : Operator Value) :
    List (Entry Value) → List Value → Trace Value (List (Entry Value) × List Value)
  | .waiting top :: rest, operands =>
      if top.operator.bindsBefore incoming then do
        let operands ← reduce top operands
        makeWay incoming rest operands
      else pure (.waiting top :: rest, operands)
  | entries, operands => pure (entries, operands)

def drain : List (Entry Value) → List Value → Trace Value (List Value)
  | [], operands => pure operands
  | .opening :: _, _ => lift (.error (.of .unmatchedParenthesis))
  | .waiting top :: rest, operands => do
      let operands ← reduce top operands
      drain rest operands

def comma (machine : Machine Value) : Trace Value (Machine Value) :=
  match machine.frames with
  | .call arity commas base :: outer =>
      if arity.admitsComma commas then do
        let (entries, operands) ← flush machine.entries machine.operands
        pure { machine with
          operands := operands
          entries := .opening :: entries
          frames := .call arity (commas + 1) base :: outer }
      else lift (.error (.of .misplacedComma))
  | _ => lift (.error (.of .misplacedComma))

def applyCall (arity : Arity) (commas base : Nat) (entries : List (Entry Value))
    (operands : List Value) : Trace Value (List (Entry Value) × List Value) := do
  let (entries, operands) ← flush entries operands
  let supplied := operands.length - base
  let expected := arity.ofCall commas
  if supplied ≠ commas + 1 ∨ supplied ≠ expected then lift (.error (.of .invalidExpression))
  else match entries with
    | .waiting top :: rest => do
        let operands ← reduce { top with count := expected } operands
        pure (rest, operands)
    | _ => lift (.error (.of .invalidExpression))

def closeParenthesis (machine : Machine Value) : Trace Value (Machine Value) := do
  let (entries, operands) ← flush machine.entries machine.operands
  match machine.frames with
  | .call arity commas base :: outer => do
      let (entries, operands) ← applyCall arity commas base entries operands
      pure { machine with entries := entries, operands := operands, frames := outer }
  | frames => pure { machine with entries := entries, operands := operands, frames := frames.drop 1 }

def pushOperator (word : Word) (operator : Operator Value) (machine : Machine Value) :
    Trace Value (Machine Value) := do
  let (entries, operands) ← makeWay operator machine.entries machine.operands
  pure { machine with
    operands := operands
    entries := .waiting ⟨word, operator, operator.arity.declared⟩ :: entries }

section

variable (vocabulary : Vocabulary Value) (number : List Char → Option Value)

def readWord (word : Word) (next : Option Char) (machine : Machine Value) :
    Trace Value (Machine Value) :=
  let key := word.key next machine.previous
  match vocabulary.get? key with
  | none => lift (.error (.of .invalidExpression))
  | some operator =>
      if key = [','] then do
        let after ← comma machine
        pure (after.remember word)
      else if key = ['('] then lift ((machine.openParenthesis vocabulary next).map (·.remember word))
      else if key = [')'] then do
        let after ← closeParenthesis machine
        pure (after.remember word)
      else if operator.isConstant then do
        let value ← apply key operator []
        pure (machine.push value (.constant key))
      else do
        let after ← pushOperator key operator machine
        pure (after.remember word)

def step (machine : Machine Value) (placed : Placed) : Trace Value (Machine Value) :=
  match placed.token with
  | .word word => readWord vocabulary word placed.next machine
  | .number text => lift (machine.readNumber number text)

end

def finish (machine : Machine Value) : Trace Value Value := do
  match ← drain machine.entries machine.operands with
  | [value] => pure value
  | _ => lift (.error (.of .invalidExpression))

def placeAt (position : Nat) (trace : Trace Value First) : Trace Value First :=
  ⟨trace.applications, located position trace.result⟩

section

variable (vocabulary : Vocabulary Value) (number : List Char → Option Value)

def readAll (machine : Machine Value) (tokens : List Placed) : Trace Value (Machine Value) :=
  tokens.foldlM (fun machine placed => (step vocabulary number machine placed).placeAt placed.last)
    machine

def run (text : List Char) : Trace Value Value :=
  let text := Text.normalize text
  if text.isEmpty then lift (.error (.of .emptyExpression))
  else do
    let scan := Scan.ofText vocabulary text
    let machine ← readAll vocabulary number .initial scan.tokens
    if scan.rest.isEmpty then finish machine
    else lift (.error ⟨.unrecognizedToken, some (text.length - scan.rest.length)⟩)

end

/-! Without the record, the traced machine is the machine. -/

theorem bind_agrees {first : Trace Value First} {next : First → Trace Value Second}
    {result : Except Fault First} {goOn : First → Except Fault Second}
    (same : first.result = result) (later : ∀ value, (next value).result = goOn value) :
    (first >>= next).result = result >>= goOn := by
  rw [bind_result, same]
  congr
  funext value
  exact later value

theorem reduce_result (waiting : Waiting Value) (operands : List Value) :
    (reduce waiting operands).result = waiting.reduce operands := by
  unfold reduce Waiting.reduce
  split
  · rfl
  · exact bind_agrees rfl fun value => rfl

theorem flush_result (entries : List (Entry Value)) (operands : List Value) :
    (flush entries operands).result = Machine.flush entries operands := by
  induction entries generalizing operands with
  | nil => rfl
  | cons entry rest ih =>
      cases entry with
      | opening => rfl
      | waiting top => exact bind_agrees (reduce_result top operands) ih

theorem makeWay_result (incoming : Operator Value) (entries : List (Entry Value))
    (operands : List Value) :
    (makeWay incoming entries operands).result = Machine.makeWay incoming entries operands := by
  induction entries generalizing operands with
  | nil => rfl
  | cons entry rest ih =>
      cases entry with
      | opening => rfl
      | waiting top =>
          unfold makeWay Machine.makeWay
          split
          · exact bind_agrees (reduce_result top operands) ih
          · rfl

theorem drain_result (entries : List (Entry Value)) (operands : List Value) :
    (drain entries operands).result = Machine.drain entries operands := by
  induction entries generalizing operands with
  | nil => rfl
  | cons entry rest ih =>
      cases entry with
      | opening => rfl
      | waiting top => exact bind_agrees (reduce_result top operands) ih

theorem comma_result (machine : Machine Value) : (comma machine).result = machine.comma := by
  unfold comma Machine.comma
  cases machine.frames with
  | nil => rfl
  | cons frame outer =>
      cases frame with
      | group => rfl
      | call arity commas base =>
          dsimp only
          split
          · exact bind_agrees (flush_result _ _) fun _ => rfl
          · rfl

theorem applyCall_result (arity : Arity) (commas base : Nat) (entries : List (Entry Value))
    (operands : List Value) : (applyCall arity commas base entries operands).result =
      Machine.applyCall arity commas base entries operands := by
  apply bind_agrees (flush_result entries operands)
  rintro ⟨entries, operands⟩
  dsimp only
  split
  · rfl
  · cases entries with
    | nil => rfl
    | cons entry rest =>
        cases entry with
        | opening => rfl
        | waiting top => exact bind_agrees (reduce_result _ _) fun _ => rfl

theorem closeParenthesis_result (machine : Machine Value) :
    (closeParenthesis machine).result = machine.closeParenthesis := by
  apply bind_agrees (flush_result machine.entries machine.operands)
  rintro ⟨entries, operands⟩
  cases machine.frames with
  | nil => rfl
  | cons frame outer =>
      cases frame with
      | group => rfl
      | call arity commas base => exact bind_agrees (applyCall_result _ _ _ _ _) fun _ => rfl

theorem pushOperator_result (word : Word) (operator : Operator Value) (machine : Machine Value) :
    (pushOperator word operator machine).result = machine.pushOperator word operator :=
  bind_agrees (makeWay_result operator machine.entries machine.operands) fun _ => rfl

theorem remember_agrees {trace : Trace Value (Machine Value)} {result : Except Fault (Machine Value)}
    (same : trace.result = result) (word : Word) :
    (trace >>= fun after => pure (after.remember word)).result =
      result.map (Machine.remember word) := by
  rw [bind_result, same]
  cases result <;> rfl

section

variable (vocabulary : Vocabulary Value) (number : List Char → Option Value)

theorem readWord_result (word : Word) (next : Option Char) (machine : Machine Value) :
    (readWord vocabulary word next machine).result = machine.readWord vocabulary word next := by
  unfold readWord Machine.readWord
  dsimp only
  cases vocabulary.get? (word.key next machine.previous) with
  | none => rfl
  | some operator =>
      dsimp only
      split
      · exact remember_agrees (comma_result machine) word
      split
      · rfl
      split
      · exact remember_agrees (closeParenthesis_result machine) word
      split
      · exact bind_agrees rfl fun _ => rfl
      · exact remember_agrees (pushOperator_result _ _ machine) word

theorem step_result (machine : Machine Value) (placed : Placed) :
    located placed.last (step vocabulary number machine placed).result =
      machine.step vocabulary number placed := by
  unfold step Machine.step
  cases placed.token with
  | word word => exact congrArg _ (readWord_result vocabulary word placed.next machine)
  | number text => rfl

end

theorem finish_result (machine : Machine Value) : (finish machine).result = machine.finish := by
  apply bind_agrees (drain_result machine.entries machine.operands)
  intro values
  rcases values with _ | ⟨value, _ | ⟨second, rest⟩⟩ <;> rfl

section

variable (vocabulary : Vocabulary Value) (number : List Char → Option Value)

theorem readAll_result (machine : Machine Value) (tokens : List Placed) :
    (readAll vocabulary number machine tokens).result =
      tokens.foldlM (Machine.step vocabulary number) machine := by
  induction tokens generalizing machine with
  | nil => rfl
  | cons placed rest ih =>
      rw [List.foldlM_cons]
      exact bind_agrees (step_result vocabulary number machine placed) ih

theorem run_result (text : List Char) :
    (run vocabulary number text).result = Calculator.run vocabulary number text := by
  unfold run Calculator.run
  dsimp only
  split
  · rfl
  · apply bind_agrees (readAll_result vocabulary number _ _)
    intro machine
    split
    · exact finish_result machine
    · rfl

end

/-! Who is to blame for a fault. -/

theorem blames_reduce (waiting : Waiting Value) (operands : List Value) :
    (reduce waiting operands).Blames := by
  unfold reduce
  split
  · exact blames_fault _
  · exact (blames_apply _ _ _).bind fun value => blames_pure _

theorem blames_flush (entries : List (Entry Value)) (operands : List Value) :
    (flush entries operands).Blames := by
  induction entries generalizing operands with
  | nil => exact blames_fault _
  | cons entry rest ih =>
      cases entry with
      | opening => exact blames_pure _
      | waiting top => exact (blames_reduce top operands).bind ih

theorem blames_makeWay (incoming : Operator Value) (entries : List (Entry Value))
    (operands : List Value) : (makeWay incoming entries operands).Blames := by
  induction entries generalizing operands with
  | nil => exact blames_pure _
  | cons entry rest ih =>
      cases entry with
      | opening => exact blames_pure _
      | waiting top =>
          unfold makeWay
          split
          · exact (blames_reduce top operands).bind ih
          · exact blames_pure _

theorem blames_comma (machine : Machine Value) : (comma machine).Blames := by
  unfold comma
  split
  · split
    · exact (blames_flush _ _).bind fun _ => blames_pure _
    · exact blames_fault _
  · exact blames_fault _

theorem blames_applyCall (arity : Arity) (commas base : Nat) (entries : List (Entry Value))
    (operands : List Value) : (applyCall arity commas base entries operands).Blames := by
  apply (blames_flush entries operands).bind
  rintro ⟨entries, operands⟩
  dsimp only
  split
  · exact blames_fault _
  · split
    · exact (blames_reduce _ _).bind fun _ => blames_pure _
    · exact blames_fault _

theorem blames_closeParenthesis (machine : Machine Value) : (closeParenthesis machine).Blames := by
  apply (blames_flush machine.entries machine.operands).bind
  rintro ⟨entries, operands⟩
  dsimp only
  split
  · exact (blames_applyCall _ _ _ _ _).bind fun _ => blames_pure _
  · exact blames_pure _

theorem blames_pushOperator (word : Word) (operator : Operator Value) (machine : Machine Value) :
    (pushOperator word operator machine).Blames :=
  (blames_makeWay operator machine.entries machine.operands).bind fun _ => blames_pure _

section

variable (vocabulary : Vocabulary Value) (number : List Char → Option Value)

theorem blames_openParenthesis (word : Word) (next : Option Char) (machine : Machine Value) :
    (lift ((machine.openParenthesis vocabulary next).map (·.remember word)) :
      Trace Value (Machine Value)).Blames := by
  apply blames_lift
  intro fault failed
  unfold Machine.openParenthesis at failed
  split at failed
  · cases failed
    rfl
  · split at failed
    · split at failed
      · cases failed
      · cases failed
        rfl
    · cases failed

theorem blames_step (machine : Machine Value) (placed : Placed) :
    (step vocabulary number machine placed).Blames := by
  unfold step
  split
  · next word _ =>
      unfold readWord
      dsimp only
      split
      · exact blames_fault _
      · split
        · exact (blames_comma machine).bind fun _ => blames_pure _
        split
        · exact blames_openParenthesis vocabulary word placed.next machine
        split
        · exact (blames_closeParenthesis machine).bind fun _ => blames_pure _
        split
        · exact (blames_apply _ _ _).bind fun _ => blames_pure _
        · exact (blames_pushOperator _ _ machine).bind fun _ => blames_pure _
  · apply blames_lift
    intro fault failed
    unfold Machine.readNumber at failed
    split at failed
    · cases failed
    · cases failed
      rfl

end

end Trace

end Calculator
