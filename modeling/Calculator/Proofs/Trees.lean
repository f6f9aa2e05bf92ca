import Calculator.Proofs.Nesting
import Mathlib.Data.List.Forall2

/-!
Trees of what is evaluated. On its way through a text the machine keeps a forest: one tree for each operand,
and the operators that still wait for theirs. Applying an operator makes a node of the topmost trees, so that
numbers and constants stay in the order of the text, and every operator becomes a node once. Well-formed or
not, a text that has a value is one tree in the end.
-/

namespace Calculator

inductive Tree where
  | leaf (placed : Placed)
  | node (placed : Placed) (key : Word) (children : List Tree)

mutual

def Tree.leaves : Tree → List Placed
  | .leaf placed => [placed]
  | .node _ _ children => Forest.leaves children

def Forest.leaves : List Tree → List Placed
  | [] => []
  | tree :: rest => tree.leaves ++ Forest.leaves rest

end

mutual

def Tree.nodes : Tree → List (Placed × Word)
  | .leaf _ => []
  | .node placed key children => (placed, key) :: Forest.nodes children

def Forest.nodes : List Tree → List (Placed × Word)
  | [] => []
  | tree :: rest => tree.nodes ++ Forest.nodes rest

end

def Arity.takes : Arity → Nat → Bool
  | .fixed count, supplied => supplied == count
  | .variadic, _ => true

namespace Arity

theorem takes_declared (arity : Arity) : arity.takes arity.declared = true := by
  cases arity with
  | fixed count => exact beq_self_eq_true count
  | variadic => rfl

theorem takes_call {arity : Arity} {commas : Nat} (expected : arity.ofCall commas = commas + 1) :
    arity.takes (commas + 1) = true := by
  cases arity with
  | fixed count => exact beq_iff_eq.mpr expected.symm
  | variadic => rfl

end Arity

section

variable {Value : Type} (vocabulary : Vocabulary Value) (number : List Char → Option Value)

mutual

def Tree.fits : Tree → Bool
  | .leaf _ => true
  | .node _ key children =>
      (vocabulary.get? key).any (·.arity.takes children.length) && Forest.fit children

def Forest.fit : List Tree → Bool
  | [] => true
  | tree :: rest => tree.fits && Forest.fit rest

end

def Vocabulary.compute (key : Word) (values : List Value) : Except Fault Value :=
  match (vocabulary.get? key).map Operator.action with
  | some (.arithmetic compute) => .ok (compute values)
  | some (.function body) => body values
  | some .mark | none => .error (.of .invalidExpression)

def Placed.value (placed : Placed) : Except Fault Value :=
  match placed.token with
  | .word word => vocabulary.compute word []
  | .number text =>
      match number text with
      | some value => .ok value
      | none => .error (.of .invalidExpression)

mutual

def Tree.value : Tree → Except Fault Value
  | .leaf placed => placed.value vocabulary number
  | .node _ key children => do
      let values ← Forest.values children
      vocabulary.compute key values

def Forest.values : List Tree → Except Fault (List Value)
  | [] => .ok []
  | tree :: rest => do
      let value ← tree.value
      let values ← Forest.values rest
      .ok (value :: values)

end

def Placed.isLeaf (placed : Placed) : Bool :=
  match placed.token with
  | .word word => vocabulary.isConstant word
  | .number _ => true

def Placed.operation (before : Option Token) (placed : Placed) : Option (Placed × Word) :=
  match placed.token with
  | .word word =>
      if Word.marks.contains word || vocabulary.isConstant word then none
      else some (placed, word.key placed.next (before.map (Machine.taken vocabulary)))
  | .number _ => none

def operations : Option Token → List Placed → List (Placed × Word)
  | _, [] => []
  | before, placed :: rest =>
      (placed.operation vocabulary before).toList ++ operations (some placed.token) rest

end

theorem Vocabulary.compute_apply {Value : Type} {vocabulary : Vocabulary Value} {key : Word}
    {operator : Operator Value} (known : vocabulary.get? key = some operator) (values : List Value) :
    vocabulary.compute key values = operator.apply values := by
  rw [compute, known, Option.map_some, Operator.apply]
  cases operator.action <;> rfl

namespace Forest

theorem leaves_append (first second : List Tree) :
    leaves (first ++ second) = leaves first ++ leaves second := by
  induction first with
  | nil => rfl
  | cons tree rest ih => rw [List.cons_append, leaves, leaves, ih, List.append_assoc]

theorem nodes_flat (forest : List Tree) : nodes forest = forest.flatMap Tree.nodes := by
  induction forest with
  | nil => rfl
  | cons tree rest ih => rw [nodes, ih, List.flatMap_cons]

theorem nodes_append (first second : List Tree) :
    nodes (first ++ second) = nodes first ++ nodes second := by
  rw [nodes_flat, nodes_flat, nodes_flat, List.flatMap_append]

theorem nodes_reverse (forest : List Tree) : (nodes forest.reverse).Perm (nodes forest) := by
  rw [nodes_flat, nodes_flat]
  exact forest.reverse_perm.flatMap_right Tree.nodes

variable {Value : Type} {vocabulary : Vocabulary Value} {number : List Char → Option Value}

theorem fit_iff (forest : List Tree) :
    fit vocabulary forest = true ↔ ∀ tree ∈ forest, tree.fits vocabulary = true := by
  induction forest with
  | nil => simp [fit]
  | cons tree rest ih => simp [fit, ih]

theorem values_ok {forest : List Tree} {values : List Value}
    (each : List.Forall₂ (fun tree value => tree.value vocabulary number = .ok value) forest values) :
    Forest.values vocabulary number forest = .ok values := by
  induction each with
  | nil => rfl
  | cons first rest ih =>
      rw [Forest.values, first, ih]
      rfl

end Forest

structure Waiting.StandsFor {Value : Type} (vocabulary : Vocabulary Value) (operation : Placed × Word)
    (top : Waiting Value) : Prop where
  key : top.word = operation.2
  known : vocabulary.get? top.word = some top.operator
  takes : top.operator.arity.takes top.count = true

namespace Machine

variable {Value : Type} {vocabulary : Vocabulary Value} {number : List Char → Option Value}

def awaiting : List (Entry Value) → List (Waiting Value)
  | [] => []
  | .opening :: rest => awaiting rest
  | .waiting top :: rest => top :: awaiting rest

/-- Every operand is the value of a tree, and every waiting operator that of a token. The leaves in the order
of the text, and the operators in any order, are all that was read. -/
structure Grows (vocabulary : Vocabulary Value) (number : List Char → Option Value)
    (leaves : List Placed) (operations : List (Placed × Word)) (operands : List Value)
    (entries : List (Entry Value)) (forest : List Tree) (pending : List (Placed × Word)) : Prop where
  values : List.Forall₂ (fun tree value => tree.value vocabulary number = .ok value) forest operands
  fits : ∀ tree ∈ forest, tree.fits vocabulary = true
  named : List.Forall₂ (Waiting.StandsFor vocabulary) pending (awaiting entries)
  leaves : Forest.leaves forest.reverse = leaves
  nodes : (Forest.nodes forest ++ pending).Perm operations

def Grown (vocabulary : Vocabulary Value) (number : List Char → Option Value) (leaves : List Placed)
    (operations : List (Placed × Word)) (operands : List Value) (entries : List (Entry Value)) : Prop :=
  ∃ forest pending, Grows vocabulary number leaves operations operands entries forest pending

section

variable {leaves : List Placed} {operations : List (Placed × Word)} {operands after : List Value}
  {entries rest : List (Entry Value)}

theorem Grown.opening : Grown vocabulary number leaves operations operands (.opening :: entries) ↔
    Grown vocabulary number leaves operations operands entries := by
  constructor
  · rintro ⟨forest, pending, values, fits, named, inOrder, nodes⟩
    exact ⟨forest, pending, values, fits, named, inOrder, nodes⟩
  · rintro ⟨forest, pending, values, fits, named, inOrder, nodes⟩
    exact ⟨forest, pending, values, fits, named, inOrder, nodes⟩

/-- The topmost trees become the children of a node, the top one last. -/
theorem Grows.reduce {top : Waiting Value} {forest : List Tree} {placed : Placed} {key : Word}
    {pending : List (Placed × Word)}
    (grows : Grows vocabulary number leaves operations operands (.waiting top :: entries) forest
      ((placed, key) :: pending))
    (reduced : top.reduce operands = .ok after) :
    Grows vocabulary number leaves operations after entries
      (.node placed key (forest.take top.count).reverse :: forest.drop top.count) pending := by
  rcases grows with ⟨values, fits, named, inOrder, nodes⟩
  rcases List.forall₂_cons.mp named with ⟨stands, others⟩
  unfold Waiting.reduce at reduced
  split at reduced
  · cases reduced
  next enough =>
  rcases bind_ok.mp reduced with ⟨value, applied, done⟩
  cases done
  have length : (forest.take top.count).reverse.length = top.count := by
    rw [List.length_reverse, List.length_take, values.length_eq]
    omega
  have found : vocabulary.get? key = some top.operator := by
    rw [← stands.known, stands.key]
  constructor
  · apply List.Forall₂.cons
    · have children := Forest.values_ok (List.forall₂_reverse_iff.mpr (List.forall₂_take top.count values))
      simp [Tree.value, children, Vocabulary.compute_apply found, applied, bind, Except.bind]
    · exact List.forall₂_drop top.count values
  · intro tree member
    rcases List.mem_cons.mp member with rfl | later
    · have inner : Forest.fit vocabulary (forest.take top.count).reverse = true := by
        apply (Forest.fit_iff _).mpr
        intro tree member
        exact fits tree (List.mem_of_mem_take (List.mem_reverse.mp member))
      simp [Tree.fits, found, stands.takes, length, inner]
    · exact fits tree (List.mem_of_mem_drop later)
  · exact others
  · -- The children were on top, so their leaves are the last ones.
    have split : forest.reverse = (forest.drop top.count).reverse ++ (forest.take top.count).reverse := by
      rw [← List.reverse_append, List.take_append_drop]
    rw [← inOrder, split, List.reverse_cons, Forest.leaves_append, Forest.leaves_append]
    simp [Forest.leaves, Tree.leaves]
  · have children := Forest.nodes_reverse (forest.take top.count)
    have split : Forest.nodes forest =
        Forest.nodes (forest.take top.count) ++ Forest.nodes (forest.drop top.count) := by
      rw [← Forest.nodes_append, List.take_append_drop]
    rw [split] at nodes
    rw [Forest.nodes, Tree.nodes]
    exact (((children.append_right _).append_right pending).cons _).trans (List.perm_middle.symm.trans nodes)

theorem Grown.reduce {top : Waiting Value}
    (grown : Grown vocabulary number leaves operations operands (.waiting top :: entries))
    (reduced : top.reduce operands = .ok after) :
    Grown vocabulary number leaves operations after entries := by
  rcases grown with ⟨forest, pending, grows⟩
  cases pending with
  | nil => cases grows.named
  | cons operation others => exact ⟨_, _, grows.reduce reduced⟩

theorem Grown.settle {pending : List (Waiting Value)}
    (grown : Grown vocabulary number leaves operations operands (pending.map .waiting ++ rest))
    (settled : settle pending operands = .ok after) :
    Grown vocabulary number leaves operations after rest := by
  induction pending generalizing operands with
  | nil =>
      cases settled
      exact grown
  | cons top others ih =>
      rcases settle_cons_ok.mp settled with ⟨middle, reduced, settled⟩
      exact ih (grown.reduce reduced) settled

theorem Grown.count {top : Waiting Value} {count : Nat}
    (takes : top.operator.arity.takes count = true)
    (grown : Grown vocabulary number leaves operations operands (.waiting top :: entries)) :
    Grown vocabulary number leaves operations operands (.waiting { top with count := count } :: entries) := by
  rcases grown with ⟨forest, pending, values, fits, named, inOrder, nodes⟩
  cases named with
  | cons stands others =>
      exact ⟨forest, _, values, fits, .cons ⟨stands.key, stands.known, takes⟩ others, inOrder, nodes⟩

theorem Grown.leaf {placed : Placed} {value : Value}
    (grown : Grown vocabulary number leaves operations operands entries)
    (evaluates : placed.value vocabulary number = .ok value) :
    Grown vocabulary number (leaves ++ [placed]) operations (value :: operands) entries := by
  rcases grown with ⟨forest, pending, values, fits, named, rfl, nodes⟩
  refine ⟨.leaf placed :: forest, pending, .cons ?_ values, ?_, named, ?_, ?_⟩
  · rw [Tree.value, evaluates]
  · intro tree member
    rcases List.mem_cons.mp member with rfl | later
    · rfl
    · exact fits tree later
  · rw [List.reverse_cons, Forest.leaves_append]
    rfl
  · exact nodes

theorem Grown.operator {placed : Placed} {top : Waiting Value}
    (grown : Grown vocabulary number leaves operations operands entries)
    (known : vocabulary.get? top.word = some top.operator)
    (takes : top.operator.arity.takes top.count = true) :
    Grown vocabulary number leaves (operations ++ [(placed, top.word)]) operands
      (.waiting top :: entries) := by
  rcases grown with ⟨forest, pending, values, fits, named, inOrder, nodes⟩
  refine ⟨forest, (placed, top.word) :: pending, values, fits, .cons ⟨rfl, known, takes⟩ named, inOrder, ?_⟩
  exact List.perm_middle.trans ((nodes.cons _).trans (List.perm_append_singleton _ _).symm)

theorem Grown.mark (lawful : vocabulary.Lawful) {word : Word} (isMark : word ∈ Word.marks)
    (grown : Grown vocabulary number leaves operations operands entries) (before : Option Token)
    (last : Nat) (next : Option Char) :
    Grown vocabulary number (leaves ++ [⟨.word word, last, next⟩].filter (·.isLeaf vocabulary))
      (operations ++ (Placed.operation vocabulary before ⟨.word word, last, next⟩).toList) operands
      entries := by
  simpa [Placed.isLeaf, Placed.operation, lawful.mark_no_constant isMark, isMark] using grown

/-- What one token preserves. -/
theorem Grown.step (lawful : vocabulary.Lawful) {before : Option Token} {openings : List Opening}
    {machine next : Machine Value} (tracks : Tracks vocabulary before openings machine)
    (grown : Grown vocabulary number leaves operations machine.operands machine.entries)
    {placed : Placed} (moves : Moves vocabulary number machine placed.token placed.next next) :
    Grown vocabulary number (leaves ++ [placed].filter (·.isLeaf vocabulary))
      (operations ++ (placed.operation vocabulary before).toList) next.operands next.entries := by
  have last := (tracks.step lawful moves).previous
  rcases placed with ⟨token, index, ahead⟩
  dsimp only at moves last
  cases moves with
  | @number text _ value reading =>
      have evaluates : Placed.value vocabulary number ⟨.number text, index, ahead⟩ = .ok value := by
        simp [Placed.value, reading]
      simpa [Placed.isLeaf, Placed.operation, push] using grown.leaf evaluates
  | @constant word _ operator value known constant applied =>
      have evaluates : Placed.value vocabulary number ⟨.word word, index, ahead⟩ = .ok value := by
        simpa [Placed.value, Vocabulary.compute_apply known] using applied
      have isConstant : vocabulary.isConstant word = true := by
        simpa [Vocabulary.isConstant, known] using constant
      simpa [Placed.isLeaf, Placed.operation, isConstant, push] using grown.leaf evaluates
  | comma frames admitted entries settled =>
      rw [entries] at grown
      exact (grown.settle settled).mark lawful (by simp [Word.marks]) before index ahead
  | openCall opens entries =>
      rw [entries] at grown
      exact (Grown.opening.mpr (Grown.opening.mpr grown)).mark lawful (by simp [Word.marks]) before index
        ahead
  | openGroup plain filled =>
      exact (Grown.opening.mpr grown).mark lawful (by simp [Word.marks]) before index ahead
  | closeCall frames entries first second supplied expected applied =>
      -- The arguments are counted by the commas, and the function takes that many.
      rcases tracks.mirrors.close_entries frames entries with ⟨_, _, same, _⟩
      have takes := Arity.takes_call (same ▸ expected)
      rw [entries] at grown
      have arguments := Grown.opening.mp (grown.settle first)
      have call := Grown.opening.mp (arguments.settle second)
      exact ((call.count takes).reduce applied).mark lawful (by simp [Word.marks]) before index ahead
  | closeGroup noCall entries settled =>
      rw [entries] at grown
      have group := Grown.opening.mp (grown.settle settled)
      exact group.mark lawful (by simp [Word.marks]) before index ahead
  | @operator word _ operator pending rest operands known noMark noConstant entries settled applied
      stops =>
      rw [entries] at grown
      have noLeaf : vocabulary.isConstant word = false := by
        cases constant : vocabulary.isConstant word with
        | false => rfl
        | true => simp [taken, constant] at last
      have waits := @Grown.operator _ vocabulary number _ _ _ _ ⟨.word word, index, ahead⟩
        ⟨word.key ahead machine.previous, operator, operator.arity.declared⟩ (grown.settle settled)
        known operator.arity.takes_declared
      simpa [Placed.isLeaf, Placed.operation, noLeaf, noMark, tracks.previous] using waits

/-- What a run preserves. -/
theorem Grown.run (lawful : vocabulary.Lawful) {before : Option Token} {openings : List Opening}
    {machine next : Machine Value} (tracks : Tracks vocabulary before openings machine)
    (grown : Grown vocabulary number leaves operations machine.operands machine.entries)
    {tokens : List Placed} (reached : tokens.foldlM (Machine.step vocabulary number) machine = .ok next) :
    Grown vocabulary number (leaves ++ tokens.filter (·.isLeaf vocabulary))
      (operations ++ Calculator.operations vocabulary before tokens) next.operands next.entries := by
  induction tokens generalizing before openings machine leaves operations with
  | nil =>
      cases reached
      simpa [Calculator.operations] using grown
  | cons first rest ih =>
      rw [List.foldlM_cons] at reached
      rcases bind_ok.mp reached with ⟨middle, stepped, reached⟩
      have moves := step_moves lawful stepped
      have later := ih (tracks.step lawful moves) (grown.step lawful tracks moves) reached
      rw [Calculator.operations, ← List.singleton_append, List.filter_append]
      simpa using later

/-- Where nothing waits and one value is left, the forest is one tree. -/
theorem Grown.single {value : Value} (grown : Grown vocabulary number leaves operations [value] []) :
    ∃ tree : Tree, tree.leaves = leaves ∧ tree.nodes.Perm operations ∧
      tree.fits vocabulary = true ∧ tree.value vocabulary number = .ok value := by
  rcases grown with ⟨forest, pending, values, fits, named, inOrder, nodes⟩
  cases named
  rcases values with _ | ⟨evaluates, none⟩
  cases none
  refine ⟨_, ?_, ?_, fits _ List.mem_cons_self, evaluates⟩
  · simpa [Forest.leaves] using inOrder
  · simpa [Forest.nodes] using nodes

end

end Machine

/-- Every text with a value is one tree that has this value: its leaves are the numbers and constants of the
text in their order, its nodes the operators, signs and functions, each once. -/
theorem evaluated_tree {vocabulary : Vocabulary Float} (reachable : vocabulary.Reachable)
    {expression : String} {value : Float}
    (accepted : evaluateExact vocabulary expression = .ok value) :
    let tokens := (Scan.ofText vocabulary (Text.normalize expression.toList)).tokens
    ∃ tree : Tree, tree.leaves = tokens.filter (·.isLeaf vocabulary) ∧
      tree.nodes.Perm (operations vocabulary none tokens) ∧ tree.fits vocabulary = true ∧
      tree.value vocabulary readNumber? = .ok value := by
  have lawful := reachable.lawful
  rcases Machine.run_ok accepted with ⟨machine, _, reached, finished⟩
  have start : Machine.Grown vocabulary readNumber? [] [] [] [] :=
    ⟨[], [], .nil, by simp, .nil, rfl, .nil⟩
  have grown := start.run lawful Machine.Tracks.initial reached
  rcases Machine.finish_ok.mp finished with ⟨pending, entries, settled⟩
  have waiting : machine.entries = pending.map .waiting ++ [] := by rw [entries, List.append_nil]
  rw [waiting] at grown
  exact (grown.settle settled).single

theorem evaluated_tree_product :
    let tokens := (Scan.ofText (.standard 0) "2*mean(9,2,1)".toList).tokens
    (evaluateExact (.standard 0) "2*mean(9,2,1)").toOption = some 8 ∧
    ∃ tree : Tree, tree.leaves.map (·.token) = [.number ['2'], .number ['9'], .number ['2'], .number ['1']] ∧
      tree.nodes.Perm (operations (.standard 0) none tokens) ∧
      (operations (.standard 0) none tokens).map (·.2) = ["*".toList, "mean".toList] ∧
      (tree.value (.standard 0) readNumber?).toOption = some 8 := by
  have reachable : (Vocabulary.standard 0).Reachable := ⟨0, [], rfl⟩
  have eight : (evaluateExact (.standard 0) "2*mean(9,2,1)").toOption = some 8 := by decide +kernel
  cases accepted : evaluateExact (.standard 0) "2*mean(9,2,1)" with
  | error fault =>
      rw [accepted] at eight
      cases eight
  | ok value =>
      rcases evaluated_tree reachable accepted with ⟨tree, leaves, nodes, _, evaluates⟩
      rw [accepted] at eight
      refine ⟨eight, tree, ?_, nodes, ?_, ?_⟩
      · rw [leaves]
        decide +kernel
      · decide +kernel
      · rw [evaluates]
        exact eight

end Calculator
