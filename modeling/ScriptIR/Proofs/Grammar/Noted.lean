import Mathlib
import ScriptIR.Proofs.Grammar.Shape

namespace ScriptIR

open Grammar

-- Whether the first child of a node stands where a statement does, and whether the other
-- children do. A condition does not, and neither does what a loop or a return owns.
def Kind.states : Kind → Bool × Bool
  | .main | .block | .elseStatement => (true, true)
  | .ifStatement => (false, true)
  | _ => (false, false)

-- Assignments are statements always, and calls where they stand like one.
def Kind.isSimple (stated : Bool) : Kind → Bool
  | .assignment => true
  | .call => stated
  | _ => false

-- A node, and whether it stands where a statement does.
structure Station where
  stated : Bool
  tree : Tree

def Station.isSimple : Station → Bool
  | ⟨stated, .node kind _ _⟩ => kind.isSimple stated
  | _ => false

namespace Tree

mutual

-- All nodes of a tree, each in front of what is below it.
def stations (stated : Bool) : Tree → List Station
  | .node kind children place =>
    ⟨stated, .node kind children place⟩ :: stationsFrom kind.states.1 kind.states.2 children
  | .function name params children place =>
    ⟨stated, .function name params children place⟩ ::
      (stations false params ++ stationsFrom true true children)
  | .loop counter first last children place =>
    ⟨stated, .loop counter first last children place⟩ ::
      (stations false first ++ (stations false last ++ stationsFrom true true children))
  | .giving value children place =>
    ⟨stated, .giving value children place⟩ ::
      (stations false value ++ stationsFrom false false children)

def stationsFrom (first others : Bool) : List Tree → List Station
  | [] => []
  | tree :: rest => stations first tree ++ stationsFrom others others rest

end

-- The assignments and the calls that are statements.
def simple (stated : Bool) (tree : Tree) : List Tree :=
  ((tree.stations stated).filter Station.isSimple).map Station.tree

def simpleFrom (first others : Bool) (trees : List Tree) : List Tree :=
  ((stationsFrom first others trees).filter Station.isSimple).map Station.tree

-- The name that the source has first in a node.
def leading : Tree → Option String
  | .node (.identifier name) _ _ => some name
  | .node _ (first :: _) _ => first.leading
  | _ => none

@[simp] theorem simpleFrom_nil (first others : Bool) : simpleFrom first others [] = [] := rfl

@[simp] theorem simpleFrom_cons (first others : Bool) (tree : Tree) (rest : List Tree) :
    simpleFrom first others (tree :: rest) =
      tree.simple first ++ simpleFrom others others rest := by
  simp [simpleFrom, simple, stationsFrom]

@[simp] theorem simple_node (stated : Bool) (kind : Kind) (children : List Tree)
    (place : Location) :
    (Tree.node kind children place).simple stated =
      (if kind.isSimple stated then [.node kind children place] else []) ++
        simpleFrom kind.states.1 kind.states.2 children := by
  cases h : kind.isSimple stated <;>
    simp [simple, simpleFrom, stations, Station.isSimple, h]

@[simp] theorem simple_function (stated : Bool) (name : String) (params : Tree)
    (children : List Tree) (place : Location) :
    (Tree.function name params children place).simple stated =
      params.simple false ++ simpleFrom true true children := by
  simp [simple, simpleFrom, stations, Station.isSimple]

@[simp] theorem simple_loop (stated : Bool) (counter : String) (first last : Tree)
    (children : List Tree) (place : Location) :
    (Tree.loop counter first last children place).simple stated =
      first.simple false ++ (last.simple false ++ simpleFrom true true children) := by
  simp [simple, simpleFrom, stations, Station.isSimple]

@[simp] theorem simple_giving (stated : Bool) (value : Tree) (children : List Tree)
    (place : Location) :
    (Tree.giving value children place).simple stated =
      value.simple false ++ simpleFrom false false children := by
  simp [simple, simpleFrom, stations, Station.isSimple]

theorem simpleFrom_eq_nil {trees : List Tree} (h : ∀ tree ∈ trees, tree.simple false = []) :
    simpleFrom false false trees = [] := by
  induction trees with
  | nil => rfl
  | cons tree rest ih =>
    obtain ⟨ht, hr⟩ := List.forall_mem_cons.mp h
    rw [simpleFrom_cons, ht, ih hr, List.append_nil]

end Tree

theorem IsExpression.simple_eq {tree : Tree} (h : IsExpression tree) : tree.simple false = [] := by
  induction h with
  | call _ _ ih =>
    simp [identifierNode, Kind.isSimple, Kind.states, Tree.simpleFrom_eq_nil ih]
  | operation _ _ ihl ihr => simp [Kind.isSimple, Kind.states, ihl, ihr]
  | arrayAccess _ ih => simp [identifierNode, Kind.isSimple, Kind.states, ih]
  | _ => simp [identifierNode, Kind.isSimple, Kind.states]

mutual

theorem IsItem.simple_eq : ∀ {tree : Tree}, IsItem tree → tree.simple false = []
  | _, .expression he => he.simple_eq
  | _, .array _ hi => by
    have hv := Tree.simpleFrom_eq_nil fun value hv => (hi value hv).simple_eq
    simp [Kind.isSimple, Kind.states, hv]
  | _, .keyValue hp => by
    have he := Tree.simpleFrom_eq_nil fun entry he => (hp entry he).simple_eq
    simp [Kind.isSimple, Kind.states, he]

theorem IsPair.simple_eq : ∀ {tree : Tree}, IsPair tree → tree.simple false = []
  | _, .pair he hi => by simp [Kind.isSimple, Kind.states, he.simple_eq, hi.simple_eq]

end

theorem IsTarget.simple_eq {tree : Tree} (h : IsTarget tree) : tree.simple false = [] := by
  cases h with
  | identifier => exact IsExpression.identifier.simple_eq
  | arrayAccess he => exact (IsExpression.arrayAccess he).simple_eq

theorem IsParameter.simple_eq {tree : Tree} (h : IsParameter tree) : tree.simple false = [] := by
  cases h
  exact IsExpression.identifier.simple_eq

namespace Grammar

variable {α β : Type} {n : Nat}

-- What holds of the value and the choices of a rule that succeeds.
def Traced.Tells (traced : Traced α n) (holds : α → List Choice → Prop) : Prop :=
  ∀ value rest shorter, traced.outcome = .parsed value rest shorter → holds value traced.choices

namespace Traced.Tells

variable {traced : Traced α n} {holds : α → List Choice → Prop}

theorem loosen (h : traced.Tells holds) : traced.loosen.Tells holds := by
  intro value rest shorter ho
  obtain ⟨shorter, hp⟩ := Outcome.parsed_of_within (Nat.le_succ n) ho
  exact h value rest shorter hp

theorem map {f : α → β} {holds : β → List Choice → Prop}
    (h : traced.Tells fun value choices => holds (f value) choices) :
    (traced.map f).Tells holds := by
  intro value rest shorter ho
  obtain ⟨inner, rfl, hp⟩ := Outcome.parsed_of_map ho
  exact h inner rest shorter hp

theorem andMaybe {goal : β → List Choice → Prop}
    {next : (value : α) → (rest : List Token) → rest.length < n → Traced β (rest.length + 1)}
    (h : traced.Tells holds)
    (hnext : ∀ value choices rest shorter, holds value choices →
      (next value rest shorter).Tells fun final later => goal final (choices ++ later)) :
    (traced.andMaybe next).Tells goal := by
  obtain ⟨choices, outcome⟩ := traced
  intro final last shorter ho
  cases outcome with
  | refused _ _ => cases ho
  | parsed value rest shorter' =>
    have hn := hnext value choices rest shorter' (h _ _ shorter' rfl)
    simp only [Traced.andMaybe] at ho ⊢
    obtain ⟨shorter, hp⟩ := Outcome.parsed_of_within shorter' ho
    exact hn final last shorter hp

theorem andThen {goal : β → List Choice → Prop}
    {next : (value : α) → (rest : List Token) → rest.length < n → Traced β rest.length}
    (h : traced.Tells holds)
    (hnext : ∀ value choices rest shorter, holds value choices →
      (next value rest shorter).Tells fun final later => goal final (choices ++ later)) :
    (traced.andThen next).Tells goal :=
  h.andMaybe fun value choices rest shorter hv => (hnext value choices rest shorter hv).loosen

theorem noting {choice : Choice} {goal : α → List Choice → Prop}
    (h : traced.Tells fun value choices => goal value (choice :: choices)) :
    (traced.noting choice).Tells goal := h

-- A rule that ends at once.
theorem done {value : α} {rest : List Token} {goal : α → List Choice → Prop} (h : goal value []) :
    (Outcome.done value rest).traced.Tells goal := by
  intro other behind shorter ho
  cases ho
  exact h

theorem imp {goal : α → List Choice → Prop} (h : traced.Tells holds)
    (himp : ∀ value choices, holds value choices → goal value choices) : traced.Tells goal :=
  fun value rest shorter ho => himp value _ (h value rest shorter ho)

end Traced.Tells

theorem TargetSpelling.leading {name : String} {place : Location} {tree : Tree}
    {word : List Token} (h : TargetSpelling name place tree word) : tree.leading = some name := by
  cases h with
  | name => rfl
  | element _ ha =>
    cases ha
    rfl

section rules

variable {tokens : List Token}

end rules

theorem ParameterListSpelling.simple_eq {tree : Tree} {word : List Token}
    (h : ParameterListSpelling tree word) : tree.simple false = [] := by
  cases h with
  | empty _ => simp [Kind.isSimple, Kind.states]
  | names _ hn =>
    have hs := Tree.simpleFrom_eq_nil fun param hp => (hn.isParameter param hp).simple_eq
    simp [Kind.isSimple, Kind.states, hs]

theorem VariableSpelling.simple_eq {name : String} {place : Location} {tree : Tree}
    {word : List Token} (h : VariableSpelling name place tree word) : tree.simple false = [] := by
  cases h with
  | array _ _ _ ha =>
    obtain ⟨values, inner, rfl, -, hi⟩ := ha.isItem
    have hs := Tree.simpleFrom_eq_nil fun value hv => (hi value hv).simple_eq
    simp [Kind.isSimple, Kind.states, hs]
  | keyValue _ _ _ hm =>
    obtain ⟨entries, rfl, hp⟩ := hm.isPair
    have hs := Tree.simpleFrom_eq_nil fun entry he => (hp entry he).simple_eq
    simp [Kind.isSimple, Kind.states, hs]
  | value _ _ he => simp [Kind.isSimple, Kind.states, he.isExpression.simple_eq]

end Grammar

end ScriptIR
