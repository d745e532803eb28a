import Mathlib.Logic.Relation
import ScriptIR.Proofs.Lowering.Violation

namespace ScriptIR

open Lowered

-- A walk on its way: what is written so far, and what is still to be done.
structure Walk where
  written : List Instruction
  pending : List Errand

namespace Walk

def start (tree : Tree) : Walk := ⟨[], [.enter tree]⟩

-- One step. Where a tree is entered, its errands come in front of all that was pending
-- before. The walk ends where nothing is pending, or something is to be blamed.
def next (mode : Mode) : Walk → Option Walk
  | ⟨written, .write instruction :: rest⟩ => some ⟨written ++ [instruction], rest⟩
  | ⟨written, .enter tree :: rest⟩ => some ⟨written, tree.errands mode ++ rest⟩
  | ⟨_, .blame _ :: _⟩ | ⟨_, []⟩ => none

-- The walks that a walk comes to.
def Runs (mode : Mode) : Walk → Walk → Prop :=
  Relation.ReflTransGen fun walk other => walk.next mode = some other

def outcome (mode : Mode) (walk : Walk) : Lowered :=
  emit walk.written >> Errand.loweredAll mode walk.pending

variable {mode : Mode} {walk other : Walk}

-- One step does not change what comes of a walk.
theorem outcome_next (h : walk.next mode = some other) :
    other.outcome mode = walk.outcome mode := by
  obtain ⟨written, pending⟩ := walk
  match pending, h with
  | .write instruction :: rest, rfl =>
    rw [outcome, outcome, Errand.loweredAll, Errand.lowered, ← andThen_assoc]
    rfl
  | .enter tree :: rest, rfl =>
    rw [outcome, outcome, Errand.loweredAll, Errand.lowered, Errand.loweredAll_append,
      Tree.lower_eq_errands]

theorem outcome_runs (h : walk.Runs mode other) : other.outcome mode = walk.outcome mode := by
  induction h with
  | refl => rfl
  | tail _ hn ih => rw [outcome_next hn, ih]

theorem outcome_start (tree : Tree) : (start tree).outcome mode = tree.lower mode := by
  rw [outcome, start, nothing_andThen, Errand.loweredAll, Errand.loweredAll, andThen_nothing,
    Errand.lowered]

-- Where a tree has no flaw the walk gets through it, whatever is pending behind it.
def Passes (mode : Mode) (tree : Tree) : Prop :=
  ∀ code written rest, tree.lower mode = .ok code →
    Runs mode ⟨written, .enter tree :: rest⟩ ⟨written ++ code, rest⟩

theorem passes_errands {errands : List Errand} (h : ∀ tree, .enter tree ∈ errands → Passes mode tree)
    {code : List Instruction} (hc : Errand.loweredAll mode errands = .ok code)
    (written : List Instruction) (rest : List Errand) :
    Runs mode ⟨written, errands ++ rest⟩ ⟨written ++ code, rest⟩ := by
  induction errands generalizing code written with
  | nil =>
    cases hc
    rw [List.append_nil]
    exact .refl
  | cons errand behind ih =>
    obtain ⟨front, back, hfront, hback, rfl⟩ := andThen_eq_ok.mp hc
    have hbehind := ih (fun tree hm => h tree (List.mem_cons_of_mem _ hm)) hback (written ++ front)
    rw [List.append_assoc] at hbehind
    cases errand with
    | write instruction =>
      cases hfront
      exact .head rfl hbehind
    | enter tree => exact (h tree (by simp) front written _ hfront).trans hbehind
    | blame error => cases hfront

-- By the sizes of trees, as errands only go further down.
theorem passes (mode : Mode) (tree : Tree) : Passes mode tree := by
  intro code written rest hc
  rw [Tree.lower_eq_errands] at hc
  exact .head rfl (passes_errands (fun part hm => passes mode part) hc written rest)
termination_by tree.size
decreasing_by exact Tree.below_errands mode tree part hm

end Walk

-- What is blamed comes out as the error, where nothing was wrong before.
theorem Errand.loweredAll_of_blamed {mode : Mode} {errands : List Errand} {before : List Tree}
    {error : LoweringError} (h : blamed errands = some (before, error))
    (hb : ∀ part ∈ before, ∃ code, part.lower mode = .ok code) :
    loweredAll mode errands = .error error := by
  induction errands generalizing before with
  | nil => cases h
  | cons errand rest ih =>
    cases errand with
    | write instruction =>
      have hrest := ih h hb
      rw [loweredAll, hrest]
      rfl
    | enter tree =>
      obtain ⟨⟨inner, found⟩, hi, he⟩ := Option.map_eq_some_iff.mp h
      cases he
      obtain ⟨⟨code, hcode⟩, hinner⟩ := List.forall_mem_cons.mp hb
      rw [loweredAll, lowered, hcode, ih hi hinner]
      rfl
    | blame found =>
      cases h
      rfl

-- The first errand that goes wrong.
theorem Errand.exists_failing {mode : Mode} {errands : List Errand} {error : LoweringError}
    (h : loweredAll mode errands = .error error) :
    (∃ before, blamed errands = some (before, error) ∧
      ∀ part ∈ before, ∃ code, part.lower mode = .ok code) ∨
    ∃ front tree back code, errands = front ++ .enter tree :: back ∧
      loweredAll mode front = .ok code ∧ tree.lower mode = .error error := by
  induction errands with
  | nil => cases h
  | cons errand rest ih =>
    cases errand with
    | write instruction =>
      obtain hno | ⟨-, hrest⟩ := andThen_eq_error.mp h
      · cases hno
      obtain hblame | ⟨front, tree, back, code, rfl, hfront, ht⟩ := ih hrest
      · exact .inl hblame
      · exact .inr ⟨.write instruction :: front, tree, back, instruction :: code, rfl,
          andThen_eq_ok.mpr ⟨[instruction], code, rfl, hfront, rfl⟩, ht⟩
    | enter first =>
      obtain hfirst | ⟨⟨done, hdone⟩, hrest⟩ := andThen_eq_error.mp h
      · exact .inr ⟨[], first, rest, [], rfl, rfl, hfirst⟩
      obtain ⟨before, hblame, hbefore⟩ | ⟨front, tree, back, code, rfl, hfront, ht⟩ := ih hrest
      · refine .inl ⟨first :: before, ?_, List.forall_mem_cons.mpr ⟨⟨done, hdone⟩, hbefore⟩⟩
        rw [blamed, hblame]
        rfl
      · exact .inr ⟨.enter first :: front, tree, back, done ++ code, rfl,
          andThen_eq_ok.mpr ⟨done, code, hdone, hfront, rfl⟩, ht⟩
    | blame found =>
      cases h
      exact .inl ⟨[], rfl, List.forall_mem_nil _⟩

-- The walk comes to a node with a violation, and nothing is wrong with the trees that it
-- enters at this node before it finds out.
def Walk.Meets (mode : Mode) (walk : Walk) (error : LoweringError) : Prop :=
  ∃ node before written rest, walk.Runs mode ⟨written, .enter node :: rest⟩ ∧
    Violation node before error.flaw.kindName error ∧
    ∀ part ∈ before, ∃ code, part.lower mode = .ok code

namespace Walk

variable {mode : Mode} {error : LoweringError}

-- By the sizes of trees.
theorem meets_of_error {tree : Tree} (h : tree.lower mode = .error error)
    (written : List Instruction) (rest : List Errand) :
    Meets mode ⟨written, .enter tree :: rest⟩ error := by
  have hl := h
  rw [Tree.lower_eq_errands] at hl
  obtain ⟨before, hblame, hbefore⟩ | ⟨front, part, back, code, he, hfront, hp⟩ :=
    Errand.exists_failing hl
  · exact ⟨tree, before, written, rest, .refl, Tree.blamed_eq_some_iff.mp hblame, hbefore⟩
  · have hm : .enter part ∈ tree.errands mode := by simp [he]
    have hto : Runs mode ⟨written, .enter tree :: rest⟩
        ⟨written ++ code, .enter part :: (back ++ rest)⟩ := by
      refine .head rfl ?_
      rw [he, List.append_assoc]
      exact passes_errands (fun part _ => passes mode part) hfront written _
    obtain ⟨node, before, more, pending, hruns, hv⟩ := meets_of_error hp (written ++ code)
      (back ++ rest)
    exact ⟨node, before, more, pending, hto.trans hruns, hv⟩
termination_by tree.size
decreasing_by exact Tree.below_errands mode tree part hm

theorem Meets.lower_eq {tree : Tree} (h : (start tree).Meets mode error) :
    tree.lower mode = .error error := by
  obtain ⟨node, before, written, rest, hruns, hv, hbefore⟩ := h
  have hnode : node.lower mode = .error error := by
    rw [Tree.lower_eq_errands]
    exact Errand.loweredAll_of_blamed (hv.blamed mode) hbefore
  rw [← outcome_start, ← outcome_runs hruns, outcome, Errand.loweredAll, Errand.lowered, hnode]
  rfl

theorem runs_end_iff {tree : Tree} {code : List Instruction} :
    (start tree).Runs mode ⟨code, []⟩ ↔ tree.lower mode = .ok code := by
  constructor
  · intro h
    rw [← outcome_start, ← outcome_runs h, outcome, Errand.loweredAll, andThen_nothing]
    rfl
  · exact passes mode tree code [] []

end Walk

-- A lowering is a walk that writes instructions, and fails where the walk comes to a
-- node with something wrong about it. The parameters of a function are no part of the walk, and
-- without the second walk neither are children that a kind has no use for.
theorem lower_fails_first (mode : Mode) (tree : Tree) :
    (∀ error, tree.lower mode = .error error ↔ (Walk.start tree).Meets mode error) ∧
    (∀ code, tree.lower mode = .ok code ↔ (Walk.start tree).Runs mode ⟨code, []⟩) ∧
    (∀ name params other children place,
      (Tree.function name params children place).errands mode =
        (Tree.function name other children place).errands mode) ∧
    ∀ node : Tree, node.trimmed.errands .single = node.errands .single :=
  ⟨fun _ => ⟨fun h => Walk.meets_of_error h [] [], Walk.Meets.lower_eq⟩,
    fun _ => Walk.runs_end_iff.symm, fun _ _ _ _ _ => rfl, Tree.errands_trimmed⟩

-- The else is wrong as well, and it is not come to.
example :
    let branch := Tree.node .call [] ⟨1, 8⟩
    let other := Tree.node .elseStatement [] ⟨1, 12⟩
    let condition := Tree.node (.identifier "a") [] ⟨1, 5⟩
    (Tree.node .ifStatement [condition, branch, other] .start).lower .single =
      flawed .noCallee ⟨1, 8⟩ :=
  rfl

end ScriptIR
