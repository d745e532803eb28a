import ScriptIR.Instruction.Basic
import ScriptIR.Lowering.Error

namespace ScriptIR

-- What a stretch of a tree becomes: instructions, or the first flaw on the way.
abbrev Lowered := Except LoweringError (List Instruction)

namespace Lowered

def emit (instructions : List Instruction) : Lowered := .ok instructions

def flawed (flaw : Flaw) (place : Location) : Lowered := .error ⟨flaw, place⟩

-- One stretch behind the other.
def append (first second : Lowered) : Lowered :=
  match first, second with
  | .ok front, .ok back => .ok (front ++ back)
  | .ok _, .error error => .error error
  | .error error, _ => .error error

-- A flaw in the first stretch settles the matter, so the second one is not even
-- looked at.
instance : AndThen Lowered where
  andThen first second :=
    match first with
    | .ok _ => append first (second ())
    | .error error => .error error

theorem andThen_eq_append (first second : Lowered) : (first >> second) = append first second := by
  cases first with
  | ok front => rfl
  | error error => cases second <;> rfl

theorem nothing_andThen (lowered : Lowered) : (emit [] >> lowered) = lowered := by
  rw [andThen_eq_append]
  cases lowered <;> rfl

theorem andThen_nothing (lowered : Lowered) : (lowered >> emit []) = lowered := by
  rw [andThen_eq_append]
  cases lowered with
  | error error => rfl
  | ok code => exact congrArg Except.ok (List.append_nil code)

theorem andThen_assoc (first second third : Lowered) :
    ((first >> second) >> third) = (first >> second >> third) := by
  simp only [andThen_eq_append]
  cases first with
  | error error => rfl
  | ok front =>
    cases second with
    | error error => rfl
    | ok middle =>
      cases third with
      | error error => rfl
      | ok back => exact congrArg Except.ok (List.append_assoc front middle back)

theorem andThen_eq_ok {first second : Lowered} {code : List Instruction} :
    (first >> second) = .ok code ↔
      ∃ front back, first = .ok front ∧ second = .ok back ∧ front ++ back = code := by
  rw [andThen_eq_append]
  cases first with
  | error error => simp [append]
  | ok front => cases second <;> simp [append]

theorem andThen_eq_error {first second : Lowered} {error : LoweringError} :
    (first >> second) = .error error ↔
      first = .error error ∨ (∃ front, first = .ok front) ∧ second = .error error := by
  rw [andThen_eq_append]
  cases first with
  | error found => simp [append]
  | ok front => cases second <;> simp [append]

end Lowered

-- Whether the children of a node are walked once more behind its own
-- instructions. A call then lowers its arguments without announcing them, as
-- the second walk is going to do that.
inductive Mode where
  | single
  | revisit
deriving DecidableEq

def Mode.other : Mode → Mode
  | .single => .revisit
  | .revisit => .single

namespace Tree

open Lowered Instruction

-- The second walk over the children of a node that has instructions of its own.
def again (mode : Mode) (children : Unit → Lowered) : Lowered :=
  match mode with
  | .single => emit []
  | .revisit => children ()

mutual

-- Instructions for a tree, depth first. A function's parameters have none.
def lower (mode : Mode) : Tree → Lowered
  | .function name _ children _ =>
    emit [functionHeader name] >> lowerAll mode children >> again mode fun _ => lowerAll mode children
  | .loop counter first last children _ =>
    lower mode first >> emit [label .loopStart] >> lower mode last >> emit [ifFalse .loopEnd] >>
      lowerAll mode children >> emit [add counter, goto .loopStart, label .loopEnd] >>
      again mode fun _ => lowerAll mode children
  | .giving value children _ =>
    lower mode value >> emit [giveBack] >> again mode fun _ => lowerAll mode children
  | .node .main children _ =>
    emit [functionHeader "main"] >> lowerAll mode children >> emit [endMain] >>
      again mode fun _ => lowerAll mode children
  | .node (.varDecl name) children _ =>
    emit [alloc name] >> lowerValue mode name children >> again mode fun _ => lowerAll mode children
  | .node .assignment children place =>
    lowerAssignment mode place children >> again mode fun _ => lowerAll mode children
  | .node .ifStatement children place =>
    lowerIf mode place children >> again mode fun _ => lowerAll mode children
  | .node .bareReturn children _ => emit [giveBack] >> again mode fun _ => lowerAll mode children
  | .node .call children place =>
    lowerCall mode place children >> again mode fun _ => lowerAll mode children
  | .node .argumentList children _ =>
    lowerArguments mode children >> again mode fun _ => lowerAll mode children
  | .node .pair children place =>
    lowerCouple mode .keyAndValue place children >> emit [keyValuePair] >>
      again mode fun _ => lowerAll mode children
  | .node .arrayAccess children place =>
    lowerCouple mode .arrayAndIndex place children >> emit [arrayAccess] >>
      again mode fun _ => lowerAll mode children
  | .node (.literal value) children _ =>
    emit [loadConst value] >> again mode fun _ => lowerAll mode children
  | .node (.identifier name) children _ =>
    emit [load name] >> again mode fun _ => lowerAll mode children
  | .node (.operator sign) children _ =>
    emit [operator sign] >> again mode fun _ => lowerAll mode children
  | .node (.array (some name)) children _ => emit [load name] >> lowerAll mode children
  | .node (.keyValue (some name)) children _ => emit [load name] >> lowerAll mode children
  | .node .program children _ => lowerAll mode children
  | .node .paramList children _ => lowerAll mode children
  | .node .block children _ => lowerAll mode children
  | .node .elseStatement children _ => lowerAll mode children
  | .node (.array none) children _ => lowerAll mode children
  | .node (.keyValue none) children _ => lowerAll mode children
  | .node .expressionList children _ => lowerAll mode children
  | .node .expression children _ => lowerSpine mode children

def lowerAll (mode : Mode) : List Tree → Lowered
  | [] => emit []
  | tree :: rest => lower mode tree >> lowerAll mode rest

-- The children of an operation. Chains of operators nest to the right, so that an operation
-- in the last place is no call of its own: its children simply come next.
def lowerSpine (mode : Mode) : List Tree → Lowered
  | [] => emit []
  | [.node .expression children _] => lowerSpine mode children
  | [last] => lower mode last
  | tree :: rest => lower mode tree >> lowerSpine mode rest

-- The initial value of a declaration, which may be missing.
def lowerValue (mode : Mode) (name : String) : List Tree → Lowered
  | [] => emit []
  | value :: _ => lower mode value >> emit [store name]

-- The two children that their node cannot do without. More do not matter.
def lowerCouple (mode : Mode) (needed : Couple) (place : Location) : List Tree → Lowered
  | first :: second :: _ => lower mode first >> lower mode second
  | [_] => flawed (.incomplete needed 1) place
  | [] => flawed (.incomplete needed 0) place

def lowerAssignment (mode : Mode) (place : Location) : List Tree → Lowered
  | target :: value :: _ => lowerTarget mode (lower mode value) target
  | [_] => flawed (.incomplete .targetAndValue 1) place
  | [] => flawed (.incomplete .targetAndValue 0) place

-- The left side of an assignment around its right side. A name is allocated
-- anew by every assignment.
def lowerTarget (mode : Mode) (value : Lowered) : Tree → Lowered
  | .node (.identifier name) _ _ => emit [alloc name] >> value >> emit [store name]
  | .node .arrayAccess children place => lowerElement mode value place children
  | target => flawed (.badTarget target.kindName) target.place

-- An element as the left side of an assignment.
def lowerElement (mode : Mode) (value : Lowered) (place : Location) : List Tree → Lowered
  | array :: index :: _ =>
    match array.identifierName? with
    | some name => lower mode index >> value >> emit [storeElement name]
    | none => flawed .namelessArray array.place
  | [_] => flawed (.incomplete .arrayAndIndex 1) place
  | [] => flawed (.incomplete .arrayAndIndex 0) place

def lowerIf (mode : Mode) (place : Location) : List Tree → Lowered
  | condition :: branch :: rest =>
    lower mode condition >> emit [ifFalse .otherwise] >> lower mode branch >>
      lowerElse mode rest >> emit [label .endIf]
  | _ => flawed .noBranch place

-- What is behind the two children of an if. Only an else in the first place
-- counts as one.
def lowerElse (mode : Mode) : List Tree → Lowered
  | .node .elseStatement (branch :: _) _ :: _ =>
    emit [goto .endIf, label .otherwise] >> lower mode branch
  | .node .elseStatement [] place :: _ => flawed .emptyElse place
  | _ => emit [label .otherwise]

def lowerCall (mode : Mode) (place : Location) : List Tree → Lowered
  | callee :: arguments :: _ =>
    lower mode callee >>
      (match mode with
      | .single => lower mode arguments
      | .revisit => lowerBelow mode arguments) >>
      emit [call arguments.children.length]
  | [callee] => lower mode callee >> emit [call 0]
  | [] => flawed .noCallee place

-- The children of a node and nothing else.
def lowerBelow (mode : Mode) : Tree → Lowered
  | .node _ children _ => lowerAll mode children
  | .function _ _ children _ => lowerAll mode children
  | .loop _ _ _ children _ => lowerAll mode children
  | .giving _ children _ => lowerAll mode children

def lowerArguments (mode : Mode) : List Tree → Lowered
  | [] => emit []
  | argument :: rest => lower mode argument >> emit [arg] >> lowerArguments mode rest

end

theorem lowerAll_append (mode : Mode) (trees more : List Tree) :
    lowerAll mode (trees ++ more) = (lowerAll mode trees >> lowerAll mode more) := by
  induction trees with
  | nil => rw [List.nil_append, lowerAll, nothing_andThen]
  | cons tree rest ih => rw [List.cons_append, lowerAll, lowerAll, ih, andThen_assoc]

-- An operation in the last place comes to the same as a call of its own.
@[simp] theorem lowerSpine_eq (mode : Mode) (trees : List Tree) :
    lowerSpine mode trees = lowerAll mode trees := by
  induction trees with
  | nil => rfl
  | cons tree rest ih =>
    cases rest with
    | cons second rest =>
      have hcons : lowerSpine mode (tree :: second :: rest) =
          (lower mode tree >> lowerSpine mode (second :: rest)) := by
        rw [lowerSpine] <;> simp
      rw [hcons, ih]
      rfl
    | nil =>
      rw [lowerAll, lowerAll, andThen_nothing]
      by_cases hlast : ∃ children place, tree = .node .expression children place
      · obtain ⟨children, place, rfl⟩ := hlast
        rw [lowerSpine, lower]
      · rw [lowerSpine]
        exact fun children place he => hlast ⟨children, place, he⟩

theorem lower_expression (mode : Mode) (children : List Tree) (place : Location) :
    lower mode (.node .expression children place) = lowerAll mode children := by
  rw [lower, lowerSpine_eq]

end Tree

end ScriptIR
