import ScriptIR.Inspector.Session
import ScriptIR.Proofs.Grammar.Shape

namespace ScriptIR

open Grammar

-- Instructions without a flaw on the way.
def Lowered.Succeeds (lowered : Lowered) : Prop := ∃ instructions, lowered = .ok instructions

namespace Lowered

@[simp] theorem succeeds_emit (instructions : List Instruction) : (emit instructions).Succeeds :=
  ⟨instructions, rfl⟩

@[simp] theorem succeeds_andThen {first second : Lowered} :
    (first >> second).Succeeds ↔ first.Succeeds ∧ second.Succeeds := by
  rw [andThen_eq_append]
  cases first with
  | error error => exact ⟨nofun, nofun⟩
  | ok front =>
    cases second with
    | error error => exact ⟨nofun, nofun⟩
    | ok back => exact ⟨fun _ => ⟨⟨front, rfl⟩, back, rfl⟩, fun _ => ⟨front ++ back, rfl⟩⟩

end Lowered

section lower

variable {mode : Mode} {trees : List Tree}

@[simp] theorem succeeds_again {children : Unit → Lowered} (h : (children ()).Succeeds) :
    (Tree.again mode children).Succeeds := by
  cases mode with
  | single => exact Lowered.succeeds_emit []
  | revisit => exact h

theorem succeeds_lowerAll (h : ∀ tree ∈ trees, (tree.lower mode).Succeeds) :
    (Tree.lowerAll mode trees).Succeeds := by
  induction trees with
  | nil => simp [Tree.lowerAll]
  | cons tree rest ih =>
    obtain ⟨ht, hr⟩ := List.forall_mem_cons.mp h
    simp [Tree.lowerAll, ht, ih hr]

theorem succeeds_lowerArguments (h : ∀ tree ∈ trees, (tree.lower mode).Succeeds) :
    (Tree.lowerArguments mode trees).Succeeds := by
  induction trees with
  | nil => simp [Tree.lowerArguments]
  | cons tree rest ih =>
    obtain ⟨ht, hr⟩ := List.forall_mem_cons.mp h
    simp [Tree.lowerArguments, ht, ih hr]

@[simp] theorem succeeds_identifier (name : String) (place : Location) :
    ((identifierNode name place).lower mode).Succeeds := by
  simp [identifierNode, Tree.lower, Tree.lowerAll]

end lower

-- The second walk comes across the arguments of a call and the sign of an
-- operation as nodes of their own.
theorem IsExpression.lowers {tree : Tree} (h : IsExpression tree) (mode : Mode) :
    (tree.lower mode).Succeeds := by
  induction h with
  | literal => simp [Tree.lower, Tree.lowerAll]
  | identifier => simp
  | emptyCall => simp [Tree.lower, Tree.lowerCall, Tree.lowerAll]
  | call _ _ ih =>
    have ha := succeeds_lowerArguments ih
    have hb := succeeds_lowerAll ih
    cases mode with
    | single => simp [Tree.lower, Tree.lowerCall, Tree.again, ha]
    | revisit =>
      simp [Tree.lower, Tree.lowerCall, Tree.lowerBelow, Tree.lowerAll, Tree.again, ha, hb]
  | arrayAccess _ ih => simp [Tree.lower, Tree.lowerCouple, Tree.lowerAll, ih]
  | operation _ _ ihl ihr => simp [Tree.lower, Tree.lowerAll, ihl, ihr]

mutual

theorem IsItem.lowers : ∀ {tree : Tree}, IsItem tree → ∀ mode, (tree.lower mode).Succeeds
  | _, .expression he, mode => he.lowers mode
  | _, .array _ hi, mode => by
    have hb := succeeds_lowerAll fun value hv => (hi value hv).lowers mode
    simp [Tree.lower, Tree.lowerAll, hb]
  | _, .keyValue hp, mode => by
    have hb := succeeds_lowerAll fun entry he => (hp entry he).lowers mode
    simp [Tree.lower, hb]

theorem IsPair.lowers : ∀ {tree : Tree}, IsPair tree → ∀ mode, (tree.lower mode).Succeeds
  | _, .pair he hi, mode => by
    have hk := he.lowers mode
    have hv := hi.lowers mode
    simp [Tree.lower, Tree.lowerCouple, Tree.lowerAll, hk, hv]

end

theorem IsTarget.lowers {tree : Tree} (h : IsTarget tree) (mode : Mode) :
    (tree.lower mode).Succeeds := by
  cases h with
  | identifier => exact IsExpression.identifier.lowers mode
  | arrayAccess he => exact (IsExpression.arrayAccess he).lowers mode

theorem IsTarget.succeeds_lowerTarget {tree : Tree} (h : IsTarget tree) (mode : Mode)
    {value : Lowered} (hv : value.Succeeds) : (Tree.lowerTarget mode value tree).Succeeds := by
  cases h with
  | identifier => simp [identifierNode, Tree.lowerTarget, hv]
  | arrayAccess he =>
    have hi := he.lowers mode
    simp [identifierNode, Tree.lowerTarget, Tree.lowerElement, Tree.identifierName?, hi, hv]

-- The second walk comes across the target of an assignment as a value, and
-- across an else outside of its if.
theorem IsStatement.lowers {tree : Tree} (h : IsStatement tree) (mode : Mode) :
    (tree.lower mode).Succeeds := by
  induction h with
  | assignment ht he =>
    have hv := he.lowers mode
    have ha := ht.succeeds_lowerTarget mode hv
    have hw := ht.lowers mode
    simp [Tree.lower, Tree.lowerAssignment, Tree.lowerAll, ha, hv, hw]
  | call he => exact he.lowers mode
  | ifStatement he _ ih =>
    have hc := he.lowers mode
    simp [Tree.lower, Tree.lowerIf, Tree.lowerElse, Tree.lowerAll, hc, ih]
  | ifElse he _ _ _ ihb iho =>
    have hc := he.lowers mode
    simp [Tree.lower, Tree.lowerIf, Tree.lowerElse, Tree.lowerAll, hc, ihb, iho]
  | loop hf hl _ ih =>
    have hf := hf.lowers mode
    have hl := hl.lowers mode
    have hb := succeeds_lowerAll ih
    simp [Tree.lower, hf, hl, hb]
  | bareReturn => simp [Tree.lower, Tree.lowerAll]
  | giving he =>
    have hv := he.lowers mode
    simp [Tree.lower, Tree.lowerAll, hv]
  | block _ ih =>
    have hb := succeeds_lowerAll ih
    simp [Tree.lower, hb]

theorem IsDeclaration.lowers {tree : Tree} (h : IsDeclaration tree) (mode : Mode) :
    (tree.lower mode).Succeeds := by
  cases h with
  | main hs =>
    have hb := succeeds_lowerAll fun statement hm => (hs statement hm).lowers mode
    simp [Tree.lower, hb]
  | function _ hs =>
    have hb := succeeds_lowerAll fun statement hm => (hs statement hm).lowers mode
    simp [Tree.lower, hb]
  | array _ hi =>
    have hb := succeeds_lowerAll fun value hv => (hi value hv).lowers mode
    simp [Tree.lower, Tree.lowerAll, hb]
  | keyValue hp =>
    have hb := succeeds_lowerAll fun entry he => (hp entry he).lowers mode
    simp [Tree.lower, hb]
  | value he =>
    have hv := he.lowers mode
    simp [Tree.lower, Tree.lowerValue, Tree.lowerAll, hv]

theorem IsProgram.lowers {tree : Tree} (h : IsProgram tree) (mode : Mode) :
    (tree.lower mode).Succeeds := by
  obtain ⟨hd⟩ := h
  have hb := succeeds_lowerAll fun tree ht => (hd tree ht).lowers mode
  rw [Tree.lower]
  exact hb

-- All that can come of a source. Its tokens settle whether it compiles.
theorem compileTold_cases (mode : Mode) (source : String) :
    (∃ tree instructions, parse (Lexed.ofSource source).tokens = .ok tree ∧
      (compileTold mode source).result = .ok ⟨Lexed.ofSource source, tree, instructions⟩) ∨
    ∃ error, parse (Lexed.ofSource source).tokens = .error error ∧
      (compileTold mode source).result = .error (.grammar error) := by
  have hparse (tokens : List Token) : (parseTold tokens).result = parse tokens := rfl
  have hlower (tree : Tree) : (lowerTold mode tree).result = tree.lower mode := by
    simp only [lowerTold]
    split <;> rfl
  have hlex : (lex source).result = Lexed.ofSource source := rfl
  simp only [compileTold, hparse, hlex]
  cases hp : parse (Lexed.ofSource source).tokens with
  | ok tree =>
    obtain ⟨instructions, hl⟩ := (isProgram_of_parse hp).lowers mode
    refine .inl ⟨tree, instructions, rfl, ?_⟩
    simp only [hlower, hl]
  | error error => exact .inr ⟨error, rfl, rfl⟩

-- Lowering never stops a compilation. What the grammar accepts compiles in either
-- mode, what it refuses fails with its error, and an inspector starts on the same
-- sources with the same instructions.
theorem compile_ok_iff_parse_ok (mode : Mode) (source : String) :
    ((∃ instructions, compile mode source = .ok instructions) ↔
      ∃ tree, parse (Lexed.ofSource source).tokens = .ok tree) ∧
    (∀ error, compile mode source = .error error ↔
      ∃ refusal, parse (Lexed.ofSource source).tokens = .error refusal ∧
        error = .grammar refusal) ∧
    (∀ flaw, compile mode source ≠ .error (.lowering flaw)) ∧
    (∀ error, (Inspector.Session.start mode source).result = .error error ↔
      compile mode source = .error error) ∧
    (∀ instructions, compile mode source = .ok instructions ↔
      ∃ session, (Inspector.Session.start mode source).result = .ok session ∧
        session.compiled.instructions = instructions) ∧
    ∀ tokens tree, parse tokens = .ok tree →
      ∃ instructions, tree.lower mode = .ok instructions := by
  have hall (tokens : List Token) (tree : Tree) (h : parse tokens = .ok tree) :
      ∃ instructions, tree.lower mode = .ok instructions := (isProgram_of_parse h).lowers mode
  obtain ⟨tree, instructions, hp, hc⟩ | ⟨error, hp, hc⟩ := compileTold_cases mode source
  · simpa [compile, Inspector.Session.start, hp, hc, Except.map] using hall
  · simpa [compile, Inspector.Session.start, hp, hc, Except.map,
      @eq_comm CompileError (.grammar error)] using hall

end ScriptIR
