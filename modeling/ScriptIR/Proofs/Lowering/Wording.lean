import Mathlib
import ScriptIR.Proofs.Grammar.Reading
import ScriptIR.Proofs.Lowering.Nesting

namespace ScriptIR

open Grammar Instruction

-- The instructions that there are, with words that are good for their use.
inductive Instruction.MadeOf (good : Word → Prop) : Instruction → Prop
  | functionHeader {name : String} : good (.name name) → MadeOf good (functionHeader name)
  | mainHeader : MadeOf good (functionHeader "main")
  | endMain : MadeOf good endMain
  | alloc {name : String} : good (.name name) → MadeOf good (alloc name)
  | store {name : String} : good (.name name) → MadeOf good (store name)
  | storeElement {name : String} : good (.name name) → MadeOf good (storeElement name)
  | load {name : String} : good (.name name) → MadeOf good (load name)
  | loadConst {value : String} : good (.literal value) → MadeOf good (loadConst value)
  | arg : MadeOf good arg
  | call (count : Nat) : MadeOf good (call count)
  | ifFalse (target : Label) : MadeOf good (ifFalse target)
  | goto (target : Label) : MadeOf good (goto target)
  | label (target : Label) : MadeOf good (label target)
  | giveBack : MadeOf good giveBack
  | add {counter : String} : good (.name counter) → MadeOf good (add counter)
  | operator {sign : String} : good (.operator sign) → MadeOf good (operator sign)
  | arrayAccess : MadeOf good arrayAccess
  | keyValuePair : MadeOf good keyValuePair

theorem Instruction.MadeOf.mono {good better : Word → Prop} {instruction : Instruction}
    (h : instruction.MadeOf good) (hb : ∀ word, good word → better word) :
    instruction.MadeOf better := by
  cases h with
  | mainHeader => exact .mainHeader
  | endMain => exact .endMain
  | arg => exact .arg
  | call count => exact .call count
  | ifFalse target => exact .ifFalse target
  | goto target => exact .goto target
  | label target => exact .label target
  | giveBack => exact .giveBack
  | arrayAccess => exact .arrayAccess
  | keyValuePair => exact .keyValuePair
  | functionHeader hw => exact .functionHeader (hb _ hw)
  | alloc hw => exact .alloc (hb _ hw)
  | store hw => exact .store (hb _ hw)
  | storeElement hw => exact .storeElement (hb _ hw)
  | load hw => exact .load (hb _ hw)
  | loadConst hw => exact .loadConst (hb _ hw)
  | add hw => exact .add (hb _ hw)
  | operator hw => exact .operator (hb _ hw)

-- Good words only.
def Words (good : Word → Prop) (mentions : List Mention) : Prop :=
  ∀ mention ∈ mentions, good mention.word

variable {good : Word → Prop}

@[simp] theorem words_cons {mention : Mention} {rest : List Mention} :
    Words good (mention :: rest) ↔ good mention.word ∧ Words good rest :=
  List.forall_mem_cons

@[simp] theorem words_append {front back : List Mention} :
    Words good (front ++ back) ↔ Words good front ∧ Words good back :=
  List.forall_mem_append

namespace Lowered

-- Instructions of good words only, unless there is a flaw.
def MadeOf (good : Word → Prop) (lowered : Lowered) : Prop :=
  ∀ code, lowered = .ok code → ∀ instruction ∈ code, instruction.MadeOf good

variable {first second : Lowered}

theorem madeOf_emit {instructions : List Instruction}
    (h : ∀ instruction ∈ instructions, instruction.MadeOf good) :
    (emit instructions).MadeOf good := by
  rintro _ ⟨⟩
  exact h

theorem madeOf_one {instruction : Instruction} (h : instruction.MadeOf good) :
    (emit [instruction]).MadeOf good :=
  madeOf_emit (List.forall_mem_singleton.mpr h)

theorem madeOf_flawed (flaw : Flaw) (place : Location) : (flawed flaw place).MadeOf good := nofun

theorem MadeOf.andThen (hf : first.MadeOf good) (hs : second.MadeOf good) :
    (first >> second).MadeOf good := by
  intro code h
  obtain ⟨front, back, rfl, rfl, rfl⟩ := andThen_eq_ok.mp h
  exact List.forall_mem_append.mpr ⟨hf front rfl, hs back rfl⟩

theorem madeOf_again {mode : Mode} {children : Unit → Lowered} (h : (children ()).MadeOf good) :
    (Tree.again mode children).MadeOf good := by
  cases mode with
  | single => exact madeOf_emit nofun
  | revisit => exact h

end Lowered

namespace Tree

variable {mode : Mode}

open Lowered

theorem Words.identifierName? {tree : Tree} {name : String} (h : Words good tree.reading)
    (hn : tree.identifierName? = some name) : good (.name name) := by
  unfold Tree.identifierName? at hn
  split at hn
  · cases hn
    rw [reading, words_append] at h
    exact (words_cons.mp h.1).1
  · cases hn

-- By the recursion of the lowering, for all trees and both modes.
mutual

theorem lower_madeOf : ∀ {tree : Tree}, Words good tree.reading → (tree.lower mode).MadeOf good
  | .function name params children place, h => by
    simp only [reading, words_cons, words_append] at h
    obtain ⟨hname, -, hchildren⟩ := h
    have hall := lowerAll_madeOf hchildren
    rw [lower]
    exact (madeOf_one (.functionHeader hname)).andThen (hall.andThen (madeOf_again hall))
  | .loop counter first last children place, h => by
    simp only [reading, words_cons, words_append] at h
    obtain ⟨hcounter, hf, hl, hchildren⟩ := h
    have hall := lowerAll_madeOf hchildren
    have hend : ∀ instruction ∈ [add counter, goto .loopStart, label .loopEnd],
        instruction.MadeOf good := by
      simp [Instruction.MadeOf.add hcounter, Instruction.MadeOf.goto, Instruction.MadeOf.label]
    rw [lower]
    exact (lower_madeOf hf).andThen ((madeOf_one (.label _)).andThen ((lower_madeOf hl).andThen
      ((madeOf_one (.ifFalse _)).andThen (hall.andThen ((madeOf_emit hend).andThen
        (madeOf_again hall))))))
  | .giving value children place, h => by
    simp only [reading, words_append] at h
    have hall := lowerAll_madeOf h.2
    rw [lower]
    exact (lower_madeOf h.1).andThen ((madeOf_one .giveBack).andThen (madeOf_again hall))
  | .node kind children place, h => by
    simp only [reading, words_append] at h
    obtain ⟨hown, hchildren⟩ := h
    have hall : (lowerAll mode children).MadeOf good := lowerAll_madeOf hchildren
    have hagain : (again mode fun _ => lowerAll mode children).MadeOf good := madeOf_again hall
    have hvalue {name : String} (hn : good (.name name)) := lowerValue_madeOf hn hchildren
    have hcouple (needed : Couple) := lowerCouple_madeOf needed place hchildren
    have hassign := lowerAssignment_madeOf place hchildren
    have hif := lowerIf_madeOf place hchildren
    have hcall := lowerCall_madeOf place hchildren
    have harguments := lowerArguments_madeOf hchildren
    cases kind with
    | main =>
      exact (madeOf_one .mainHeader).andThen (hall.andThen ((madeOf_one .endMain).andThen hagain))
    | varDecl name =>
      have hname : good (.name name) := (words_cons.mp hown).1
      exact (madeOf_one (.alloc hname)).andThen ((hvalue hname).andThen hagain)
    | assignment => exact hassign.andThen hagain
    | ifStatement => exact hif.andThen hagain
    | bareReturn => exact (madeOf_one .giveBack).andThen hagain
    | call => exact hcall.andThen hagain
    | argumentList => exact harguments.andThen hagain
    | pair => exact (hcouple .keyAndValue).andThen ((madeOf_one .keyValuePair).andThen hagain)
    | arrayAccess =>
      exact (hcouple .arrayAndIndex).andThen ((madeOf_one .arrayAccess).andThen hagain)
    | literal text => exact (madeOf_one (.loadConst (words_cons.mp hown).1)).andThen hagain
    | identifier name => exact (madeOf_one (.load (words_cons.mp hown).1)).andThen hagain
    | operator sign => exact (madeOf_one (.operator (words_cons.mp hown).1)).andThen hagain
    | array name =>
      cases name with
      | none => exact hall
      | some name => exact (madeOf_one (.load (words_cons.mp hown).1)).andThen hall
    | keyValue name =>
      cases name with
      | none => exact hall
      | some name => exact (madeOf_one (.load (words_cons.mp hown).1)).andThen hall
    | expression =>
      rw [lower_expression]
      exact hall
    | _ => exact hall

theorem lowerAll_madeOf : ∀ {trees : List Tree}, Words good (readingAll trees) →
    (lowerAll mode trees).MadeOf good
  | [], _ => madeOf_emit nofun
  | tree :: rest, h => by
    rw [readingAll, words_append] at h
    exact (lower_madeOf h.1).andThen (lowerAll_madeOf h.2)

theorem lowerValue_madeOf {name : String} (hn : good (.name name)) : ∀ {trees : List Tree},
    Words good (readingAll trees) → (lowerValue mode name trees).MadeOf good
  | [], _ => madeOf_emit nofun
  | value :: _, h => by
    rw [readingAll, words_append] at h
    exact (lower_madeOf h.1).andThen (madeOf_one (.store hn))

theorem lowerCouple_madeOf (needed : Couple) (place : Location) : ∀ {trees : List Tree},
    Words good (readingAll trees) → (lowerCouple mode needed place trees).MadeOf good
  | [], _ => madeOf_flawed _ _
  | [_], _ => madeOf_flawed _ _
  | first :: second :: _, h => by
    simp only [readingAll, words_append] at h
    exact (lower_madeOf h.1).andThen (lower_madeOf h.2.1)

theorem lowerAssignment_madeOf (place : Location) : ∀ {trees : List Tree},
    Words good (readingAll trees) → (lowerAssignment mode place trees).MadeOf good
  | [], _ => madeOf_flawed _ _
  | [_], _ => madeOf_flawed _ _
  | target :: value :: _, h => by
    simp only [readingAll, words_append] at h
    exact lowerTarget_madeOf (lower_madeOf h.2.1) h.1

theorem lowerTarget_madeOf {value : Lowered} (hv : value.MadeOf good) : ∀ {target : Tree},
    Words good target.reading → (lowerTarget mode value target).MadeOf good
  | .function .., _ => madeOf_flawed _ _
  | .loop .., _ => madeOf_flawed _ _
  | .giving .., _ => madeOf_flawed _ _
  | .node kind children place, h => by
    simp only [reading, words_append] at h
    have helement : (lowerElement mode value place children).MadeOf good :=
      lowerElement_madeOf hv place h.2
    cases kind with
    | identifier name =>
      have hname : good (.name name) := (words_cons.mp h.1).1
      exact (madeOf_one (.alloc hname)).andThen (hv.andThen (madeOf_one (.store hname)))
    | arrayAccess => exact helement
    | _ => exact madeOf_flawed _ _

theorem lowerElement_madeOf {value : Lowered} (hv : value.MadeOf good) (place : Location) :
    ∀ {trees : List Tree}, Words good (readingAll trees) →
      (lowerElement mode value place trees).MadeOf good
  | [], _ => madeOf_flawed _ _
  | [_], _ => madeOf_flawed _ _
  | array :: index :: _, h => by
    simp only [readingAll, words_append] at h
    obtain ⟨harray, hindex, -⟩ := h
    have hlowered : (lower mode index).MadeOf good := lower_madeOf hindex
    rw [lowerElement]
    cases hn : array.identifierName? with
    | none => exact madeOf_flawed _ _
    | some name =>
      have hname : good (.name name) := Words.identifierName? harray hn
      exact hlowered.andThen (hv.andThen (madeOf_one (.storeElement hname)))

theorem lowerIf_madeOf (place : Location) : ∀ {trees : List Tree},
    Words good (readingAll trees) → (lowerIf mode place trees).MadeOf good
  | [], _ => madeOf_flawed _ _
  | [_], _ => madeOf_flawed _ _
  | condition :: branch :: rest, h => by
    simp only [readingAll, words_append] at h
    obtain ⟨hcondition, hbranch, hrest⟩ := h
    exact (lower_madeOf hcondition).andThen ((madeOf_one (.ifFalse _)).andThen
      ((lower_madeOf hbranch).andThen ((lowerElse_madeOf hrest).andThen (madeOf_one (.label _)))))

theorem lowerElse_madeOf : ∀ {trees : List Tree}, Words good (readingAll trees) →
    (lowerElse mode trees).MadeOf good
  | .node kind (branch :: more) place :: rest, h => by
    simp only [readingAll, reading, words_append] at h
    have hbranch : (lower mode branch).MadeOf good := lower_madeOf h.1.2.1
    have hjump : ∀ instruction ∈ [goto .endIf, label .otherwise], instruction.MadeOf good := by
      simp [Instruction.MadeOf.goto, Instruction.MadeOf.label]
    cases kind with
    | elseStatement => exact (madeOf_emit hjump).andThen hbranch
    | _ => exact madeOf_one (.label _)
  | .node kind [] place :: rest, _ => by
    cases kind with
    | elseStatement => exact madeOf_flawed _ _
    | _ => exact madeOf_one (.label _)
  | .function .. :: _, _ => madeOf_one (.label _)
  | .loop .. :: _, _ => madeOf_one (.label _)
  | .giving .. :: _, _ => madeOf_one (.label _)
  | [], _ => madeOf_one (.label _)

theorem lowerCall_madeOf (place : Location) : ∀ {trees : List Tree},
    Words good (readingAll trees) → (lowerCall mode place trees).MadeOf good
  | [], _ => madeOf_flawed _ _
  | [callee], h => by
    rw [readingAll, words_append] at h
    exact (lower_madeOf h.1).andThen (madeOf_one (.call _))
  | callee :: arguments :: _, h => by
    simp only [readingAll, words_append] at h
    have hcallee : (lower mode callee).MadeOf good := lower_madeOf h.1
    have harguments : (lower mode arguments).MadeOf good := lower_madeOf h.2.1
    have hbelow : (lowerBelow mode arguments).MadeOf good := lowerBelow_madeOf h.2.1
    cases mode with
    | single => exact hcallee.andThen (harguments.andThen (madeOf_one (.call _)))
    | revisit => exact hcallee.andThen (hbelow.andThen (madeOf_one (.call _)))

theorem lowerBelow_madeOf : ∀ {tree : Tree}, Words good tree.reading →
    (lowerBelow mode tree).MadeOf good
  | .node _ _ _, h => by
    rw [reading, words_append] at h
    exact lowerAll_madeOf h.2
  | .function _ _ _ _, h => by
    simp only [reading, words_cons, words_append] at h
    exact lowerAll_madeOf h.2.2
  | .loop _ _ _ _ _, h => by
    simp only [reading, words_cons, words_append] at h
    exact lowerAll_madeOf h.2.2.2
  | .giving _ _ _, h => by
    rw [reading, words_append] at h
    exact lowerAll_madeOf h.2

theorem lowerArguments_madeOf : ∀ {trees : List Tree}, Words good (readingAll trees) →
    (lowerArguments mode trees).MadeOf good
  | [], _ => madeOf_emit nofun
  | argument :: rest, h => by
    rw [readingAll, words_append] at h
    exact (lower_madeOf h.1).andThen ((madeOf_one .arg).andThen (lowerArguments_madeOf h.2))

end

end Tree

end ScriptIR
