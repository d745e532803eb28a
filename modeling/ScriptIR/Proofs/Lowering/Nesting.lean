import Mathlib.Data.List.Count
import ScriptIR.Proofs.Lowering.Code

namespace ScriptIR

open Grammar Instruction

namespace Instruction

-- Jumps and the places that they go to.
@[simp] def isControl (instruction : Instruction) : Bool :=
  instruction.op = .ifFalse || instruction.op = .goto || instruction.op = .label

def control (instructions : List Instruction) : List Instruction :=
  instructions.filter isControl

@[simp] theorem control_nil : control [] = [] := rfl

@[simp] theorem control_cons (instruction : Instruction) (rest : List Instruction) :
    control (instruction :: rest) =
      if instruction.isControl then instruction :: control rest else control rest :=
  List.filter_cons

@[simp] theorem control_append (front back : List Instruction) :
    control (front ++ back) = control front ++ control back :=
  List.filter_append front back

end Instruction

-- The words of jumps and labels that are well nested. The same four labels serve every
-- branch and every loop.
inductive Nested : List Instruction → Prop
  | nil : Nested []
  | append {front back : List Instruction} : Nested front → Nested back → Nested (front ++ back)
  | branch {body : List Instruction} : Nested body →
      Nested (ifFalse .otherwise :: (body ++ [label .otherwise, label .endIf]))
  | either {body other : List Instruction} : Nested body → Nested other →
      Nested (ifFalse .otherwise ::
        (body ++ goto .endIf :: label .otherwise :: (other ++ [label .endIf])))
  | loop {bound body : List Instruction} : Nested bound → Nested body →
      Nested (label .loopStart ::
        (bound ++ ifFalse .loopEnd :: (body ++ [goto .loopStart, label .loopEnd])))

namespace Lowered

-- Jumps and labels that are well nested, unless there is a flaw.
def Nests (lowered : Lowered) : Prop := ∀ code, lowered = .ok code → Nested (control code)

-- The same for what stands between a branch and the end of its if.
def EndsBranch (lowered : Lowered) : Prop := ∀ code, lowered = .ok code →
  control code = [label .otherwise] ∨
    ∃ other, Nested other ∧ control code = goto .endIf :: label .otherwise :: other

variable {first second condition branch ending last body : Lowered}

theorem nests_emit {instructions : List Instruction} (h : control instructions = []) :
    (emit instructions).Nests := by
  rintro _ ⟨⟩
  rw [h]
  exact .nil

theorem nests_flawed (flaw : Flaw) (place : Location) : (flawed flaw place).Nests := nofun

theorem Nests.andThen (hf : first.Nests) (hs : second.Nests) : (first >> second).Nests := by
  intro code h
  obtain ⟨front, back, rfl, rfl, rfl⟩ := andThen_eq_ok.mp h
  rw [control_append]
  exact .append (hf front rfl) (hs back rfl)

theorem nests_again {mode : Mode} {children : Unit → Lowered} (h : (children ()).Nests) :
    (Tree.again mode children).Nests := by
  cases mode with
  | single => exact nests_emit rfl
  | revisit => exact h

theorem nests_branching (hc : condition.Nests) (hb : branch.Nests) (he : ending.EndsBranch) :
    (condition >> emit [ifFalse .otherwise] >> branch >> ending >> emit [label .endIf]).Nests := by
  intro code h
  simp only [andThen_eq_ok] at h
  obtain ⟨tested, _, rfl, ⟨_, _, ⟨⟩, ⟨taken, _, rfl, ⟨missed, _, rfl, ⟨⟩, rfl⟩, rfl⟩, rfl⟩,
    rfl⟩ := h
  have hcondition := hc tested rfl
  have hbranch := hb taken rfl
  have hif : control [ifFalse .otherwise] = [ifFalse .otherwise] := rfl
  have hend : control [label .endIf] = [label .endIf] := rfl
  simp only [control_append, hif, hend]
  obtain ho | ⟨other, hother, ho⟩ := he missed rfl
  · rw [ho]
    exact hcondition.append (.branch hbranch)
  · rw [ho]
    exact hcondition.append (.either hbranch hother)

theorem nests_looping (counter : String) (hf : first.Nests) (hl : last.Nests) (hb : body.Nests)
    (hs : second.Nests) :
    (first >> emit [label .loopStart] >> last >> emit [ifFalse .loopEnd] >> body >>
      emit [add counter, goto .loopStart, label .loopEnd] >> second).Nests := by
  intro code h
  simp only [andThen_eq_ok] at h
  obtain ⟨start, _, rfl, ⟨_, _, ⟨⟩, ⟨bound, _, rfl, ⟨_, _, ⟨⟩, ⟨inner, _, rfl, ⟨_, more, ⟨⟩, rfl,
    rfl⟩, rfl⟩, rfl⟩, rfl⟩, rfl⟩, rfl⟩ := h
  have hstart := hf start rfl
  have hbound := hl bound rfl
  have hinner := hb inner rfl
  have hmore := hs more rfl
  have hopen : control [label .loopStart] = [label .loopStart] := rfl
  have htest : control [ifFalse .loopEnd] = [ifFalse .loopEnd] := rfl
  have hclose : control [add counter, goto .loopStart, label .loopEnd] =
      [goto .loopStart, label .loopEnd] := rfl
  simp only [control_append, hopen, htest, hclose]
  have hloop := hstart.append ((Nested.loop hbound hinner).append hmore)
  simpa using hloop

end Lowered

namespace Tree

variable {mode : Mode}

open Lowered

-- By the recursion of the lowering, for all trees and both modes. A second walk adds whole
-- lowerings of children.
mutual

theorem lower_nests : ∀ tree : Tree, (tree.lower mode).Nests
  | .function name params children place => by
    have hall := lowerAll_nests children
    rw [lower]
    exact (nests_emit rfl).andThen (hall.andThen (nests_again hall))
  | .loop counter first last children place => by
    have hall := lowerAll_nests children
    rw [lower]
    exact nests_looping counter (lower_nests first) (lower_nests last) hall (nests_again hall)
  | .giving value children place => by
    have hall := lowerAll_nests children
    rw [lower]
    exact (lower_nests value).andThen ((nests_emit rfl).andThen (nests_again hall))
  | .node kind children place => by
    have hall := lowerAll_nests children
    have hagain : (again mode fun _ => lowerAll mode children).Nests := nests_again hall
    have hvalue (name : String) := lowerValue_nests name children
    have hcouple (needed : Couple) := lowerCouple_nests needed place children
    have hassign := lowerAssignment_nests place children
    have hif := lowerIf_nests place children
    have hcall := lowerCall_nests place children
    have harguments := lowerArguments_nests children
    cases kind with
    | main => exact (nests_emit rfl).andThen (hall.andThen ((nests_emit rfl).andThen hagain))
    | varDecl name => exact (nests_emit rfl).andThen ((hvalue name).andThen hagain)
    | assignment => exact hassign.andThen hagain
    | ifStatement => exact hif.andThen hagain
    | bareReturn => exact (nests_emit rfl).andThen hagain
    | call => exact hcall.andThen hagain
    | argumentList => exact harguments.andThen hagain
    | pair => exact (hcouple .keyAndValue).andThen ((nests_emit rfl).andThen hagain)
    | arrayAccess => exact (hcouple .arrayAndIndex).andThen ((nests_emit rfl).andThen hagain)
    | literal text => exact (nests_emit rfl).andThen hagain
    | identifier name => exact (nests_emit rfl).andThen hagain
    | operator sign => exact (nests_emit rfl).andThen hagain
    | array name =>
      cases name with
      | none => exact hall
      | some name => exact (nests_emit rfl).andThen hall
    | keyValue name =>
      cases name with
      | none => exact hall
      | some name => exact (nests_emit rfl).andThen hall
    | expression =>
      rw [lower_expression]
      exact hall
    | _ => exact hall

theorem lowerAll_nests : ∀ trees : List Tree, (lowerAll mode trees).Nests
  | [] => nests_emit rfl
  | tree :: rest => (lower_nests tree).andThen (lowerAll_nests rest)

theorem lowerValue_nests (name : String) : ∀ trees : List Tree,
    (lowerValue mode name trees).Nests
  | [] => nests_emit rfl
  | value :: _ => (lower_nests value).andThen (nests_emit rfl)

theorem lowerCouple_nests (needed : Couple) (place : Location) : ∀ trees : List Tree,
    (lowerCouple mode needed place trees).Nests
  | [] => nests_flawed _ _
  | [_] => nests_flawed _ _
  | first :: second :: _ => (lower_nests first).andThen (lower_nests second)

theorem lowerAssignment_nests (place : Location) : ∀ trees : List Tree,
    (lowerAssignment mode place trees).Nests
  | [] => nests_flawed _ _
  | [_] => nests_flawed _ _
  | target :: value :: _ => lowerTarget_nests (lower_nests value) target

theorem lowerTarget_nests {value : Lowered} (h : value.Nests) : ∀ target : Tree,
    (lowerTarget mode value target).Nests
  | .function .. => nests_flawed _ _
  | .loop .. => nests_flawed _ _
  | .giving .. => nests_flawed _ _
  | .node kind children place => by
    have helement := lowerElement_nests h place children
    cases kind with
    | identifier name => exact (nests_emit rfl).andThen (h.andThen (nests_emit rfl))
    | arrayAccess => exact helement
    | _ => exact nests_flawed _ _

theorem lowerElement_nests {value : Lowered} (h : value.Nests) (place : Location) :
    ∀ trees : List Tree, (lowerElement mode value place trees).Nests
  | [] => nests_flawed _ _
  | [_] => nests_flawed _ _
  | array :: index :: _ => by
    have hindex := lower_nests index
    rw [lowerElement]
    cases array.identifierName? with
    | none => exact nests_flawed _ _
    | some name => exact hindex.andThen (h.andThen (nests_emit rfl))

theorem lowerIf_nests (place : Location) : ∀ trees : List Tree,
    (lowerIf mode place trees).Nests
  | [] => nests_flawed _ _
  | [_] => nests_flawed _ _
  | condition :: branch :: rest =>
    nests_branching (lower_nests condition) (lower_nests branch) (lowerElse_endsBranch rest)

theorem lowerElse_endsBranch : ∀ trees : List Tree, (lowerElse mode trees).EndsBranch
  | .node kind (branch :: more) place :: rest => by
    have hbranch : (lower mode branch).Nests := lower_nests branch
    intro code h
    cases kind with
    | elseStatement =>
      obtain ⟨_, back, ⟨⟩, hb, rfl⟩ := andThen_eq_ok.mp h
      exact .inr ⟨control back, hbranch back hb, rfl⟩
    | _ =>
      cases h
      exact .inl rfl
  | .node kind [] place :: rest => by
    intro code h
    cases kind with
    | elseStatement => cases h
    | _ =>
      cases h
      exact .inl rfl
  | .function .. :: _ => fun _ h => by cases h; exact .inl rfl
  | .loop .. :: _ => fun _ h => by cases h; exact .inl rfl
  | .giving .. :: _ => fun _ h => by cases h; exact .inl rfl
  | [] => fun _ h => by cases h; exact .inl rfl

theorem lowerCall_nests (place : Location) : ∀ trees : List Tree,
    (lowerCall mode place trees).Nests
  | [] => nests_flawed _ _
  | [callee] => (lower_nests callee).andThen (nests_emit rfl)
  | callee :: arguments :: _ => by
    have hcallee : (lower mode callee).Nests := lower_nests callee
    have harguments : (lower mode arguments).Nests := lower_nests arguments
    have hbelow : (lowerBelow mode arguments).Nests := lowerBelow_nests arguments
    cases mode with
    | single => exact hcallee.andThen (harguments.andThen (nests_emit rfl))
    | revisit => exact hcallee.andThen (hbelow.andThen (nests_emit rfl))

theorem lowerBelow_nests : ∀ tree : Tree, (lowerBelow mode tree).Nests
  | .node _ children _ => lowerAll_nests children
  | .function _ _ children _ => lowerAll_nests children
  | .loop _ _ _ children _ => lowerAll_nests children
  | .giving _ children _ => lowerAll_nests children

theorem lowerArguments_nests : ∀ trees : List Tree, (lowerArguments mode trees).Nests
  | [] => nests_emit rfl
  | argument :: rest =>
    (lower_nests argument).andThen ((nests_emit rfl).andThen (lowerArguments_nests rest))

end

end Tree

namespace Instruction

-- The first instruction of a branch or of a loop.
def opens (instruction : Instruction) : Bool :=
  instruction = ifFalse .otherwise || instruction = label .loopStart

-- The last one.
def closes (instruction : Instruction) : Bool :=
  instruction = label .endIf || instruction = label .loopEnd

end Instruction

-- Finds out with a stack which jumps and labels belong together. What opens a branch or a
-- loop begins a group, named by its position, and until the end of it all that opens
-- nothing belongs to the group that was begun last.
def groups (position : Nat) (pending : List Nat) :
    List Instruction → Option (List (Nat × Instruction))
  | [] => if pending = [] then some [] else none
  | instruction :: rest =>
    if instruction.opens then
      (groups (position + 1) (position :: pending) rest).map ((position, instruction) :: ·)
    else
      match pending with
      | [] => none
      | group :: outer =>
        (groups (position + 1) (if instruction.closes then outer else pending) rest).map
          ((group, instruction) :: ·)

-- A jump and its label in the order of the listing. Only the start of a loop is in front of
-- the jumps that go to it.
def Instruction.landing (jump : Instruction) (target : Label) : List Instruction :=
  if target = .loopStart then [label target, jump] else [jump, label target]

-- The label that a jump goes to is the only one of its name in the group of the jump.
structure Lands (marked : List (Nat × Instruction)) (group : Nat) (jump : Instruction)
    (target : Label) : Prop where
  once : marked.count (group, jump) = 1
  only : marked.count (group, label target) = 1
  order : ((jump.landing target).map (group, ·)).Sublist marked

def Resolved (marked : List (Nat × Instruction)) : Prop :=
  ∀ group jump target, (group, jump) ∈ marked → (jump = ifFalse target ∨ jump = goto target) →
    Lands marked group jump target

section groups

variable {position group : Nat} {pending outer : List Nat} {instruction : Instruction}
variable {rest : List Instruction}

theorem groups_opening (h : instruction.opens = true) :
    groups position pending (instruction :: rest) =
      (groups (position + 1) (position :: pending) rest).map ((position, instruction) :: ·) := by
  cases pending <;> rw [groups, if_pos h]

theorem groups_closing (ho : instruction.opens = false) (hc : instruction.closes = true) :
    groups position (group :: outer) (instruction :: rest) =
      (groups (position + 1) outer rest).map ((group, instruction) :: ·) := by
  simp [groups, ho, hc]

-- Instructions in the middle of a group.
theorem groups_staying {stays : List Instruction}
    (h : ∀ instruction ∈ stays, instruction.opens = false ∧ instruction.closes = false) :
    groups position (group :: outer) (stays ++ rest) =
      (groups (position + stays.length) (group :: outer) rest).map
        (stays.map (group, ·) ++ ·) := by
  induction stays generalizing position with
  | nil => simp
  | cons first stays ih =>
    obtain ⟨⟨ho, hc⟩, hr⟩ := List.forall_mem_cons.mp h
    have hlen : position + (stays.length + 1) = position + 1 + stays.length := by omega
    simp [groups, ho, hc, ih hr, hlen, Function.comp_def]

end groups

-- What a group consists of.
def constructs : List (List Instruction) :=
  [[ifFalse .otherwise, label .otherwise, label .endIf],
    [ifFalse .otherwise, goto .endIf, label .otherwise, label .endIf],
    [label .loopStart, ifFalse .loopEnd, goto .loopStart, label .loopEnd]]

-- The groups of a word from some position on, whatever is around it.
structure Grouped (position : Nat) (word : List Instruction)
    (marked : List (Nat × Instruction)) : Prop where
  run : ∀ pending rest, groups position pending (word ++ rest) =
    (groups (position + word.length) pending rest).map (marked ++ ·)
  instructions : marked.map Prod.snd = word
  bounds : ∀ entry ∈ marked, position ≤ entry.1 ∧ entry.1 < position + word.length
  whole : ∀ group, marked.filter (·.1 = group) = [] ∨
    ∃ own ∈ constructs, marked.filter (·.1 = group) = own.map (group, ·)

namespace Grouped

variable {position : Nat} {word : List Instruction} {marked : List (Nat × Instruction)}

theorem nil (position : Nat) : Grouped position [] [] where
  run pending rest := by simp
  instructions := rfl
  bounds := nofun
  whole _ := .inl rfl

theorem filter_eq_nil (h : Grouped position word marked) {group : Nat}
    (hg : group < position ∨ position + word.length ≤ group) :
    marked.filter (·.1 = group) = [] := by
  rw [List.filter_eq_nil_iff]
  intro entry he
  have hb := h.bounds entry he
  simp only [decide_eq_true_eq]
  omega

theorem append {more : List Instruction} {others : List (Nat × Instruction)}
    (h : Grouped position word marked) (hm : Grouped (position + word.length) more others) :
    Grouped position (word ++ more) (marked ++ others) where
  run pending rest := by
    rw [List.append_assoc, h.run, hm.run, Option.map_map, List.length_append, Nat.add_assoc]
    simp [Function.comp_def]
  instructions := by rw [List.map_append, h.instructions, hm.instructions]
  bounds entry he := by
    rw [List.length_append]
    obtain he | he := List.mem_append.mp he
    · have hb := h.bounds entry he
      omega
    · have hb := hm.bounds entry he
      omega
  whole group := by
    rw [List.filter_append]
    by_cases hg : group < position + word.length
    · rw [hm.filter_eq_nil (.inl hg), List.append_nil]
      exact h.whole group
    · rw [h.filter_eq_nil (.inr (Nat.le_of_not_lt hg)), List.nil_append]
      exact hm.whole group

-- Two words and the instructions of one group around them. The group of the opening
-- instruction is in front of all groups of the words.
theorem wrap {opening closing : Instruction} {first middle second stays : List Instruction}
    {front back : List (Nat × Instruction)} (ho : opening.opens = true)
    (hm : ∀ instruction ∈ middle, instruction.opens = false ∧ instruction.closes = false)
    (hs : ∀ instruction ∈ stays, instruction.opens = false ∧ instruction.closes = false)
    (hno : closing.opens = false) (hc : closing.closes = true)
    (hown : opening :: (middle ++ (stays ++ [closing])) ∈ constructs)
    (hf : Grouped (position + 1) first front)
    (hb : Grouped (position + 1 + first.length + middle.length) second back) :
    Grouped position (opening :: (first ++ (middle ++ (second ++ (stays ++ [closing])))))
      ((position, opening) :: (front ++ (middle.map (position, ·) ++
        (back ++ (stays.map (position, ·) ++ [(position, closing)]))))) where
  run pending rest := by
    have hlen : position + (opening :: (first ++ (middle ++ (second ++
        (stays ++ [closing]))))).length =
        position + 1 + first.length + middle.length + second.length + stays.length + 1 := by
      simp only [List.length_cons, List.length_append, List.length_nil]
      omega
    simp only [hlen, List.cons_append, List.append_assoc]
    rw [groups_opening ho, hf.run, groups_staying hm, hb.run, groups_staying hs,
      List.nil_append, groups_closing hno hc]
    simp [Function.comp_def]
  instructions := by simp [hf.instructions, hb.instructions, Function.comp_def]
  bounds entry he := by
    simp only [List.length_cons, List.length_append, List.length_nil]
    simp only [List.mem_cons, List.mem_append, List.mem_map, List.not_mem_nil, or_false] at he
    obtain rfl | he | ⟨_, _, rfl⟩ | he | ⟨_, _, rfl⟩ | rfl := he
    · omega
    · have := hf.bounds entry he
      omega
    · omega
    · have := hb.bounds entry he
      omega
    · omega
    · omega
  whole group := by
    by_cases hg : group = position
    · subst hg
      have hfront := hf.filter_eq_nil (.inl (Nat.lt_succ_self group))
      have hback : back.filter (·.1 = group) = [] := hb.filter_eq_nil (.inl (by omega))
      have hall (own : List Instruction) :
          (own.map (group, ·)).filter (·.1 = group) = own.map (group, ·) :=
        List.filter_eq_self.mpr (by simp)
      refine .inr ⟨_, hown, ?_⟩
      simp [List.filter_append, hall, hfront, hback]
    · have hnone (own : List Instruction) : (own.map (position, ·)).filter (·.1 = group) = [] :=
        List.filter_eq_nil_iff.mpr (by simp [Ne.symm hg])
      by_cases hlt : group < position + 1 + first.length
      · have hback : back.filter (·.1 = group) = [] := hb.filter_eq_nil (.inl (by omega))
        simpa [List.filter_append, hnone, Ne.symm hg, hback] using hf.whole group
      · have hfront := hf.filter_eq_nil (.inr (Nat.le_of_not_lt hlt))
        simpa [List.filter_append, hnone, Ne.symm hg, hfront] using hb.whole group

end Grouped

theorem Nested.exists_grouped {word : List Instruction} (h : Nested word) (position : Nat) :
    ∃ marked, Grouped position word marked := by
  induction h generalizing position with
  | nil => exact ⟨_, Grouped.nil position⟩
  | @append front back _ _ ihf ihb =>
    obtain ⟨_, hf⟩ := ihf position
    obtain ⟨_, hb⟩ := ihb (position + front.length)
    exact ⟨_, hf.append hb⟩
  | @branch body _ ih =>
    obtain ⟨_, hi⟩ := ih (position + 1)
    have hw : ∃ marked, Grouped position (ifFalse .otherwise ::
        (body ++ ([label .otherwise] ++ ([] ++ ([] ++ [label .endIf]))))) marked :=
      ⟨_, .wrap rfl (by decide) (by decide) rfl rfl (by decide) hi (.nil _)⟩
    exact hw
  | @either body other _ _ ihb iho =>
    obtain ⟨_, hi⟩ := ihb (position + 1)
    obtain ⟨_, ho⟩ := iho (position + 1 + body.length + 2)
    have hw : ∃ marked, Grouped position (ifFalse .otherwise ::
        (body ++ ([goto .endIf, label .otherwise] ++ (other ++ ([] ++ [label .endIf]))))) marked :=
      ⟨_, .wrap rfl (by decide) (by decide) rfl rfl (by decide) hi ho⟩
    exact hw
  | @loop bound body _ _ ihb ihi =>
    obtain ⟨_, hb⟩ := ihb (position + 1)
    obtain ⟨_, hi⟩ := ihi (position + 1 + bound.length + 1)
    have hw : ∃ marked, Grouped position (label .loopStart :: (bound ++
        ([ifFalse .loopEnd] ++ (body ++ ([goto .loopStart] ++ [label .loopEnd]))))) marked :=
      ⟨_, .wrap rfl (by decide) (by decide) rfl rfl (by decide) hb hi⟩
    exact hw

theorem landing_of_mem_constructs (target : Label) : ∀ own ∈ constructs, ∀ jump ∈ own,
    (jump = ifFalse target ∨ jump = goto target) →
      own.count jump = 1 ∧ own.count (label target) = 1 ∧ (jump.landing target).Sublist own := by
  cases target <;> decide

theorem Grouped.resolved {position : Nat} {word : List Instruction}
    {marked : List (Nat × Instruction)} (h : Grouped position word marked) : Resolved marked := by
  intro group jump target hm hj
  have hmem : (group, jump) ∈ marked.filter (·.1 = group) := List.mem_filter.mpr ⟨hm, by simp⟩
  obtain he | ⟨own, hown, he⟩ := h.whole group
  · rw [he] at hmem
    cases hmem
  rw [he] at hmem
  have hc (instruction : Instruction) :
      marked.count (group, instruction) = own.count instruction := by
    rw [← List.count_filter (p := fun entry => decide (entry.1 = group)) (by simp), he]
    exact List.count_map_of_injective _ _ (fun _ _ he => (Prod.mk.inj he).2) _
  obtain ⟨_, ho, hp⟩ := List.mem_map.mp hmem
  cases hp
  obtain ⟨honce, honly, horder⟩ := landing_of_mem_constructs target own hown jump ho hj
  refine ⟨(hc _).trans honce, (hc _).trans honly, ?_⟩
  have hsub := horder.map (group, ·)
  rw [← he] at hsub
  exact hsub.trans List.filter_sublist

-- A well nested word has groups, and all of its jumps land.
theorem Nested.exists_resolved {word : List Instruction} (h : Nested word) :
    ∃ marked, groups 0 [] word = some marked ∧ marked.map Prod.snd = word ∧ Resolved marked := by
  obtain ⟨marked, hg⟩ := h.exists_grouped 0
  have hrun := hg.run [] []
  rw [List.append_nil] at hrun
  exact ⟨marked, by simpa [groups] using hrun, hg.instructions, hg.resolved⟩

end ScriptIR
