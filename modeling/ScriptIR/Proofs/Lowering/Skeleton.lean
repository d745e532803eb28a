import Mathlib
import ScriptIR.Proofs.Lowering.Nesting

namespace ScriptIR

open Grammar Instruction

-- The branches and loops of a piece of a program, one behind the other, with those inside.
inductive Skeleton where
  | done
  | branch (body rest : Skeleton)
  | either (body other rest : Skeleton)
  | loop (bound body rest : Skeleton)
deriving DecidableEq

namespace Skeleton

def append : Skeleton → Skeleton → Skeleton
  | .done, more => more
  | .branch body rest, more => .branch body (append rest more)
  | .either body other rest, more => .either body other (append rest more)
  | .loop bound body rest, more => .loop bound body (append rest more)

@[simp] def word : Skeleton → List Instruction
  | .done => []
  | .branch body rest =>
    ifFalse .otherwise :: (word body ++ label .otherwise :: label .endIf :: word rest)
  | .either body other rest =>
    ifFalse .otherwise :: (word body ++ goto .endIf :: label .otherwise ::
      (word other ++ label .endIf :: word rest))
  | .loop bound body rest =>
    label .loopStart :: (word bound ++ ifFalse .loopEnd ::
      (word body ++ goto .loopStart :: label .loopEnd :: word rest))

@[simp] theorem word_append (first second : Skeleton) :
    (first.append second).word = first.word ++ second.word := by
  induction first with
  | done => rfl
  | branch body rest _ ih => simp [append, word, ih]
  | either body other rest _ _ ih => simp [append, word, ih]
  | loop bound body rest _ _ ih => simp [append, word, ih]

-- What opens nothing does not begin a branch or a loop.
theorem cons_ne_cons {x opening : Instruction} {xs ys : List Instruction}
    (hx : x.opens = false) (ho : opening.opens = true) : x :: xs ≠ opening :: ys := by
  intro h
  rw [(List.cons.inj h).1, ho] at hx
  cases hx

-- A word ends where something follows that opens nothing, and the first instruction behind
-- the body of a branch tells whether there is an else.
theorem word_append_inj {first second : Skeleton} {x y : Instruction} {xs ys : List Instruction}
    (hx : x.opens = false) (hy : y.opens = false)
    (h : first.word ++ x :: xs = second.word ++ y :: ys) :
    first = second ∧ x :: xs = y :: ys := by
  induction first generalizing second x y xs ys with
  | done =>
    cases second with
    | done => exact ⟨rfl, h⟩
    | _ => exact (cons_ne_cons hx rfl h).elim
  | branch body rest ihb ihr =>
    cases second with
    | done => exact (cons_ne_cons hy rfl h.symm).elim
    | branch body' rest' =>
      simp only [word, List.cons_append, List.append_assoc, List.cons.injEq, true_and] at h
      obtain ⟨rfl, ht⟩ := ihb rfl rfl h
      obtain ⟨rfl, he⟩ := ihr hx hy (List.cons.inj (List.cons.inj ht).2).2
      exact ⟨rfl, he⟩
    | either body' other' rest' =>
      simp only [word, List.cons_append, List.append_assoc, List.cons.injEq, true_and] at h
      obtain ⟨-, ht⟩ := ihb rfl rfl h
      cases (List.cons.inj ht).1
    | loop bound' body' rest' => cases (List.cons.inj h).1
  | either body other rest ihb iho ihr =>
    cases second with
    | done => exact (cons_ne_cons hy rfl h.symm).elim
    | branch body' rest' =>
      simp only [word, List.cons_append, List.append_assoc, List.cons.injEq, true_and] at h
      obtain ⟨-, ht⟩ := ihb rfl rfl h
      cases (List.cons.inj ht).1
    | either body' other' rest' =>
      simp only [word, List.cons_append, List.append_assoc, List.cons.injEq, true_and] at h
      obtain ⟨rfl, ht⟩ := ihb rfl rfl h
      obtain ⟨rfl, hu⟩ := iho rfl rfl (List.cons.inj (List.cons.inj ht).2).2
      obtain ⟨rfl, he⟩ := ihr hx hy (List.cons.inj hu).2
      exact ⟨rfl, he⟩
    | loop bound' body' rest' => cases (List.cons.inj h).1
  | loop bound body rest ihb ihi ihr =>
    cases second with
    | done => exact (cons_ne_cons hy rfl h.symm).elim
    | branch body' rest' => cases (List.cons.inj h).1
    | either body' other' rest' => cases (List.cons.inj h).1
    | loop bound' body' rest' =>
      simp only [word, List.cons_append, List.append_assoc, List.cons.injEq, true_and] at h
      obtain ⟨rfl, ht⟩ := ihb rfl rfl h
      obtain ⟨rfl, hu⟩ := ihi rfl rfl (List.cons.inj ht).2
      obtain ⟨rfl, he⟩ := ihr hx hy (List.cons.inj (List.cons.inj hu).2).2
      exact ⟨rfl, he⟩

theorem word_injective : Function.Injective word := by
  intro first second h
  have hw : first.word ++ label .endIf :: [] = second.word ++ label .endIf :: [] := by rw [h]
  exact (word_append_inj rfl rfl hw).1

end Skeleton

-- Every well nested word is read in one way.
theorem Nested.existsUnique_skeleton {word : List Instruction} (h : Nested word) :
    ∃! skeleton : Skeleton, skeleton.word = word := by
  have hex : ∃ skeleton : Skeleton, skeleton.word = word := by
    induction h with
    | nil => exact ⟨.done, rfl⟩
    | append _ _ ihf ihb =>
      obtain ⟨first, rfl⟩ := ihf
      obtain ⟨second, rfl⟩ := ihb
      exact ⟨first.append second, Skeleton.word_append first second⟩
    | branch _ ih =>
      obtain ⟨body, rfl⟩ := ih
      exact ⟨.branch body .done, rfl⟩
    | either _ _ ihb iho =>
      obtain ⟨body, rfl⟩ := ihb
      obtain ⟨other, rfl⟩ := iho
      exact ⟨.either body other .done, rfl⟩
    | loop _ _ ihb ihi =>
      obtain ⟨bound, rfl⟩ := ihb
      obtain ⟨body, rfl⟩ := ihi
      exact ⟨.loop bound body .done, rfl⟩
  obtain ⟨skeleton, hs⟩ := hex
  exact ⟨skeleton, hs, fun other ho => Skeleton.word_injective (ho.trans hs.symm)⟩

namespace Tree

-- The branches and loops of a tree in the order of the source. The condition of a branch
-- and the first value of a loop stand in front of it.
mutual

@[simp] def skeleton : Tree → Skeleton
  | .node .ifStatement children _ => skeletonIf children
  | .node _ children _ => skeletonAll children
  | .function _ params children _ => params.skeleton.append (skeletonAll children)
  | .loop _ first last children _ =>
    first.skeleton.append (.loop last.skeleton (skeletonAll children) .done)
  | .giving value children _ => value.skeleton.append (skeletonAll children)

@[simp] def skeletonAll : List Tree → Skeleton
  | [] => .done
  | tree :: rest => tree.skeleton.append (skeletonAll rest)

@[simp] def skeletonIf : List Tree → Skeleton
  | [] => .done
  | [condition] => condition.skeleton
  | [condition, branch] => condition.skeleton.append (.branch branch.skeleton .done)
  | condition :: branch :: others =>
    condition.skeleton.append (.either branch.skeleton (skeletonAll others) .done)

end

end Tree

-- The control instructions of a tree are its branches and loops, shape by shape.
section shapes

theorem control_flatMap_code {trees : List Tree}
    (h : ∀ tree ∈ trees, control tree.code = tree.skeleton.word) :
    control (trees.flatMap Tree.code) = (Tree.skeletonAll trees).word := by
  induction trees with
  | nil => rfl
  | cons tree rest ih =>
    obtain ⟨ht, hr⟩ := List.forall_mem_cons.mp h
    rw [List.flatMap_cons, control_append, ht, ih hr, Tree.skeletonAll, Skeleton.word_append]

-- The instructions that announce arguments are left out.
theorem control_argumentCode {values : List Tree}
    (h : ∀ value ∈ values, control value.code = value.skeleton.word) :
    control (Tree.argumentCode values) = (Tree.skeletonAll values).word := by
  induction values with
  | nil => rfl
  | cons value rest ih =>
    obtain ⟨hv, hr⟩ := List.forall_mem_cons.mp h
    have harg : control [arg] = [] := rfl
    have hrest := ih hr
    rw [Tree.argumentCode] at hrest ⊢
    rw [List.flatMap_cons, control_append, control_append, hv, harg, List.append_nil, hrest,
      Tree.skeletonAll, Skeleton.word_append]

@[simp] theorem skeleton_identifier (name : String) (place : Location) :
    (identifierNode name place).skeleton = .done := rfl

theorem IsExpression.control_code {tree : Tree} (h : IsExpression tree) :
    control tree.code = tree.skeleton.word := by
  induction h with
  | literal =>
    rw [code_literal]
    rfl
  | identifier =>
    rw [code_identifier]
    rfl
  | emptyCall =>
    rw [code_emptyCall]
    rfl
  | call _ hv ih =>
    have ha := control_argumentCode ih
    simp [code_call hv, ha]
  | arrayAccess hi ih =>
    simp [code_arrayAccess hi, ih]
  | operation hl hr ihl ihr =>
    simp [code_operation hl hr, ihl, ihr]

mutual

theorem IsItem.control_code : ∀ {tree : Tree}, IsItem tree →
    control tree.code = tree.skeleton.word
  | _, .expression he => he.control_code
  | _, .array _ hi => by
    have hb := control_flatMap_code fun value hv => (hi value hv).control_code
    simp [code_array hi, hb]
  | _, .keyValue hp => by
    have hb := control_flatMap_code fun entry he => (hp entry he).control_code
    simp [code_keyValue hp, hb]

theorem IsPair.control_code : ∀ {tree : Tree}, IsPair tree →
    control tree.code = tree.skeleton.word
  | _, .pair he hi => by
    have hk := he.control_code
    have hv := hi.control_code
    simp [code_pair he hi, hk, hv]

end

theorem IsStatement.control_code {tree : Tree} (h : IsStatement tree) :
    control tree.code = tree.skeleton.word := by
  induction h with
  | assignment ht he =>
    have hv := he.control_code
    cases ht with
    | identifier => simp [code_assignName he, hv]
    | arrayAccess hi =>
      have hx := hi.control_code
      simp [code_assignElement hi he, hv, hx]
  | call he => exact he.control_code
  | ifStatement he hb ih =>
    have hc := he.control_code
    simp [code_if he hb, hc, ih]
  | ifElse he hb _ ho ihb iho =>
    have hc := he.control_code
    simp [code_ifElse he hb ho, hc, ihb, iho]
  | loop hf hl hs ih =>
    have hfirst := hf.control_code
    have hlast := hl.control_code
    have hb := control_flatMap_code ih
    simp [code_loop hf hl hs, hfirst, hlast, hb]
  | bareReturn =>
    rw [code_bareReturn]
    rfl
  | giving he =>
    have hv := he.control_code
    simp [code_giving he, hv]
  | block hs ih =>
    have hb := control_flatMap_code ih
    simp [code_block hs, hb]

-- Parameters hold no branch and no loop.
theorem skeletonAll_parameters {params : List Tree} (h : ∀ param ∈ params, IsParameter param) :
    Tree.skeletonAll params = .done := by
  induction params with
  | nil => rfl
  | cons param rest ih =>
    obtain ⟨⟨⟩, hr⟩ := List.forall_mem_cons.mp h
    rw [Tree.skeletonAll, skeleton_identifier, ih hr]
    rfl

theorem IsDeclaration.control_code {tree : Tree} (h : IsDeclaration tree) :
    control tree.code = tree.skeleton.word := by
  cases h with
  | main hs =>
    have hb := control_flatMap_code fun statement hm => (hs statement hm).control_code
    simp [code_main hs, hb]
  | function hp hs =>
    have hw := skeletonAll_parameters hp
    have hb := control_flatMap_code fun statement hm => (hs statement hm).control_code
    simp [code_function hs, hw, hb]
  | array _ hi =>
    have hb := control_flatMap_code fun value hv => (hi value hv).control_code
    simp [code_namedArray hi, hb]
  | keyValue hp =>
    have hb := control_flatMap_code fun entry he => (hp entry he).control_code
    simp [code_namedKeyValue hp, hb]
  | value he =>
    have hv := he.control_code
    simp [code_variable he, hv]

theorem IsProgram.control_code {tree : Tree} (h : IsProgram tree) :
    control tree.code = tree.skeleton.word := by
  obtain ⟨hd⟩ := h
  have hb := control_flatMap_code fun tree ht => (hd tree ht).control_code
  simp [code_program hd, hb]

end shapes

-- Jumps and labels are well nested, so that the names of labels can be shared: whatever is
-- lowered in whatever mode, each jump has the one label that it means in its own group. The
-- branches and loops of a program can be read back from its instructions.
theorem control_nested :
    (∀ mode tree instructions, Tree.lower mode tree = .ok instructions →
      Nested (control instructions) ∧
      (∃! skeleton : Skeleton, skeleton.word = control instructions) ∧
      ∃ marked, groups 0 [] (control instructions) = some marked ∧
        marked.map Prod.snd = control instructions ∧ Resolved marked) ∧
    ∀ tokens tree, parse tokens = .ok tree →
      ∃ instructions, tree.lower .single = .ok instructions ∧
        ∀ skeleton : Skeleton, skeleton.word = control instructions ↔ skeleton = tree.skeleton := by
  constructor
  · intro mode tree instructions h
    have hn := Tree.lower_nests tree instructions h
    exact ⟨hn, hn.existsUnique_skeleton, hn.exists_resolved⟩
  · intro tokens tree h
    have hp := isProgram_of_parse h
    refine ⟨tree.code, hp.lower_eq, fun skeleton => ?_⟩
    rw [hp.control_code]
    exact ⟨fun hs => Skeleton.word_injective hs, fun hs => by rw [hs]⟩

-- An if with an else in a loop takes one label of every name.
theorem control_of_loop :
    ∃ tree instructions,
      parse (Lexed.ofSource "main() \x7b for (i : 0, n) if (i) f(); else g(); \x7d").tokens =
        .ok tree ∧
      tree.lower .single = .ok instructions ∧ Nested (control instructions) ∧
      ∀ skeleton : Skeleton, skeleton.word = control instructions ↔
        skeleton = .loop .done (.either .done .done .done) .done := by
  have h : parse
      (Lexed.ofSource "main() \x7b for (i : 0, n) if (i) f(); else g(); \x7d").tokens =
      .ok (.node .program [.node .main [.loop "i" (.node (.literal "0") [] ⟨1, 19⟩)
        (identifierNode "n" ⟨1, 22⟩)
        [.node .ifStatement [identifierNode "i" ⟨1, 29⟩,
          .node .call [identifierNode "f" ⟨1, 32⟩] ⟨1, 32⟩,
          .node .elseStatement [.node .call [identifierNode "g" ⟨1, 42⟩] ⟨1, 42⟩] ⟨1, 37⟩]
          ⟨1, 25⟩] ⟨1, 10⟩] ⟨1, 1⟩] .start) := by
    cbv
  obtain ⟨instructions, hl, hs⟩ := control_nested.2 _ _ h
  exact ⟨_, instructions, h, hl, (control_nested.1 _ _ _ hl).1, hs⟩

end ScriptIR
