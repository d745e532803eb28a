import Mathlib
import ScriptIR.Proofs.Compile.Joined
import ScriptIR.Proofs.Grammar.Numbered
import ScriptIR.Proofs.Token.Written
import ScriptIR.Proofs.Tree.Headings

namespace ScriptIR

open Grammar

namespace Tree

theorem ownHeadings_moved (move : Location → Location) (depth : Nat) (tree : Tree) :
    (tree.moved move).ownHeadings depth = tree.ownHeadings depth := by
  cases tree with
  | node kind children place =>
    rw [moved_node]
    cases kind <;> rfl
  | _ => rfl

-- An outline has no places.
theorem outline_moved (move : Location → Location) (tree : Tree) :
    (tree.moved move).outline = tree.outline := by
  apply outline_congr (ownHeadings_moved move)
  intro tree
  rw [children_moved, movedAll_eq_map]

-- Two renamings of one tree by the same texts are the same but for the places.
mutual

theorem moved_rename_eq {first second : Renaming} (h : first.text = second.text) :
    ∀ tree : Tree, (tree.rename first).moved (fun _ => .start) =
      (tree.rename second).moved fun _ => .start
  | .node kind children place => by
    simp [rename, h, movedAll_renameAll_eq h children]
  | .function name params children place => by
    simp [rename, h, moved_rename_eq h params, movedAll_renameAll_eq h children]
  | .loop counter first last children place => by
    simp [rename, h, moved_rename_eq h first, moved_rename_eq h last,
      movedAll_renameAll_eq h children]
  | .giving value children place => by
    simp [rename, moved_rename_eq h value, movedAll_renameAll_eq h children]

theorem movedAll_renameAll_eq {first second : Renaming} (h : first.text = second.text) :
    ∀ trees : List Tree, movedAll (fun _ => .start) (renameAll first trees) =
      movedAll (fun _ => .start) (renameAll second trees)
  | [] => rfl
  | tree :: rest => by
    simp [renameAll, moved_rename_eq h tree, movedAll_renameAll_eq h rest]

end

end Tree

theorem Lowered.toOption_moved (move : Location → Location) (lowered : Lowered) :
    (lowered.moved move).toOption = lowered.toOption := by
  cases lowered <;> rfl

-- Two trees that differ in their places only.
def SameButPlaces (tree other : Tree) : Prop :=
  tree.moved (fun _ => .start) = other.moved fun _ => .start

namespace SameButPlaces

variable {tree other : Tree}

theorem outline_eq (h : SameButPlaces tree other) : tree.outline = other.outline := by
  rw [← Tree.outline_moved (fun _ => .start) tree, h, Tree.outline_moved]

theorem lower_eq (h : SameButPlaces tree other) (mode : Mode) :
    (tree.lower mode).toOption = (other.lower mode).toOption := by
  have ht := Tree.lower_moved (fun _ => .start) mode tree
  have ho := Tree.lower_moved (fun _ => .start) mode other
  rw [h] at ht
  rw [← Lowered.toOption_moved (fun _ => .start) (tree.lower mode), ← ht, ho,
    Lowered.toOption_moved]

end SameButPlaces

theorem text_filling {tokens others : List Token}
    (h : tokens.map Token.content = others.map Token.content) (spare : Token) :
    (Renaming.filling tokens spare).text = (Renaming.filling others spare).text := by
  have hlength : tokens.length = others.length := by
    simpa using congrArg List.length h
  have htext (index : Nat) :
      (tokenAt tokens spare index).text = (tokenAt others spare index).text := by
    have hi := congrArg (·[index]?) h
    simp only [List.getElem?_map] at hi
    rw [tokenAt, tokenAt]
    cases ht : tokens[index]? <;> cases ho : others[index]? <;>
      simp_all [Token.content]
  funext name
  simp only [Renaming.filling, hlength, htext]

theorem roles_eq_of_content {tokens others : List Token}
    (h : tokens.map Token.content = others.map Token.content) : roles tokens = roles others := by
  have hr := congrArg (List.map fun content : TokenKind × String => content.1.role) h
  simpa [roles, Token.content, Function.comp_def] using hr

-- Tokens that say the same in other places make the same tree but for its places, or
-- none.
theorem parse_of_content {tokens others : List Token}
    (h : tokens.map Token.content = others.map Token.content) :
    (∃ tree other, parse tokens = .ok tree ∧ parse others = .ok other ∧
      SameButPlaces tree other) ∨
    ∃ error other, parse tokens = .error error ∧ parse others = .error other := by
  have hr := roles_eq_of_content h
  obtain ⟨skeleton, -, hok⟩ | ⟨wanted, index, -, herror⟩ := parse_by_roles tokens
  · let spare : Token := ⟨.identifier, "", .start⟩
    refine .inl ⟨_, _, hok tokens spare rfl, hok others spare hr.symm, ?_⟩
    rw [SameButPlaces, Tree.moved_node, Tree.moved_node,
      Tree.movedAll_renameAll_eq (text_filling h spare) skeleton]
  · exact .inr ⟨_, _, herror tokens rfl, herror others hr.symm⟩

-- The grammar goes by the roles of the tokens and by nothing else. Lists of the same
-- roles have the same tree, with each text and each place taken from the token of the
-- same position, or they are refused in front of the same position for want of the
-- same thing. So what is between the tokens of a source has no say in its outline and in
-- its instructions.
theorem roles_steer :
    (∀ tokens : List Token,
      (∃ skeleton, parse (numbered tokens) = .ok (.node .program skeleton .start) ∧
        ∀ others spare, roles others = roles tokens → parse others =
          .ok (.node .program (Tree.renameAll (.filling others spare) skeleton) .start)) ∨
      ∃ wanted index, index ≤ tokens.length ∧ ∀ others, roles others = roles tokens →
        parse others = .error ((Reader.ofTokens others).errorAt wanted (others.drop index))) ∧
    ∀ front back : String,
      (Lexed.ofSource front).tokens.map Token.content =
        (Lexed.ofSource back).tokens.map Token.content →
      (parse (Lexed.ofSource front).tokens).toOption.map Tree.outline =
        (parse (Lexed.ofSource back).tokens).toOption.map Tree.outline ∧
      ∀ mode, (compile mode front).toOption = (compile mode back).toOption := by
  refine ⟨parse_by_roles, fun front back h => ?_⟩
  obtain ⟨tree, other, ht, ho, hsame⟩ | ⟨error, other, ht, ho⟩ := parse_of_content h
  · have hoption {lowered : Lowered} :
        (lowered.mapError CompileError.lowering).toOption = lowered.toOption := by
      cases lowered <;> rfl
    refine ⟨?_, fun mode => ?_⟩
    · rw [ht, ho]
      exact congrArg some hsame.outline_eq
    · rw [compile_of_parse ht, compile_of_parse ho, hoption, hoption, hsame.lower_eq mode]
  · refine ⟨by rw [ht, ho]; rfl, fun mode => ?_⟩
    rw [compile_of_parse_error ht, compile_of_parse_error ho]
    rfl

end ScriptIR
