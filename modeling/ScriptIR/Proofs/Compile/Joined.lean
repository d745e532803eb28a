import Mathlib
import ScriptIR.Proofs.Grammar.Sequence
import ScriptIR.Proofs.Lowering.Moved
import ScriptIR.Proofs.Lowering.Total
import ScriptIR.Proofs.Token.Joined

namespace ScriptIR

open Grammar

-- A program never ends with a string literal.
theorem Accepted.closed {source : String} (h : Accepted (Lexed.ofSource source).tokens) :
    Closed source.toList := by
  apply Classical.byContradiction
  intro hn
  obtain ⟨trees, hs⟩ := accepted_iff.mp h
  obtain ⟨token, hl, hk⟩ := getLast?_of_not_closed hn .start
  have he := hs.getLast? hl
  rw [hk] at he
  cases he

theorem Accepted.tokens_joined {front : String} (h : Accepted (Lexed.ofSource front).tokens)
    (back : String) : (Lexed.ofSource (front ++ "\n" ++ back)).tokens =
      (Lexed.ofSource front).tokens ++
        (Lexed.ofSource back).tokens.map (Token.down (front.toList.count '\n' + 1)) := by
  have htext : (front ++ "\n" ++ back).toList = front.toList ++ '\n' :: back.toList := by simp
  have hlexed : (Lexed.ofSource (front ++ "\n" ++ back)).tokens =
      tokensFrom .start (front ++ "\n" ++ back).toList := rfl
  rw [hlexed, htext]
  exact tokens_append_newline h.closed

-- What is behind the end of a line is read as if it began the source, but for its places.
theorem parse_joined {front : String} {trees : List Tree}
    (h : parse (Lexed.ofSource front).tokens = .ok (.node .program trees .start)) (back : String) :
    let move := Location.down (front.toList.count '\n' + 1)
    let joined := (Lexed.ofSource (front ++ "\n" ++ back)).tokens
    (∀ others, parse (Lexed.ofSource back).tokens = .ok (.node .program others .start) →
      parse joined = .ok (.node .program (trees ++ Tree.movedAll move others) .start)) ∧
    ∀ error, parse (Lexed.ofSource back).tokens = .error error →
      parse joined = .error (error.rename (.moving move)) := by
  intro move joined
  have ht : joined = (Lexed.ofSource front).tokens ++
      (Lexed.ofSource back).tokens.map (Renaming.moving move).token :=
    Accepted.tokens_joined ⟨_, h⟩ back
  obtain ⟨_, he, hs⟩ := parse_eq_ok_iff.mp h
  cases he
  obtain ⟨hok, herror⟩ :=
    parse_append hs ((Lexed.ofSource back).tokens.map (Renaming.moving move).token)
  obtain ⟨mok, merror⟩ := parse_map (.moving move) (Lexed.ofSource back).tokens
  rw [ht]
  exact ⟨fun others ho => hok _ (mok others ho), fun error ho => herror _ (merror error ho)⟩

theorem compile_of_parse {mode : Mode} {source : String} {tree : Tree}
    (h : parse (Lexed.ofSource source).tokens = .ok tree) :
    compile mode source = (tree.lower mode).mapError .lowering := by
  have hparse : (parseTold (lex source).result.tokens).result = .ok tree := h
  have hlower : (lowerTold mode tree).result = tree.lower mode := by
    rw [lowerTold]
    split <;> rfl
  rw [compile, compileTold]
  simp only [hparse, hlower]
  cases tree.lower mode <;> rfl

theorem compile_of_parse_error {mode : Mode} {source : String} {error : SyntaxError}
    (h : parse (Lexed.ofSource source).tokens = .error error) :
    compile mode source = .error (.grammar error) := by
  have hparse : (parseTold (lex source).result.tokens).result = .error error := h
  rw [compile, compileTold]
  simp only [hparse]
  rfl

-- A compilation goes by the tokens of its source.
theorem compile_eq_of_tokens {source other : String}
    (h : (Lexed.ofSource source).tokens = (Lexed.ofSource other).tokens) (mode : Mode) :
    compile mode source = compile mode other := by
  cases hp : parse (Lexed.ofSource other).tokens with
  | ok tree => rw [compile_of_parse hp, compile_of_parse (h ▸ hp)]
  | error error => rw [compile_of_parse_error hp, compile_of_parse_error (h ▸ hp)]

theorem exists_parse_of_compile {mode : Mode} {source : String} {instructions : List Instruction}
    (h : compile mode source = .ok instructions) :
    ∃ trees, parse (Lexed.ofSource source).tokens = .ok (.node .program trees .start) ∧
      (Tree.node .program trees .start).lower mode = .ok instructions := by
  cases hp : parse (Lexed.ofSource source).tokens with
  | ok tree =>
    obtain ⟨trees, rfl, -⟩ := parse_eq_ok_iff.mp hp
    rw [compile_of_parse hp] at h
    refine ⟨trees, rfl, ?_⟩
    cases hl : (Tree.node .program trees .start).lower mode with
    | ok found =>
      rw [hl] at h
      cases h
      rfl
    | error flaw =>
      rw [hl] at h
      cases h
  | error error =>
    rw [compile_of_parse_error hp] at h
    cases h

theorem SyntaxError.foundText_moving (move : Location → Location) (error : SyntaxError) :
    (error.rename (.moving move)).foundText = error.foundText := by
  obtain ⟨wanted, found, place⟩ := error
  cases found with
  | none => rfl
  | some token => rfl

-- A source that compiles does not end within anything, so what is put behind the
-- end of its last line compiles as if it stood alone. Its instructions follow, its
-- declarations and its error are further down by the lines in front.
theorem compile_append_newline (mode : Mode) (front back : String) {tree : Tree}
    (h : parse (Lexed.ofSource front).tokens = .ok tree) :
    let move := Location.down (front.toList.count '\n' + 1)
    let joined := front ++ "\n" ++ back
    (∀ more, compile mode back = .ok more → ∃ first other,
      compile mode front = .ok first ∧ compile mode joined = .ok (first ++ more) ∧
      parse (Lexed.ofSource back).tokens = .ok other ∧
      parse (Lexed.ofSource joined).tokens =
        .ok (.node .program (tree.children ++ other.children.map (Tree.moved move)) .start)) ∧
    ∀ error, parse (Lexed.ofSource back).tokens = .error error → ∃ other,
      compile mode back = .error (.grammar error) ∧
      compile mode joined = .error (.grammar other) ∧
      other.wanted = error.wanted ∧ other.found.isSome = error.found.isSome ∧
      other.foundText = error.foundText ∧ other.place = move error.place := by
  intro move joined
  obtain ⟨trees, rfl, -⟩ := parse_eq_ok_iff.mp h
  obtain ⟨hok, herror⟩ := parse_joined h back
  constructor
  · intro more hm
    obtain ⟨first, hf⟩ := (isProgram_of_parse h).lowers mode
    obtain ⟨others, ho, hl⟩ := exists_parse_of_compile hm
    have hj := hok others ho
    have hlower : (Tree.node .program (trees ++ Tree.movedAll move others) .start).lower mode =
        .ok (first ++ more) := by
      rw [Tree.lower] at hf hl ⊢
      rw [Tree.lowerAll_append, Tree.lowerAll_moved, hf, hl]
      rfl
    refine ⟨first, _, ?_, ?_, ho, ?_⟩
    · rw [compile_of_parse h, hf]
      rfl
    · rw [compile_of_parse hj, hlower]
      rfl
    · rw [hj, Tree.movedAll_eq_map]
      rfl
  · intro error he
    have hj := herror error he
    exact ⟨_, compile_of_parse_error he, compile_of_parse_error hj, rfl, Option.isSome_map,
      error.foundText_moving move, rfl⟩

-- A comment at the end does not reach what is behind it.
theorem compile_behind_comment :
    parse (Lexed.ofSource "a = 1; # note").tokens =
      .ok (.node .program [.node (.varDecl "a") [.node (.literal "1") [] ⟨1, 5⟩] ⟨1, 1⟩] .start) ∧
    (∃ first, compile .revisit "a = 1; # note" = .ok first ∧
      compile .revisit ("a = 1; # note" ++ "\n" ++ "b = a;") =
        .ok (first ++ [.alloc "b", .load "a", .store "b", .load "a"])) ∧
    ∃ error, compile .revisit ("a = 1; # note" ++ "\n" ++ "b = ;") = .error (.grammar error) ∧
      error.wanted = .expression ∧ error.foundText = "';'" ∧ error.place = ⟨2, 5⟩ := by
  have hfront : parse (Lexed.ofSource "a = 1; # note").tokens =
      .ok (.node .program
        [.node (.varDecl "a") [.node (.literal "1") [] ⟨1, 5⟩] ⟨1, 1⟩] .start) := by
    cbv
  have hback : compile .revisit "b = a;" = .ok [.alloc "b", .load "a", .store "b", .load "a"] := by
    cbv
  have herror : parse (Lexed.ofSource "b = ;").tokens =
      .error ⟨.expression, some ⟨.mark .semicolon, ";", ⟨1, 5⟩⟩, ⟨1, 5⟩⟩ := by
    cbv
  obtain ⟨first, -, hf, hj, -⟩ :=
    (compile_append_newline .revisit "a = 1; # note" "b = a;" hfront).1 _ hback
  obtain ⟨error, -, he, hw, -, ht, hp⟩ :=
    (compile_append_newline .revisit "a = 1; # note" "b = ;" hfront).2 _ herror
  refine ⟨hfront, ⟨first, hf, hj⟩, error, he, hw, ?_, ?_⟩
  · rw [ht]
    decide
  · rw [hp]
    decide

end ScriptIR
