import ScriptIR.Proofs.Grammar.Renaming

namespace ScriptIR

open Grammar

namespace Grammar

variable {change : Renaming}

-- What is behind an element of a list, for any kind of list.
def listTail (list : (tokens : List Token) → Outcome (List Tree) tokens.length) (first : Tree)
    (rest : List Token) : Outcome (List Tree) (rest.length + 1) :=
  match rest with
  | ⟨.mark .comma, _, _⟩ :: behind => ((list behind).map (first :: ·)).loosen.loosen
  | rest => .done [first] rest

theorem listTail_of_ne {list : (tokens : List Token) → Outcome (List Tree) tokens.length}
    {first : Tree} {rest : List Token}
    (h : ∀ (text : String) (place : Location) (behind : List Token),
      rest = ⟨.mark .comma, text, place⟩ :: behind → False) :
    listTail list first rest = .done [first] rest := by
  rw [listTail]
  exact h

-- The four lists of the grammar, as an element and what is behind it.

theorem arguments_eq (tokens : List Token) : arguments tokens =
    (expression tokens).andMaybe fun first rest _ => listTail arguments first rest := by
  rw [arguments]
  congr
  funext first rest shorter
  split
  · rfl
  · rename_i hno
    refine (listTail_of_ne fun text place behind he => ?_).symm
    subst he
    exact hno _ _ _ shorter rfl HEq.rfl

theorem items_eq (tokens : List Token) : items tokens =
    (item tokens).andMaybe fun first rest _ => listTail items first rest := by
  rw [items]
  congr
  funext first rest shorter
  split
  · rfl
  · rename_i hno
    refine (listTail_of_ne fun text place behind he => ?_).symm
    subst he
    exact hno _ _ _ shorter rfl HEq.rfl

theorem pairs_eq (tokens : List Token) : pairs tokens =
    ((expression tokens).closedBy (.mark .colon) "between key and value").andThen fun key rest _ =>
      (item rest).andMaybe fun value rest _ =>
        listTail pairs (.node .pair [key, value] (nextPlace tokens)) rest := by
  rw [pairs]
  congr
  funext key rest shorter
  congr
  funext value rest shorter
  split
  · rfl
  · rename_i hno
    refine (listTail_of_ne fun text place behind he => ?_).symm
    subst he
    exact hno _ _ _ shorter rfl HEq.rfl

theorem parameters_eq (tokens : List Token) : parameters tokens =
    (expect .identifier "in parameter list" tokens).andMaybe fun first rest _ =>
      listTail parameters (identifierNode first.text first.place) rest := by
  rw [parameters]
  congr
  funext first rest shorter
  split
  · rfl
  · rename_i hno
    refine (listTail_of_ne fun text place behind he => ?_).symm
    subst he
    exact hno _ _ _ shorter rfl HEq.rfl

theorem listTail_renames {list : (tokens : List Token) → Outcome (List Tree) tokens.length}
    (first : Tree) (rest : List Token)
    (h : ∀ (text : String) (place : Location) (behind : List Token),
      rest = ⟨.mark .comma, text, place⟩ :: behind →
        RenamesTrees change (list behind) (list (behind.map change.token))) :
    RenamesTrees change (listTail list first rest)
      (listTail list (first.rename change) (rest.map change.token)) := by
  obtain ⟨text, place, behind, rfl⟩ | hno := cons_or_ne (.mark .comma) rest
  · rw [List.map_cons, token_mark, listTail, listTail]
    simp only [Outcome.renames_loosen]
    exact (h text place behind rfl).map fun values _ => rfl
  · rw [listTail, listTail]
    · exact .done rfl
    · exact renamed_ne (TokenKind.rigid_mark _) hno
    · exact hno

def renamePairs (change : Renaming) (pairs : List (Tree × Tree)) : List (Tree × Tree) :=
  pairs.map fun pair => (pair.1.rename change, pair.2.rename change)

theorem nestRight_rename (left : Tree) (pairs : List (Tree × Tree)) :
    nestRight (left.rename change) (renamePairs change pairs) =
      (nestRight left pairs).rename change := by
  induction pairs generalizing left with
  | nil => rfl
  | cons pair rest ih =>
    obtain ⟨sign, right⟩ := pair
    have hr := ih right
    simp only [renamePairs] at hr
    simp only [renamePairs, List.map_cons, nestRight, hr, Tree.rename, Tree.renameAll,
      Kind.rename, Tree.place_rename]

-- In the order of the rules, one case to a row. A row that the old tokens do not take is
-- not taken by the new ones either.
theorem expression_rules_rename :
    (∀ tokens, RenamesTree change (expression tokens) (expression (tokens.map change.token))) ∧
    (∀ tokens, (chain tokens).Renames change (renamePairs change)
      (chain (tokens.map change.token))) ∧
    (∀ tokens, RenamesTree change (operand tokens) (operand (tokens.map change.token))) ∧
    (∀ name place tokens, RenamesTree change (access name place tokens)
      (access (change.text name) (change.place place) (tokens.map change.token))) ∧
    (∀ name place tokens, RenamesTree change (call name place tokens)
      (call (change.text name) (change.place place) (tokens.map change.token))) ∧
    (∀ tokens, RenamesTrees change (arguments tokens) (arguments (tokens.map change.token))) := by
  apply expression.mutual_induct
  case case1 =>
    intro tokens ho hc
    rw [expression, expression]
    exact ho.andMaybe fun first rest shorter _ =>
      (hc rest shorter).map fun pairs _ => nestRight_rename first pairs
  case case2 =>
    intro sign text place behind ho hc
    obtain ⟨sign', hs⟩ := exists_operator change sign text place
    rw [List.map_cons, hs, chain, chain]
    simp only [Outcome.renames_loosen]
    exact ho.andMaybe fun right rest shorter _ => (hc rest shorter).map fun pairs _ => rfl
  case case3 =>
    intro tokens hno
    rw [chain, chain]
    · exact .done rfl
    · exact renamed_ne_operator hno
    · exact hno
  case case4 =>
    intro text place inner he
    rw [List.map_cons, token_mark, operand, operand]
    exact Outcome.renames_loosen.mpr (he.closedBy (TokenKind.rigid_mark _) _)
  case case5 =>
    intro name place text other inner hc
    rw [List.map_cons, List.map_cons, token_identifier, token_mark, operand, operand]
    exact Outcome.renames_loosen.mpr (Outcome.renames_loosen.mpr hc)
  case case6 =>
    intro name place text other inner ha
    rw [List.map_cons, List.map_cons, token_identifier, token_mark, operand, operand]
    exact Outcome.renames_loosen.mpr (Outcome.renames_loosen.mpr ha)
  case case7 =>
    intro name place rest hcall haccess
    rw [List.map_cons, token_identifier, operand, operand]
    · exact .done rfl
    · exact renamed_ne (TokenKind.rigid_mark _) hcall
    · exact renamed_ne (TokenKind.rigid_mark _) haccess
    · exact hcall
    · exact haccess
  case case8 =>
    intro form value place rest
    obtain ⟨form', hf⟩ := exists_literal change form value place
    rw [List.map_cons, hf, operand, operand]
    exact .done rfl
  case case9 =>
    intro tokens hgroup hcall haccess hname hliteral
    rw [operand, operand]
    · exact .refused _ _
    · exact renamed_ne (TokenKind.rigid_mark _) hgroup
    · exact fun _ _ _ _ _ => renamed_ne TokenKind.rigid_identifier hname _ _ _
    · exact fun _ _ _ _ _ => renamed_ne TokenKind.rigid_identifier hname _ _ _
    · exact renamed_ne TokenKind.rigid_identifier hname
    · exact renamed_ne_literal hliteral
    · exact hgroup
    · exact hcall
    · exact haccess
    · exact hname
    · exact hliteral
  case case10 =>
    intro name place tokens he
    rw [access, access]
    exact (he.closedBy (TokenKind.rigid_mark _) _).map fun index _ => rfl
  case case11 =>
    intro name place text other rest
    rw [List.map_cons, token_mark, call, call]
    exact .done rfl
  case case12 =>
    intro name place tokens hno ha
    rw [call, call]
    · refine (ha.closedBy (TokenKind.rigid_mark _) _).map fun values h => ?_
      rw [nextPlace_map h]
      rfl
    · exact renamed_ne (TokenKind.rigid_mark _) hno
    · exact hno
  case case13 =>
    intro tokens he ha
    rw [arguments_eq, arguments_eq]
    exact he.andMaybe fun first rest shorter _ => listTail_renames first rest
      fun text place behind hr => ha text place behind (hr ▸ shorter)

theorem aggregate_rules_rename :
    (∀ tokens, RenamesTree change (item tokens) (item (tokens.map change.token))) ∧
    (∀ name place tokens, RenamesTree change (keyValue name place tokens)
      (keyValue (name.map change.text) (change.place place) (tokens.map change.token))) ∧
    (∀ tokens, RenamesTrees change (pairs tokens) (pairs (tokens.map change.token))) ∧
    (∀ name place tokens, RenamesTree change (array name place tokens)
      (array (name.map change.text) (change.place place) (tokens.map change.token))) ∧
    (∀ tokens, RenamesTrees change (items tokens) (items (tokens.map change.token))) := by
  have he := (@expression_rules_rename change).1
  apply item.mutual_induct
  case case1 =>
    intro text place inner ha
    rw [List.map_cons, token_mark, item, item]
    exact Outcome.renames_loosen.mpr ha
  case case2 =>
    intro text place inner hk
    rw [List.map_cons, token_mark, item, item]
    exact Outcome.renames_loosen.mpr hk
  case case3 =>
    intro tokens hbracket hbrace
    rw [item, item]
    · exact he tokens
    · exact renamed_ne (TokenKind.rigid_mark _) hbracket
    · exact renamed_ne (TokenKind.rigid_mark _) hbrace
    · exact hbracket
    · exact hbrace
  case case4 =>
    intro name place text other rest
    rw [List.map_cons, token_mark, keyValue, keyValue]
    exact .done rfl
  case case5 =>
    intro name place tokens hno hp
    rw [keyValue, keyValue]
    · exact (hp.closedBy (TokenKind.rigid_mark _) _).map fun entries _ => rfl
    · exact renamed_ne (TokenKind.rigid_mark _) hno
    · exact hno
  case case6 =>
    intro tokens hi hp
    rw [pairs_eq, pairs_eq]
    refine ((he tokens).closedBy (TokenKind.rigid_mark _) _).andThen fun key rest shorter _ =>
      (hi rest shorter).andMaybe fun value last shorter' _ => ?_
    rw [nextPlace_map (Nat.zero_lt_of_lt shorter)]
    exact listTail_renames (.node .pair [key, value] (nextPlace tokens)) last
      fun text place behind hr => hp rest shorter text place behind (hr ▸ shorter')
  case case7 =>
    intro name place tokens hi
    rw [array, array]
    refine (hi.closedBy (TokenKind.rigid_mark _) _).map fun values h => ?_
    rw [nextPlace_map h]
    rfl
  case case8 =>
    intro tokens hi hm
    rw [items_eq, items_eq]
    exact hi.andMaybe fun first rest shorter _ => listTail_renames first rest
      fun text place behind hr => hm text place behind (hr ▸ shorter)

theorem closed_expression_renames {kind : TokenKind} (h : kind.Rigid) (role : String)
    (tokens : List Token) :
    RenamesTree change ((expression tokens).closedBy kind role)
      ((expression (tokens.map change.token)).closedBy kind role) :=
  (expression_rules_rename.1 tokens).closedBy h role

theorem condition_renames (tokens : List Token) :
    RenamesTree change (condition tokens) (condition (tokens.map change.token)) := by
  rw [condition, condition]
  exact (expect_renames (TokenKind.rigid_mark _) _ tokens).andThen fun _ rest _ _ =>
    closed_expression_renames (TokenKind.rigid_mark _) _ rest

-- Marks and keywords are rigid, so each step of a rule is there for the new tokens too.
theorem loopHead_renames (tokens : List Token) :
    (loopHead tokens).Renames change
      (fun head => (change.text head.1, head.2.1.rename change, head.2.2.rename change))
      (loopHead (tokens.map change.token)) := by
  rw [loopHead, loopHead]
  exact (expect_renames (TokenKind.rigid_mark _) _ tokens).andThen fun _ rest _ _ =>
    (expect_renames TokenKind.rigid_identifier _ rest).andThen fun counter rest _ _ =>
    (expect_renames (TokenKind.rigid_mark _) _ rest).andThen fun _ rest _ _ =>
    (closed_expression_renames (TokenKind.rigid_mark _) _ rest).andThen fun first rest _ _ =>
    (closed_expression_renames (TokenKind.rigid_mark _) _ rest).map fun last _ => rfl

theorem assignTo_renames (left : Tree) (place : Location) (tokens : List Token) :
    RenamesTree change (assignTo left place tokens)
      (assignTo (left.rename change) (change.place place) (tokens.map change.token)) := by
  rw [assignTo, assignTo]
  exact (expect_renames (TokenKind.rigid_mark _) _ tokens).andThen fun _ rest _ _ =>
    (closed_expression_renames (TokenKind.rigid_mark _) _ rest).map fun value _ => rfl

theorem assignment_renames (name : String) (place : Location) (tokens : List Token) :
    RenamesTree change (assignment name place tokens)
      (assignment (change.text name) (change.place place) (tokens.map change.token)) := by
  obtain ⟨text, other, inner, rfl⟩ | hno := cons_or_ne (.mark .leftBracket) tokens
  · rw [List.map_cons, token_mark, assignment, assignment]
    exact Outcome.renames_loosen.mpr
      ((expression_rules_rename.2.2.2.1 name place inner).andThen fun left rest _ _ =>
        assignTo_renames left place rest)
  · rw [assignment, assignment]
    · exact assignTo_renames _ place tokens
    · exact renamed_ne (TokenKind.rigid_mark _) hno
    · exact hno

theorem returnStatement_renames (place : Location) (tokens : List Token) :
    RenamesTree change (returnStatement place tokens)
      (returnStatement (change.place place) (tokens.map change.token)) := by
  obtain ⟨text, other, rest, rfl⟩ | hno := cons_or_ne (.mark .semicolon) tokens
  · rw [List.map_cons, token_mark, returnStatement, returnStatement]
    exact .done rfl
  · rw [returnStatement, returnStatement]
    · exact (closed_expression_renames (TokenKind.rigid_mark _) _ tokens).map fun value _ => rfl
    · exact renamed_ne (TokenKind.rigid_mark _) hno
    · exact hno

-- What is behind the first branch of an if. As a function it can be said once for the
-- old tokens and once for the new ones.
def elseTail (place : Location) (tree branch : Tree) (rest : List Token) :
    Outcome Tree (rest.length + 1) :=
  match rest with
  | ⟨.keyword .elseWord, _, elsePlace⟩ :: behind =>
    ((statement behind).outcome.map fun other => .node .ifStatement
      [tree, branch, .node .elseStatement [other] elsePlace] place).loosen.loosen
  | rest => .done (.node .ifStatement [tree, branch] place) rest

theorem ifStatement_outcome (place : Location) (tokens : List Token) :
    (ifStatement place tokens).outcome = (condition tokens).andThen fun tree rest _ =>
      (statement rest).outcome.andMaybe fun branch rest _ => elseTail place tree branch rest := by
  rw [ifStatement, Traced.outcome_andThen, Outcome.outcome_traced]
  simp only [Traced.outcome_andMaybe]
  congr
  funext tree rest shorter
  congr
  funext branch rest shorter
  split
  · rfl
  · rename_i hno
    rw [elseTail]
    · rfl
    · rintro text place behind rfl
      exact hno _ _ _ shorter rfl HEq.rfl

-- What is behind the parenthesis of a loop.
def loopTail (place : Location) (head : String × Tree × Tree) (rest : List Token) :
    Outcome Tree rest.length :=
  match rest with
  | ⟨.mark .leftBrace, _, _⟩ :: inner =>
    ((body "after loop body" inner).outcome.map fun statements =>
      .loop head.1 head.2.1 head.2.2 statements place).loosen
  | rest => (statement rest).outcome.map fun only => .loop head.1 head.2.1 head.2.2 [only] place

theorem loop_outcome (place : Location) (tokens : List Token) :
    (loop place tokens).outcome =
      (loopHead tokens).andThen fun head rest _ => loopTail place head rest := by
  rw [loop, Traced.outcome_andThen, Outcome.outcome_traced]
  congr
  funext head rest shorter
  split
  rename_i counter first last
  split
  · rfl
  · rename_i hno
    rw [loopTail]
    · rfl
    · rintro text place behind rfl
      exact hno _ _ _ shorter rfl HEq.rfl

theorem elseTail_renames (place : Location) (tree branch : Tree) (rest : List Token)
    (h : ∀ (text : String) (elsePlace : Location) (behind : List Token),
      rest = ⟨.keyword .elseWord, text, elsePlace⟩ :: behind →
        RenamesTree change (statement behind).outcome
          (statement (behind.map change.token)).outcome) :
    RenamesTree change (elseTail place tree branch rest)
      (elseTail (change.place place) (tree.rename change) (branch.rename change)
        (rest.map change.token)) := by
  obtain ⟨text, elsePlace, behind, rfl⟩ | hno := cons_or_ne (.keyword .elseWord) rest
  · rw [List.map_cons, token_keyword, elseTail, elseTail]
    simp only [Outcome.renames_loosen]
    exact (h text elsePlace behind rfl).map fun other _ => rfl
  · rw [elseTail, elseTail]
    · exact .done rfl
    · exact renamed_ne (TokenKind.rigid_keyword _) hno
    · exact hno

theorem loopTail_renames (place : Location) (head : String × Tree × Tree) (rest : List Token)
    (hb : ∀ (text : String) (other : Location) (inner : List Token),
      rest = ⟨.mark .leftBrace, text, other⟩ :: inner →
        RenamesTrees change (body "after loop body" inner).outcome
          (body "after loop body" (inner.map change.token)).outcome)
    (hs : RenamesTree change (statement rest).outcome
      (statement (rest.map change.token)).outcome) :
    RenamesTree change (loopTail place head rest)
      (loopTail (change.place place)
        (change.text head.1, head.2.1.rename change, head.2.2.rename change)
        (rest.map change.token)) := by
  obtain ⟨text, other, inner, rfl⟩ | hno := cons_or_ne (.mark .leftBrace) rest
  · rw [List.map_cons, token_mark, loopTail, loopTail]
    simp only [Outcome.renames_loosen]
    exact (hb text other inner rfl).map fun statements _ => rfl
  · rw [loopTail, loopTail]
    · exact hs.map fun only _ => rfl
    · exact renamed_ne (TokenKind.rigid_mark _) hno
    · exact hno

theorem statement_rules_rename :
    (∀ tokens, RenamesTree change (statement tokens).outcome
      (statement (tokens.map change.token)).outcome) ∧
    (∀ role tokens, RenamesTrees change (body role tokens).outcome
      (body role (tokens.map change.token)).outcome) ∧
    (∀ place tokens, RenamesTree change (loop place tokens).outcome
      (loop (change.place place) (tokens.map change.token)).outcome) ∧
    (∀ place tokens, RenamesTree change (ifStatement place tokens).outcome
      (ifStatement (change.place place) (tokens.map change.token)).outcome) := by
  apply statement.mutual_induct
  case case1 =>
    intro name place text other inner
    rw [List.map_cons, List.map_cons, token_identifier, token_mark, statement, statement]
    simp only [Traced.outcome_noting, Outcome.outcome_traced, Outcome.renames_loosen]
    rw [callStatement, callStatement]
    exact (expression_rules_rename.2.2.2.2.1 name place inner).closedBy (TokenKind.rigid_mark _) _
  case case2 =>
    intro name place behind hno
    rw [List.map_cons, token_identifier, statement, statement]
    · simp only [Traced.outcome_noting, Outcome.outcome_traced, Outcome.renames_loosen]
      exact assignment_renames name place behind
    · exact renamed_ne (TokenKind.rigid_mark _) hno
    · exact hno
  case case3 =>
    intro text place behind hi
    rw [List.map_cons, token_keyword, statement, statement]
    exact Outcome.renames_loosen.mpr hi
  case case4 =>
    intro text place behind hl
    rw [List.map_cons, token_keyword, statement, statement]
    exact Outcome.renames_loosen.mpr hl
  case case5 =>
    intro text place behind
    rw [List.map_cons, token_keyword, statement, statement]
    exact Outcome.renames_loosen.mpr (returnStatement_renames place behind)
  case case6 =>
    intro text place inner hb
    rw [List.map_cons, token_mark, statement, statement]
    exact Outcome.renames_loosen.mpr (hb.map fun statements _ => rfl)
  case case7 =>
    intro tokens hcall hname hif hfor hreturn hbrace
    rw [statement, statement]
    · exact .refused _ _
    · exact fun _ _ _ _ _ => renamed_ne TokenKind.rigid_identifier hname _ _ _
    · exact renamed_ne TokenKind.rigid_identifier hname
    · exact renamed_ne (TokenKind.rigid_keyword _) hif
    · exact renamed_ne (TokenKind.rigid_keyword _) hfor
    · exact renamed_ne (TokenKind.rigid_keyword _) hreturn
    · exact renamed_ne (TokenKind.rigid_mark _) hbrace
    · exact hcall
    · exact hname
    · exact hif
    · exact hfor
    · exact hreturn
    · exact hbrace
  case case8 =>
    intro role
    rw [List.map_nil, body]
    exact .refused _ []
  case case9 =>
    intro role text place rest
    rw [List.map_cons, token_mark, body, body]
    exact .done rfl
  case case10 =>
    intro role tokens hne hno hs hb
    rw [body, body]
    · simp only [Traced.outcome_andThen, Traced.outcome_map]
      exact hs.andThen fun first rest shorter _ => (hb rest shorter).map fun statements _ => rfl
    · exact fun he => hne (List.map_eq_nil_iff.mp he)
    · exact renamed_ne (TokenKind.rigid_mark _) hno
    · exact hne
    · exact hno
  case case11 =>
    intro place tokens hb hs
    rw [loop_outcome, loop_outcome]
    exact (loopHead_renames tokens).andThen fun head rest shorter _ =>
      loopTail_renames place head rest
        (fun text other inner hr => hb text other inner (hr ▸ shorter)) (hs rest shorter)
  case case12 =>
    intro place tokens hs he
    rw [ifStatement_outcome, ifStatement_outcome]
    exact (condition_renames tokens).andThen fun tree rest shorter _ =>
      (hs rest shorter).andMaybe fun branch last shorter' _ =>
        elseTail_renames place tree branch last
          fun text elsePlace behind hr => he rest shorter text elsePlace behind (hr ▸ shorter')

theorem mainFunction_renames (place : Location) (tokens : List Token) :
    RenamesTree change (mainFunction place tokens).outcome
      (mainFunction (change.place place) (tokens.map change.token)).outcome := by
  rw [mainFunction, mainFunction]
  simp only [Traced.outcome_andThen, Outcome.outcome_traced, Traced.outcome_map]
  exact (expect_renames (TokenKind.rigid_mark _) _ tokens).andThen fun _ rest _ _ =>
    (expect_renames (TokenKind.rigid_mark _) _ rest).andThen fun _ rest _ _ =>
    (expect_renames (TokenKind.rigid_mark _) _ rest).andThen fun _ rest _ _ =>
    (statement_rules_rename.2.1 _ rest).map fun statements _ => rfl

theorem parameters_renames (tokens : List Token) :
    RenamesTrees change (parameters tokens) (parameters (tokens.map change.token)) := by
  induction tokens using parameters.induct with
  | case1 tokens ih =>
    rw [parameters_eq, parameters_eq]
    exact (expect_renames TokenKind.rigid_identifier _ tokens).andMaybe
      fun first rest shorter _ => listTail_renames (identifierNode first.text first.place) rest
        fun text place behind hr => ih text place behind (hr ▸ shorter)

theorem parameterList_renames (tokens : List Token) :
    RenamesTree change (parameterList tokens) (parameterList (tokens.map change.token)) := by
  obtain ⟨text, place, rest, rfl⟩ | hno := cons_or_ne (.mark .rightParen) tokens
  · rw [List.map_cons, token_mark, parameterList, parameterList]
    exact .done rfl
  · rw [parameterList, parameterList]
    · refine ((parameters_renames tokens).closedBy (TokenKind.rigid_mark _) _).map
        fun names h => ?_
      rw [nextPlace_map h]
      rfl
    · exact renamed_ne (TokenKind.rigid_mark _) hno
    · exact hno

theorem functionDeclaration_renames (place : Location) (tokens : List Token) :
    RenamesTree change (functionDeclaration place tokens).outcome
      (functionDeclaration (change.place place) (tokens.map change.token)).outcome := by
  rw [functionDeclaration, functionDeclaration]
  simp only [Traced.outcome_andThen, Outcome.outcome_traced, Traced.outcome_map]
  exact (expect_renames TokenKind.rigid_identifier _ tokens).andThen fun name rest _ _ =>
    (expect_renames (TokenKind.rigid_mark _) _ rest).andThen fun _ rest _ _ =>
    (parameterList_renames rest).andThen fun params rest _ _ =>
    (expect_renames (TokenKind.rigid_mark _) _ rest).andThen fun _ rest _ _ =>
    (statement_rules_rename.2.1 _ rest).map fun statements _ => rfl

theorem arrayDeclaration_renames (name : String) (place : Location) (tokens : List Token) :
    RenamesTree change (arrayDeclaration name place tokens)
      (arrayDeclaration (change.text name) (change.place place) (tokens.map change.token)) := by
  rw [arrayDeclaration, arrayDeclaration]
  exact (expect_renames (TokenKind.rigid_mark _) _ tokens).andThen fun _ rest _ _ =>
    (expect_renames (TokenKind.rigid_mark _) _ rest).andThen fun _ rest _ _ =>
    (aggregate_rules_rename.2.2.2.1 (some name) place rest).closedBy (TokenKind.rigid_mark _) _

theorem keyValueDeclaration_renames (name : String) (place : Location) (tokens : List Token) :
    RenamesTree change (keyValueDeclaration name place tokens)
      (keyValueDeclaration (change.text name) (change.place place) (tokens.map change.token)) := by
  rw [keyValueDeclaration, keyValueDeclaration]
  exact (expect_renames (TokenKind.rigid_mark _) _ tokens).andThen fun _ rest _ _ =>
    (expect_renames (TokenKind.rigid_mark _) _ rest).andThen fun _ rest _ _ =>
    (aggregate_rules_rename.2.1 (some name) place rest).closedBy (TokenKind.rigid_mark _) _

theorem valueDeclaration_renames (name : String) (place : Location) (tokens : List Token) :
    RenamesTree change (valueDeclaration name place tokens)
      (valueDeclaration (change.text name) (change.place place) (tokens.map change.token)) := by
  rw [valueDeclaration, valueDeclaration]
  exact (expect_renames (TokenKind.rigid_mark _) _ tokens).andThen fun _ rest _ _ =>
    (closed_expression_renames (TokenKind.rigid_mark _) _ rest).map fun value _ => rfl

-- The kind of the second token decides, and a mark is a mark after renaming.
theorem variableDeclaration_renames (name : String) (place : Location) (tokens : List Token) :
    RenamesTree change (variableDeclaration name place tokens)
      (variableDeclaration (change.text name) (change.place place)
        (tokens.map change.token)) := by
  rw [variableDeclaration, variableDeclaration, List.getElem?_map, Option.map_map]
  cases tokens[1]? with
  | none => exact valueDeclaration_renames name place tokens
  | some token =>
    have hr := change.role_kind token
    obtain ⟨kind, text, other⟩ := token
    rw [Option.map_some, Option.map_some, Function.comp_apply, Renaming.token]
    cases kind with
    | mark sign =>
      rw [TokenKind.rigid_mark sign _ hr]
      cases sign with
      | leftBracket => exact arrayDeclaration_renames name place tokens
      | leftBrace => exact keyValueDeclaration_renames name place tokens
      | _ => exact valueDeclaration_renames name place tokens
    | _ =>
      generalize change.kind _ = kind at hr
      cases kind with
      | mark sign => cases hr
      | _ => exact valueDeclaration_renames name place tokens

theorem declaration_renames (tokens : List Token) :
    RenamesTree change (declaration tokens).outcome
      (declaration (tokens.map change.token)).outcome := by
  obtain ⟨text, place, behind, rfl⟩ | hfunction := cons_or_ne (.keyword .functionWord) tokens
  · rw [List.map_cons, token_keyword, declaration, declaration]
    exact Outcome.renames_loosen.mpr (functionDeclaration_renames place behind)
  obtain ⟨text, place, behind, rfl⟩ | hmain := cons_or_ne (.keyword .mainWord) tokens
  · rw [List.map_cons, token_keyword, declaration, declaration]
    exact Outcome.renames_loosen.mpr (mainFunction_renames place behind)
  obtain ⟨name, place, behind, rfl⟩ | hname := cons_or_ne .identifier tokens
  · rw [List.map_cons, token_identifier, declaration, declaration]
    exact Outcome.renames_loosen.mpr (variableDeclaration_renames name place behind)
  rw [declaration, declaration]
  · exact .refused _ _
  · exact renamed_ne (TokenKind.rigid_keyword _) hfunction
  · exact renamed_ne (TokenKind.rigid_keyword _) hmain
  · exact renamed_ne TokenKind.rigid_identifier hname
  · exact hfunction
  · exact hmain
  · exact hname

theorem declarations_renames (tokens : List Token) :
    RenamesTrees change (declarations tokens).outcome
      (declarations (tokens.map change.token)).outcome := by
  induction tokens using declarations.induct with
  | case1 =>
    rw [List.map_nil, declarations]
    exact .done rfl
  | case2 tokens hne ih =>
    rw [declarations, declarations]
    · simp only [Traced.outcome_loosen, Traced.outcome_andMaybe, Traced.outcome_map,
        Outcome.renames_loosen]
      exact (declaration_renames tokens).andMaybe fun first rest shorter _ =>
        (ih rest shorter).map fun trees _ => rfl
    · exact fun he => hne (List.map_eq_nil_iff.mp he)
    · exact hne

end Grammar

-- An error with its token and its place renamed.
def SyntaxError.rename (change : Renaming) (error : SyntaxError) : SyntaxError :=
  ⟨error.wanted, error.found.map change.token, change.place error.place⟩

theorem errorAt_map (change : Renaming) {tokens : List Token} (h : tokens ≠ []) (wanted : Wanted)
    (rest : List Token) :
    (Reader.ofTokens (tokens.map change.token)).errorAt wanted (rest.map change.token) =
      ((Reader.ofTokens tokens).errorAt wanted rest).rename change := by
  cases rest with
  | cons token rest => rfl
  | nil =>
    simp [Reader.errorAt, Reader.ofTokens, SyntaxError.rename, List.getLast?_map,
      List.getLast?_eq_some_getLast h]
    rfl

theorem parse_of_parsed {tokens rest : List Token} {trees : List Tree}
    {shorter : rest.length < tokens.length + 1}
    (h : (declarations tokens).outcome = .parsed trees rest shorter) :
    parse tokens = .ok (.node .program trees .start) := by
  simp only [parse, Reader.program, Reader.ofTokens, h]

theorem parse_of_refused {tokens rest : List Token} {wanted : Wanted}
    (h : (declarations tokens).outcome = .refused wanted rest) :
    parse tokens = .error ((Reader.ofTokens tokens).errorAt wanted rest) := by
  simp only [parse, Reader.program, Reader.ofTokens, h]

theorem parse_nil : parse [] = .ok (.node .program [] .start) := by
  have hd : (declarations []).outcome = Outcome.done [] [] := by
    rw [declarations, Outcome.outcome_traced]
  exact parse_of_parsed hd

-- The grammar sees the roles of tokens only. A renaming of the tokens renames the
-- tree or the error.
theorem parse_map (change : Renaming) (tokens : List Token) :
    (∀ trees, parse tokens = .ok (.node .program trees .start) →
      parse (tokens.map change.token) =
        .ok (.node .program (Tree.renameAll change trees) .start)) ∧
    ∀ error, parse tokens = .error error →
      parse (tokens.map change.token) = .error (error.rename change) := by
  by_cases hne : tokens = []
  · subst hne
    simp only [List.map_nil, parse_nil]
    exact ⟨fun trees h => by cases h; rfl, fun error h => by cases h⟩
  have hr : RenamesTrees change (declarations tokens).outcome
      (declarations (tokens.map change.token)).outcome := declarations_renames tokens
  cases ho : (declarations tokens).outcome with
  | parsed trees rest shorter =>
    cases hm : (declarations (tokens.map change.token)).outcome with
    | parsed trees' rest' shorter' =>
      rw [ho, hm] at hr
      rw [parse_of_parsed ho, parse_of_parsed hm, hr.1]
      exact ⟨fun others h => by cases h; rfl, fun error h => by cases h⟩
    | refused wanted rest' =>
      rw [ho, hm] at hr
      exact hr.elim
  | refused wanted rest =>
    cases hm : (declarations (tokens.map change.token)).outcome with
    | parsed trees' rest' shorter' =>
      rw [ho, hm] at hr
      exact hr.elim
    | refused wanted' rest' =>
      rw [ho, hm] at hr
      rw [parse_of_refused ho, parse_of_refused hm, hr.1, hr.2, errorAt_map change hne]
      exact ⟨fun others h => (by cases h), fun error h => by cases h; rfl⟩

end ScriptIR
