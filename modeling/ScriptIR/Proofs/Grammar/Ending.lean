import Mathlib
import ScriptIR.Proofs.Grammar.Descent
import ScriptIR.Proofs.Grammar.RightNested

namespace ScriptIR.Grammar

namespace Descent

-- What comes of a rule, without a tree.
structure Ending where
  failure : Option Refusal
  rest : List Token
deriving DecidableEq

-- Goes on behind a success.
def Ending.andThen (first : Ending) (next : List Token → Ending) : Ending :=
  match first.failure with
  | none => next first.rest
  | some _ => first

namespace Ending

@[simp] theorem andThen_none (rest : List Token) (next : List Token → Ending) :
    (Ending.mk none rest).andThen next = next rest := rfl

@[simp] theorem andThen_some (refusal : Refusal) (rest : List Token)
    (next : List Token → Ending) :
    (Ending.mk (some refusal) rest).andThen next = ⟨some refusal, rest⟩ := rfl

@[simp] theorem andThen_leave (first : Ending) :
    first.andThen (fun rest => ⟨none, rest⟩) = first := by
  obtain ⟨failure, rest⟩ := first
  cases failure <;> rfl

@[simp] theorem andThen_assoc (first : Ending) (second third : List Token → Ending) :
    (first.andThen second).andThen third =
      first.andThen fun rest => (second rest).andThen third := by
  obtain ⟨failure, rest⟩ := first
  cases failure <;> rfl

end Ending

end Descent

open Descent

namespace Outcome

variable {α β : Type} {n k : Nat}

def ending : Outcome α n → Ending
  | .parsed _ rest _ => ⟨none, rest⟩
  | .refused wanted rest => ⟨some (.wanted wanted), rest⟩

@[simp] theorem ending_done (value : α) (rest : List Token) :
    (Outcome.done value rest).ending = ⟨none, rest⟩ := rfl

@[simp] theorem ending_refused (wanted : Wanted) (rest : List Token) :
    (Outcome.refused wanted rest : Outcome α n).ending = ⟨some (.wanted wanted), rest⟩ := rfl

@[simp] theorem ending_within (outcome : Outcome α k) (h : k ≤ n) :
    (outcome.within h).ending = outcome.ending := by
  cases outcome <;> rfl

@[simp] theorem ending_loosen (outcome : Outcome α n) : outcome.loosen.ending = outcome.ending :=
  ending_within _ _

@[simp] theorem ending_map (f : α → β) (outcome : Outcome α n) :
    (outcome.map f).ending = outcome.ending := by
  cases outcome <;> rfl

-- What is behind an outcome may depend on its value, as long as its own ending does not.
theorem ending_andMaybe {outcome : Outcome α n}
    {next : (value : α) → (rest : List Token) → rest.length < n → Outcome β (rest.length + 1)}
    {behind : List Token → Ending}
    (h : ∀ value rest shorter, (next value rest shorter).ending = behind rest) :
    (outcome.andMaybe next).ending = outcome.ending.andThen behind := by
  cases outcome with
  | parsed value rest shorter =>
    rw [andMaybe, ending_within, h]
    rfl
  | refused wanted rest => rfl

theorem ending_andThen {outcome : Outcome α n}
    {next : (value : α) → (rest : List Token) → rest.length < n → Outcome β rest.length}
    {behind : List Token → Ending}
    (h : ∀ value rest shorter, (next value rest shorter).ending = behind rest) :
    (outcome.andThen next).ending = outcome.ending.andThen behind :=
  ending_andMaybe fun value rest shorter => (ending_loosen _).trans (h value rest shorter)

@[simp] theorem ending_closedBy (outcome : Outcome α n) (kind : TokenKind) (role : String) :
    (outcome.closedBy kind role).ending =
      outcome.ending.andThen fun rest => (expect kind role rest).ending :=
  ending_andThen fun _ _ _ => ending_map _ _

end Outcome

namespace Descent

open Act

-- The rules of the grammar, those that are read behind their first token from there on.

-- The statements in front of a closing brace, or of the end of the tokens.
def statements (tokens : List Token) : Ending :=
  match tokens with
  | [] => ⟨none, []⟩
  | ⟨.mark .rightBrace, text, place⟩ :: rest => ⟨none, ⟨.mark .rightBrace, text, place⟩ :: rest⟩
  | tokens =>
    match (statement tokens).outcome with
    | .parsed _ rest _ => statements rest
    | .refused wanted rest => ⟨some (.wanted wanted), rest⟩
termination_by tokens.length

def Rule.ending (rule : Rule) (tokens : List Token) : Ending :=
  match rule with
  | declaration => (Grammar.declaration tokens).outcome.ending
  | mainFunction =>
    ((expect (.keyword .mainWord) "at start of main" tokens).andThen fun word rest _ =>
      (Grammar.mainFunction word.place rest).outcome).ending
  | functionDeclaration =>
    ((expect (.keyword .functionWord) "at start of function" tokens).andThen fun word rest _ =>
      (Grammar.functionDeclaration word.place rest).outcome).ending
  | parameterList =>
    match tokens with
    | ⟨.mark .rightParen, text, place⟩ :: rest => ⟨none, ⟨.mark .rightParen, text, place⟩ :: rest⟩
    | tokens => (parameters tokens).ending
  | valueDeclaration =>
    ((expect .identifier "in declaration" tokens).andThen fun name rest _ =>
      Grammar.valueDeclaration name.text name.place rest).ending
  | arrayDeclaration =>
    ((expect .identifier "in array declaration" tokens).andThen fun name rest _ =>
      Grammar.arrayDeclaration name.text name.place rest).ending
  | keyValueDeclaration =>
    ((expect .identifier "in key/value declaration" tokens).andThen fun name rest _ =>
      Grammar.keyValueDeclaration name.text name.place rest).ending
  | arrayLiteral =>
    ((expect (.mark .leftBracket) "to open array" tokens).andThen fun bracket rest _ =>
      array none bracket.place rest).ending
  | keyValueLiteral =>
    ((expect (.mark .leftBrace) "to open key/value block" tokens).andThen fun brace rest _ =>
      keyValue none brace.place rest).ending
  | items => (Grammar.items tokens).ending
  | item => (Grammar.item tokens).ending
  | pair =>
    (((Grammar.expression tokens).closedBy (.mark .colon) "between key and value").andThen
      fun _ rest _ => Grammar.item rest).ending
  | block => statements tokens
  | statement | branch => (Grammar.statement tokens).outcome.ending
  | compound =>
    ((expect (.mark .leftBrace) "to open block" tokens).andThen fun _ rest _ =>
      (body "after block" rest).outcome).ending
  | assignmentOrCall => (Rewinding.assignmentOrCall tokens).outcome.ending
  | assignment => (namedAssignment tokens).ending
  | ifStatement =>
    ((expect (.keyword .ifWord) "at start of if" tokens).andThen fun word rest _ =>
      (Grammar.ifStatement word.place rest).outcome).ending
  | forLoop =>
    ((expect (.keyword .forWord) "at start of for" tokens).andThen fun word rest _ =>
      (Grammar.loop word.place rest).outcome).ending
  | returnStatement =>
    ((expect (.keyword .returnWord) "at start of return" tokens).andThen fun word rest _ =>
      Grammar.returnStatement word.place rest).ending
  | expression => (Grammar.expression tokens).ending
  | operand => (Grammar.operand tokens).ending
  | call =>
    ((expect .identifier "as function name" tokens).andThen fun name rest _ =>
      (expect (.mark .leftParen) "after function name" rest).andThen fun _ rest _ =>
        Grammar.call name.text name.place rest).ending
  | arguments => (Grammar.arguments tokens).ending
  | literal =>
    match tokens with
    | ⟨.literal _, _, _⟩ :: rest => ⟨none, rest⟩
    | tokens => ⟨some (.wanted .expression), tokens⟩
  | operator =>
    match tokens with
    | ⟨.operator _, _, _⟩ :: rest => ⟨none, rest⟩
    | tokens => ⟨some .noOperator, tokens⟩

def Loop.ending (loop : Loop) (tokens : List Token) : Ending :=
  match loop with
  | declarations => (Grammar.declarations tokens).outcome.ending
  | parameters => (Grammar.parameters tokens).ending
  | items => (Grammar.items tokens).ending
  | pairs => (Grammar.pairs tokens).ending
  | statements => Descent.statements tokens
  | operations => (chain tokens).ending
  | arguments => (Grammar.arguments tokens).ending

def Task.ending : Task → List Token → Ending
  | .rule name => name.ending
  | .loop name => name.ending

namespace Act

-- What comes of an act, the tasks that it enters being left to the rules.
def follow (task : Task) (saved rest : List Token) : Act → Ending
  | .leave => ⟨none, rest⟩
  | .refuse refusal => ⟨some refusal, rest⟩
  | .again => task.ending rest
  | .take fits taken left =>
    if rest[0]?.any (fits ·.kind) then taken.follow task saved rest.tail
    else left.follow task saved rest
  | .look ahead fits found other =>
    if rest[ahead]?.any (fits ·.kind) then found.follow task saved rest
    else other.follow task saved rest
  | .enter callee behind => (callee.ending rest).andThen fun rest => behind.follow task saved rest
  | .save behind => behind.follow task rest rest
  | .restore behind => behind.follow task saved saved

theorem follow_need (task : Task) (saved rest : List Token) (kind : TokenKind) (role : String)
    (behind : Act) : (need kind role behind).follow task saved rest =
      (expect kind role rest).ending.andThen fun rest => behind.follow task saved rest := by
  cases rest with
  | nil => rfl
  | cons token rest =>
    by_cases hk : token.kind = kind <;> simp [need, follow, expect, hk]

end Act

section rules

variable (task : Task) (saved tokens : List Token)

theorem any_of_ne {kind : TokenKind} (h : ∀ (text : String) (place : Location)
    (rest : List Token), tokens = ⟨kind, text, place⟩ :: rest → False) :
    tokens[0]?.any (fun token => decide (token.kind = kind)) = false := by
  have hk := head_kind_ne h
  cases tokens with
  | nil => rfl
  | cons token rest => simpa using hk token rfl

-- A token that is expected is only taken away.
theorem ending_expect_andThen {α : Type} {kind : TokenKind} {role text : String}
    {place : Location} {rest : List Token}
    {next : (token : Token) → (tokens : List Token) →
      tokens.length < (⟨kind, text, place⟩ :: rest : List Token).length → Outcome α tokens.length} :
    ((expect kind role (⟨kind, text, place⟩ :: rest)).andThen next).ending =
      (next ⟨kind, text, place⟩ rest (length_lt_length_add_one rest)).ending := by
  simp only [expect, if_pos, Outcome.done, Outcome.andThen, Outcome.andMaybe,
    Outcome.ending_within, Outcome.ending_loosen]

-- Loops

theorem listTail_ending {list : (tokens : List Token) → Outcome (List Tree) tokens.length}
    (first : Tree) : (listTail list first tokens).ending =
      if tokens[0]?.any (·.kind = .mark .comma) then (list tokens.tail).ending
      else ⟨none, tokens⟩ := by
  obtain ⟨text, place, behind, rfl⟩ | hno := cons_or_ne (.mark .comma) tokens
  · simp [listTail]
  · rw [listTail_of_ne hno, any_of_ne tokens hno]
    rfl

theorem arguments_ending : (Grammar.arguments tokens).ending =
    (Loop.code .arguments).follow (.loop .arguments) saved tokens := by
  rw [arguments_eq]
  exact Outcome.ending_andMaybe fun first rest _ => listTail_ending rest first

theorem items_ending : (Grammar.items tokens).ending =
    (Loop.code .items).follow (.loop .items) saved tokens := by
  rw [items_eq]
  exact Outcome.ending_andMaybe fun first rest _ => listTail_ending rest first

theorem parameters_ending : (Grammar.parameters tokens).ending =
    (Loop.code .parameters).follow (.loop .parameters) saved tokens := by
  rw [parameters_eq, Loop.code, follow_need]
  exact Outcome.ending_andMaybe fun first rest _ => listTail_ending rest _

-- The key of a pair and the colon, and its value.
theorem pair_ending_closedBy : Rule.ending .pair tokens =
    ((Grammar.expression tokens).closedBy (.mark .colon) "between key and value").ending.andThen
      fun rest => (Grammar.item rest).ending :=
  Outcome.ending_andThen fun _ _ _ => rfl

theorem pair_ending : Rule.ending .pair tokens =
    (Rule.code .pair).follow task saved tokens := by
  simp only [Rule.code, enterRule, follow_need, follow, Ending.andThen_leave]
  rw [pair_ending_closedBy, Outcome.ending_closedBy, Ending.andThen_assoc]
  rfl

theorem pairs_ending : (Grammar.pairs tokens).ending =
    (Loop.code .pairs).follow (.loop .pairs) saved tokens := by
  rw [pairs_eq]
  simp only [Loop.code, enterRule, follow, Task.ending, pair_ending_closedBy, Ending.andThen_assoc]
  refine Outcome.ending_andThen fun key rest _ => ?_
  exact Outcome.ending_andMaybe fun value rest _ => listTail_ending rest _

theorem operations_ending : (chain tokens).ending =
    (Loop.code .operations).follow (.loop .operations) saved tokens := by
  obtain ⟨sign, text, place, behind, rfl⟩ | hno := operator_or_ne tokens
  · rw [chain, Outcome.ending_loosen, Outcome.ending_loosen]
    exact Outcome.ending_andMaybe fun right rest _ => Outcome.ending_map _ _
  · have hany := Loop.Stage.atOperator_of_ne hno
    rw [Loop.atOperator, List.head?_eq_getElem?] at hany
    rw [chain, Loop.code, follow, hany]
    · rfl
    · exact hno

theorem statements_of_ne (hno : ∀ (text : String) (place : Location) (rest : List Token),
    tokens = ⟨.mark .rightBrace, text, place⟩ :: rest → False) (hne : tokens ≠ []) :
    statements tokens = (statement tokens).outcome.ending.andThen statements := by
  rw [statements]
  · cases (statement tokens).outcome <;> rfl
  · exact hne
  · exact hno

theorem statements_ending : statements tokens =
    (Loop.code .statements).follow (.loop .statements) saved tokens := by
  obtain ⟨text, place, rest, rfl⟩ | hno := cons_or_ne (.mark .rightBrace) tokens
  · rw [statements]
    rfl
  · rw [Loop.code, follow, any_of_ne tokens hno]
    cases tokens with
    | nil =>
      rw [statements]
      rfl
    | cons token rest =>
      rw [statements_of_ne _ hno (List.cons_ne_nil token rest)]
      rfl

theorem declarations_ending : (Grammar.declarations tokens).outcome.ending =
    (Loop.code .declarations).follow (.loop .declarations) saved tokens := by
  cases tokens with
  | nil =>
    rw [Grammar.declarations]
    rfl
  | cons token rest =>
    rw [Grammar.declarations]
    · rw [Traced.outcome_loosen, Outcome.ending_loosen, Traced.outcome_andMaybe]
      exact Outcome.ending_andMaybe fun first rest _ => Outcome.ending_map _ _
    · exact List.cons_ne_nil token rest

-- A body is its statements and the closing brace.
theorem body_ending (role : String) (tokens : List Token) : (body role tokens).outcome.ending =
    (statements tokens).andThen fun rest => (expect (.mark .rightBrace) role rest).ending := by
  obtain ⟨text, place, rest, rfl⟩ | hno := cons_or_ne (.mark .rightBrace) tokens
  · rw [body, statements]
    simp [expect, Outcome.outcome_traced]
  · by_cases hne : tokens = []
    · subst hne
      rw [body, statements]
      rfl
    · rw [body, statements_of_ne _ hno hne, Traced.outcome_andThen, Ending.andThen_assoc]
      · refine Outcome.ending_andThen fun first rest shorter => ?_
        rw [Traced.outcome_map, Outcome.ending_map, body_ending role rest]
      · exact hne
      · exact hno
termination_by tokens.length

-- Expressions

theorem expression_ending : (Grammar.expression tokens).ending =
    (Rule.code .expression).follow task saved tokens := by
  rw [Grammar.expression]
  simp only [Rule.code, enterRule, enterLoop, follow, Ending.andThen_leave]
  exact Outcome.ending_andMaybe fun first rest _ => Outcome.ending_map _ _

theorem call_ending (name : String) (place : Location) :
    (Grammar.call name place tokens).ending =
      if tokens[0]?.any (·.kind = .mark .rightParen) then
        (expect (.mark .rightParen) "after arguments" tokens).ending
      else (Grammar.arguments tokens).ending.andThen fun rest =>
        (expect (.mark .rightParen) "after arguments" rest).ending := by
  obtain ⟨text, other, rest, rfl⟩ | hno := cons_or_ne (.mark .rightParen) tokens
  · rw [Grammar.call]
    simp [expect]
  · rw [Grammar.call, any_of_ne tokens hno]
    · simp
    · exact hno

theorem access_ending (name : String) (place : Location) : (access name place tokens).ending =
    (Grammar.expression tokens).ending.andThen fun rest =>
      (expect (.mark .rightBracket) "after index" rest).ending := by
  rw [access, Outcome.ending_map, Outcome.ending_closedBy]

theorem literal_or_ne : (∃ form text place rest, tokens = ⟨.literal form, text, place⟩ :: rest) ∨
    ∀ (form : Literal) (text : String) (place : Location) (rest : List Token),
      tokens = ⟨.literal form, text, place⟩ :: rest → False := by
  by_cases h : ∃ form text place rest, tokens = ⟨.literal form, text, place⟩ :: rest
  · exact .inl h
  · exact .inr fun form text place rest he => h ⟨form, text, place, rest, he⟩

theorem literal_ending : Rule.ending .literal tokens =
    (Rule.code .literal).follow task saved tokens := by
  cases tokens with
  | nil => rfl
  | cons token rest =>
    obtain ⟨kind, text, place⟩ := token
    cases kind <;> rfl

theorem operator_ending : Rule.ending .operator tokens =
    (Rule.code .operator).follow task saved tokens := by
  cases tokens with
  | nil => rfl
  | cons token rest =>
    obtain ⟨kind, text, place⟩ := token
    cases kind <;> rfl

theorem operand_ending : (Grammar.operand tokens).ending =
    (Rule.code .operand).follow task saved tokens := by
  simp only [Rule.code, enterRule, follow_need, follow, Ending.andThen_leave]
  obtain ⟨text, place, inner, rfl⟩ | hparen := cons_or_ne (.mark .leftParen) tokens
  · rw [Grammar.operand, Outcome.ending_loosen, Outcome.ending_closedBy]
    rfl
  rw [any_of_ne tokens hparen]
  obtain ⟨name, place, rest, rfl⟩ | hname := cons_or_ne .identifier tokens
  · obtain ⟨text, other, inner, rfl⟩ | hcall := cons_or_ne (.mark .leftParen) rest
    · rw [Grammar.operand, Outcome.ending_loosen, Outcome.ending_loosen]
      simp [Task.ending, Rule.ending, ending_expect_andThen]
    have hother := any_of_ne rest hcall
    obtain ⟨text, other, inner, rfl⟩ | haccess := cons_or_ne (.mark .leftBracket) rest
    · rw [Grammar.operand, Outcome.ending_loosen, Outcome.ending_loosen, access_ending]
      simp [Task.ending, Rule.ending, expect]
    have hplain := any_of_ne rest haccess
    rw [Grammar.operand]
    · simp_all [expect]
    · exact hcall
    · exact haccess
  rw [any_of_ne tokens hname]
  obtain ⟨form, text, place, rest, rfl⟩ | hno := literal_or_ne tokens
  · rw [Grammar.operand]
    rfl
  · rw [Grammar.operand]
    · simp [Task.ending, Rule.ending]
    · exact hparen
    · exact fun name place _ _ _ => hname name place _
    · exact fun name place _ _ _ => hname name place _
    · exact hname
    · exact hno

-- Aggregates

theorem array_ending (name : Option String) (place : Location) : (array name place tokens).ending =
    (Grammar.items tokens).ending.andThen fun rest =>
      (expect (.mark .rightBracket) "to close array" rest).ending := by
  rw [array, Outcome.ending_map, Outcome.ending_closedBy]

theorem keyValue_ending (name : Option String) (place : Location) :
    (keyValue name place tokens).ending =
      if tokens[0]?.any (·.kind = .mark .rightBrace) then
        (expect (.mark .rightBrace) "to close key/value block" tokens).ending
      else (Grammar.pairs tokens).ending.andThen fun rest =>
        (expect (.mark .rightBrace) "to close key/value block" rest).ending := by
  obtain ⟨text, other, rest, rfl⟩ | hno := cons_or_ne (.mark .rightBrace) tokens
  · rw [keyValue]
    simp [expect]
  · rw [keyValue, any_of_ne tokens hno]
    · simp
    · exact hno

theorem item_ending : (Grammar.item tokens).ending =
    (Rule.code .item).follow task saved tokens := by
  simp only [Rule.code, enterRule, follow, Ending.andThen_leave, Task.ending, Rule.ending]
  obtain ⟨text, place, inner, rfl⟩ | hno := cons_or_ne (.mark .leftBracket) tokens
  · rw [Grammar.item, ending_expect_andThen, Outcome.ending_loosen]
    rfl
  rw [any_of_ne tokens hno]
  obtain ⟨text, place, inner, rfl⟩ | hno' := cons_or_ne (.mark .leftBrace) tokens
  · rw [Grammar.item, ending_expect_andThen, Outcome.ending_loosen]
    rfl
  rw [any_of_ne tokens hno', Grammar.item]
  · rfl
  · exact hno
  · exact hno'

-- Statements

theorem assignTo_ending (left : Tree) (place : Location) : (assignTo left place tokens).ending =
    (expect (.mark .assign) "in assignment" tokens).ending.andThen fun rest =>
      (Grammar.expression rest).ending.andThen fun rest =>
        (expect (.mark .semicolon) "after assignment" rest).ending := by
  rw [assignTo]
  exact Outcome.ending_andThen fun _ rest _ => by
    rw [Outcome.ending_map, Outcome.ending_closedBy]

theorem assignment_ending : Rule.ending .assignment tokens =
    (Rule.code .assignment).follow task saved tokens := by
  simp only [Rule.code, enterRule, follow_need, follow, Ending.andThen_leave, Rule.ending,
    namedAssignment]
  refine Outcome.ending_andThen fun name rest _ => ?_
  obtain ⟨text, place, inner, rfl⟩ | hno := cons_or_ne (.mark .leftBracket) rest
  · rw [Grammar.assignment, Outcome.ending_loosen]
    refine (Outcome.ending_andThen fun left rest _ => assignTo_ending rest left _).trans ?_
    rw [access_ending, Ending.andThen_assoc]
    rfl
  · rw [Grammar.assignment, any_of_ne rest hno, assignTo_ending]
    · rfl
    · exact hno

theorem callRule_ending : Rule.ending .call tokens =
    (Rule.code .call).follow task saved tokens := by
  simp only [Rule.code, enterRule, follow_need, follow, Ending.andThen_leave, Rule.ending]
  refine Outcome.ending_andThen fun name rest _ => ?_
  refine Outcome.ending_andThen fun _ rest _ => ?_
  exact call_ending rest name.text name.place

theorem namedCall_ending : (namedCall tokens).ending =
    (Rule.ending .call tokens).andThen fun rest =>
      (expect (.mark .semicolon) "after function call" rest).ending := by
  rw [callRule_ending (.rule .call) tokens]
  simp only [Rule.code, enterRule, follow_need, follow, Ending.andThen_leave, Ending.andThen_assoc]
  refine Outcome.ending_andThen fun name rest _ => ?_
  refine Outcome.ending_andThen fun _ rest _ => ?_
  rw [callStatement, Outcome.ending_closedBy, call_ending]
  rfl

theorem assignmentOrCall_ending : Rule.ending .assignmentOrCall tokens =
    (Rule.code .assignmentOrCall).follow task saved tokens := by
  simp only [Rule.code, enterRule, follow_need, follow, Ending.andThen_leave, Rule.ending]
  rw [Rewinding.assignmentOrCall]
  cases expect .identifier "at start of statement" tokens with
  | refused wanted rest => rfl
  | parsed name rest shorter =>
    obtain ⟨text, place, inner, rfl⟩ | hno := cons_or_ne (.mark .leftParen) rest
    · exact namedCall_ending tokens
    have hcall : (Start.mk name rest).choice.isCall = false := by
      have hany := any_of_ne rest hno
      cases rest <;> simp_all [Start.choice]
    simp only [hcall, Outcome.ending, Ending.andThen_none, any_of_ne rest hno]
    rfl

theorem statement_ending : (Grammar.statement tokens).outcome.ending =
    (Rule.code .statement).follow task saved tokens := by
  simp only [Rule.code, enterRule, follow, Ending.andThen_leave]
  obtain ⟨name, place, rest, rfl⟩ | hname := cons_or_ne .identifier tokens
  · rw [← Rewinding.traced_assignmentOrCall]
    rfl
  rw [any_of_ne tokens hname]
  obtain ⟨name, place, rest, rfl⟩ | hif := cons_or_ne (.keyword .ifWord) tokens
  · rw [Grammar.statement]
    simp [Task.ending, Rule.ending, ending_expect_andThen, Traced.outcome_loosen]
  rw [any_of_ne tokens hif]
  obtain ⟨name, place, rest, rfl⟩ | hfor := cons_or_ne (.keyword .forWord) tokens
  · rw [Grammar.statement]
    simp [Task.ending, Rule.ending, ending_expect_andThen, Traced.outcome_loosen]
  rw [any_of_ne tokens hfor]
  obtain ⟨name, place, rest, rfl⟩ | hreturn := cons_or_ne (.keyword .returnWord) tokens
  · rw [Grammar.statement]
    simp [Task.ending, Rule.ending, ending_expect_andThen, Outcome.outcome_traced]
  rw [any_of_ne tokens hreturn]
  obtain ⟨name, place, rest, rfl⟩ | hblock := cons_or_ne (.mark .leftBrace) tokens
  · rw [Grammar.statement]
    simp [Task.ending, Rule.ending, ending_expect_andThen, Traced.outcome_loosen,
      Traced.outcome_map]
  rw [any_of_ne tokens hblock, Grammar.statement]
  · rfl
  · exact fun name place _ _ _ => hname name place _
  · exact hname
  · exact hif
  · exact hfor
  · exact hreturn
  · exact hblock

theorem compound_ending : Rule.ending .compound tokens =
    (Rule.code .compound).follow task saved tokens := by
  simp only [Rule.code, enterRule, follow_need, follow, Ending.andThen_leave, Rule.ending]
  exact Outcome.ending_andThen fun brace rest _ => body_ending "after block" rest

-- A branch that begins with a brace would be read as a statement, too.
theorem branch_ending : Rule.ending .branch tokens =
    (Rule.code .branch).follow task saved tokens := by
  simp only [Rule.code, enterRule, follow, Ending.andThen_leave]
  obtain ⟨text, place, rest, rfl⟩ | hno := cons_or_ne (.mark .leftBrace) tokens
  · refine (statement_ending task saved _).trans ?_
    simp [Rule.code, enterRule, follow]
  · rw [any_of_ne tokens hno]
    rfl

theorem condition_ending : (condition tokens).ending =
    (expect (.mark .leftParen) "after 'if'" tokens).ending.andThen fun rest =>
      (Grammar.expression rest).ending.andThen fun rest =>
        (expect (.mark .rightParen) "after if condition" rest).ending := by
  rw [condition]
  exact Outcome.ending_andThen fun _ rest _ => Outcome.ending_closedBy _ _ _

theorem ifTail_ending (place : Location) : (Grammar.ifStatement place tokens).outcome.ending =
    (condition tokens).ending.andThen fun rest =>
      (Rule.ending .branch rest).andThen fun rest =>
        if rest[0]?.any (·.kind = .keyword .elseWord) then Rule.ending .branch rest.tail
        else ⟨none, rest⟩ := by
  rw [Grammar.ifStatement, Traced.outcome_andThen, Outcome.outcome_traced]
  refine Outcome.ending_andThen fun tree rest _ => ?_
  rw [Traced.outcome_andMaybe]
  refine Outcome.ending_andMaybe fun branch rest _ => ?_
  split
  · simp [Traced.outcome_loosen, Traced.outcome_map, Rule.ending]
  · rename_i hno
    rw [any_of_ne rest fun text place behind he => ?_]
    · rfl
    · subst he
      exact hno _ _ _ ‹_› rfl HEq.rfl

theorem ifStatement_ending : Rule.ending .ifStatement tokens =
    (Rule.code .ifStatement).follow task saved tokens := by
  simp only [Rule.code, enterRule, follow_need, follow, Ending.andThen_leave, Rule.ending]
  refine Outcome.ending_andThen fun word rest _ => ?_
  rw [ifTail_ending, condition_ending]
  simp only [Ending.andThen_assoc]
  rfl

theorem loopHead_ending : (loopHead tokens).ending =
    (expect (.mark .leftParen) "after 'for'" tokens).ending.andThen fun rest =>
      (expect .identifier "as loop variable" rest).ending.andThen fun rest =>
        (expect (.mark .colon) "after loop variable" rest).ending.andThen fun rest =>
          (Grammar.expression rest).ending.andThen fun rest =>
            (expect (.mark .comma) "after loop start" rest).ending.andThen fun rest =>
              (Grammar.expression rest).ending.andThen fun rest =>
                (expect (.mark .rightParen) "after loop bounds" rest).ending := by
  rw [loopHead]
  refine Outcome.ending_andThen fun _ rest _ => ?_
  refine Outcome.ending_andThen fun counter rest _ => ?_
  refine Outcome.ending_andThen fun _ rest _ => ?_
  rw [← Ending.andThen_assoc, ← Outcome.ending_closedBy]
  refine Outcome.ending_andThen fun first rest _ => ?_
  rw [Outcome.ending_map, Outcome.ending_closedBy]

theorem loop_ending (place : Location) : (Grammar.loop place tokens).outcome.ending =
    (loopHead tokens).ending.andThen fun rest =>
      if rest[0]?.any (·.kind = .mark .leftBrace) then
        (statements rest.tail).andThen fun rest =>
          (expect (.mark .rightBrace) "after loop body" rest).ending
      else Rule.ending .statement rest := by
  rw [Grammar.loop, Traced.outcome_andThen, Outcome.outcome_traced]
  refine Outcome.ending_andThen fun head rest _ => ?_
  obtain ⟨counter, first, last⟩ := head
  dsimp only
  split
  · simp [Traced.outcome_loosen, Traced.outcome_map, body_ending]
  · rename_i hno
    rw [any_of_ne rest fun text place behind he => ?_]
    · simp [Traced.outcome_map, Rule.ending]
    · subst he
      exact hno _ _ _ ‹_› rfl HEq.rfl

theorem forLoop_ending : Rule.ending .forLoop tokens =
    (Rule.code .forLoop).follow task saved tokens := by
  simp only [Rule.code, enterRule, follow_need, follow, Ending.andThen_leave, Rule.ending]
  refine Outcome.ending_andThen fun word rest _ => ?_
  rw [loop_ending, loopHead_ending]
  simp only [Ending.andThen_assoc]
  rfl

theorem returnStatement_ending : Rule.ending .returnStatement tokens =
    (Rule.code .returnStatement).follow task saved tokens := by
  simp only [Rule.code, enterRule, follow_need, follow, Ending.andThen_leave, Rule.ending]
  refine Outcome.ending_andThen fun word rest _ => ?_
  obtain ⟨text, place, inner, rfl⟩ | hno := cons_or_ne (.mark .semicolon) rest
  · rw [Grammar.returnStatement]
    simp [expect]
  · rw [Grammar.returnStatement, any_of_ne rest hno]
    · simp [Task.ending, Rule.ending]
    · exact hno

-- Declarations

theorem mainFunction_ending : Rule.ending .mainFunction tokens =
    (Rule.code .mainFunction).follow task saved tokens := by
  simp only [Rule.code, enterRule, follow_need, follow, Rule.ending]
  refine Outcome.ending_andThen fun word rest _ => ?_
  simp only [Grammar.mainFunction, Traced.outcome_andThen, Outcome.outcome_traced,
    Traced.outcome_map]
  refine Outcome.ending_andThen fun _ rest _ => ?_
  refine Outcome.ending_andThen fun _ rest _ => ?_
  refine Outcome.ending_andThen fun _ rest _ => ?_
  simp [Task.ending, Rule.ending, body_ending]

theorem parameterList_ending : (Grammar.parameterList tokens).ending =
    (Rule.ending .parameterList tokens).andThen fun rest =>
      (expect (.mark .rightParen) "after parameters" rest).ending := by
  obtain ⟨text, place, rest, rfl⟩ | hno := cons_or_ne (.mark .rightParen) tokens
  · rw [Grammar.parameterList, Rule.ending]
    simp [expect]
  · rw [Grammar.parameterList, Rule.ending]
    · simp
    · exact hno
    · exact hno

theorem parameterListRule_ending : Rule.ending .parameterList tokens =
    (Rule.code .parameterList).follow task saved tokens := by
  simp only [Rule.code, enterLoop, follow, Ending.andThen_leave]
  obtain ⟨text, place, rest, rfl⟩ | hno := cons_or_ne (.mark .rightParen) tokens
  · rfl
  · rw [any_of_ne tokens hno, Rule.ending]
    · rfl
    · exact hno

theorem functionDeclaration_ending : Rule.ending .functionDeclaration tokens =
    (Rule.code .functionDeclaration).follow task saved tokens := by
  simp only [Rule.code, enterRule, follow_need, follow, Rule.ending]
  refine Outcome.ending_andThen fun word rest _ => ?_
  simp only [Grammar.functionDeclaration, Traced.outcome_andThen, Outcome.outcome_traced,
    Traced.outcome_map]
  refine Outcome.ending_andThen fun _ rest _ => ?_
  refine Outcome.ending_andThen fun _ rest _ => ?_
  simp only [Task.ending]
  rw [← Ending.andThen_assoc, ← parameterList_ending]
  refine Outcome.ending_andThen fun _ rest _ => ?_
  refine Outcome.ending_andThen fun _ rest _ => ?_
  simp [Rule.ending, body_ending]

theorem arrayLiteral_ending : Rule.ending .arrayLiteral tokens =
    (Rule.code .arrayLiteral).follow task saved tokens := by
  simp only [Rule.code, enterRule, follow_need, follow, Ending.andThen_leave, Rule.ending]
  exact Outcome.ending_andThen fun bracket rest _ => array_ending rest none bracket.place

theorem keyValueLiteral_ending : Rule.ending .keyValueLiteral tokens =
    (Rule.code .keyValueLiteral).follow task saved tokens := by
  simp only [Rule.code, enterLoop, follow_need, follow, Ending.andThen_leave, Rule.ending]
  exact Outcome.ending_andThen fun brace rest _ => keyValue_ending rest none brace.place

theorem valueDeclaration_ending : Rule.ending .valueDeclaration tokens =
    (Rule.code .valueDeclaration).follow task saved tokens := by
  simp only [Rule.code, enterRule, follow_need, follow, Ending.andThen_leave, Rule.ending]
  refine Outcome.ending_andThen fun name rest _ => ?_
  rw [Grammar.valueDeclaration]
  refine Outcome.ending_andThen fun _ rest _ => ?_
  rw [Outcome.ending_map, Outcome.ending_closedBy]
  rfl

-- A declaration of an aggregate is that of a name and the aggregate behind it.

theorem arrayDeclaration_ending : Rule.ending .arrayDeclaration tokens =
    (Rule.code .arrayDeclaration).follow task saved tokens := by
  have hliteral := arrayLiteral_ending task saved
  simp only [Rule.code, enterRule, follow_need, follow, Ending.andThen_leave, Task.ending,
    hliteral, Ending.andThen_assoc]
  refine Outcome.ending_andThen fun name rest _ => ?_
  refine Outcome.ending_andThen fun _ rest _ => ?_
  refine Outcome.ending_andThen fun _ rest _ => ?_
  rw [Outcome.ending_closedBy, array_ending, Ending.andThen_assoc]
  rfl

theorem keyValueDeclaration_ending : Rule.ending .keyValueDeclaration tokens =
    (Rule.code .keyValueDeclaration).follow task saved tokens := by
  have hliteral := keyValueLiteral_ending task saved
  simp only [Rule.code, enterRule, enterLoop, follow_need, follow, Ending.andThen_leave,
    Task.ending, hliteral, Ending.andThen_assoc]
  refine Outcome.ending_andThen fun name rest _ => ?_
  refine Outcome.ending_andThen fun _ rest _ => ?_
  refine Outcome.ending_andThen fun _ rest _ => ?_
  rw [Outcome.ending_closedBy, keyValue_ending]
  rfl

theorem variableDeclaration_ending (name : String) (place : Location) :
    (variableDeclaration name place tokens).ending =
      if tokens[1]?.any (·.kind = .mark .leftBracket) then
        (Grammar.arrayDeclaration name place tokens).ending
      else if tokens[1]?.any (·.kind = .mark .leftBrace) then
        (Grammar.keyValueDeclaration name place tokens).ending
      else (Grammar.valueDeclaration name place tokens).ending := by
  cases h : tokens[1]? with
  | none =>
    rw [variableDeclaration, h]
    rfl
  | some token =>
    simp only [variableDeclaration, h, Option.map_some, Option.any_some, decide_eq_true_eq]
    split <;> simp_all

theorem declaration_ending : (Grammar.declaration tokens).outcome.ending =
    (Rule.code .declaration).follow task saved tokens := by
  simp only [Rule.code, enterRule, follow, Ending.andThen_leave]
  obtain ⟨name, place, rest, rfl⟩ | hfunction := cons_or_ne (.keyword .functionWord) tokens
  · simp [Grammar.declaration, Task.ending, Rule.ending, ending_expect_andThen,
      Traced.outcome_loosen]
  rw [any_of_ne tokens hfunction]
  obtain ⟨name, place, rest, rfl⟩ | hmain := cons_or_ne (.keyword .mainWord) tokens
  · simp [Grammar.declaration, Task.ending, Rule.ending, ending_expect_andThen,
      Traced.outcome_loosen]
  rw [any_of_ne tokens hmain]
  obtain ⟨name, place, rest, rfl⟩ | hname := cons_or_ne .identifier tokens
  · rw [Grammar.declaration, Outcome.outcome_traced, Outcome.ending_loosen,
      variableDeclaration_ending]
    simp [Task.ending, Rule.ending, ending_expect_andThen]
  rw [any_of_ne tokens hname, Grammar.declaration]
  · rfl
  · exact hfunction
  · exact hmain
  · exact hname

end rules

-- What comes of a task is what comes of its code.
theorem Task.ending_eq (task : Task) (tokens : List Token) :
    task.ending tokens = task.code.follow task tokens tokens := by
  cases task with
  | rule rule =>
    cases rule with
    | declaration => exact declaration_ending _ _ tokens
    | mainFunction => exact mainFunction_ending _ _ tokens
    | functionDeclaration => exact functionDeclaration_ending _ _ tokens
    | parameterList => exact parameterListRule_ending _ _ tokens
    | valueDeclaration => exact valueDeclaration_ending _ _ tokens
    | arrayDeclaration => exact arrayDeclaration_ending _ _ tokens
    | keyValueDeclaration => exact keyValueDeclaration_ending _ _ tokens
    | arrayLiteral => exact arrayLiteral_ending _ _ tokens
    | keyValueLiteral => exact keyValueLiteral_ending _ _ tokens
    | item => exact item_ending _ _ tokens
    | pair => exact pair_ending _ _ tokens
    | statement => exact statement_ending _ _ tokens
    | compound => exact compound_ending _ _ tokens
    | branch => exact branch_ending _ _ tokens
    | assignmentOrCall => exact assignmentOrCall_ending _ _ tokens
    | assignment => exact assignment_ending _ _ tokens
    | ifStatement => exact ifStatement_ending _ _ tokens
    | forLoop => exact forLoop_ending _ _ tokens
    | returnStatement => exact returnStatement_ending _ _ tokens
    | expression => exact expression_ending _ _ tokens
    | operand => exact operand_ending _ _ tokens
    | call => exact callRule_ending _ _ tokens
    | literal => exact literal_ending _ _ tokens
    | operator => exact operator_ending _ _ tokens
    -- the rules that are a loop and nothing else
    | items | block | arguments => exact (Ending.andThen_leave _).symm
  | loop loop =>
    cases loop with
    | declarations => exact declarations_ending _ tokens
    | parameters => exact parameters_ending _ tokens
    | items => exact items_ending _ tokens
    | pairs => exact pairs_ending _ tokens
    | statements => exact statements_ending _ tokens
    | operations => exact operations_ending _ tokens
    | arguments => exact arguments_ending _ tokens

end Descent

end ScriptIR.Grammar
