import Mathlib
import ScriptIR.Proofs.Grammar.Runs

namespace ScriptIR

open Grammar

namespace Grammar

-- The parser once more, as one that goes back. A statement that begins with a name takes the
-- name away in order to see the token behind it, goes back in front of the name, and reads the
-- name a second time.

-- A name that begins a statement, and the tokens behind it.
structure Start where
  name : Token
  behind : List Token

-- What is noted when the parser goes back in front of a name.
def Start.choice (start : Start) : Choice where
  name := start.name.text
  line := start.name.place.line
  isCall := start.behind.head?.map Token.kind = some (.mark .leftParen)

-- An outcome together with the names that the parser went back to.
structure Rewound (α : Type) (bound : Nat) where
  starts : List Start
  outcome : Outcome α bound

namespace Rewound

variable {α β : Type} {n : Nat}

def loosen (rewound : Rewound α n) : Rewound α (n + 1) :=
  ⟨rewound.starts, rewound.outcome.loosen⟩

def map (f : α → β) (rewound : Rewound α n) : Rewound β n :=
  ⟨rewound.starts, rewound.outcome.map f⟩

def andMaybe (rewound : Rewound α n)
    (next : (value : α) → (rest : List Token) → rest.length < n → Rewound β (rest.length + 1)) :
    Rewound β n :=
  match rewound.outcome with
  | .parsed value rest shorter =>
    let behind := next value rest shorter
    ⟨rewound.starts ++ behind.starts, behind.outcome.within shorter⟩
  | .refused wanted rest => ⟨rewound.starts, .refused wanted rest⟩

def andThen (rewound : Rewound α n)
    (next : (value : α) → (rest : List Token) → rest.length < n → Rewound β rest.length) :
    Rewound β n :=
  rewound.andMaybe fun value rest shorter => (next value rest shorter).loosen

-- The same with a note for each name.
def traced (rewound : Rewound α n) : Traced α n :=
  ⟨rewound.starts.map Start.choice, rewound.outcome⟩

end Rewound

-- Rules below the level of statements never go back.
def Outcome.rewound {α : Type} {n : Nat} (outcome : Outcome α n) : Rewound α n := ⟨[], outcome⟩

namespace Rewinding

-- A statement that begins with a name.
def assignmentOrCall (tokens : List Token) : Rewound Tree tokens.length :=
  match expect .identifier "at start of statement" tokens with
  | .refused wanted rest => (Outcome.refused wanted rest).rewound
  | .parsed name behind _ =>
    let start : Start := ⟨name, behind⟩
    ⟨[start], if start.choice.isCall then namedCall tokens else namedAssignment tokens⟩

mutual

def statement (tokens : List Token) : Rewound Tree tokens.length :=
  match tokens with
  | ⟨.identifier, name, place⟩ :: behind => assignmentOrCall (⟨.identifier, name, place⟩ :: behind)
  | ⟨.keyword .ifWord, _, place⟩ :: behind => (ifStatement place behind).loosen
  | ⟨.keyword .forWord, _, place⟩ :: behind => (loop place behind).loosen
  | ⟨.keyword .returnWord, _, place⟩ :: behind => (returnStatement place behind).loosen.rewound
  | ⟨.mark .leftBrace, _, place⟩ :: inner =>
    ((body "after block" inner).map fun statements => .node .block statements place).loosen
  | tokens => (Outcome.refused .statement tokens).rewound
termination_by 4 * tokens.length + 1

def ifStatement (place : Location) (tokens : List Token) : Rewound Tree tokens.length :=
  (condition tokens).rewound.andThen fun tree rest _ =>
  (statement rest).andMaybe fun branch rest _ =>
  match rest with
  | ⟨.keyword .elseWord, _, elsePlace⟩ :: behind =>
    ((statement behind).map fun other =>
      .node .ifStatement [tree, branch, .node .elseStatement [other] elsePlace] place).loosen.loosen
  | rest => (Outcome.done (.node .ifStatement [tree, branch] place) rest).rewound
termination_by 4 * tokens.length
decreasing_by all_goals grind

def loop (place : Location) (tokens : List Token) : Rewound Tree tokens.length :=
  (loopHead tokens).rewound.andThen fun (counter, first, last) rest _ =>
  match rest with
  | ⟨.mark .leftBrace, _, _⟩ :: inner =>
    ((body "after loop body" inner).map fun statements =>
      .loop counter first last statements place).loosen
  | rest => (statement rest).map fun only => .loop counter first last [only] place
termination_by 4 * tokens.length
decreasing_by all_goals grind

def body (role : String) (tokens : List Token) : Rewound (List Tree) tokens.length :=
  match tokens with
  | [] => (Outcome.refused (.token (.mark .rightBrace) role) []).rewound
  | ⟨.mark .rightBrace, _, _⟩ :: rest => (Outcome.done [] rest).rewound
  | tokens =>
    (statement tokens).andThen fun first rest _ =>
    (body role rest).map (first :: ·)
termination_by 4 * tokens.length + 3

end

def mainFunction (place : Location) (tokens : List Token) : Rewound Tree tokens.length :=
  (expect (.mark .leftParen) "after 'main'" tokens).rewound.andThen fun _ rest _ =>
  (expect (.mark .rightParen) "after 'main('" rest).rewound.andThen fun _ rest _ =>
  (expect (.mark .leftBrace) "before main body" rest).rewound.andThen fun _ rest _ =>
  (body "after main body" rest).map fun statements => .node .main statements place

def functionDeclaration (place : Location) (tokens : List Token) : Rewound Tree tokens.length :=
  (expect .identifier "as function name" tokens).rewound.andThen fun name rest _ =>
  (expect (.mark .leftParen) "after function name" rest).rewound.andThen fun _ rest _ =>
  (parameterList rest).rewound.andThen fun params rest _ =>
  (expect (.mark .leftBrace) "before function body" rest).rewound.andThen fun _ rest _ =>
  (body "after function body" rest).map fun statements =>
    .function name.text params statements place

def declaration (tokens : List Token) : Rewound Tree tokens.length :=
  match tokens with
  | ⟨.keyword .functionWord, _, place⟩ :: behind => (functionDeclaration place behind).loosen
  | ⟨.keyword .mainWord, _, place⟩ :: behind => (mainFunction place behind).loosen
  | ⟨.identifier, name, place⟩ :: behind => (variableDeclaration name place behind).loosen.rewound
  | tokens => (Outcome.refused .declaration tokens).rewound

def declarations (tokens : List Token) : Rewound (List Tree) (tokens.length + 1) :=
  match tokens with
  | [] => (Outcome.done [] []).rewound
  | tokens =>
    ((declaration tokens).andMaybe fun first rest _ =>
      (declarations rest).map (first :: ·)).loosen
termination_by tokens.length

end Rewinding

end Grammar

namespace Grammar

variable {α β : Type} {n : Nat}

theorem Outcome.eq_of_result {first second : Outcome α n} (h : first.result = second.result) :
    first = second := by
  cases first <;> cases second <;> cases h <;> rfl

theorem Traced.eq_of_result {first second : Traced α n} (hc : first.choices = second.choices)
    (ho : first.outcome.result = second.outcome.result) : first = second := by
  obtain ⟨choices, outcome⟩ := first
  obtain ⟨_, _⟩ := second
  obtain rfl : choices = _ := hc
  exact congrArg (Traced.mk choices) (Outcome.eq_of_result ho)

namespace Rewound

@[simp] theorem traced_loosen (rewound : Rewound α n) :
    rewound.loosen.traced = rewound.traced.loosen := rfl

@[simp] theorem traced_map (f : α → β) (rewound : Rewound α n) :
    (rewound.map f).traced = rewound.traced.map f := rfl

@[simp] theorem traced_rewound (outcome : Outcome α n) : outcome.rewound.traced = outcome.traced :=
  rfl

@[simp] theorem traced_andMaybe (rewound : Rewound α n)
    (next : (value : α) → (rest : List Token) → rest.length < n → Rewound β (rest.length + 1)) :
    (rewound.andMaybe next).traced =
      rewound.traced.andMaybe fun value rest shorter => (next value rest shorter).traced := by
  obtain ⟨starts, outcome⟩ := rewound
  cases outcome with
  | refused wanted rest => rfl
  | parsed value rest shorter => simp [traced, andMaybe, Traced.andMaybe]

@[simp] theorem traced_andThen (rewound : Rewound α n)
    (next : (value : α) → (rest : List Token) → rest.length < n → Rewound β rest.length) :
    (rewound.andThen next).traced =
      rewound.traced.andThen fun value rest shorter => (next value rest shorter).traced :=
  rewound.traced_andMaybe _

end Rewound

namespace Rewinding

section assignmentOrCall

variable (name : String) (place : Location) (behind : List Token)

theorem assignmentOrCall_cons :
    assignmentOrCall (⟨.identifier, name, place⟩ :: behind) =
      ⟨[⟨⟨.identifier, name, place⟩, behind⟩],
        if (Start.mk ⟨.identifier, name, place⟩ behind).choice.isCall then
          namedCall (⟨.identifier, name, place⟩ :: behind)
        else namedAssignment (⟨.identifier, name, place⟩ :: behind)⟩ := rfl

-- To take the name away is to look at the token behind it.
theorem traced_assignmentOrCall :
    (assignmentOrCall (⟨.identifier, name, place⟩ :: behind)).traced =
      Grammar.statement (⟨.identifier, name, place⟩ :: behind) := by
  rw [assignmentOrCall_cons]
  by_cases hk : behind.head?.map Token.kind = some (.mark .leftParen)
  · obtain ⟨⟨kind, text, other⟩, hh, rfl⟩ := Option.map_eq_some_iff.mp hk
    obtain ⟨inner, rfl⟩ := List.head?_eq_some_iff.mp hh
    refine Traced.eq_of_result ?_ statement_result_call.symm
    rw [Grammar.statement]
    rfl
  · have hno (text : String) (place : Location) (inner : List Token)
        (h : behind = ⟨.mark .leftParen, text, place⟩ :: inner) : False :=
      hk (by rw [h]; rfl)
    refine Traced.eq_of_result ?_ ?_
    · rw [Grammar.statement]
      · simp [Rewound.traced, Traced.noting, Start.choice, hk, Outcome.traced]
      · exact hno
    · rw [statement_result_assignment hno]
      simp [Rewound.traced, Start.choice, hk]

end assignmentOrCall

section rules

variable {tokens : List Token}

theorem traced_ifStatement_of {place : Location}
    (hs : ∀ rest : List Token, rest.length < tokens.length →
      (statement rest).traced = Grammar.statement rest)
    (he : ∀ rest : List Token, rest.length < tokens.length →
      ∀ (text : String) (elsePlace : Location) (behind : List Token),
        (⟨.keyword .elseWord, text, elsePlace⟩ :: behind : List Token).length < rest.length →
          (statement behind).traced = Grammar.statement behind) :
    (ifStatement place tokens).traced = Grammar.ifStatement place tokens := by
  rw [ifStatement, Grammar.ifStatement]
  simp only [Rewound.traced_andThen, Rewound.traced_andMaybe]
  refine congrArg (Traced.andThen _) ?_
  funext tree rest shorter
  rw [hs rest shorter]
  refine congrArg (Traced.andMaybe _) ?_
  funext branch last shorter'
  split
  · rename_i shorter'
    simp [he rest shorter _ _ _ shorter']
  · simp

theorem traced_loop_of {place : Location}
    (hb : ∀ (text : String) (place : Location) (inner : List Token),
      (⟨.mark .leftBrace, text, place⟩ :: inner : List Token).length < tokens.length →
        (body "after loop body" inner).traced = Grammar.body "after loop body" inner)
    (hs : ∀ rest : List Token, rest.length < tokens.length →
      (statement rest).traced = Grammar.statement rest) :
    (loop place tokens).traced = Grammar.loop place tokens := by
  rw [loop, Grammar.loop]
  simp only [Rewound.traced_andThen]
  refine congrArg (Traced.andThen _) ?_
  funext head rest shorter
  split
  · rename_i shorter
    simp [hb _ _ _ shorter]
  · simp [hs rest shorter]

theorem traced_body_cons {role : String} (hne : tokens = [] → False)
    (hno : ∀ (text : String) (place : Location) (rest : List Token),
      tokens = ⟨.mark .rightBrace, text, place⟩ :: rest → False)
    (hs : (statement tokens).traced = Grammar.statement tokens)
    (hb : ∀ rest : List Token, rest.length < tokens.length →
      (body role rest).traced = Grammar.body role rest) :
    (body role tokens).traced = Grammar.body role tokens := by
  rw [body, Grammar.body]
  · simp only [Rewound.traced_andThen, hs]
    refine congrArg (Traced.andThen _) ?_
    funext first rest shorter
    simp [hb rest shorter]
  all_goals assumption

end rules

-- Rule by rule, as the rules call each other.
theorem statement_rules_traced :
    (∀ tokens, (statement tokens).traced = Grammar.statement tokens) ∧
    (∀ role tokens, (body role tokens).traced = Grammar.body role tokens) ∧
    (∀ place tokens, (loop place tokens).traced = Grammar.loop place tokens) ∧
    (∀ place tokens, (ifStatement place tokens).traced = Grammar.ifStatement place tokens) := by
  apply statement.mutual_induct
  case case1 =>
    intro name place behind
    rw [statement, traced_assignmentOrCall]
  case case2 =>
    intro text place behind ih
    rw [statement, Grammar.statement, Rewound.traced_loosen, ih]
  case case3 =>
    intro text place behind ih
    rw [statement, Grammar.statement, Rewound.traced_loosen, ih]
  case case4 =>
    intro text place behind
    rw [statement, Grammar.statement, Rewound.traced_rewound]
  case case5 =>
    intro text place inner ih
    rw [statement, Grammar.statement, Rewound.traced_loosen, Rewound.traced_map, ih]
  case case6 =>
    intro tokens hname hif hfor hreturn hblock
    rw [statement, Grammar.statement, Rewound.traced_rewound]
    all_goals first | assumption | exact fun name place _ _ _ => hname name place _
  case case7 =>
    intro role
    rw [body, Grammar.body, Rewound.traced_rewound]
  case case8 =>
    intro role text place rest
    rw [body, Grammar.body, Rewound.traced_rewound]
  case case9 => exact fun _ _ => traced_body_cons
  case case10 => exact fun _ _ => traced_loop_of
  case case11 => exact fun _ _ => traced_ifStatement_of

theorem traced_body (role : String) (tokens : List Token) :
    (body role tokens).traced = Grammar.body role tokens := statement_rules_traced.2.1 role tokens

theorem traced_declaration (tokens : List Token) :
    (declaration tokens).traced = Grammar.declaration tokens := by
  unfold declaration Grammar.declaration
  split
  · simp [functionDeclaration, Grammar.functionDeclaration, traced_body]
  · simp [mainFunction, Grammar.mainFunction, traced_body]
  · simp
  · simp

end Rewinding

end Grammar

end ScriptIR
