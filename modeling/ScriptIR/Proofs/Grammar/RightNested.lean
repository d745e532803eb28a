import Mathlib
import ScriptIR.Proofs.Grammar.Renamed
import ScriptIR.Proofs.Grammar.Runs

namespace ScriptIR.Grammar

-- An operator between its operands. It stands where the left one does.
def operation (left sign right : Tree) : Tree := .node .expression [left, sign, right] left.place

-- The rules for expressions as the grammar has them,
--
--   expression ::= operand (operator expression)?
--
-- where the right operand of an operator is read by the rule itself.
namespace Direct

mutual

def expression (tokens : List Token) : Outcome Tree tokens.length :=
  (operand tokens).andMaybe fun left rest _ =>
  match rest with
  | ⟨.operator _, sign, place⟩ :: behind =>
    ((expression behind).map (operation left (.node (.operator sign) [] place))).loosen.loosen
  | rest => .done left rest
termination_by 4 * tokens.length + 1
decreasing_by all_goals grind

def operand (tokens : List Token) : Outcome Tree tokens.length :=
  match tokens with
  | ⟨.mark .leftParen, _, _⟩ :: inner =>
    ((expression inner).closedBy (.mark .rightParen) "to close parenthesized expression").loosen
  | ⟨.identifier, name, place⟩ :: ⟨.mark .leftParen, _, _⟩ :: inner =>
    (call name place inner).loosen.loosen
  | ⟨.identifier, name, place⟩ :: ⟨.mark .leftBracket, _, _⟩ :: inner =>
    (access name place inner).loosen.loosen
  | ⟨.identifier, name, place⟩ :: rest => .done (identifierNode name place) rest
  | ⟨.literal _, value, place⟩ :: rest => .done (.node (.literal value) [] place) rest
  | rest => .refused .expression rest
termination_by 4 * tokens.length

def call (name : String) (place : Location) (tokens : List Token) : Outcome Tree tokens.length :=
  match tokens with
  | ⟨.mark .rightParen, _, _⟩ :: rest =>
    .done (.node .call [identifierNode name place] place) rest
  | inner =>
    ((arguments inner).closedBy (.mark .rightParen) "after arguments").map fun values =>
      .node .call [identifierNode name place, .node .argumentList values (nextPlace inner)] place
termination_by 4 * tokens.length + 3

def arguments (tokens : List Token) : Outcome (List Tree) tokens.length :=
  (expression tokens).andMaybe fun first rest _ =>
  match rest with
  | ⟨.mark .comma, _, _⟩ :: behind => ((arguments behind).map (first :: ·)).loosen.loosen
  | rest => .done [first] rest
termination_by 4 * tokens.length + 2
decreasing_by all_goals grind

def access (name : String) (place : Location) (tokens : List Token) : Outcome Tree tokens.length :=
  ((expression tokens).closedBy (.mark .rightBracket) "after index").map fun index =>
    .node .arrayAccess [identifierNode name place, index] place
termination_by 4 * tokens.length + 2

end

end Direct

namespace Outcome

variable {α β γ : Type} {n k : Nat}

theorem map_within (f : α → β) (outcome : Outcome α k) (h : k ≤ n) :
    (outcome.within h).map f = (outcome.map f).within h := by
  cases outcome <;> rfl

theorem map_loosen (f : α → β) (outcome : Outcome α n) :
    outcome.loosen.map f = (outcome.map f).loosen :=
  map_within f outcome _

theorem map_map (f : α → β) (g : β → γ) (outcome : Outcome α n) :
    (outcome.map f).map g = outcome.map (g ∘ f) := by
  cases outcome <;> rfl

theorem map_andMaybe (f : β → γ) (outcome : Outcome α n)
    (next : (value : α) → (rest : List Token) → rest.length < n → Outcome β (rest.length + 1)) :
    (outcome.andMaybe next).map f =
      outcome.andMaybe fun value rest shorter => (next value rest shorter).map f := by
  cases outcome with
  | parsed value rest shorter => exact map_within f _ shorter
  | refused wanted rest => rfl

end Outcome

-- What is behind an operand, where the right operand of an operator is read by a rule
-- for whole expressions.
def operationTail (whole : (tokens : List Token) → Outcome Tree tokens.length) (left : Tree)
    (rest : List Token) : Outcome Tree (rest.length + 1) :=
  match rest with
  | ⟨.operator _, sign, place⟩ :: behind =>
    ((whole behind).map (operation left (.node (.operator sign) [] place))).loosen.loosen
  | rest => .done left rest

theorem operator_or_ne (tokens : List Token) :
    (∃ sign text place rest, tokens = ⟨.operator sign, text, place⟩ :: rest) ∨
      ∀ (sign : Operator) (text : String) (place : Location) (rest : List Token),
        tokens = ⟨.operator sign, text, place⟩ :: rest → False := by
  by_cases h : ∃ sign text place rest, tokens = ⟨.operator sign, text, place⟩ :: rest
  · exact .inl h
  · exact .inr fun sign text place rest he => h ⟨sign, text, place, rest, he⟩

theorem operationTail_of_ne {whole : (tokens : List Token) → Outcome Tree tokens.length}
    {left : Tree} {rest : List Token}
    (h : ∀ (sign : Operator) (text : String) (place : Location) (behind : List Token),
      rest = ⟨.operator sign, text, place⟩ :: behind → False) :
    operationTail whole left rest = .done left rest := by
  rw [operationTail]
  exact h

-- All that is behind the first operator of a chain is the right operand.
theorem map_nestRight_chain (left : Tree) (rest : List Token) :
    (chain rest).map (nestRight left) = operationTail expression left rest := by
  obtain ⟨sign, text, place, behind, rfl⟩ | hno := operator_or_ne rest
  · rw [chain, operationTail, expression]
    simp only [Outcome.map_loosen, Outcome.map_andMaybe, Outcome.map_map]
    rfl
  · rw [chain, operationTail_of_ne hno]
    · rfl
    · exact hno

theorem expression_eq (tokens : List Token) : expression tokens =
    (operand tokens).andMaybe fun left rest _ => operationTail expression left rest := by
  rw [expression]
  simp only [map_nestRight_chain]

namespace Direct

theorem expression_eq (tokens : List Token) : expression tokens =
    (operand tokens).andMaybe fun left rest _ => operationTail expression left rest := by
  rw [expression]
  congr
  funext left rest shorter
  split
  · rfl
  · rename_i hno
    refine (operationTail_of_ne fun sign text place behind he => ?_).symm
    subst he
    exact hno _ _ _ _ shorter rfl HEq.rfl

theorem arguments_eq (tokens : List Token) : arguments tokens =
    (expression tokens).andMaybe fun first rest _ => listTail arguments first rest := by
  rw [arguments]
  congr
  funext first rest shorter
  split
  · rfl
  · rename_i hno
    refine (listTail_of_ne fun text place behind he => ?_).symm
    subst he
    exact hno _ _ _ shorter rfl HEq.rfl

-- The rules that collect a chain first are those that call themselves. In the order of the
-- rules, one case to a row.
theorem rules_eq :
    (∀ tokens, expression tokens = Grammar.expression tokens) ∧
    (∀ tokens, operand tokens = Grammar.operand tokens) ∧
    (∀ name place tokens, access name place tokens = Grammar.access name place tokens) ∧
    (∀ name place tokens, call name place tokens = Grammar.call name place tokens) ∧
    (∀ tokens, arguments tokens = Grammar.arguments tokens) := by
  apply expression.mutual_induct
  case case1 =>
    intro tokens ho he
    rw [expression_eq, Grammar.expression_eq, ho]
    congr
    funext left rest shorter
    obtain ⟨sign, text, place, behind, rfl⟩ | hno := operator_or_ne rest
    · rw [operationTail, operationTail, he sign text place behind shorter]
    · rw [operationTail_of_ne hno, operationTail_of_ne hno]
  case case2 =>
    intro text place inner he
    rw [operand, Grammar.operand, he]
  case case3 =>
    intro name place text other inner hc
    rw [operand, Grammar.operand, hc]
  case case4 =>
    intro name place text other inner ha
    rw [operand, Grammar.operand, ha]
  case case5 =>
    intro name place rest hcall haccess
    rw [operand, Grammar.operand] <;> assumption
  case case6 =>
    intro form value place rest
    rw [operand, Grammar.operand]
  case case7 =>
    intro tokens hgroup hcall haccess hname hliteral
    rw [operand, Grammar.operand] <;> assumption
  case case8 =>
    intro name place tokens he
    rw [access, Grammar.access, he]
  case case9 =>
    intro name place text other rest
    rw [call, Grammar.call]
  case case10 =>
    intro name place tokens hno ha
    rw [call, Grammar.call, ha] <;> assumption
  case case11 =>
    intro tokens he ha
    rw [arguments_eq, Grammar.arguments_eq, he]
    congr
    funext first rest shorter
    obtain ⟨text, place, behind, rfl⟩ | hno := cons_or_ne (.mark .comma) rest
    · rw [listTail, listTail, ha text place behind shorter]
    · rw [listTail_of_ne hno, listTail_of_ne hno]

end Direct

-- What has one next state at most comes to its last one from every state on the way.
theorem runs_to_last {α : Type} {next : α → Option α} {first other last : α}
    (h : Relation.ReflTransGen (fun state later => next state = some later) first last)
    (hl : next last = none)
    (ho : Relation.ReflTransGen (fun state later => next state = some later) first other) :
    Relation.ReflTransGen (fun state later => next state = some later) other last := by
  have hunique : Relator.RightUnique fun state later : α => next state = some later :=
    fun _ _ _ hb hc => Option.some.inj (hb.symm.trans hc)
  obtain hback | hforth := Relation.ReflTransGen.total_of_right_unique hunique ho h
  · exact hback
  · obtain rfl | ⟨later, hn, -⟩ := hforth.cases_head
    · exact .refl
    · rw [hl] at hn
      cases hn

-- The same rule as a loop. It reads all operands and operators of a chain onto two stacks
-- first, and makes the tree from their tops afterwards.
namespace Loop

-- The tops are in front.
structure Stacks where
  operands : List Tree
  operators : List Tree

-- Why the loop gives up: at an operand that is refused, where there is no operator to be
-- taken, or where there is no operand on the stack.
inductive Stop where
  | refused (wanted : Wanted)
  | noOperator
  | noOperand

inductive Stage where
  | starting (unread : List Token)
  -- behind an operand
  | gathering (held : Stacks) (unread : List Token)
  -- behind an operator
  | awaiting (held : Stacks) (unread : List Token)
  | folding (held : Stacks) (node : Tree) (unread : List Token)
  | finished (node : Tree) (unread : List Token)
  | stopped (stop : Stop) (unread : List Token)

def atOperator (tokens : List Token) : Bool := tokens.head?.any (·.kind.isOperator)

def takeOperator : List Token → Option (Tree × List Token)
  | ⟨.operator _, sign, place⟩ :: behind => some (.node (.operator sign) [] place, behind)
  | _ => none

namespace Stage

-- Reads an operand and puts it on its stack.
def pushOperand (held : Stacks) (unread : List Token) : Stage :=
  match operand unread with
  | .parsed value rest _ => .gathering { held with operands := value :: held.operands } rest
  | .refused wanted rest => .stopped (.refused wanted) rest

def next : Stage → Option Stage
  | .starting unread => some (pushOperand ⟨[], []⟩ unread)
  | .gathering held unread =>
    if atOperator unread then
      match takeOperator unread with
      | some (sign, behind) =>
        some (.awaiting { held with operators := sign :: held.operators } behind)
      | none => some (.stopped .noOperator unread)
    else
      match held.operands with
      | node :: operands => some (.folding { held with operands := operands } node unread)
      | [] => some (.stopped .noOperand unread)
  | .awaiting held unread => some (pushOperand held unread)
  | .folding held node unread =>
    match held.operators, held.operands with
    | sign :: operators, left :: operands =>
      some (.folding ⟨operands, operators⟩ (operation left sign node) unread)
    | _, _ => some (.finished node unread)
  | .finished _ _ | .stopped _ _ => none

-- The stages that a stage comes to.
def Runs : Stage → Stage → Prop := Relation.ReflTransGen fun stage other => stage.next = some other

-- Behind an operand there is one operand more than there are operators. The loop gives up
-- only at an operand that is refused.
def Balanced : Stage → Prop
  | .starting _ | .finished _ _ => True
  | .gathering held _ => held.operands.length = held.operators.length + 1
  | .awaiting held _ | .folding held _ _ => held.operands.length = held.operators.length
  | .stopped stop _ => ∃ wanted, stop = .refused wanted

def ofOutcome {n : Nat} : Outcome Tree n → Stage
  | .parsed tree rest _ => .finished tree rest
  | .refused wanted rest => .stopped (.refused wanted) rest

variable {stage other last : Stage} {held : Stacks} {node : Tree} {unread : List Token}

theorem atOperator_of_ne (h : ∀ (sign : Operator) (text : String) (place : Location)
      (behind : List Token), unread = ⟨.operator sign, text, place⟩ :: behind → False) :
    atOperator unread = false := by
  cases unread with
  | nil => rfl
  | cons token behind =>
    obtain ⟨kind, text, place⟩ := token
    cases kind with
    | operator sign => exact (h sign text place behind rfl).elim
    | _ => rfl

theorem balanced_pushOperand (h : held.operands.length = held.operators.length) :
    (pushOperand held unread).Balanced := by
  rw [pushOperand]
  cases operand unread with
  | parsed value rest shorter => simp only [Balanced, List.length_cons, h]
  | refused wanted rest => exact ⟨wanted, rfl⟩

-- One step keeps the stacks balanced.
theorem Balanced.next (h : stage.Balanced) (hn : stage.next = some other) : other.Balanced := by
  cases stage with
  | starting unread =>
    cases hn
    exact balanced_pushOperand rfl
  | gathering held unread =>
    obtain ⟨operands, operators⟩ := held
    obtain ⟨sign, text, place, behind, rfl⟩ | hno := operator_or_ne unread
    · cases hn
      exact h
    · simp only [Stage.next, atOperator_of_ne hno, Bool.false_eq_true, if_false] at hn
      cases operands with
      | nil => cases h
      | cons node operands =>
        cases hn
        exact Nat.succ.inj h
  | awaiting held unread =>
    cases hn
    exact balanced_pushOperand h
  | folding held node unread =>
    obtain ⟨operands, operators⟩ := held
    cases operators with
    | nil =>
      cases hn
      exact trivial
    | cons sign operators =>
      cases operands with
      | nil => cases h
      | cons left operands =>
        cases hn
        exact Nat.succ.inj h
  | finished node unread => cases hn
  | stopped stop unread => cases hn

-- By the steps of the run.
theorem Balanced.runs (h : stage.Balanced) (hr : stage.Runs other) : other.Balanced := by
  induction hr with
  | refl => exact h
  | tail _ hn ih => exact ih.next hn

theorem Runs.to_last (h : stage.Runs last) (hl : last.next = none) (ho : stage.Runs other) :
    other.Runs last :=
  runs_to_last h hl ho

theorem next_ofOutcome {n : Nat} (outcome : Outcome Tree n) : (ofOutcome outcome).next = none := by
  cases outcome <;> rfl

theorem ofOutcome_within {n k : Nat} (outcome : Outcome Tree k) (h : k ≤ n) :
    ofOutcome (outcome.within h) = ofOutcome outcome := by
  cases outcome <;> rfl

-- What becomes of a tree and all that is below it on the stacks.
def unwind : List Tree → List Tree → Tree → Tree
  | left :: operands, sign :: operators, node => unwind operands operators (operation left sign node)
  | _, _, node => node

theorem folds (operands operators : List Tree) (node : Tree) (unread : List Token) :
    (folding ⟨operands, operators⟩ node unread).Runs
      (.finished (unwind operands operators node) unread) := by
  induction operators generalizing operands node with
  | nil => exact .single (by cases operands <;> rfl)
  | cons sign operators ih =>
    cases operands with
    | nil => exact .single rfl
    | cons left operands => exact .head rfl (ih operands (operation left sign node))

-- By the operators that are still unread. The operand on the top is the left one of the
-- chain behind it.
theorem gathers (left : Tree) (operands operators : List Tree) (unread : List Token) :
    (gathering ⟨left :: operands, operators⟩ unread).Runs
      (ofOutcome ((chain unread).map fun pairs =>
        unwind operands operators (nestRight left pairs))) := by
  obtain ⟨sign, text, place, behind, rfl⟩ | hno := operator_or_ne unread
  · refine .head rfl (.head rfl ?_)
    rw [chain, Outcome.map_loosen, Outcome.map_loosen, Outcome.loosen, Outcome.loosen,
      ofOutcome_within, ofOutcome_within, Outcome.map_andMaybe, pushOperand]
    cases operand behind with
    | refused wanted rest => exact .refl
    | parsed right rest shorter =>
      rw [Outcome.andMaybe, ofOutcome_within, Outcome.map_map]
      exact gathers right (left :: operands) (.node (.operator text) [] place :: operators) rest
  · have hend : chain unread = .done [] unread := by
      rw [chain]
      exact hno
    rw [hend]
    refine .head ?_ (folds operands operators left unread)
    simp only [next, atOperator_of_ne hno, Bool.false_eq_true, if_false]
termination_by unread.length
decreasing_by grind

theorem starts (tokens : List Token) :
    (starting tokens).Runs (ofOutcome (expression tokens)) := by
  refine .head rfl ?_
  rw [pushOperand, expression]
  cases operand tokens with
  | refused wanted rest => exact .refl
  | parsed first rest shorter =>
    rw [Outcome.andMaybe, ofOutcome_within]
    exact gathers first [] [] rest

end Stage

end Loop

-- A chain of operands is read up to a token that is no part of it. Which operators it has
-- makes no difference.
theorem expression_chain {left : Tree} {pairs : List (Tree × Tree)}
    {front back behind : List Token} (ho : OperandSpelling left front)
    (hc : ChainSpelling pairs back)
    (hend : ∀ token, behind.head? = some token → continuesExpression token.kind = false) :
    ∃ shorter, expression (front ++ back ++ behind) =
      .parsed (nestRight left pairs) behind shorter :=
  (expression_decides _).parsed ⟨hc.expression ho, hend⟩

theorem exists_chain_of_parsed {tokens rest : List Token} {tree : Tree}
    {shorter : rest.length < tokens.length}
    (h : expression tokens = .parsed tree rest shorter) :
    ∃ left pairs front back, tokens = front ++ back ++ rest ∧ tree = nestRight left pairs ∧
      OperandSpelling left front ∧ ChainSpelling pairs back := by
  have hd := expression_decides tokens
  rw [h] at hd
  obtain ⟨used, rfl, hs, -⟩ := hd
  obtain ⟨left, pairs, front, back, rfl, rfl, ho, hc⟩ := ExpressionSpelling.exists_chain hs
  exact ⟨left, pairs, front, back, rfl, rfl, ho, hc⟩

-- The loop reads what the rule that calls itself reads, and stops at the same token with the
-- same error. All that is behind an operator of a chain is its right operand. On the way the
-- stacks are balanced, and no operator and no operand is missed where one is taken.
theorem expression_nests_right :
    (∀ reader : Reader, reader.run expression = reader.run Direct.expression ∧
      (Loop.Stage.starting reader.unread).Runs (.ofOutcome (Direct.expression reader.unread)) ∧
      (Loop.Stage.ofOutcome (Direct.expression reader.unread)).next = none ∧
      ∀ stage, (Loop.Stage.starting reader.unread).Runs stage →
        stage.Balanced ∧ stage.Runs (.ofOutcome (Direct.expression reader.unread))) ∧
    (∀ left pairs front back behind, OperandSpelling left front → ChainSpelling pairs back →
      (∀ token, behind.head? = some token → continuesExpression token.kind = false) →
      ∃ shorter, expression (front ++ back ++ behind) =
        .parsed (nestRight left pairs) behind shorter) ∧
    ∀ tokens tree rest shorter, expression tokens = .parsed tree rest shorter →
      ∃ left pairs front back, tokens = front ++ back ++ rest ∧ tree = nestRight left pairs ∧
        OperandSpelling left front ∧ ChainSpelling pairs back := by
  refine ⟨fun reader => ?_, fun _ _ _ _ _ => expression_chain, fun _ _ _ _ =>
    exists_chain_of_parsed⟩
  have hdirect := Direct.rules_eq.1
  have hlast := Loop.Stage.starts reader.unread
  refine ⟨Reader.run_congr (by rw [hdirect]), ?_⟩
  rw [hdirect]
  have hend := Loop.Stage.next_ofOutcome (expression reader.unread)
  have hstart : (Loop.Stage.starting reader.unread).Balanced := trivial
  exact ⟨hlast, hend, fun stage hr => ⟨hstart.runs hr, hlast.to_last hend hr⟩⟩

end ScriptIR.Grammar
