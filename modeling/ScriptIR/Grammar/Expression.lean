import ScriptIR.Grammar.Outcome
import ScriptIR.Tree.Basic

namespace ScriptIR.Grammar

-- The rules
--
--   expression ::= operand (operator operand)*
--   operand    ::= "(" expression ")"
--                | IDENT "(" arguments? ")"
--                | IDENT ("[" expression "]")?
--                | LITERAL
--   arguments  ::= expression ("," expression)*

def identifierNode (name : String) (place : Location) : Tree :=
  .node (.identifier name) [] place

-- Groups a chain of operators strictly to the right. The right operand of
-- every operator is all that follows it.
def nestRight (left : Tree) : List (Tree × Tree) → Tree
  | [] => left
  | (sign, right) :: more =>
    .node .expression [left, sign, nestRight right more] left.place

mutual

def expression (tokens : List Token) : Outcome Tree tokens.length :=
  (operand tokens).andMaybe fun first rest _ =>
  (chain rest).map (nestRight first)
termination_by 4 * tokens.length + 2

-- The operators behind an operand, each with the operand that follows it.
def chain (tokens : List Token) : Outcome (List (Tree × Tree)) (tokens.length + 1) :=
  match tokens with
  | ⟨.operator _, sign, place⟩ :: behind =>
    ((operand behind).andMaybe fun right rest _ =>
      (chain rest).map ((.node (.operator sign) [] place, right) :: ·)).loosen.loosen
  | rest => .done [] rest
termination_by 4 * tokens.length

def operand (tokens : List Token) : Outcome Tree tokens.length :=
  match tokens with
  | ⟨.mark .leftParen, _, _⟩ :: inner =>
    ((expression inner).closedBy (.mark .rightParen) "to close parenthesized expression").loosen
  | ⟨.identifier, name, place⟩ :: ⟨.mark .leftParen, _, _⟩ :: inner =>
    (call name place inner).loosen.loosen
  | ⟨.identifier, name, place⟩ :: ⟨.mark .leftBracket, _, _⟩ :: inner =>
    (access name place inner).loosen.loosen
  | ⟨.identifier, name, place⟩ :: rest => .done (identifierNode name place) rest
  | ⟨.literal _, value, place⟩ :: rest => .done (.node (.literal value) [] place) rest
  | rest => .refused .expression rest
termination_by 4 * tokens.length + 1

-- A call, behind its opening parenthesis.
def call (name : String) (place : Location) (tokens : List Token) : Outcome Tree tokens.length :=
  match tokens with
  | ⟨.mark .rightParen, _, _⟩ :: rest =>
    .done (.node .call [identifierNode name place] place) rest
  | inner =>
    ((arguments inner).closedBy (.mark .rightParen) "after arguments").map fun values =>
      .node .call [identifierNode name place, .node .argumentList values (nextPlace inner)] place
termination_by 4 * tokens.length + 4

def arguments (tokens : List Token) : Outcome (List Tree) tokens.length :=
  (expression tokens).andMaybe fun first rest _ =>
  match rest with
  | ⟨.mark .comma, _, _⟩ :: behind => ((arguments behind).map (first :: ·)).loosen.loosen
  | rest => .done [first] rest
termination_by 4 * tokens.length + 3
decreasing_by all_goals grind

-- An element of an array, behind its opening bracket.
def access (name : String) (place : Location) (tokens : List Token) : Outcome Tree tokens.length :=
  ((expression tokens).closedBy (.mark .rightBracket) "after index").map fun index =>
    .node .arrayAccess [identifierNode name place, index] place
termination_by 4 * tokens.length + 3

end

end ScriptIR.Grammar
