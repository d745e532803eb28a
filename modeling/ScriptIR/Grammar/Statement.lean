import ScriptIR.Grammar.Expression
import ScriptIR.Grammar.Traced

namespace ScriptIR.Grammar

-- The rules
--
--   statement ::= IDENT "(" arguments? ")" ";"
--               | IDENT ("[" expression "]")? "=" expression ";"
--               | "if" "(" expression ")" statement ("else" statement)?
--               | "for" "(" IDENT ":" expression "," expression ")" statement
--               | "return" expression? ";"
--               | "{" statement* "}"

-- An assignment to a place that is read already, from the sign on.
def assignTo (left : Tree) (place : Location) (tokens : List Token) : Outcome Tree tokens.length :=
  (expect (.mark .assign) "in assignment" tokens).andThen fun _ rest _ =>
  ((expression rest).closedBy (.mark .semicolon) "after assignment").map fun value =>
    .node .assignment [left, value] place

-- An assignment, behind its identifier.
def assignment (name : String) (place : Location) (tokens : List Token) :
    Outcome Tree tokens.length :=
  match tokens with
  | ⟨.mark .leftBracket, _, _⟩ :: inner =>
    ((access name place inner).andThen fun left rest _ => assignTo left place rest).loosen
  | tokens => assignTo (identifierNode name place) place tokens

-- A call as a statement, behind its opening parenthesis.
def callStatement (name : String) (place : Location) (tokens : List Token) :
    Outcome Tree tokens.length :=
  (call name place tokens).closedBy (.mark .semicolon) "after function call"

-- A return, behind its keyword.
def returnStatement (place : Location) (tokens : List Token) : Outcome Tree tokens.length :=
  match tokens with
  | ⟨.mark .semicolon, _, _⟩ :: rest => .done (.node .bareReturn [] place) rest
  | tokens =>
    ((expression tokens).closedBy (.mark .semicolon) "after return").map fun value =>
      .giving value [] place

-- The parenthesis of a loop, behind the keyword: the counter and the bounds.
def loopHead (tokens : List Token) : Outcome (String × Tree × Tree) tokens.length :=
  (expect (.mark .leftParen) "after 'for'" tokens).andThen fun _ rest _ =>
  (expect .identifier "as loop variable" rest).andThen fun counter rest _ =>
  (expect (.mark .colon) "after loop variable" rest).andThen fun _ rest _ =>
  ((expression rest).closedBy (.mark .comma) "after loop start").andThen fun first rest _ =>
  ((expression rest).closedBy (.mark .rightParen) "after loop bounds").map fun last =>
    (counter.text, first, last)

-- The parenthesis of an if, behind the keyword.
def condition (tokens : List Token) : Outcome Tree tokens.length :=
  (expect (.mark .leftParen) "after 'if'" tokens).andThen fun _ rest _ =>
  (expression rest).closedBy (.mark .rightParen) "after if condition"

mutual

def statement (tokens : List Token) : Traced Tree tokens.length :=
  match tokens with
  | ⟨.identifier, name, place⟩ :: ⟨.mark .leftParen, _, _⟩ :: inner =>
    .noting ⟨name, place.line, true⟩ (callStatement name place inner).loosen.loosen.traced
  | ⟨.identifier, name, place⟩ :: behind =>
    .noting ⟨name, place.line, false⟩ (assignment name place behind).loosen.traced
  | ⟨.keyword .ifWord, _, place⟩ :: behind => (ifStatement place behind).loosen
  | ⟨.keyword .forWord, _, place⟩ :: behind => (loop place behind).loosen
  | ⟨.keyword .returnWord, _, place⟩ :: behind => (returnStatement place behind).loosen.traced
  | ⟨.mark .leftBrace, _, place⟩ :: inner =>
    ((body "after block" inner).map fun statements => .node .block statements place).loosen
  | tokens => (Outcome.refused .statement tokens).traced
termination_by 4 * tokens.length + 1

-- An if, behind its keyword. An else belongs to the nearest if that can take it.
def ifStatement (place : Location) (tokens : List Token) : Traced Tree tokens.length :=
  (condition tokens).traced.andThen fun tree rest _ =>
  (statement rest).andMaybe fun branch rest _ =>
  match rest with
  | ⟨.keyword .elseWord, _, elsePlace⟩ :: behind =>
    ((statement behind).map fun other =>
      .node .ifStatement [tree, branch, .node .elseStatement [other] elsePlace] place).loosen.loosen
  | rest => (Outcome.done (.node .ifStatement [tree, branch] place) rest).traced
termination_by 4 * tokens.length
decreasing_by all_goals grind

-- A loop, behind its keyword. The statements of a braced body are the children
-- of the loop itself, without a block around them.
def loop (place : Location) (tokens : List Token) : Traced Tree tokens.length :=
  (loopHead tokens).traced.andThen fun (counter, first, last) rest _ =>
  match rest with
  | ⟨.mark .leftBrace, _, _⟩ :: inner =>
    ((body "after loop body" inner).map fun statements =>
      .loop counter first last statements place).loosen
  | rest => (statement rest).map fun only => .loop counter first last [only] place
termination_by 4 * tokens.length
decreasing_by all_goals grind

-- The statements of a block up to its closing brace, behind the opening brace.
def body (role : String) (tokens : List Token) : Traced (List Tree) tokens.length :=
  match tokens with
  | [] => (Outcome.refused (.token (.mark .rightBrace) role) []).traced
  | ⟨.mark .rightBrace, _, _⟩ :: rest => (Outcome.done [] rest).traced
  | tokens =>
    (statement tokens).andThen fun first rest _ =>
    (body role rest).map (first :: ·)
termination_by 4 * tokens.length + 3

end

end ScriptIR.Grammar
