import ScriptIR.Grammar.Aggregate
import ScriptIR.Grammar.Statement

namespace ScriptIR.Grammar

-- The rules
--
--   declaration ::= "main" "(" ")" "{" statement* "}"
--                 | "function" IDENT "(" (IDENT ("," IDENT)*)? ")" "{" statement* "}"
--                 | IDENT "=" "[" items "]" ";"
--                 | IDENT "=" "{" (pair ("," pair)*)? "}" ";"
--                 | IDENT "=" expression ";"

-- The main function, behind its keyword.
def mainFunction (place : Location) (tokens : List Token) : Traced Tree tokens.length :=
  (expect (.mark .leftParen) "after 'main'" tokens).traced.andThen fun _ rest _ =>
  (expect (.mark .rightParen) "after 'main('" rest).traced.andThen fun _ rest _ =>
  (expect (.mark .leftBrace) "before main body" rest).traced.andThen fun _ rest _ =>
  (body "after main body" rest).map fun statements => .node .main statements place

-- One parameter and those behind it.
def parameters (tokens : List Token) : Outcome (List Tree) tokens.length :=
  (expect .identifier "in parameter list" tokens).andMaybe fun first rest _ =>
  let parameter := identifierNode first.text first.place
  match rest with
  | ⟨.mark .comma, _, _⟩ :: behind => ((parameters behind).map (parameter :: ·)).loosen.loosen
  | rest => .done [parameter] rest
termination_by tokens.length
decreasing_by all_goals grind

-- The parameters of a function and the closing parenthesis. The list stands
-- where its first token would, and be that the parenthesis.
def parameterList (tokens : List Token) : Outcome Tree tokens.length :=
  match tokens with
  | ⟨.mark .rightParen, _, place⟩ :: rest => .done (.node .paramList [] place) rest
  | tokens =>
    ((parameters tokens).closedBy (.mark .rightParen) "after parameters").map fun names =>
      .node .paramList names (nextPlace tokens)

-- A function, behind its keyword.
def functionDeclaration (place : Location) (tokens : List Token) : Traced Tree tokens.length :=
  (expect .identifier "as function name" tokens).traced.andThen fun name rest _ =>
  (expect (.mark .leftParen) "after function name" rest).traced.andThen fun _ rest _ =>
  (parameterList rest).traced.andThen fun params rest _ =>
  (expect (.mark .leftBrace) "before function body" rest).traced.andThen fun _ rest _ =>
  (body "after function body" rest).map fun statements =>
    .function name.text params statements place

-- The three declarations of a variable, behind the name.
def arrayDeclaration (name : String) (place : Location) (tokens : List Token) :
    Outcome Tree tokens.length :=
  (expect (.mark .assign) "after array name" tokens).andThen fun _ rest _ =>
  (expect (.mark .leftBracket) "to open array" rest).andThen fun _ rest _ =>
  (array (some name) place rest).closedBy (.mark .semicolon) "after array declaration"

def keyValueDeclaration (name : String) (place : Location) (tokens : List Token) :
    Outcome Tree tokens.length :=
  (expect (.mark .assign) "after key/value name" tokens).andThen fun _ rest _ =>
  (expect (.mark .leftBrace) "to open key/value block" rest).andThen fun _ rest _ =>
  (keyValue (some name) place rest).closedBy (.mark .semicolon) "after key/value declaration"

def valueDeclaration (name : String) (place : Location) (tokens : List Token) :
    Outcome Tree tokens.length :=
  (expect (.mark .assign) "after variable name" tokens).andThen fun _ rest _ =>
  ((expression rest).closedBy (.mark .semicolon) "after variable declaration").map fun value =>
    .node (.varDecl name) [value] place

-- The second token behind a name tells the three apart, whatever the first is.
def variableDeclaration (name : String) (place : Location) (tokens : List Token) :
    Outcome Tree tokens.length :=
  match (tokens[1]?).map Token.kind with
  | some (.mark .leftBracket) => arrayDeclaration name place tokens
  | some (.mark .leftBrace) => keyValueDeclaration name place tokens
  | _ => valueDeclaration name place tokens

def declaration (tokens : List Token) : Traced Tree tokens.length :=
  match tokens with
  | ⟨.keyword .functionWord, _, place⟩ :: behind => (functionDeclaration place behind).loosen
  | ⟨.keyword .mainWord, _, place⟩ :: behind => (mainFunction place behind).loosen
  | ⟨.identifier, name, place⟩ :: behind => (variableDeclaration name place behind).loosen.traced
  | tokens => (Outcome.refused .declaration tokens).traced

-- All declarations up to the end of input.
def declarations (tokens : List Token) : Traced (List Tree) (tokens.length + 1) :=
  match tokens with
  | [] => (Outcome.done [] []).traced
  | tokens =>
    ((declaration tokens).andMaybe fun first rest _ =>
      (declarations rest).map (first :: ·)).loosen
termination_by tokens.length

end ScriptIR.Grammar
