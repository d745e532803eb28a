import ScriptIR.Grammar.Expression

namespace ScriptIR.Grammar

-- The rules
--
--   items ::= item ("," item)*
--   item  ::= "[" items "]" | "{" (pair ("," pair)*)? "}" | expression
--   pair  ::= expression ":" item
--
-- An array has at least one item, and a block of pairs may be empty.

mutual

def item (tokens : List Token) : Outcome Tree tokens.length :=
  match tokens with
  | ⟨.mark .leftBracket, _, place⟩ :: inner => (array none place inner).loosen
  | ⟨.mark .leftBrace, _, place⟩ :: inner => (keyValue none place inner).loosen
  | tokens => expression tokens
termination_by 3 * tokens.length

-- An array, behind its opening bracket.
def array (name : Option String) (place : Location) (tokens : List Token) :
    Outcome Tree tokens.length :=
  ((items tokens).closedBy (.mark .rightBracket) "to close array").map fun values =>
    .node (.array name) [.node .expressionList values (nextPlace tokens)] place
termination_by 3 * tokens.length + 2

-- A block of pairs, behind its opening brace.
def keyValue (name : Option String) (place : Location) (tokens : List Token) :
    Outcome Tree tokens.length :=
  match tokens with
  | ⟨.mark .rightBrace, _, _⟩ :: rest => .done (.node (.keyValue name) [] place) rest
  | tokens =>
    ((pairs tokens).closedBy (.mark .rightBrace) "to close key/value block").map fun entries =>
      .node (.keyValue name) entries place
termination_by 3 * tokens.length + 2

def items (tokens : List Token) : Outcome (List Tree) tokens.length :=
  (item tokens).andMaybe fun first rest _ =>
  match rest with
  | ⟨.mark .comma, _, _⟩ :: behind => ((items behind).map (first :: ·)).loosen.loosen
  | rest => .done [first] rest
termination_by 3 * tokens.length + 1
decreasing_by all_goals grind

def pairs (tokens : List Token) : Outcome (List Tree) tokens.length :=
  ((expression tokens).closedBy (.mark .colon) "between key and value").andThen fun key rest _ =>
  (item rest).andMaybe fun value rest _ =>
  let pair : Tree := .node .pair [key, value] (nextPlace tokens)
  match rest with
  | ⟨.mark .comma, _, _⟩ :: behind => ((pairs behind).map (pair :: ·)).loosen.loosen
  | rest => .done [pair] rest
termination_by 3 * tokens.length + 1
decreasing_by all_goals grind

end

end ScriptIR.Grammar
