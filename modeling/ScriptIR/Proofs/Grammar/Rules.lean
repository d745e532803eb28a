import ScriptIR.Token.Kind

namespace ScriptIR.Grammar

-- The rules of the grammar by name.
inductive Rule where
  | program
  | main
  | function
  | parameters
  | varDecl
  | arrayDecl
  | keyValueDecl
  | items
  | item
  | pairs
  | pair
  | statement
  | expression
  | operand
  | arguments
  | operator
deriving DecidableEq

-- What may stand to the right of a rule.
inductive Form where
  | empty
  | never
  | token (kind : TokenKind)
  | rule (name : Rule)
  | seq (first second : Form)
  | either (first second : Form)
  | maybe (form : Form)
  | many (form : Form)
deriving DecidableEq

namespace Form

-- One behind the other.
def all : List Form → Form
  | [] => .empty
  | [form] => form
  | form :: rest => .seq form (all rest)

-- One of several.
def any : List Form → Form
  | [] => .never
  | [form] => form
  | form :: rest => .either form (any rest)

def mark (sign : Mark) : Form := .token (.mark sign)

def keyword (word : Keyword) : Form := .token (.keyword word)

def name : Form := .token .identifier

-- One or more, with commas between them.
def list (form : Form) : Form := .seq form (.many (.seq (mark .comma) form))

def parens (form : Form) : Form := all [mark .leftParen, form, mark .rightParen]

def bracketed (form : Form) : Form := all [mark .leftBracket, form, mark .rightBracket]

def braced (form : Form) : Form := all [mark .leftBrace, form, mark .rightBrace]

-- The counter of a loop and its bounds.
def bounds : Form := all [name, mark .colon, rule .expression, mark .comma, rule .expression]

def declaration : Form :=
  any [rule .function, rule .main, rule .arrayDecl, rule .keyValueDecl, rule .varDecl]

end Form

open Form in
-- The grammar. It looks at no token ahead, and an else may belong to any if in
-- front of it that has none yet.
def Rule.form : Rule → Form
  | .program => many declaration
  | .main => all [keyword .mainWord, parens empty, braced (many (rule statement))]
  | .function =>
    all [keyword .functionWord, Form.name, parens (rule parameters), braced (many (rule statement))]
  | .parameters => maybe (list Form.name)
  | .varDecl => all [Form.name, mark .assign, rule expression, mark .semicolon]
  | .arrayDecl => all [Form.name, mark .assign, bracketed (rule items), mark .semicolon]
  | .keyValueDecl => all [Form.name, mark .assign, braced (rule pairs), mark .semicolon]
  | .items => list (rule item)
  | .item => any [bracketed (rule items), braced (rule pairs), rule expression]
  | .pairs => maybe (list (rule pair))
  | .pair => all [rule expression, mark .colon, rule item]
  | .statement => any [
    all [Form.name, parens (maybe (rule arguments)), mark .semicolon],
    all [Form.name, maybe (bracketed (rule expression)), mark .assign, rule expression,
      mark .semicolon],
    all [keyword .ifWord, parens (rule expression), rule statement,
      maybe (all [keyword .elseWord, rule statement])],
    all [keyword .forWord, parens bounds, rule statement],
    all [keyword .returnWord, maybe (rule expression), mark .semicolon],
    braced (many (rule statement))]
  | .expression => all [rule operand, maybe (all [rule operator, rule expression])]
  | .operand => any [
    parens (rule expression),
    all [Form.name, parens (maybe (rule arguments))],
    all [Form.name, maybe (bracketed (rule expression))],
    token (.literal .int), token (.literal .float), token (.literal .string)]
  | .arguments => list (rule expression)
  | .operator => any [
    token (.operator .plus), token (.operator .minus), token (.operator .star),
    token (.operator .slash), token (.operator .greater), token (.operator .less),
    token (.operator .greaterEqual), token (.operator .lessEqual), token (.operator .equal)]

-- The kinds of tokens that a form can be replaced by, rule for rule.
inductive Derives : Form → List TokenKind → Prop
  | empty : Derives .empty []
  | token (kind : TokenKind) : Derives (.token kind) [kind]
  | rule {name : Rule} {kinds : List TokenKind} : Derives name.form kinds →
      Derives (.rule name) kinds
  | seq {first second : Form} {front back : List TokenKind} : Derives first front →
      Derives second back → Derives (.seq first second) (front ++ back)
  | left {first second : Form} {kinds : List TokenKind} : Derives first kinds →
      Derives (.either first second) kinds
  | right {first second : Form} {kinds : List TokenKind} : Derives second kinds →
      Derives (.either first second) kinds
  | none {form : Form} : Derives (.maybe form) []
  | some {form : Form} {kinds : List TokenKind} : Derives form kinds → Derives (.maybe form) kinds
  | nil {form : Form} : Derives (.many form) []
  | cons {form : Form} {front back : List TokenKind} : Derives form front →
      Derives (.many form) back → Derives (.many form) (front ++ back)

namespace Derives

variable {form other : Form} {forms : List Form} {front back kinds : List TokenKind}

theorem list_last (h : Derives form front) : Derives form.list front := by
  rw [← List.append_nil front]
  exact .seq h .nil

theorem list_more (h : Derives form front) (hm : Derives form.list back) :
    Derives form.list (front ++ .mark .comma :: back) := by
  cases hm with
  | seq hf hb => exact .seq h (.cons (.seq (.token _) hf) hb)

theorem seq_none (h : Derives form front) : Derives (.seq form (.maybe other)) front := by
  rw [← List.append_nil front]
  exact .seq h .none

-- What is in braces, up to the closing one.
theorem braced_of (h : ∃ front, back = front ++ [.mark .rightBrace] ∧ Derives form front) :
    Derives (.braced form) (.mark .leftBrace :: back) := by
  obtain ⟨front, rfl, hf⟩ := h
  exact .seq (.token _) (.seq hf (.token _))

theorem any (hm : form ∈ forms) (h : Derives form kinds) : Derives (.any forms) kinds := by
  induction forms with
  | nil => cases hm
  | cons first rest ih =>
    cases rest with
    | nil =>
      obtain rfl := List.mem_singleton.mp hm
      exact h
    | cons second rest =>
      obtain rfl | hm := List.mem_cons.mp hm
      · exact .left h
      · exact .right (ih hm)

theorem operator (sign : Operator) : Derives (.rule .operator) [.operator sign] := by
  refine .rule (.any ?_ (.token _))
  cases sign <;> decide

end Derives

end ScriptIR.Grammar
