namespace ScriptIR

-- Literals differ by how they are written. No stage looks at their values.
inductive Literal where
  | int
  | float
  | string
deriving DecidableEq

-- The binary operators. They have no precedence among themselves.
inductive Operator where
  | plus
  | minus
  | star
  | slash
  | greater
  | less
  | greaterEqual
  | lessEqual
  | equal
deriving DecidableEq

-- Words that can be no identifier.
inductive Keyword where
  | mainWord
  | functionWord
  | forWord
  | ifWord
  | elseWord
  | returnWord
deriving DecidableEq

-- Punctuation, the sign of assignment included.
inductive Mark where
  | assign
  | colon
  | semicolon
  | comma
  | leftParen
  | rightParen
  | leftBracket
  | rightBracket
  | leftBrace
  | rightBrace
deriving DecidableEq

-- All that the grammar sees of a token. A source ends where its tokens end,
-- so there is no kind for the end of input.
inductive TokenKind where
  | literal (form : Literal)
  | identifier
  | operator (sign : Operator)
  | keyword (word : Keyword)
  | mark (sign : Mark)
deriving DecidableEq

def Operator.spelling : Operator → String
  | .plus => "+"
  | .minus => "-"
  | .star => "*"
  | .slash => "/"
  | .greater => ">"
  | .less => "<"
  | .greaterEqual => ">="
  | .lessEqual => "<="
  | .equal => "=="

def Keyword.spelling : Keyword → String
  | .mainWord => "main"
  | .functionWord => "function"
  | .forWord => "for"
  | .ifWord => "if"
  | .elseWord => "else"
  | .returnWord => "return"

def Mark.spelling : Mark → String
  | .assign => "="
  | .colon => ":"
  | .semicolon => ";"
  | .comma => ","
  | .leftParen => "("
  | .rightParen => ")"
  | .leftBracket => "["
  | .rightBracket => "]"
  | .leftBrace => "\x7b"
  | .rightBrace => "\x7d"

def Literal.all : List Literal := [.int, .float, .string]

def Operator.all : List Operator :=
  [.plus, .minus, .star, .slash, .greater, .less, .greaterEqual, .lessEqual, .equal]

def Keyword.all : List Keyword :=
  [.mainWord, .functionWord, .forWord, .ifWord, .elseWord, .returnWord]

def Mark.all : List Mark :=
  [.assign, .colon, .semicolon, .comma, .leftParen, .rightParen, .leftBracket, .rightBracket,
    .leftBrace, .rightBrace]

namespace TokenKind

def all : List TokenKind :=
  Literal.all.map .literal ++ [.identifier] ++ Operator.all.map .operator ++
    Keyword.all.map .keyword ++ Mark.all.map .mark

def isLiteral : TokenKind → Bool
  | .literal _ => true
  | _ => false

def isOperator : TokenKind → Bool
  | .operator _ => true
  | _ => false

def isKeyword : TokenKind → Bool
  | .keyword _ => true
  | _ => false

-- The name of a kind in token listings.
def tag : TokenKind → String
  | .literal .int => "TOKEN_INT"
  | .literal .float => "TOKEN_FLOAT"
  | .literal .string => "TOKEN_STRING"
  | .identifier => "TOKEN_IDENTIFIER"
  | .operator .plus => "TOKEN_PLUS"
  | .operator .minus => "TOKEN_MINUS"
  | .operator .star => "TOKEN_STAR"
  | .operator .slash => "TOKEN_SLASH"
  | .operator .greater => "TOKEN_GREATER"
  | .operator .less => "TOKEN_LESS"
  | .operator .greaterEqual => "TOKEN_GREATER_EQUAL"
  | .operator .lessEqual => "TOKEN_LESS_EQUAL"
  | .operator .equal => "TOKEN_EQUAL"
  | .keyword .mainWord => "TOKEN_MAIN"
  | .keyword .functionWord => "TOKEN_FUNCTION"
  | .keyword .forWord => "TOKEN_FOR"
  | .keyword .ifWord => "TOKEN_IF"
  | .keyword .elseWord => "TOKEN_ELSE"
  | .keyword .returnWord => "TOKEN_RETURN"
  | .mark .assign => "TOKEN_EQUALS"
  | .mark .colon => "TOKEN_COLON"
  | .mark .semicolon => "TOKEN_SEMICOLON"
  | .mark .comma => "TOKEN_COMMA"
  | .mark .leftParen => "TOKEN_LEFT_PAREN"
  | .mark .rightParen => "TOKEN_RIGHT_PAREN"
  | .mark .leftBracket => "TOKEN_LEFT_SQUARE_BRACKET"
  | .mark .rightBracket => "TOKEN_RIGHT_SQUARE_BRACKET"
  | .mark .leftBrace => "TOKEN_LEFT_CURLY_BRACE"
  | .mark .rightBrace => "TOKEN_RIGHT_CURLY_BRACE"

-- The kind that a listing means by a tag.
def ofTag? (text : String) : Option TokenKind :=
  all.find? (·.tag = text)

private def quoted (spelling : String) : String := s!"'{spelling}'"

-- How a message names a kind. Kinds of one spelling are named by it.
def describe : TokenKind → String
  | .literal .int => "integer literal"
  | .literal .float => "float literal"
  | .literal .string => "string literal"
  | .identifier => "identifier"
  | .operator sign => quoted sign.spelling
  | .keyword word => quoted word.spelling
  | .mark sign => quoted sign.spelling

end TokenKind

end ScriptIR
