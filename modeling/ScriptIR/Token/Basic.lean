import ScriptIR.Location
import ScriptIR.Token.Kind

namespace ScriptIR

-- One word of a source. The text of a string literal is its body without the
-- quotes, and every other text is the word as it was written.
structure Token where
  kind : TokenKind
  text : String
  place : Location
deriving DecidableEq

-- How a message names a token that it did not expect. Words that are one of
-- many of their kind show their text.
def Token.describe (token : Token) : String :=
  match token.kind with
  | .identifier => s!"identifier '{token.text}'"
  | .literal .string => "string literal \"" ++ token.text ++ "\""
  | .literal _ => s!"{token.kind.describe} {token.text}"
  | _ => token.kind.describe

-- What can be wrong with a source below the level of its grammar.
inductive Complaint where
  | unrecognized (c : Char)
  | unterminated
deriving DecidableEq

def Complaint.message : Complaint → String
  | .unrecognized c => s!"Unrecognized token starting at '{c}'"
  | .unterminated => "Unterminated string literal"

-- A complaint about one place. Diagnostics never stop a compilation.
structure Diagnostic where
  complaint : Complaint
  place : Location
deriving DecidableEq

def Diagnostic.message (diagnostic : Diagnostic) : String :=
  diagnostic.complaint.message

def Diagnostic.describe (diagnostic : Diagnostic) : String :=
  s!"Lexer warning at {diagnostic.place.describe}: {diagnostic.message}"

end ScriptIR
