import ScriptIR.Grammar.Declaration

namespace ScriptIR

open Grammar

-- The first place where a list of tokens leaves the grammar. There is no token
-- where the list ends in the middle of a rule.
structure SyntaxError where
  wanted : Wanted
  found : Option Token
  place : Location
deriving DecidableEq

-- How a message names what was found.
def SyntaxError.foundText (error : SyntaxError) : String :=
  match error.found with
  | some token => token.describe
  | none => "end of input"

def SyntaxError.describe (error : SyntaxError) : String :=
  s!"Syntax error at {error.place.describe}: expected {error.wanted.describe}, found {error.foundText}"

-- A list of tokens and the part of it that no program has used yet.
structure Reader where
  tokens : List Token
  unread : List Token

namespace Reader

def ofTokens (tokens : List Token) : Reader := ⟨tokens, tokens⟩

-- The error for a refusal in front of some tokens. The end of input is blamed
-- on the last token that there is.
def errorAt (reader : Reader) (wanted : Wanted) (rest : List Token) : SyntaxError :=
  match rest with
  | token :: _ => ⟨wanted, some token, token.place⟩
  | [] => ⟨wanted, none, (reader.tokens.getLast?.map Token.place).getD .start⟩

-- What came of reading a program: the choices made, and the tree or the error.
structure Reading where
  choices : List Choice
  result : Except SyntaxError Tree

-- Reads a program from what is unread. After an error the refused token is
-- unread still.
def program (reader : Reader) : Reading × Reader :=
  let read := declarations reader.unread
  match read.outcome with
  | .parsed trees rest _ =>
    (⟨read.choices, .ok (.node .program trees .start)⟩, { reader with unread := rest })
  | .refused wanted rest =>
    (⟨read.choices, .error (reader.errorAt wanted rest)⟩, { reader with unread := rest })

-- Reads one program after the other.
def programs (reader : Reader) : Nat → List Reading
  | 0 => []
  | runs + 1 => reader.program.1 :: reader.program.2.programs runs

end Reader

-- The program that a whole list of tokens is.
def parse (tokens : List Token) : Except SyntaxError Tree :=
  (Reader.ofTokens tokens).program.1.result

end ScriptIR
