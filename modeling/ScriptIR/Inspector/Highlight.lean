import ScriptIR.Inspector.Theme
import ScriptIR.Screen.Cell
import ScriptIR.Text.Alphanumeric

namespace ScriptIR.Inspector

open Screen

-- Colours for one line of a source. The line is cut by rules of its own and not
-- by those of the grammar, so that it is coloured as well where the grammar
-- would complain.
namespace Highlight

def isNumber (word : List Char) : Bool :=
  !word.isEmpty && word.all fun c => c.isDigit || c = '.'

-- A point continues a number and nothing else.
def continues (word : List Char) (c : Char) : Bool :=
  Text.isAlphanumeric c || c = '_' || (c = '.' && isNumber word)

def isKeyword (word : List Char) : Bool :=
  ["main", "function", "for", "if", "else", "return"].any (·.toList = word)

def wordStyle (word : List Char) (called : Bool) : Style :=
  if isKeyword word then .boldColour Theme.keyword
  else if isNumber word then .colour Theme.number
  else if called then .colour Theme.function
  else .colour Theme.text

-- The word read so far, if there is one.
def flush (word : List Char) (called : Bool) : Line :=
  if word.isEmpty then [] else [⟨word, wordStyle word called⟩]

def signStyle (c : Char) : Style :=
  if c = '\x7b' || c = '\x7d' || c = '(' || c = ')' || c = '[' || c = ']' then
    .colour Theme.primary
  else .colour Theme.text

-- A string literal behind its opening quote, with the closing quote if there is
-- one, and what is behind it. A backslash protects the next character.
def cutString : List Char → List Char × List Char
  | [] => ([], [])
  | '"' :: rest => (['"'], rest)
  | '\\' :: c :: rest =>
    let (literal, behind) := cutString rest
    ('\\' :: c :: literal, behind)
  | c :: rest =>
    let (literal, behind) := cutString rest
    (c :: literal, behind)

theorem cutString_append (text : List Char) : (cutString text).1 ++ (cutString text).2 = text := by
  fun_induction cutString text with
  | case1 => rfl
  | case2 rest => rfl
  | case3 c rest literal behind h ih => simpa [h] using ih
  | case4 c rest _ _ literal behind h ih => simpa [h] using ih

private theorem cutString_length (text : List Char) :
    (cutString text).2.length ≤ text.length := by
  have hl := congrArg List.length (cutString_append text)
  simp only [List.length_append] at hl
  omega

-- Colours for the rest of a line, a word having been read up to here.
def line (word : List Char) (text : List Char) : Line :=
  match text with
  | [] => flush word false
  | c :: rest =>
    if c = '#' then flush word false ++ [⟨c :: rest, .colour Theme.comment⟩]
    else if c = '"' then
      flush word false ++ ⟨c :: (cutString rest).1, .colour Theme.string⟩ ::
        line [] (cutString rest).2
    else if continues word c then line (word ++ [c]) rest
    else flush word (c = '(') ++ ⟨[c], signStyle c⟩ :: line [] rest
termination_by text.length
decreasing_by
  · have hl := cutString_length rest
    simp only [List.length_cons]
    omega
  · simp
  · simp

end Highlight

def highlight (text : List Char) : Line := Highlight.line [] text

end ScriptIR.Inspector
