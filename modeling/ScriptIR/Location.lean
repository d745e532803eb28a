namespace ScriptIR

-- A place in a source text. Lines and columns count from one, and a column
-- is one Unicode scalar value.
structure Location where
  line : Nat
  column : Nat
deriving DecidableEq

namespace Location

-- Where every source begins.
def start : Location := ⟨1, 1⟩

-- The place just behind a character. Only a line feed opens a new line, so a
-- tab and a carriage return are one column wide like any other character.
def after (place : Location) (c : Char) : Location :=
  if c = '\n' then ⟨place.line + 1, 1⟩ else ⟨place.line, place.column + 1⟩

-- The place just behind a whole text.
def afterAll (place : Location) (text : List Char) : Location :=
  text.foldl after place

theorem afterAll_nil (place : Location) : place.afterAll [] = place := rfl

theorem afterAll_cons (place : Location) (c : Char) (text : List Char) :
    place.afterAll (c :: text) = (place.after c).afterAll text := rfl

theorem afterAll_append (place : Location) (text more : List Char) :
    place.afterAll (text ++ more) = (place.afterAll text).afterAll more := by
  simp only [afterAll, List.foldl_append]

-- The wording that every message pointing into a source shares.
def describe (place : Location) : String :=
  s!"line {place.line}, column {place.column}"

end Location

end ScriptIR
