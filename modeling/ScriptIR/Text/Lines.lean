namespace ScriptIR.Text

-- A line without a carriage return at its end.
def chomp (line : List Char) : List Char :=
  if line.getLast? = some '\r' then line.dropLast else line

private theorem length_drop_line (text : List Char) :
    (text.dropWhile (· ≠ '\n')).length ≤ text.length := by
  have hs := congrArg List.length (List.takeWhile_append_dropWhile (p := (· ≠ '\n')) (l := text))
  simp only [List.length_append] at hs
  omega

-- The lines of a text. A line feed ends a line, alone or behind a carriage
-- return, and what follows the last line feed is a line unless it is empty.
def lines (text : List Char) : List (List Char) :=
  match _h : text.dropWhile (· ≠ '\n') with
  | _ :: behind => chomp (text.takeWhile (· ≠ '\n')) :: lines behind
  | [] => if text.isEmpty then [] else [text]
termination_by text.length
decreasing_by
  have hl := length_drop_line text
  simp only [_h, List.length_cons] at hl
  omega

-- Fills a field up to a width. A text that is too long keeps its length.
def padLeft (width : Nat) (text : List Char) : List Char :=
  List.replicate (width - text.length) ' ' ++ text

def padRight (width : Nat) (text : List Char) : List Char :=
  text ++ List.replicate (width - text.length) ' '

-- Cuts at the first colon that a space follows. The second part begins with
-- that colon, and is empty if there is none.
def cutAtColon : List Char → List Char × List Char
  | [] => ([], [])
  | ':' :: ' ' :: rest => ([], ':' :: ' ' :: rest)
  | c :: rest =>
    let (front, back) := cutAtColon rest
    (c :: front, back)

end ScriptIR.Text
