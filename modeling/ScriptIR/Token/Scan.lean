import ScriptIR.Token.Basic

namespace ScriptIR

-- The smallest stretches of a source that the language tells apart. A source
-- is the plain concatenation of its pieces.
inductive Piece where
  -- one character of white space
  | blank (c : Char)
  -- a comment without its number sign and without the line feed behind it
  | comment (body : List Char)
  -- a number, a word, an operator or a mark
  | lexeme (kind : TokenKind) (text : List Char)
  -- a string literal, which may lack its closing quote at the end of a source
  | quoted (body : List Char) (closed : Bool)
  -- a character that begins nothing
  | stray (c : Char)
deriving DecidableEq

namespace Piece

-- The characters that a piece was cut from.
def source : Piece → List Char
  | .blank c => [c]
  | .comment body => '#' :: body
  | .lexeme _ text => text
  | .quoted body closed => '"' :: body ++ if closed then ['"'] else []
  | .stray c => [c]

def isBlank (c : Char) : Bool :=
  c = ' ' || c = '\t' || c = '\n' || c = '\r' || c = '\x0b' || c = '\x0c'

def beginsWord (c : Char) : Bool := c.isAlpha || c = '_'

def continuesWord (c : Char) : Bool := c.isAlphanum || c = '_'

-- A word of six spellings is a keyword, every other word an identifier.
def wordKind (text : List Char) : TokenKind :=
  match Keyword.all.find? (·.spelling.toList = text) with
  | some word => .keyword word
  | none => .identifier

-- Cuts the body of a string literal behind its opening quote, and gives what
-- follows the closing quote. A backslash protects the next character, and both
-- stay in the body.
def cutBody : List Char → List Char × Option (List Char)
  | [] => ([], none)
  | '"' :: rest => ([], some rest)
  | '\\' :: c :: rest =>
    let (body, behind) := cutBody rest
    ('\\' :: c :: body, behind)
  | c :: rest =>
    let (body, behind) := cutBody rest
    (c :: body, behind)

def cutString (rest : List Char) : Piece × List Char :=
  match cutBody rest with
  | (body, some behind) => (.quoted body true, behind)
  | (body, none) => (.quoted body false, [])

-- A point belongs to a number only if a digit follows it.
def cutNumber (first : Char) (rest : List Char) : Piece × List Char :=
  let whole := first :: rest.takeWhile Char.isDigit
  match rest.dropWhile Char.isDigit with
  | '.' :: d :: more =>
    if d.isDigit then
      (.lexeme (.literal .float) (whole ++ '.' :: d :: more.takeWhile Char.isDigit),
        more.dropWhile Char.isDigit)
    else (.lexeme (.literal .int) whole, '.' :: d :: more)
  | behind => (.lexeme (.literal .int) whole, behind)

def cutWord (first : Char) (rest : List Char) : Piece × List Char :=
  let text := first :: rest.takeWhile continuesWord
  (.lexeme (wordKind text) text, rest.dropWhile continuesWord)

-- Operators and marks of one character.
def signOf? : Char → Option TokenKind
  | '+' => some (.operator .plus)
  | '-' => some (.operator .minus)
  | '*' => some (.operator .star)
  | '/' => some (.operator .slash)
  | '>' => some (.operator .greater)
  | '<' => some (.operator .less)
  | '=' => some (.mark .assign)
  | ':' => some (.mark .colon)
  | ';' => some (.mark .semicolon)
  | ',' => some (.mark .comma)
  | '(' => some (.mark .leftParen)
  | ')' => some (.mark .rightParen)
  | '[' => some (.mark .leftBracket)
  | ']' => some (.mark .rightBracket)
  | '\x7b' => some (.mark .leftBrace)
  | '\x7d' => some (.mark .rightBrace)
  | _ => none

-- The operators that an equals sign completes.
def signWithEquals? : Char → Option Operator
  | '=' => some .equal
  | '>' => some .greaterEqual
  | '<' => some .lessEqual
  | _ => none

def cutSingle (c : Char) (rest : List Char) : Piece × List Char :=
  match signOf? c with
  | some kind => (.lexeme kind [c], rest)
  | none => (.stray c, rest)

def cutSign (c : Char) (rest : List Char) : Piece × List Char :=
  match rest with
  | '=' :: more =>
    match signWithEquals? c with
    | some sign => (.lexeme (.operator sign) [c, '='], more)
    | none => cutSingle c rest
  | _ => cutSingle c rest

-- The longest piece at the beginning of a text that is not empty, and what is
-- behind it.
def cut (c : Char) (rest : List Char) : Piece × List Char :=
  if isBlank c then (.blank c, rest)
  else if c = '#' then (.comment (rest.takeWhile (· ≠ '\n')), rest.dropWhile (· ≠ '\n'))
  else if c = '"' then cutString rest
  else if c.isDigit then cutNumber c rest
  else if beginsWord c then cutWord c rest
  else cutSign c rest

private theorem cutBody_source (text : List Char) :
    (cutBody text).1 ++ (match (cutBody text).2 with
      | some behind => '"' :: behind
      | none => []) = text := by
  fun_induction cutBody text with
  | case1 => rfl
  | case2 rest => rfl
  | case3 c rest body behind h ih =>
    rw [h] at ih
    simpa using ih
  | case4 c rest _ _ body behind h ih =>
    rw [h] at ih
    simpa using ih

private theorem cutString_source (rest : List Char) :
    (cutString rest).1.source ++ (cutString rest).2 = '"' :: rest := by
  have hs := cutBody_source rest
  unfold cutString
  rcases h : cutBody rest with ⟨body, _ | behind⟩
  · simp only [h] at hs
    simpa [source] using hs
  · simp only [h] at hs
    simp only [source, if_true, List.cons_append, List.append_assoc, List.nil_append]
    exact congrArg ('"' :: ·) hs

private theorem cutNumber_source (first : Char) (rest : List Char) :
    (cutNumber first rest).1.source ++ (cutNumber first rest).2 = first :: rest := by
  have hs : rest.takeWhile Char.isDigit ++ rest.dropWhile Char.isDigit = rest :=
    List.takeWhile_append_dropWhile
  unfold cutNumber
  split
  · rename_i d more h
    rw [h] at hs
    split
    · simpa [source, List.takeWhile_append_dropWhile] using hs
    · simpa [source] using hs
  · simp [source]

private theorem cutSingle_source (c : Char) (rest : List Char) :
    (cutSingle c rest).1.source ++ (cutSingle c rest).2 = c :: rest := by
  unfold cutSingle
  split <;> rfl

private theorem cutSign_source (c : Char) (rest : List Char) :
    (cutSign c rest).1.source ++ (cutSign c rest).2 = c :: rest := by
  unfold cutSign
  split
  · split
    · rfl
    · exact cutSingle_source c _
  · exact cutSingle_source c _

-- Nothing is lost, doubled or moved by a cut.
theorem cut_source (c : Char) (rest : List Char) :
    (cut c rest).1.source ++ (cut c rest).2 = c :: rest := by
  unfold cut
  split
  · rfl
  split
  · rename_i h
    simp [source, h, List.takeWhile_append_dropWhile]
  split
  · rename_i h
    rw [h]
    exact cutString_source rest
  split
  · exact cutNumber_source c rest
  split
  · simp [cutWord, source, List.takeWhile_append_dropWhile]
  · exact cutSign_source c rest

private theorem cutNumber_source_ne_nil (c : Char) (rest : List Char) :
    (cutNumber c rest).1.source ≠ [] := by
  unfold cutNumber
  split
  · split <;> simp [source]
  · simp [source]

private theorem cutSingle_source_ne_nil (c : Char) (rest : List Char) :
    (cutSingle c rest).1.source ≠ [] := by
  unfold cutSingle
  split <;> simp [source]

private theorem cutSign_source_ne_nil (c : Char) (rest : List Char) :
    (cutSign c rest).1.source ≠ [] := by
  unfold cutSign
  split
  · split
    · simp [source]
    · exact cutSingle_source_ne_nil c _
  · exact cutSingle_source_ne_nil c _

-- Every cut takes at least one character.
theorem cut_source_ne_nil (c : Char) (rest : List Char) : (cut c rest).1.source ≠ [] := by
  unfold cut
  split
  · simp [source]
  split
  · simp [source]
  split
  · unfold cutString
    split <;> simp [source]
  split
  · exact cutNumber_source_ne_nil c rest
  split
  · simp [cutWord, source]
  · exact cutSign_source_ne_nil c rest

theorem cut_length (c : Char) (rest : List Char) : (cut c rest).2.length < rest.length + 1 := by
  have hl := congrArg List.length (cut_source c rest)
  have hn := List.length_pos_iff.mpr (cut_source_ne_nil c rest)
  simp only [List.length_append, List.length_cons] at hl
  omega

-- A whole text, cut from the left.
def ofText : List Char → List Piece
  | [] => []
  | c :: rest => (cut c rest).1 :: ofText (cut c rest).2
termination_by text => text.length
decreasing_by exact cut_length c rest

theorem ofText_nil : ofText [] = [] := by
  rw [ofText]

theorem ofText_cons (c : Char) (rest : List Char) :
    ofText (c :: rest) = (cut c rest).1 :: ofText (cut c rest).2 := by
  rw [ofText]

-- The pieces of a text put together again are the text.
theorem source_ofText (text : List Char) : (ofText text).flatMap source = text := by
  fun_induction ofText text with
  | case1 => rfl
  | case2 c rest ih => rw [List.flatMap_cons, ih, cut_source]

-- Pieces beside the places where they begin.
def locate (place : Location) : List Piece → List (Location × Piece)
  | [] => []
  | piece :: rest => (place, piece) :: locate (place.afterAll piece.source) rest

-- The token that a piece is, if it is one. A string literal without its closing
-- quote is a token all the same.
def token? : Location × Piece → Option Token
  | (place, .lexeme kind text) => some ⟨kind, String.ofList text, place⟩
  | (place, .quoted body _) => some ⟨.literal .string, String.ofList body, place⟩
  | _ => none

-- What is wrong with a piece. A string literal is blamed where it opens.
def diagnostic? : Location × Piece → Option Diagnostic
  | (place, .stray c) => some ⟨.unrecognized c, place⟩
  | (place, .quoted _ false) => some ⟨.unterminated, place⟩
  | _ => none

end Piece

-- A source on its way to becoming tokens: the text not yet read, where that
-- text begins, and what was found wrong with the text read so far.
structure Scanner where
  unread : List Char
  place : Location
  diagnostics : List Diagnostic

namespace Scanner

def ofSource (source : String) : Scanner := ⟨source.toList, .start, []⟩

-- Reads all that is left.
def finish (scanner : Scanner) : List Token × Scanner :=
  let pieces := Piece.locate scanner.place (Piece.ofText scanner.unread)
  (pieces.filterMap Piece.token?,
    { unread := []
      place := scanner.place.afterAll scanner.unread
      diagnostics := scanner.diagnostics ++ pieces.filterMap Piece.diagnostic? })

end Scanner

-- A source as the grammar sees it, with what was skipped or mended on the way.
structure Lexed where
  tokens : List Token
  diagnostics : List Diagnostic

def Lexed.ofSource (source : String) : Lexed :=
  let (tokens, scanner) := (Scanner.ofSource source).finish
  ⟨tokens, scanner.diagnostics⟩

end ScriptIR
