import ScriptIR.Token.Scan

namespace ScriptIR

-- The lexical grammar, said without a scanner.
namespace Lexical

def IsBlank (c : Char) : Prop := c ∈ [' ', '\t', '\n', '\r', '\x0b', '\x0c']

-- A run of digits.
def IsRun (text : List Char) : Prop := text ≠ [] ∧ ∀ c ∈ text, c.isDigit = true

-- Letters are those of ASCII.
inductive IsWord : List Char → Prop
  | word {first : Char} {rest : List Char} : (first.isAlpha = true ∨ first = '_') →
      (∀ c ∈ rest, c.isAlphanum = true ∨ c = '_') → IsWord (first :: rest)

-- What may stand between two quotes.
inductive IsBody : List Char → Prop
  | nil : IsBody []
  | plain {c : Char} {body : List Char} : c ≠ '"' → c ≠ '\\' → IsBody body → IsBody (c :: body)
  | escape (c : Char) {body : List Char} : IsBody body → IsBody ('\\' :: c :: body)

-- What is written for a token, its kind and the text that it keeps.
inductive Lexeme : List Char → TokenKind → List Char → Prop
  | int {digits : List Char} : IsRun digits → Lexeme digits (.literal .int) digits
  | float {whole part : List Char} : IsRun whole → IsRun part →
      Lexeme (whole ++ '.' :: part) (.literal .float) (whole ++ '.' :: part)
  | keyword (word : Keyword) :
      Lexeme word.spelling.toList (.keyword word) word.spelling.toList
  | identifier {word : List Char} : IsWord word →
      (∀ keyword : Keyword, word ≠ keyword.spelling.toList) → Lexeme word .identifier word
  | string {body : List Char} : IsBody body →
      Lexeme ('"' :: (body ++ ['"'])) (.literal .string) body
  | operator (sign : Operator) : Lexeme sign.spelling.toList (.operator sign) sign.spelling.toList
  | mark (sign : Mark) : Lexeme sign.spelling.toList (.mark sign) sign.spelling.toList

-- No lexeme that a text begins with is longer.
def Longest (written text : List Char) : Prop :=
  ∀ other kind kept, Lexeme other kind kept → other <+: text → other.length ≤ written.length

-- The scan of a text from a place on, with its tokens and its diagnostics. It
-- goes from the left and takes the longest lexeme each time. Only the last
-- stretch of a text can be a string literal without an end.
inductive Scan : Location → List Char → List Token → List Diagnostic → Prop
  | done {place : Location} : Scan place [] [] []
  | blank {place : Location} {c : Char} {rest : List Char} {tokens : List Token}
      {diagnostics : List Diagnostic} : IsBlank c →
      Scan (place.after c) rest tokens diagnostics →
      Scan place (c :: rest) tokens diagnostics
  | comment {place : Location} {body rest : List Char} {tokens : List Token}
      {diagnostics : List Diagnostic} : '\n' ∉ body → (∀ c ∈ rest.head?, c = '\n') →
      Scan (place.afterAll ('#' :: body)) rest tokens diagnostics →
      Scan place ('#' :: (body ++ rest)) tokens diagnostics
  | token {place : Location} {written kept rest : List Char} {kind : TokenKind}
      {tokens : List Token} {diagnostics : List Diagnostic} : Lexeme written kind kept →
      Longest written (written ++ rest) →
      Scan (place.afterAll written) rest tokens diagnostics →
      Scan place (written ++ rest) (⟨kind, String.ofList kept, place⟩ :: tokens) diagnostics
  | unclosed {place : Location} {body : List Char} :
      (∀ front, IsBody front → ¬ front ++ ['"'] <+: body) →
      Scan place ('"' :: body) [⟨.literal .string, String.ofList body, place⟩]
        [⟨.unterminated, place⟩]
  | stray {place : Location} {c : Char} {rest : List Char} {tokens : List Token}
      {diagnostics : List Diagnostic} : ¬ IsBlank c → c ≠ '#' → c ≠ '"' →
      (∀ written kind kept, Lexeme written kind kept → ¬ written <+: c :: rest) →
      Scan (place.after c) rest tokens diagnostics →
      Scan place (c :: rest) tokens (⟨.unrecognized c, place⟩ :: diagnostics)

theorem isBlank_iff {c : Char} : IsBlank c ↔ Piece.isBlank c = true := by
  simp [IsBlank, Piece.isBlank, or_assoc]

end Lexical

end ScriptIR
