import Mathlib
import ScriptIR.Inspector.Highlight
import ScriptIR.Proofs.Token.Places
import ScriptIR.Proofs.Token.Written

namespace ScriptIR

open Lexical Piece

namespace Token

-- The place just behind a token.
def behind (token : Token) : Location := token.place.afterAll token.written.toList

def isNumber (token : Token) : Bool :=
  token.kind = .literal .int || token.kind = .literal .float

def isName (token : Token) : Bool := token.kind = .identifier || token.kind.isKeyword

-- The tokens that a letter or a digit could go on with.
def isWord (token : Token) : Bool := token.isNumber || token.isName

def isSign (token : Token) : Bool :=
  match token.kind with
  | .operator _ | .mark _ => true
  | _ => false

end Token

-- Tokens, each beside the token that follows it without a gap.
def touching : List Token → List (Token × Option Token)
  | [] => []
  | token :: rest =>
    (token, rest.head?.filter fun next => next.place = token.behind) :: touching rest

-- Whether no number has a name at once behind it.
def apart (tokens : List Token) : Bool :=
  (touching tokens).all fun pair => !(pair.1.isNumber && pair.2.any Token.isName)

-- Whether an opening parenthesis is what follows without a gap.
def opens (next : Option Token) : Bool := next.any fun token => token.kind = .mark .leftParen

namespace Inspector

open Screen

namespace Highlight

theorem lt_of_isAlphanum {c : Char} (h : c.isAlphanum = true) : c.toNat < 0x80 := by
  simp only [Char.isAlphanum, Char.isAlpha, Char.isUpper, Char.isLower, Char.isDigit,
    Bool.or_eq_true, Bool.and_eq_true, decide_eq_true_eq, UInt32.le_iff_toNat_le] at h
  have hv : c.toNat = c.val.toNat := rfl
  simp at h
  omega

theorem continues_of_continuesWord {c : Char} (h : continuesWord c = true) (word : List Char) :
    continues word c = true := by
  rw [continuesWord, Bool.or_eq_true] at h
  rw [continues, Bool.or_eq_true, Bool.or_eq_true]
  obtain h | h := h
  · refine .inl (.inl ?_)
    rw [Text.isAlphanumeric, if_pos (lt_of_isAlphanum h), h]
  · exact .inl (.inr h)

theorem continues_of_isDigit {c : Char} (h : c.isDigit = true) (word : List Char) :
    continues word c = true :=
  continues_of_continuesWord (by simp [continuesWord, Char.isAlphanum, h]) word

-- A point is the only character for which the word matters.
theorem continues_nil_eq_false {word : List Char} {c : Char} (h : continues word c = false) :
    continues [] c = false := by
  simp only [continues, Bool.or_eq_false_iff] at h ⊢
  exact ⟨h.1, by simp [isNumber]⟩

theorem line_cons_of_continues {word : List Char} {c : Char} (h : continues word c = true)
    (rest : List Char) : line word (c :: rest) = line (word ++ [c]) rest := by
  have hc : c ≠ '#' := ne_of_class h rfl
  have hq : c ≠ '"' := ne_of_class h rfl
  rw [line, if_neg hc, if_neg hq, if_pos h]

theorem line_append {front : List Char} (h : ∀ c ∈ front, ∀ word, continues word c = true)
    (word rest : List Char) : line word (front ++ rest) = line (word ++ front) rest := by
  induction front generalizing word with
  | nil => rw [List.nil_append, List.append_nil]
  | cons c front ih =>
    obtain ⟨hc, hfront⟩ := List.forall_mem_cons.mp h
    rw [List.cons_append, line_cons_of_continues (hc word), ih hfront, List.append_assoc,
      List.singleton_append]

-- Where nothing goes on with a word, the word is done.
theorem line_eq_flush {word rest : List Char}
    (h : ∀ d ∈ rest.head?, continues word d = false) :
    line word rest = flush word (rest.head? = some '(') ++ line [] rest := by
  cases rest with
  | nil => simp [line, flush]
  | cons d more =>
    have hd := h d rfl
    have hn := continues_nil_eq_false hd
    rw [line, line]
    by_cases hc : d = '#'
    · simp [hc, flush]
    by_cases hq : d = '"'
    · simp [hq, flush]
    simp [hc, hq, hd, hn, flush]

theorem flush_of_ne_nil {word : List Char} (h : word ≠ []) (called : Bool) :
    flush word called = [⟨word, wordStyle word called⟩] := by
  rw [flush, if_neg (by simpa using h)]

-- The scanner of the source and the colours find the same end of a string literal.
theorem cutString_of_isBody {body : List Char} (h : IsBody body) (behind : List Char) :
    cutString (body ++ '"' :: behind) = (body ++ ['"'], behind) := by
  induction h with
  | nil => rfl
  | plain hq he hb ih =>
    rw [List.cons_append, cutString, ih]
    · rfl
    · exact hq
    · rintro _ _ rfl
      exact (he rfl).elim
  | escape c hb ih =>
    rw [List.cons_append, List.cons_append, cutString, ih]
    rfl

theorem line_sign {c : Char} {kind : TokenKind} (h : signOf? c = some kind) (rest : List Char) :
    line [] (c :: rest) = ⟨[c], signStyle c⟩ :: line [] rest := by
  unfold signOf? at h
  split at h
  all_goals first
    | cases h
      done
    | rw [line, if_neg (by decide), if_neg (by decide), if_neg (by decide)]
      rfl

theorem line_blank {c : Char} (h : IsBlank c) (rest : List Char) :
    line [] (c :: rest) = ⟨[c], signStyle c⟩ :: line [] rest := by
  simp only [IsBlank, List.mem_cons, List.not_mem_nil, or_false] at h
  obtain rfl | rfl | rfl | rfl | rfl | rfl := h
  all_goals
    rw [line, if_neg (by decide), if_neg (by decide), if_neg (by decide)]
    rfl

theorem continues_sign {c : Char} {kind : TokenKind} (h : signOf? c = some kind)
    (word : List Char) : continues word c = false := by
  unfold signOf? at h
  split at h
  all_goals first
    | rfl
    | cases h

-- The spans that a token becomes, an opening parenthesis following it at once or not.
def shown (token : Token) (called : Bool) : Line :=
  match token.kind with
  | .keyword _ => [⟨token.written.toList, .boldColour Theme.keyword⟩]
  | .literal .string => [⟨token.written.toList, .colour Theme.string⟩]
  | .literal _ => [⟨token.written.toList, .colour Theme.number⟩]
  | .identifier =>
    [⟨token.written.toList, .colour (if called then Theme.function else Theme.text)⟩]
  | .operator _ | .mark _ => token.written.toList.map fun c => ⟨[c], signStyle c⟩

theorem isKeyword_iff {word : List Char} :
    isKeyword word = true ↔ ∃ keyword : Keyword, word = keyword.spelling.toList := by
  have hall : isKeyword word = Keyword.all.any (·.spelling.toList = word) := rfl
  rw [hall, List.any_eq_true]
  constructor
  · rintro ⟨keyword, -, h⟩
    exact ⟨keyword, (of_decide_eq_true h).symm⟩
  · rintro ⟨keyword, rfl⟩
    exact ⟨keyword, by cases keyword <;> decide, decide_eq_true rfl⟩

theorem wordStyle_number {word : List Char} (h : isNumber word = true) (called : Bool) :
    wordStyle word called = .colour Theme.number := by
  have hk : isKeyword word ≠ true := by
    rw [Ne, isKeyword_iff]
    rintro ⟨keyword, rfl⟩
    revert h
    cases keyword <;> decide
  rw [wordStyle, if_neg hk, if_pos h]

theorem wordStyle_identifier {word : List Char} (hw : IsWord word)
    (h : ∀ keyword : Keyword, word ≠ keyword.spelling.toList) (called : Bool) :
    wordStyle word called = .colour (if called then Theme.function else Theme.text) := by
  have hn : isNumber word = false := by
    cases hw with
    | @word first rest hf hr =>
      have hbegins : beginsWord first = true := by simpa [beginsWord] using hf
      have hd : first.isDigit = false := isDigit_eq_false hbegins
      have hp : first ≠ '.' := ne_of_class hbegins rfl
      simp [isNumber, hd, hp]
  have hk : isKeyword word ≠ true := by
    rw [Ne, isKeyword_iff]
    rintro ⟨keyword, he⟩
    exact h keyword he
  rw [wordStyle, if_neg hk, hn]
  cases called <;> rfl

theorem wordStyle_keyword (keyword : Keyword) (called : Bool) :
    wordStyle keyword.spelling.toList called = .boldColour Theme.keyword :=
  if_pos (isKeyword_iff.mpr ⟨keyword, rfl⟩)

theorem isNumber_of_isRun {word : List Char} (h : IsRun word) : isNumber word = true := by
  simp only [isNumber, Bool.and_eq_true, Bool.not_eq_true', List.isEmpty_eq_false_iff,
    List.all_eq_true]
  exact ⟨h.1, fun c hc => by simp [h.2 c hc]⟩

theorem isNumber_append {word more : List Char} (h : isNumber word = true)
    (hm : ∀ c ∈ more, c.isDigit = true ∨ c = '.') : isNumber (word ++ more) = true := by
  simp only [isNumber, Bool.and_eq_true, Bool.not_eq_true', List.isEmpty_eq_false_iff,
    List.all_append, List.all_eq_true, Bool.or_eq_true, decide_eq_true_eq] at h ⊢
  exact ⟨by simp [h.1], h.2, hm⟩

theorem line_run {word : List Char} (h : ∀ c ∈ word, c.isDigit = true) (front rest : List Char) :
    line front (word ++ rest) = line (front ++ word) rest :=
  line_append (fun c hc => continues_of_isDigit (h c hc)) front rest

theorem line_word {word : List Char} (h : IsWord word) (rest : List Char) :
    line [] (word ++ rest) = line word rest := by
  rw [line_append _ [] rest, List.nil_append]
  cases h with
  | @word first tail hf hr =>
    refine List.forall_mem_cons.mpr ⟨fun w => ?_, fun c hc w => ?_⟩
    · refine continues_of_continuesWord ?_ w
      simp only [continuesWord, Char.isAlphanum, Bool.or_eq_true, decide_eq_true_eq]
      exact hf.imp_left .inl
    · exact continues_of_continuesWord (by simpa [continuesWord] using hr c hc) w

section lexeme

variable {written kept rest : List Char} {kind : TokenKind}

-- Where a word does not go on, the spans of a token come first, and then those of the text
-- behind it.
theorem line_lexeme (h : Lexeme written kind kept) (place : Location)
    (hstop : (⟨kind, String.ofList kept, place⟩ : Token).isWord = true →
      ∀ d ∈ rest.head?, continues written d = false) :
    line [] (written ++ rest) =
      shown ⟨kind, String.ofList kept, place⟩ (rest.head? = some '(') ++ line [] rest := by
  cases h with
  | int hr =>
    have hend := hstop rfl
    rw [line_run hr.2, List.nil_append, line_eq_flush hend, flush_of_ne_nil hr.1,
      wordStyle_number (isNumber_of_isRun hr)]
    simp [shown, Token.written]
  | @float whole part hw hp =>
    have hend := hstop rfl
    have hwhole := isNumber_of_isRun hw
    have hall : isNumber (whole ++ '.' :: part) = true :=
      isNumber_append hwhole (List.forall_mem_cons.mpr ⟨.inr rfl, fun c hc => .inl (hp.2 c hc)⟩)
    have hpoint : continues whole '.' = true := by simp [continues, hwhole]
    rw [List.append_assoc, List.cons_append, line_run hw.2, List.nil_append,
      line_cons_of_continues hpoint, line_run hp.2, List.append_assoc, List.singleton_append,
      line_eq_flush hend, flush_of_ne_nil (by simp), wordStyle_number hall]
    simp [shown, Token.written]
  | keyword word =>
    have hend := hstop rfl
    rw [line_word (isWord_spelling word), line_eq_flush hend,
      flush_of_ne_nil (Lexeme.keyword word).ne_nil, wordStyle_keyword]
    simp [shown, Token.written]
  | identifier hw hn =>
    have hend := hstop rfl
    rw [line_word hw, line_eq_flush hend, flush_of_ne_nil (Lexeme.identifier hw hn).ne_nil,
      wordStyle_identifier hw hn]
    simp [shown, Token.written]
  | @string body hb =>
    rw [List.cons_append, List.append_assoc, List.singleton_append, line, if_neg (by decide),
      if_pos rfl, cutString_of_isBody hb]
    simp [shown, Token.written, flush]
  | operator sign =>
    obtain ⟨c, hs, hk⟩ | ⟨c, first, hs, hk, -⟩ := operator_spelling_cases sign
    · rw [hs, List.singleton_append, line_sign hk]
      simp [shown, Token.written]
    · have hequals : signOf? '=' = some (.mark .assign) := rfl
      rw [hs, List.cons_append, line_sign hk, List.singleton_append, line_sign hequals]
      simp [shown, Token.written]
  | mark sign =>
    obtain ⟨c, hs, hk⟩ := mark_spelling_eq sign
    rw [hs, List.singleton_append, line_sign hk]
    simp [shown, Token.written]

-- What a lexeme begins with, by its kind.
theorem first_cases {d : Char} {tail : List Char} (h : Lexeme (d :: tail) kind kept)
    (place : Location) :
    let token : Token := ⟨kind, String.ofList kept, place⟩
    (token.isNumber = true ∧ d.isDigit = true) ∨ (token.isName = true ∧ beginsWord d = true) ∨
      (token.isWord = false ∧ (d = '(' ↔ kind = .mark .leftParen) ∧
        ∀ word, continues word d = false) := by
  generalize hw : d :: tail = written at h
  cases h with
  | int hr =>
    subst hw
    exact .inl ⟨rfl, hr.2 d List.mem_cons_self⟩
  | @float whole part hwhole hpart =>
    obtain ⟨c, more, rfl⟩ := List.exists_cons_of_ne_nil hwhole.1
    obtain ⟨rfl, -⟩ := List.cons.inj hw
    exact .inl ⟨rfl, hwhole.2 d List.mem_cons_self⟩
  | keyword word =>
    have hword := isWord_spelling word
    rw [← hw] at hword
    cases hword with
    | word hf _ => exact .inr (.inl ⟨rfl, by simpa [beginsWord] using hf⟩)
  | identifier hword hn =>
    subst hw
    cases hword with
    | word hf _ => exact .inr (.inl ⟨rfl, by simpa [beginsWord] using hf⟩)
  | string hb =>
    obtain ⟨rfl, -⟩ := List.cons.inj hw
    exact .inr (.inr ⟨rfl, by simp, fun word => rfl⟩)
  | operator sign =>
    obtain ⟨c, hs, hk⟩ | ⟨c, first, hs, hk, hq⟩ := operator_spelling_cases sign
    · rw [hs] at hw
      obtain ⟨rfl, -⟩ := List.cons.inj hw
      refine .inr (.inr ⟨rfl, ?_, continues_sign hk⟩)
      refine iff_of_false ?_ (by simp)
      rintro rfl
      cases hk
    · rw [hs] at hw
      obtain ⟨rfl, -⟩ := List.cons.inj hw
      refine .inr (.inr ⟨rfl, ?_, continues_sign hk⟩)
      refine iff_of_false ?_ (by simp)
      rintro rfl
      cases hq
  | mark sign =>
    obtain ⟨c, hs, hk⟩ := mark_spelling_eq sign
    rw [hs] at hw
    obtain ⟨rfl, -⟩ := List.cons.inj hw
    refine .inr (.inr ⟨rfl, ?_, continues_sign hk⟩)
    constructor
    · rintro rfl
      exact (Option.some.inj hk).symm
    · intro he
      cases he
      simpa [Mark.spelling] using hs.symm

-- The longest lexeme leaves nothing behind that it could have had as well.
theorem isDigit_behind {d : Char} {more : List Char} (place : Location)
    (h : Lexeme written kind kept) (hl : Longest written (written ++ d :: more)) :
    let token : Token := ⟨kind, String.ofList kept, place⟩
    (token.isNumber = true → d.isDigit = false) ∧
      (token.isName = true → continuesWord d = false) := by
  have hp : written ++ [d] <+: written ++ d :: more := ⟨more, by simp⟩
  have hlong {kind' : TokenKind} {kept' : List Char} (ho : Lexeme (written ++ [d]) kind' kept') :
      False := by
    have hle := hl _ _ _ ho hp
    rw [List.length_append, List.length_singleton] at hle
    omega
  have hword (hw : IsWord written) : continuesWord d = false := by
    rw [Bool.eq_false_iff]
    intro hd
    cases hw with
    | @word first tail hf hr =>
      have hlonger : IsWord (first :: (tail ++ [d])) := by
        refine .word hf fun c hc => ?_
        rcases List.mem_append.mp hc with hc | hc
        · exact hr c hc
        · rw [List.mem_singleton.mp hc]
          simpa [continuesWord] using hd
      exact hlong hlonger.lexeme.1
  have hrun {run : List Char} (hr : IsRun run) (hd : d.isDigit = true) : IsRun (run ++ [d]) := by
    refine ⟨by simp, fun c hc => ?_⟩
    rcases List.mem_append.mp hc with hc | hc
    · exact hr.2 c hc
    · rwa [List.mem_singleton.mp hc]
  cases h with
  | int hr => exact ⟨fun _ => Bool.eq_false_iff.mpr fun hd => hlong (.int (hrun hr hd)),
      by simp [Token.isName, TokenKind.isKeyword]⟩
  | @float whole part hw hpart =>
    refine ⟨fun _ => Bool.eq_false_iff.mpr fun hd => ?_,
      by simp [Token.isName, TokenKind.isKeyword]⟩
    have hlast := Lexeme.float hw (hrun hpart hd)
    rw [← List.cons_append, ← List.append_assoc] at hlast
    exact hlong hlast
  | keyword word => exact ⟨by simp [Token.isNumber], fun _ => hword (isWord_spelling word)⟩
  | identifier hw _ => exact ⟨by simp [Token.isNumber], fun _ => hword hw⟩
  | _ => exact ⟨by simp [Token.isNumber], by simp [Token.isName, TokenKind.isKeyword]⟩

end lexeme

section scan

variable {place : Location} {d : Char} {more : List Char} {tokens : List Token}

theorem eq_nil_of_scan_nil (h : Scan place [] tokens []) : tokens = [] := by
  rw [h.eq_ofText.1, tokensFrom, ofText_nil]
  rfl

-- What a text that nothing is complained about begins with.
theorem head_cases (h : Scan place (d :: more) tokens []) :
    ((∀ next ∈ tokens.head?, next.place ≠ place) ∧ d ≠ '(' ∧ ∀ word, continues word d = false) ∨
      ∃ next later, tokens = next :: later ∧ next.place = place ∧
        ((next.isNumber = true ∧ d.isDigit = true) ∨
          (next.isName = true ∧ beginsWord d = true) ∨
          (next.isWord = false ∧ (d = '(' ↔ next.kind = .mark .leftParen) ∧
            ∀ word, continues word d = false)) := by
  have hlater {text : List Char} {found : List Token} {behind : Location}
      (hs : Scan behind text found []) (hlt : place < behind) :
      ∀ next ∈ found.head?, next.place ≠ place := by
    rw [hs.eq_ofText.1]
    intro next hn
    exact (hlt.trans_le (le_place_of_mem_tokensFrom _ _ (List.mem_of_mem_head? hn))).ne'
  generalize htext : d :: more = text at h
  cases h with
  | done => cases htext
  | blank hb hs =>
    obtain ⟨rfl, rfl⟩ := List.cons.inj htext
    refine .inl ⟨hlater hs (place.lt_after d), ?_, ?_⟩
    · rintro rfl
      simp [IsBlank] at hb
    · simp only [IsBlank, List.mem_cons, List.not_mem_nil, or_false] at hb
      obtain rfl | rfl | rfl | rfl | rfl | rfl := hb <;> exact fun word => rfl
  | comment _ _ hs =>
    obtain ⟨rfl, rfl⟩ := List.cons.inj htext
    exact .inl ⟨hlater hs (place.lt_afterAll (List.cons_ne_nil _ _)), by decide, fun word => rfl⟩
  | @token _ written kept rest kind _ _ hl hlong hs =>
    obtain ⟨c, tail, rfl⟩ := List.exists_cons_of_ne_nil hl.ne_nil
    obtain ⟨rfl, -⟩ := List.cons.inj htext
    exact .inr ⟨_, _, rfl, rfl, first_cases hl place⟩

-- An opening parenthesis at the beginning of such a text is a token that stands there.
theorem opens_head {text : List Char} (h : Scan place text tokens []) :
    opens (tokens.head?.filter (·.place = place)) = decide (text.head? = some '(') := by
  cases text with
  | nil =>
    rw [eq_nil_of_scan_nil h]
    rfl
  | cons d more =>
    obtain ⟨hnone, hd, -⟩ | ⟨next, later, rfl, hp, hfirst⟩ := head_cases h
    · have hno : tokens.head?.filter (·.place = place) = none := by
        rw [Option.filter_eq_none_iff]
        intro next hn
        simpa using hnone next hn
      rw [hno]
      simp [opens, hd]
    have hnext : (next :: later).head?.filter (·.place = place) = some next := by simp [hp]
    rw [hnext]
    obtain ⟨hn, hb⟩ | ⟨hn, hb⟩ | ⟨-, hb, -⟩ := hfirst
    · have hk : next.kind ≠ .mark .leftParen := by
        intro hk
        simp [Token.isNumber, hk] at hn
      have hd : d ≠ '(' := ne_of_class hb rfl
      simp [opens, hk, hd]
    · have hk : next.kind ≠ .mark .leftParen := by
        intro hk
        simp [Token.isName, hk, TokenKind.isKeyword] at hn
      have hd : d ≠ '(' := ne_of_class hb rfl
      simp [opens, hk, hd]
    · simp [opens, hb]

-- Behind a lexeme stands nothing that its word could go on with, unless it is a number
-- with a name at once behind it.
theorem stops_behind {written kept rest : List Char} {kind : TokenKind}
    (h : Lexeme written kind kept) (hl : Longest written (written ++ rest))
    (hs : Scan (place.afterAll written) rest tokens [])
    (hapart : ((⟨kind, String.ofList kept, place⟩ : Token).isNumber &&
      (tokens.head?.filter (·.place = place.afterAll written)).any Token.isName) = false)
    (hw : (⟨kind, String.ofList kept, place⟩ : Token).isWord = true) :
    ∀ d ∈ rest.head?, continues written d = false := by
  cases rest with
  | nil => nofun
  | cons d more =>
    intro c hc
    obtain rfl := Option.some.inj hc
    obtain ⟨hdigit, hword⟩ := isDigit_behind place h hl
    rw [Token.isWord, Bool.or_eq_true] at hw
    obtain ⟨-, -, hc⟩ | ⟨next, later, rfl, hp, ⟨-, hb⟩ | ⟨hn, hb⟩ | ⟨-, -, hc⟩⟩ := head_cases hs
    · exact hc written
    · have hcont : continuesWord d = true := by simp [continuesWord, Char.isAlphanum, hb]
      obtain hw | hw := hw
      · exact absurd hb (by simp [hdigit hw])
      · exact absurd hcont (by simp [hword hw])
    · have hcont : continuesWord d = true := by
        simp only [beginsWord, Bool.or_eq_true] at hb
        simp only [continuesWord, Char.isAlphanum, Bool.or_eq_true]
        exact hb.imp_left .inl
      obtain hw | hw := hw
      · simp [hw, hp, hn] at hapart
      · exact absurd hcont (by simp [hword hw])
    · exact hc written

end scan

-- What the scanner of the source takes for comments.
def commentSpan? : Piece → Option Span
  | .comment body => some ⟨'#' :: body, .colour Theme.comment⟩
  | _ => none

def comments (text : List Char) : Line := (ofText text).filterMap commentSpan?

theorem comments_nil : comments [] = [] := by
  rw [comments, ofText_nil, List.filterMap_nil]

theorem comments_cons {c : Char} {rest behind : List Char} {found : Piece}
    (h : cut c rest = (found, behind)) :
    comments (c :: rest) = (commentSpan? found).toList ++ comments behind := by
  rw [comments, ofText_cons, h]
  cases hf : commentSpan? found <;> simp [hf, comments]

theorem commentSpan?_piece (kind : TokenKind) (kept : List Char) :
    commentSpan? (piece kind kept) = none := by
  unfold piece
  split <;> rfl

theorem comments_blank {c : Char} {rest : List Char} (hb : Piece.isBlank c = true) :
    comments (c :: rest) = comments rest := by
  have hcut : cut c rest = (.blank c, rest) := by rw [cut, if_pos hb]
  exact comments_cons hcut

theorem comments_lexeme {written kept rest : List Char} {kind : TokenKind}
    (h : Lexeme written kind kept) (hlong : Longest written (written ++ rest)) :
    comments (written ++ rest) = comments rest := by
  obtain ⟨c, tail, rfl⟩ := List.exists_cons_of_ne_nil h.ne_nil
  have hcut : cut c (tail ++ rest) = (piece kind kept, rest) := hlong.cut_eq h rfl
  rw [List.cons_append, comments_cons hcut, commentSpan?_piece]
  rfl

def isBlankSpan (span : Span) : Bool := span.text.all Piece.isBlank

theorem signStyle_ne_comment (c : Char) : signStyle c ≠ .colour Theme.comment := by
  unfold signStyle
  split <;> decide

theorem written_of_lexeme {written kept : List Char} {kind : TokenKind}
    (h : Lexeme written kind kept) (place : Location) :
    (Token.written ⟨kind, String.ofList kept, place⟩).toList = written := by
  cases h <;> simp [Token.written]

-- A lexeme is cut as it is, and a blank would be cut for itself.
theorem all_isBlank_eq_false {written kept : List Char} {kind : TokenKind}
    (h : Lexeme written kind kept) : written.all Piece.isBlank = false := by
  obtain ⟨d, tail, rfl⟩ := List.exists_cons_of_ne_nil h.ne_nil
  rw [List.all_cons, Bool.and_eq_false_iff, Bool.eq_false_iff]
  refine .inl fun hb => ?_
  have hcut := h.cut_alone rfl
  rw [cut, if_pos hb] at hcut
  unfold piece at hcut
  split at hcut <;> cases hcut

-- No span of a token is blank or in the colour of comments.
theorem of_mem_shown {written kept : List Char} {kind : TokenKind} (h : Lexeme written kind kept)
    (place : Location) {called : Bool} {span : Span}
    (hm : span ∈ shown ⟨kind, String.ofList kept, place⟩ called) :
    isBlankSpan span = false ∧ span.style ≠ .colour Theme.comment := by
  have hword {style : Style} (hs : style ≠ .colour Theme.comment)
      (hm : span ∈ [⟨(Token.written ⟨kind, String.ofList kept, place⟩).toList, style⟩]) :
      isBlankSpan span = false ∧ span.style ≠ .colour Theme.comment := by
    rw [List.mem_singleton.mp hm, written_of_lexeme h]
    exact ⟨all_isBlank_eq_false h, hs⟩
  have hsign (hs : ∀ c ∈ written, Piece.isBlank c = false)
      (hm : span ∈ (Token.written ⟨kind, String.ofList kept, place⟩).toList.map fun c =>
        ⟨[c], signStyle c⟩) :
      isBlankSpan span = false ∧ span.style ≠ .colour Theme.comment := by
    obtain ⟨c, hc, rfl⟩ := List.mem_map.mp hm
    rw [written_of_lexeme h] at hc
    exact ⟨by simp [isBlankSpan, hs c hc], signStyle_ne_comment c⟩
  cases kind with
  | literal form => cases form <;> exact hword (by decide) hm
  | keyword word => exact hword (by decide) hm
  | identifier => exact hword (by cases called <;> decide) hm
  | operator sign =>
    refine hsign ?_ hm
    cases h
    cases sign <;> simp [Operator.spelling, Piece.isBlank]
  | mark sign =>
    refine hsign ?_ hm
    cases h
    cases sign <;> simp [Mark.spelling, Piece.isBlank]

-- By the scan of the line. Each step of it that is not the last puts its spans in front.
theorem exists_spans {place : Location} {text : List Char} {tokens : List Token}
    {diagnostics : List Diagnostic} (h : Scan place text tokens diagnostics)
    (hd : diagnostics = []) (hline : '\n' ∉ text) (hapart : apart tokens = true) :
    (comments text).length ≤ 1 ∧ ∃ spans : Line, line [] text = spans ++ comments text ∧
      spans.filter (fun span => !isBlankSpan span) =
        (touching tokens).flatMap (fun pair => shown pair.1 (opens pair.2)) ∧
      ∀ span ∈ spans, span.style ≠ .colour Theme.comment := by
  induction h with
  | done =>
    rw [comments_nil]
    exact ⟨Nat.zero_le _, [], by rw [line]; rfl, rfl, nofun⟩
  | @blank place c rest tokens _ hb _ ih =>
    obtain ⟨hone, spans, hl, hf, hs⟩ :=
      ih hd (fun hm => hline (List.mem_cons_of_mem c hm)) hapart
    rw [comments_blank (isBlank_iff.mp hb)]
    refine ⟨hone, ⟨[c], signStyle c⟩ :: spans, ?_, ?_, ?_⟩
    · rw [line_blank hb, hl, List.cons_append]
    · rw [List.filter_cons_of_neg (by simp [isBlankSpan, isBlank_iff.mp hb]), hf]
    · exact List.forall_mem_cons.mpr ⟨signStyle_ne_comment c, hs⟩
  | @comment place body rest tokens _ hbody hrest hs _ =>
    -- there is no line feed, and so nothing behind the comment
    have hnil : rest = [] := by
      cases rest with
      | nil => rfl
      | cons c more =>
        obtain rfl := hrest c rfl
        exact absurd (by simp) hline
    subst hnil
    subst hd
    rw [comments_cons (cut_comment hbody hrest), comments_nil, List.append_nil, List.append_nil]
    refine ⟨le_rfl, [], ?_, by rw [eq_nil_of_scan_nil hs]; rfl, nofun⟩
    rw [line, if_pos rfl]
    rfl
  | @token place written kept rest kind tokens _ hl hlong hs ih =>
    subst hd
    have hbehind : (⟨kind, String.ofList kept, place⟩ : Token).behind =
        place.afterAll written := by rw [Token.behind, written_of_lexeme hl]
    rw [apart, touching, hbehind, List.all_cons, Bool.and_eq_true, Bool.not_eq_true'] at hapart
    obtain ⟨hone, spans, hspans, hf, hstyle⟩ :=
      ih rfl (fun hm => hline (List.mem_append_right _ hm)) hapart.2
    rw [comments_lexeme hl hlong]
    refine ⟨hone, shown ⟨kind, String.ofList kept, place⟩ (rest.head? = some '(') ++ spans,
      ?_, ?_, ?_⟩
    · rw [line_lexeme hl place (stops_behind hl hlong hs hapart.1), hspans, List.append_assoc]
    · rw [touching, hbehind, List.flatMap_cons, opens_head hs, List.filter_append, hf]
      congr 1
      exact List.filter_eq_self.mpr fun span hm => by simp [(of_mem_shown hl place hm).1]
    · rw [List.forall_mem_append]
      exact ⟨fun span hm => (of_mem_shown hl place hm).2, hstyle⟩
  | unclosed _ => cases hd
  | stray _ _ _ _ _ _ => cases hd

-- How a token is seen, an opening parenthesis following it at once or not: a sign by its
-- characters, and everything else as a whole.
structure Shows (pair : Token × Option Token) (spans : Line) : Prop where
  text : spans.map Span.text =
    if pair.1.isSign then pair.1.written.toList.map fun c => [c] else [pair.1.written.toList]
  keyword : pair.1.isWord = true →
    ∀ span ∈ spans, (span.style = .boldColour Theme.keyword ↔ pair.1.kind.isKeyword = true)
  number : pair.1.isWord = true →
    ∀ span ∈ spans, (span.style = .colour Theme.number ↔ pair.1.isNumber = true)
  called : pair.1.isWord = true →
    ∀ span ∈ spans, (span.style = .colour Theme.function ↔
      pair.1.kind = .identifier ∧ opens pair.2 = true)
  quoted : pair.1.kind = .literal .string → ∀ span ∈ spans, span.style = .colour Theme.string

theorem shows_shown (pair : Token × Option Token) :
    Shows pair (shown pair.1 (opens pair.2)) := by
  obtain ⟨token, next⟩ := pair
  obtain ⟨kind, text, place⟩ := token
  -- the styles of words are different from each other
  have hbold (colour : Colour) : Style.colour colour ≠ .boldColour Theme.keyword := by
    simp [Style.colour, Style.boldColour]
  have hnumber : Style.colour Theme.number ≠ .colour Theme.function := by decide
  have htext : Style.colour Theme.text ≠ .colour Theme.number := by decide
  have hplain : Style.colour Theme.text ≠ .colour Theme.function := by decide
  cases kind with
  | literal form =>
    cases form <;> constructor <;>
      simp [shown, Token.isSign, Token.isWord, Token.isNumber, Token.isName, TokenKind.isKeyword,
        hbold, hnumber]
  | identifier =>
    cases ho : opens next <;> constructor <;>
      simp [shown, Token.isSign, Token.isWord, Token.isNumber, Token.isName, TokenKind.isKeyword,
        hbold, hnumber.symm, htext, hplain, ho]
  | keyword word =>
    constructor <;>
      simp [shown, Token.isSign, Token.isWord, Token.isNumber, Token.isName, TokenKind.isKeyword,
        (hbold _).symm]
  | operator sign =>
    constructor <;>
      simp [shown, Token.isSign, Token.isWord, Token.isNumber, Token.isName, TokenKind.isKeyword,
        Function.comp_def]
  | mark sign =>
    constructor <;>
      simp [shown, Token.isSign, Token.isWord, Token.isNumber, Token.isName, TokenKind.isKeyword,
        Function.comp_def]

end Highlight

open Highlight

-- The colours agree with the tokens. On a line in which nothing is complained about and no
-- number has a name at once behind it, what is not blank is cut as the tokens are, but for
-- the signs of two characters, a word is coloured by the kind of its token, and what is
-- shown as a comment is what the tokens leave out as one.
theorem highlight_colours_tokens (source : String) (hline : '\n' ∉ source.toList)
    (hclean : (Lexed.ofSource source).diagnostics = [])
    (hapart : apart (Lexed.ofSource source).tokens = true) :
    (comments source.toList).length ≤ 1 ∧ ∃ (spans : Line) (groups : List Line),
      highlight source.toList = spans ++ comments source.toList ∧
      spans.filter (fun span => !isBlankSpan span) = groups.flatten ∧
      List.Forall₂ Shows (touching (Lexed.ofSource source).tokens) groups ∧
      ∀ span ∈ spans, span.style ≠ .colour Theme.comment := by
  have hscan := (ofSource_eq_iff_scan source _ _).mp rfl
  obtain ⟨hone, spans, hl, hf, hs⟩ := exists_spans hscan hclean hline hapart
  refine ⟨hone, spans, _, hl, by rw [hf, List.flatMap_def], ?_, hs⟩
  rw [List.forall₂_map_right_iff]
  exact List.forall₂_same.mpr fun pair _ => shows_shown pair

-- A call, a point in a number, and a number sign in a string literal.
theorem highlight_colours_call :
    let source := "s=f(\"#\")>=1.5;#c"
    '\n' ∉ source.toList ∧ (Lexed.ofSource source).diagnostics = [] ∧
      apart (Lexed.ofSource source).tokens = true ∧
      (Lexed.ofSource source).tokens.length = 9 ∧
      comments source.toList = [⟨['#', 'c'], .colour Theme.comment⟩] ∧
      ∃ (spans : Line) (groups : List Line),
        highlight source.toList = spans ++ comments source.toList ∧
        spans.filter (fun span => !isBlankSpan span) = groups.flatten ∧
        List.Forall₂ Shows (touching (Lexed.ofSource source).tokens) groups ∧
        ∀ span ∈ spans, span.style ≠ .colour Theme.comment := by
  have hline : '\n' ∉ "s=f(\"#\")>=1.5;#c".toList := by decide
  have hclean : (Lexed.ofSource "s=f(\"#\")>=1.5;#c").diagnostics = [] := by cbv
  have hapart : apart (Lexed.ofSource "s=f(\"#\")>=1.5;#c").tokens = true := by cbv
  have hlength : (Lexed.ofSource "s=f(\"#\")>=1.5;#c").tokens.length = 9 := by cbv
  have hcomment : comments "s=f(\"#\")>=1.5;#c".toList =
      [⟨['#', 'c'], .colour Theme.comment⟩] := by cbv
  exact ⟨hline, hclean, hapart, hlength, hcomment,
    (highlight_colours_tokens _ hline hclean hapart).2⟩

end Inspector

end ScriptIR
