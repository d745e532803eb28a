import ScriptIR.Proofs.Token.Joined

namespace ScriptIR

open Lexical Piece

namespace Token

-- What is written for a token. A string literal is put between quotes, and every other
-- token is its text.
def written (token : Token) : String :=
  match token.kind with
  | .literal .string => "\"" ++ token.text ++ "\""
  | _ => token.text

-- A token whose text its kind can have, by the lexical grammar.
def WellFormed (token : Token) : Prop :=
  Lexeme token.written.toList token.kind token.text.toList

-- A token without its place.
def content (token : Token) : TokenKind × String := (token.kind, token.text)

end Token

-- Tokens in a row, with one blank between two.
def written (tokens : List Token) : String :=
  " ".intercalate (tokens.map Token.written)

theorem Lexical.Lexeme.wellFormed {text kept : List Char} {kind : TokenKind}
    (h : Lexeme text kind kept) (place : Location) :
    Token.WellFormed ⟨kind, String.ofList kept, place⟩ := by
  have hw : (Token.written ⟨kind, String.ofList kept, place⟩).toList = text := by
    cases h <;> simp [Token.written]
  rw [Token.WellFormed, hw, String.toList_ofList]
  exact h

section written

variable {text kept : List Char} {kind : TokenKind} {c : Char} {rest : List Char}

-- A lexeme alone is cut as a whole.
theorem Lexical.Lexeme.cut_alone (h : Lexeme text kind kept) (he : text = c :: rest) :
    cut c rest = (piece kind kept, []) := by
  have hlong : Longest text (c :: rest) := by
    intro other kind' kept' _ hp
    rw [he]
    exact hp.length_le
  exact hlong.cut_eq h (by rw [List.append_nil, he])

-- A lexeme in front of a blank is cut as if it were alone.
theorem Lexical.Lexeme.cut_before_blank (h : Lexeme text kind kept) (he : text = c :: rest)
    (more : List Char) : cut c (rest ++ ' ' :: more) = (piece kind kept, ' ' :: more) := by
  have halone := h.cut_alone he
  have hblank : IsBlank ' ' := by simp [IsBlank]
  have hclosed : ∀ body, (cut c rest).1 ≠ .quoted body false := by
    intro body
    rw [halone]
    exact (unclosed_ne_piece body kind kept).symm
  have hnumber : c ≠ '#' := by
    rintro rfl
    have hcomment : (cut '#' rest).1 = .comment (rest.takeWhile (· ≠ '\n')) := rfl
    rw [halone] at hcomment
    unfold piece at hcomment
    split at hcomment <;> cases hcomment
  rw [cut_append_blank c hblank rest more (fun hc => (hnumber hc).elim) hclosed, halone]
  rfl

theorem tokensFrom_alone (h : Lexeme text kind kept) (place : Location) :
    tokensFrom place text = [⟨kind, String.ofList kept, place⟩] ∧
      diagnosticsFrom place text = [] := by
  obtain ⟨c, rest, rfl⟩ := List.exists_cons_of_ne_nil h.ne_nil
  have hcut := h.cut_alone rfl
  obtain ⟨ht, hd⟩ := token?_piece h place
  rw [tokensFrom_cons hcut, diagnosticsFrom_cons hcut, ht, hd]
  simp [tokensFrom, diagnosticsFrom, ofText_nil, locate]

theorem tokensFrom_before_blank (h : Lexeme text kind kept) (place : Location)
    (more : List Char) :
    let next := (place.afterAll text).after ' '
    tokensFrom place (text ++ ' ' :: more) =
        ⟨kind, String.ofList kept, place⟩ :: tokensFrom next more ∧
      diagnosticsFrom place (text ++ ' ' :: more) = diagnosticsFrom next more := by
  obtain ⟨c, rest, he⟩ := List.exists_cons_of_ne_nil h.ne_nil
  have hcut := h.cut_before_blank he more
  have hblank : cut ' ' more = (.blank ' ', more) := rfl
  obtain ⟨ht, hd⟩ := token?_piece h place
  rw [he, List.cons_append, tokensFrom_cons hcut, diagnosticsFrom_cons hcut, ht, hd,
    tokensFrom_cons hblank, diagnosticsFrom_cons hblank, h.source_piece, he]
  exact ⟨rfl, rfl⟩

end written

-- One token at a time. Where the next one begins depends on the place only, and the
-- content of a token does not.
theorem tokensFrom_written {tokens : List Token} (h : ∀ token ∈ tokens, token.WellFormed)
    (place : Location) :
    (tokensFrom place (written tokens).toList).map Token.content = tokens.map Token.content ∧
      diagnosticsFrom place (written tokens).toList = [] := by
  induction tokens generalizing place with
  | nil => simp [written, tokensFrom, diagnosticsFrom, ofText_nil, locate]
  | cons token rest ih =>
    obtain ⟨hfirst, hrest⟩ := List.forall_mem_cons.mp h
    have hcontent (place : Location) :
        Token.content ⟨token.kind, String.ofList token.text.toList, place⟩ = token.content :=
      Prod.ext rfl String.ofList_toList
    cases rest with
    | nil =>
      have hw : (written [token]).toList = token.written.toList := by simp [written]
      obtain ⟨ht, hd⟩ := tokensFrom_alone hfirst place
      rw [hw, ht, hd, List.map_singleton, hcontent]
      exact ⟨rfl, rfl⟩
    | cons second rest =>
      have hw : (written (token :: second :: rest)).toList =
          token.written.toList ++ ' ' :: (written (second :: rest)).toList := by
        simp [written, String.intercalate_cons_cons]
      obtain ⟨ht, hd⟩ := tokensFrom_before_blank hfirst place (written (second :: rest)).toList
      obtain ⟨iht, ihd⟩ := ih hrest ((place.afterAll token.written.toList).after ' ')
      rw [hw, ht, hd, List.map_cons, iht, hcontent, ihd]
      exact ⟨rfl, rfl⟩

-- The only token without a lexeme of its own is a string literal that has no end, and
-- there is nothing behind it.
theorem Lexical.Scan.wellFormed {place : Location} {text : List Char} {tokens : List Token}
    {diagnostics : List Diagnostic} (h : Scan place text tokens diagnostics) :
    ∀ token ∈ tokens, token.WellFormed ∨
      (tokens.getLast? = some token ∧ token.kind = .literal .string ∧
        ⟨.unterminated, token.place⟩ ∈ diagnostics) := by
  induction h with
  | done => simp
  | blank _ _ ih => exact ih
  | comment _ _ _ ih => exact ih
  | @token place _ kept _ kind tokens _ hl _ _ ih =>
    intro token hm
    rcases List.mem_cons.mp hm with rfl | hm
    · exact .inl (hl.wellFormed place)
    · obtain hw | ⟨hlast, hk, hd⟩ := ih token hm
      · exact .inl hw
      · refine .inr ⟨?_, hk, hd⟩
        rw [List.getLast?_cons, hlast]
        rfl
  | unclosed _ =>
    intro token hm
    obtain rfl := List.mem_singleton.mp hm
    exact .inr ⟨rfl, rfl, List.mem_singleton.mpr rfl⟩
  | stray _ _ _ _ _ ih =>
    intro token hm
    obtain hw | ⟨hlast, hk, hd⟩ := ih token hm
    · exact .inl hw
    · exact .inr ⟨hlast, hk, List.mem_cons_of_mem _ hd⟩

-- Writing tokens and reading them again gives the same tokens, wherever they come from.
-- All that a source can hold and that cannot be written again is the string literal
-- that is cut off by its end.
theorem tokens_written :
    (∀ tokens : List Token, (∀ token ∈ tokens, token.WellFormed) →
      (Lexed.ofSource (written tokens)).tokens.map Token.content = tokens.map Token.content ∧
      (Lexed.ofSource (written tokens)).diagnostics = []) ∧
    ∀ source : String,
      (∀ token ∈ (Lexed.ofSource source).tokens, token.WellFormed ∨
        ((Lexed.ofSource source).tokens.getLast? = some token ∧ token.kind = .literal .string ∧
          ⟨.unterminated, token.place⟩ ∈ (Lexed.ofSource source).diagnostics)) ∧
      ((∀ diagnostic ∈ (Lexed.ofSource source).diagnostics,
          diagnostic.complaint ≠ .unterminated) →
        (Lexed.ofSource (written (Lexed.ofSource source).tokens)).tokens.map Token.content =
          (Lexed.ofSource source).tokens.map Token.content) := by
  have hwrite (tokens : List Token) (h : ∀ token ∈ tokens, token.WellFormed) :
      (Lexed.ofSource (written tokens)).tokens.map Token.content = tokens.map Token.content ∧
        (Lexed.ofSource (written tokens)).diagnostics = [] :=
    tokensFrom_written h .start
  refine ⟨hwrite, fun source => ?_⟩
  have hscan : Scan .start source.toList (Lexed.ofSource source).tokens
      (Lexed.ofSource source).diagnostics := scan_ofText .start source.toList
  refine ⟨hscan.wellFormed, fun hclosed => (hwrite _ fun token hm => ?_).1⟩
  obtain hw | ⟨-, -, hd⟩ := hscan.wellFormed token hm
  · exact hw
  · exact (hclosed _ hd rfl).elim

end ScriptIR
