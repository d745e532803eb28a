import Mathlib
import ScriptIR.Proofs.Token.Longest

namespace ScriptIR

open Lexical Piece

-- The place some lines further down.
def Location.down (count : Nat) (place : Location) : Location :=
  ⟨place.line + count, place.column⟩

theorem Location.after_down (count : Nat) (place : Location) (c : Char) :
    (place.down count).after c = (place.after c).down count := by
  unfold after
  split
  · simp only [down, Nat.add_right_comm]
  · rfl

theorem Location.afterAll_down (count : Nat) (place : Location) (text : List Char) :
    (place.down count).afterAll text = (place.afterAll text).down count := by
  induction text generalizing place with
  | nil => rfl
  | cons c rest ih => rw [afterAll_cons, afterAll_cons, after_down, ih]

theorem Location.line_afterAll (place : Location) (text : List Char) :
    (place.afterAll text).line = place.line + text.count '\n' := by
  induction text generalizing place with
  | nil => rfl
  | cons c rest ih =>
    rw [afterAll_cons, ih, List.count_cons, after]
    by_cases hc : c = '\n'
    · simp only [hc, if_true, BEq.rfl]
      omega
    · simp [hc]

-- A text of its own that is put behind the end of a line begins in the first column.
theorem Location.afterAll_newline (text : List Char) :
    (start.afterAll text).after '\n' = start.down (text.count '\n' + 1) := by
  rw [after, if_pos rfl, line_afterAll]
  simp only [down, start, Nat.add_assoc]

def Token.down (count : Nat) (token : Token) : Token :=
  { token with place := token.place.down count }

def Diagnostic.down (count : Nat) (diagnostic : Diagnostic) : Diagnostic :=
  { diagnostic with place := diagnostic.place.down count }

theorem token?_down (count : Nat) (place : Location) (piece : Piece) :
    token? (place.down count, piece) = (token? (place, piece)).map (Token.down count) := by
  cases piece <;> rfl

theorem diagnostic?_down (count : Nat) (place : Location) (piece : Piece) :
    diagnostic? (place.down count, piece) =
      (diagnostic? (place, piece)).map (Diagnostic.down count) := by
  cases piece with
  | quoted body closed => cases closed <;> rfl
  | _ => rfl

theorem locate_down (count : Nat) (place : Location) (pieces : List Piece) :
    locate (place.down count) pieces =
      (locate place pieces).map fun located => (located.1.down count, located.2) := by
  induction pieces generalizing place with
  | nil => rfl
  | cons piece rest ih => rw [locate, locate, Location.afterAll_down, ih, List.map_cons]

theorem tokensFrom_down (count : Nat) (place : Location) (text : List Char) :
    tokensFrom (place.down count) text = (tokensFrom place text).map (Token.down count) := by
  simp only [tokensFrom, locate_down, List.filterMap_map, List.map_filterMap, Function.comp_def,
    token?_down]

theorem diagnosticsFrom_down (count : Nat) (place : Location) (text : List Char) :
    diagnosticsFrom (place.down count) text =
      (diagnosticsFrom place text).map (Diagnostic.down count) := by
  simp only [diagnosticsFrom, locate_down, List.filterMap_map, List.map_filterMap,
    Function.comp_def, diagnostic?_down]

section stop

variable {p : Char → Bool} {stop : Char}

theorem takeWhile_append_stop (h : p stop = false) (front behind : List Char) :
    (front ++ stop :: behind).takeWhile p = front.takeWhile p := by
  induction front with
  | nil => simp [h]
  | cons c rest ih => rw [List.cons_append, List.takeWhile_cons, List.takeWhile_cons, ih]

theorem dropWhile_append_stop (h : p stop = false) (front behind : List Char) :
    (front ++ stop :: behind).dropWhile p = front.dropWhile p ++ stop :: behind := by
  induction front with
  | nil => simp [h]
  | cons c rest ih =>
    rw [List.cons_append, List.dropWhile_cons, List.dropWhile_cons, ih]
    split <;> rfl

end stop

-- White space is no part of a number, of a word or of an operator.
theorem Lexical.IsBlank.stops {stop : Char} (h : IsBlank stop) :
    stop.isDigit = false ∧ continuesWord stop = false ∧ stop ≠ '.' ∧ stop ≠ '=' := by
  simp only [IsBlank, List.mem_cons, List.not_mem_nil, or_false] at h
  rcases h with rfl | rfl | rfl | rfl | rfl | rfl <;> decide

section cut

variable (c : Char) {stop : Char} (hs : IsBlank stop) (rest more : List Char)

include hs

theorem cutNumber_append_blank : cutNumber c (rest ++ stop :: more) =
    ((cutNumber c rest).1, (cutNumber c rest).2 ++ stop :: more) := by
  obtain ⟨hdigit, -, hpoint, -⟩ := hs.stops
  unfold cutNumber
  rw [takeWhile_append_stop hdigit, dropWhile_append_stop hdigit]
  rcases rest.dropWhile Char.isDigit with _ | ⟨d, tail⟩
  · simp [hpoint]
  by_cases hd : d = '.'
  · subst hd
    rcases tail with _ | ⟨e, tail⟩
    · simp [hdigit]
    · simp only [List.cons_append]
      rw [takeWhile_append_stop hdigit, dropWhile_append_stop hdigit]
      split <;> rfl
  · simp [hd]

theorem cutWord_append_blank : cutWord c (rest ++ stop :: more) =
    ((cutWord c rest).1, (cutWord c rest).2 ++ stop :: more) := by
  have hword := hs.stops.2.1
  unfold cutWord
  rw [takeWhile_append_stop hword, dropWhile_append_stop hword]

omit hs in
theorem cutSingle_append : cutSingle c (rest ++ more) =
    ((cutSingle c rest).1, (cutSingle c rest).2 ++ more) := by
  unfold cutSingle
  split <;> rfl

theorem cutSign_append_blank : cutSign c (rest ++ stop :: more) =
    ((cutSign c rest).1, (cutSign c rest).2 ++ stop :: more) := by
  obtain ⟨-, -, -, hequals⟩ := hs.stops
  unfold cutSign
  rcases rest with _ | ⟨d, tail⟩
  · simpa [hequals] using cutSingle_append c [] (stop :: more)
  by_cases hd : d = '='
  · subst hd
    simp only [List.cons_append]
    split
    · rfl
    · exact cutSingle_append c ('=' :: tail) (stop :: more)
  · simpa [hd] using cutSingle_append c (d :: tail) (stop :: more)

omit hs in
-- A string literal that is closed ends at its quote, whatever is behind it.
theorem cut_quote_append (h : ∀ body, (cut '"' rest).1 ≠ .quoted body false) :
    cut '"' (rest ++ more) = ((cut '"' rest).1, (cut '"' rest).2 ++ more) := by
  have hcut (text : List Char) : cut '"' text = cutString text := rfl
  have hs := cut_source '"' rest
  obtain ⟨body, hb, he⟩ | he := cut_quote rest
  · rw [he, source, if_pos rfl, List.cons_append, List.cons_append, List.cons.injEq,
      List.append_assoc, List.singleton_append] at hs
    generalize (cut '"' rest).2 = behind at hs
    rw [he, ← hs.2, List.append_assoc, List.cons_append, hcut, cutString, hb.cutBody]
  · exact (h rest (by rw [he])).elim

-- A cut does not go beyond white space, but for a string literal, and a comment
-- ends with its line.
theorem cut_append_blank (hc : c = '#' → stop = '\n')
    (h : ∀ body, (cut c rest).1 ≠ .quoted body false) :
    cut c (rest ++ stop :: more) = ((cut c rest).1, (cut c rest).2 ++ stop :: more) := by
  by_cases hq : c = '"'
  · subst hq
    exact cut_quote_append rest _ h
  unfold cut
  split
  · rfl
  split
  · rename_i hnumber
    have hp : decide (stop ≠ '\n') = false := by simp [hc hnumber]
    rw [takeWhile_append_stop hp, dropWhile_append_stop hp]
  split
  · exact cutNumber_append_blank c hs rest more
  split
  · exact cutWord_append_blank c hs rest more
  · exact cutSign_append_blank c hs rest more

end cut

-- A text that does not end within a string literal.
def Closed (text : List Char) : Prop := ∀ body, .quoted body false ∉ ofText text

theorem closed_cons_iff {c : Char} {rest : List Char} : Closed (c :: rest) ↔
    (∀ body, (cut c rest).1 ≠ .quoted body false) ∧ Closed (cut c rest).2 := by
  simp only [Closed, ofText_cons, List.mem_cons, not_or, forall_and, ne_eq, eq_comm]

-- The end of a line is a piece of its own, and parts the pieces of a text.
theorem ofText_append_newline {front : List Char} (h : Closed front) (back : List Char) :
    ofText (front ++ '\n' :: back) = ofText front ++ .blank '\n' :: ofText back := by
  have hnewline : IsBlank '\n' := by simp [IsBlank]
  induction front using ofText.induct with
  | case1 =>
    have hcut : cut '\n' back = (.blank '\n', back) := rfl
    rw [List.nil_append, ofText_cons, hcut, ofText_nil]
    rfl
  | case2 c rest ih =>
    obtain ⟨hn, hr⟩ := closed_cons_iff.mp h
    have happ := cut_append_blank c hnewline rest back (fun _ => rfl) hn
    rw [List.cons_append, ofText_cons, happ, ih hr, ofText_cons, List.cons_append]

theorem locate_append (place : Location) (pieces more : List Piece) :
    locate place (pieces ++ more) =
      locate place pieces ++ locate (place.afterAll (pieces.flatMap source)) more := by
  induction pieces generalizing place with
  | nil => rfl
  | cons piece rest ih =>
    rw [List.cons_append, locate, locate, ih, List.flatMap_cons, Location.afterAll_append,
      List.cons_append]

theorem locate_append_newline {front : List Char} (h : Closed front) (back : List Char) :
    locate .start (ofText (front ++ '\n' :: back)) = locate .start (ofText front) ++
      (Location.start.afterAll front, .blank '\n') ::
        locate (Location.start.down (front.count '\n' + 1)) (ofText back) := by
  rw [ofText_append_newline h, locate_append, source_ofText, locate,
    ← Location.afterAll_newline]
  rfl

theorem tokens_append_newline {front back : List Char} (h : Closed front) :
    tokensFrom .start (front ++ '\n' :: back) = tokensFrom .start front ++
      (tokensFrom .start back).map (Token.down (front.count '\n' + 1)) := by
  rw [← tokensFrom_down, tokensFrom, locate_append_newline h, List.filterMap_append]
  rfl

theorem diagnostics_append_newline {front back : List Char} (h : Closed front) :
    diagnosticsFrom .start (front ++ '\n' :: back) = diagnosticsFrom .start front ++
      (diagnosticsFrom .start back).map (Diagnostic.down (front.count '\n' + 1)) := by
  rw [← diagnosticsFrom_down, diagnosticsFrom, locate_append_newline h, List.filterMap_append]
  rfl

theorem map_snd_locate (place : Location) (pieces : List Piece) :
    (locate place pieces).map Prod.snd = pieces := by
  induction pieces generalizing place with
  | nil => rfl
  | cons piece rest ih => rw [locate, List.map_cons, ih]

-- A string literal without an end is complained about.
theorem closed_of_diagnosticsFrom {place : Location} {text : List Char}
    (h : ∀ diagnostic ∈ diagnosticsFrom place text, diagnostic.complaint ≠ .unterminated) :
    Closed text := by
  intro body hm
  rw [← map_snd_locate place (ofText text)] at hm
  obtain ⟨⟨other, piece⟩, hlocated, rfl⟩ := List.mem_map.mp hm
  exact h ⟨.unterminated, other⟩ (List.mem_filterMap.mpr ⟨_, hlocated, rfl⟩) rfl

-- Nothing follows a string literal without an end.
theorem cut_eq_of_unclosed {c : Char} {rest body : List Char}
    (h : (cut c rest).1 = .quoted body false) : cut c rest = (.quoted body false, []) := by
  obtain ⟨-, he⟩ | ⟨-, he⟩ | ⟨_, kind, kept, -, he⟩ | ⟨-, he⟩ | ⟨-, -, -, he⟩ := cut_cases c rest
  · rw [he] at h
    cases h
  · rw [he] at h
    cases h
  · exact (unclosed_ne_piece body kind kept (h.symm.trans he)).elim
  · rw [he] at h ⊢
    cases h
    rfl
  · rw [he] at h
    cases h

-- A text that ends within a string literal has it for its last token.
theorem getLast?_of_not_closed {text : List Char} (h : ¬ Closed text) (place : Location) :
    ∃ token, (tokensFrom place text).getLast? = some token ∧
      token.kind = .literal .string := by
  induction text using ofText.induct generalizing place with
  | case1 => exact (h (by simp [Closed, ofText_nil])).elim
  | case2 c rest ih =>
    by_cases hq : ∃ body, (cut c rest).1 = .quoted body false
    · obtain ⟨body, hb⟩ := hq
      rw [tokensFrom_cons (cut_eq_of_unclosed hb), tokensFrom, ofText_nil]
      exact ⟨_, rfl, rfl⟩
    · rw [closed_cons_iff, not_and] at h
      generalize hcut : cut c rest = result at h hq ih
      obtain ⟨token, hl, hk⟩ := ih (h fun body hb => hq ⟨body, hb⟩) (place.afterAll result.1.source)
      refine ⟨token, ?_, hk⟩
      rw [tokensFrom_cons hcut, List.getLast?_append, hl, Option.some_or]

-- What is behind the end of a line is cut as if it began the source, but for its places,
-- unless a string literal goes on over that end. It does not matter what the line ends with.
theorem lex_append_newline (front back : String)
    (h : ∀ diagnostic ∈ (Lexed.ofSource front).diagnostics,
      diagnostic.complaint ≠ .unterminated) :
    let count := front.toList.count '\n' + 1
    let joined := Lexed.ofSource (front ++ "\n" ++ back)
    joined.tokens = (Lexed.ofSource front).tokens ++
      (Lexed.ofSource back).tokens.map (Token.down count) ∧
    joined.diagnostics = (Lexed.ofSource front).diagnostics ++
      (Lexed.ofSource back).diagnostics.map (Diagnostic.down count) := by
  intro count joined
  have htext : (front ++ "\n" ++ back).toList = front.toList ++ '\n' :: back.toList := by simp
  have hclosed : Closed front.toList := closed_of_diagnosticsFrom h
  have htokens : joined.tokens = tokensFrom .start (front ++ "\n" ++ back).toList := rfl
  have hdiagnostics : joined.diagnostics =
      diagnosticsFrom .start (front ++ "\n" ++ back).toList := rfl
  rw [htokens, hdiagnostics, htext]
  exact ⟨tokens_append_newline hclosed, diagnostics_append_newline hclosed⟩

-- A number and a point at the end of a line make no number with the digits of the next.
theorem lex_behind_point :
    (∀ diagnostic ∈ (Lexed.ofSource "= 1.").diagnostics, diagnostic.complaint ≠ .unterminated) ∧
    (Lexed.ofSource ("= 1." ++ "\n" ++ "5 = @")).tokens =
      [⟨.mark .assign, "=", ⟨1, 1⟩⟩, ⟨.literal .int, "1", ⟨1, 3⟩⟩, ⟨.literal .int, "5", ⟨2, 1⟩⟩,
        ⟨.mark .assign, "=", ⟨2, 3⟩⟩] ∧
    (Lexed.ofSource ("= 1." ++ "\n" ++ "5 = @")).diagnostics =
      [⟨.unrecognized '.', ⟨1, 4⟩⟩, ⟨.unrecognized '@', ⟨2, 5⟩⟩] := by
  have hfront : Lexed.ofSource "= 1." =
      ⟨[⟨.mark .assign, "=", ⟨1, 1⟩⟩, ⟨.literal .int, "1", ⟨1, 3⟩⟩],
        [⟨.unrecognized '.', ⟨1, 4⟩⟩]⟩ := by
    cbv
  have hback : Lexed.ofSource "5 = @" =
      ⟨[⟨.literal .int, "5", ⟨1, 1⟩⟩, ⟨.mark .assign, "=", ⟨1, 3⟩⟩],
        [⟨.unrecognized '@', ⟨1, 5⟩⟩]⟩ := by
    cbv
  have hclosed : ∀ diagnostic ∈ (Lexed.ofSource "= 1.").diagnostics,
      diagnostic.complaint ≠ .unterminated := by
    rw [hfront]
    decide
  obtain ⟨htokens, hdiagnostics⟩ := lex_append_newline "= 1." "5 = @" hclosed
  rw [htokens, hdiagnostics, hfront, hback]
  exact ⟨by decide, rfl, rfl⟩

end ScriptIR
