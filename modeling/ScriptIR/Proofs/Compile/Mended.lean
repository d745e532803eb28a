import Mathlib
import ScriptIR.Proofs.Compile.Joined
import ScriptIR.Proofs.Token.Places
import ScriptIR.Tree.Outline

namespace ScriptIR

open Lexical Piece

-- A text that begins at a place, with a space for every character that is complained
-- about as one that begins nothing.
def blanked (complaints : List Diagnostic) (place : Location) : List Char → List Char
  | [] => []
  | c :: rest =>
    (if ⟨.unrecognized c, place⟩ ∈ complaints then ' ' else c) ::
      blanked complaints (place.after c) rest

-- A source with spaces for the characters that are reported as unrecognized.
def mended (source : String) : String :=
  String.ofList (blanked (Lexed.ofSource source).diagnostics .start source.toList)

section blanked

variable {complaints : List Diagnostic}

theorem blanked_append (place : Location) (front behind : List Char) :
    blanked complaints place (front ++ behind) =
      blanked complaints place front ++ blanked complaints (place.afterAll front) behind := by
  induction front generalizing place with
  | nil => rfl
  | cons c rest ih => rw [List.cons_append, blanked, blanked, ih, Location.afterAll_cons,
      List.cons_append]

-- A stretch of a text where nothing is complained about.
theorem blanked_eq_self {place : Location} {text : List Char}
    (h : ∀ other c, place ≤ other → other < place.afterAll text →
      ⟨.unrecognized c, other⟩ ∉ complaints) : blanked complaints place text = text := by
  induction text generalizing place with
  | nil => rfl
  | cons c rest ih =>
    have hfirst := h place c le_rfl (place.lt_afterAll (List.cons_ne_nil c rest))
    have hrest : blanked complaints (place.after c) rest = rest :=
      ih fun other d hle hlt => h other d ((place.lt_after c).le.trans hle) hlt
    rw [blanked, if_neg hfirst, hrest]

-- What is between the complaints in front of a place and the later ones stays.
theorem blanked_between {before later : List Diagnostic} {place : Location} (front : List Char)
    (hbefore : ∀ diagnostic ∈ before, diagnostic.place < place)
    (hlater : ∀ diagnostic ∈ later, place.afterAll front ≤ diagnostic.place)
    (behind : List Char) : blanked (before ++ later) place (front ++ behind) =
      front ++ blanked (before ++ later) (place.afterAll front) behind := by
  rw [blanked_append, blanked_eq_self]
  intro other c hle hlt hm
  obtain hm | hm := List.mem_append.mp hm
  · exact (hbefore _ hm).not_ge hle
  · exact (hlater _ hm).not_gt hlt

theorem forall₂_blanked (complaints : List Diagnostic) (place : Location) (text : List Char) :
    List.Forall₂ (fun c d => d = c ∨ d = ' ') text (blanked complaints place text) := by
  induction text generalizing place with
  | nil => exact .nil
  | cons c rest ih =>
    refine .cons ?_ (ih _)
    split
    · exact .inr rfl
    · exact .inl rfl

end blanked

-- What has no space in it is in front of the one text if it is in front of the other.
theorem prefix_of_forall₂ {text other front : List Char}
    (h : List.Forall₂ (fun c d => d = c ∨ d = ' ') text other) (hp : front <+: other)
    (hf : ' ' ∉ front) : front <+: text := by
  induction h generalizing front with
  | nil => exact hp
  | @cons c d rest more hcd _ ih =>
    cases front with
    | nil => exact List.nil_prefix
    | cons e front =>
      obtain ⟨rfl, hrest⟩ := List.cons_prefix_cons.mp hp
      rw [List.mem_cons, not_or] at hf
      obtain rfl | rfl := hcd
      · exact (List.prefix_cons_inj e).mpr (ih hrest hf.2)
      · exact (hf.1 rfl).elim

namespace Lexical

theorem IsRun.plain {text : List Char} (h : IsRun text) :
    ∀ c ∈ text, isBlank c = false ∧ c ≠ '"' := by
  intro c hc
  have hd := h.2 c hc
  exact ⟨isBlank_eq_false hd (by simp [IsBlank]), ne_of_class hd rfl⟩

theorem IsWord.plain {text : List Char} (h : IsWord text) :
    ∀ c ∈ text, isBlank c = false ∧ c ≠ '"' := by
  intro c hc
  have hw : continuesWord c = true := by
    cases h with
    | word hf hr =>
      obtain rfl | hc := List.mem_cons.mp hc
      · obtain hf | rfl := hf
        · simp [continuesWord, Char.isAlphanum, hf]
        · rfl
      · simpa [continuesWord] using hr c hc
  exact ⟨isBlank_eq_false hw (by simp [IsBlank, continuesWord]), ne_of_class hw rfl⟩

-- Only a string literal has white space or a quote in it.
theorem Lexeme.plain {written kept : List Char} {kind : TokenKind} (h : Lexeme written kind kept)
    (hk : kind ≠ .literal .string) : ∀ c ∈ written, isBlank c = false ∧ c ≠ '"' := by
  cases h with
  | int hr => exact hr.plain
  | float hw hp =>
    intro c hc
    rw [List.mem_append, List.mem_cons] at hc
    obtain hc | rfl | hc := hc
    · exact hw.plain c hc
    · decide
    · exact hp.plain c hc
  | keyword word => exact (isWord_spelling word).plain
  | identifier hw _ => exact hw.plain
  | string _ => exact (hk rfl).elim
  | operator sign => cases sign <;> simp [Operator.spelling, isBlank]
  | mark sign => cases sign <;> simp [Mark.spelling, isBlank]

-- Spaces behind a lexeme do not make another one longer. A string literal ends at its
-- quote, and any other lexeme would be as long without them.
theorem Longest.of_forall₂ {written kept rest other : List Char} {kind : TokenKind}
    (hl : Lexeme written kind kept) (h : Longest written (written ++ rest))
    (hb : List.Forall₂ (fun c d => d = c ∨ d = ' ') (written ++ rest) (written ++ other)) :
    Longest written (written ++ other) := by
  intro found kind' kept' hfound hp
  by_cases hk : kind = .literal .string
  · subst hk
    cases hl with
    | string hbody =>
      obtain ⟨behind, he⟩ := hp
      rw [List.cons_append, List.append_assoc, List.singleton_append] at he
      obtain ⟨whole, _, _, hw, hpiece, hprefix, -⟩ := hfound.prolongs he
      have hcut : cut '"' (kept ++ '"' :: other) = cutString (kept ++ '"' :: other) := rfl
      rw [hcut, cutString, hbody.cutBody] at hpiece
      have hwhole : '"' :: (kept ++ ['"']) = whole := by
        rw [← hw.source_piece, ← hpiece]
        rfl
      rw [hwhole]
      exact hprefix.length_le
  · obtain ⟨c, tail, rfl⟩ := List.exists_cons_of_ne_nil hl.ne_nil
    have hc : c ≠ '"' := (hl.plain hk c List.mem_cons_self).2
    have hk' : kind' ≠ .literal .string := by
      rintro rfl
      cases hfound with
      | string _ => exact hc (List.cons_prefix_cons.mp hp).1.symm
    refine h found kind' kept' hfound (prefix_of_forall₂ hb hp fun hm => ?_)
    have hspace := (hfound.plain hk' ' ' hm).1
    cases hspace

-- No scan complains about white space.
theorem Scan.not_isBlank {place other : Location} {text : List Char} {tokens : List Token}
    {diagnostics : List Diagnostic} {c : Char} (h : Scan place text tokens diagnostics)
    (hm : ⟨.unrecognized c, other⟩ ∈ diagnostics) : ¬ IsBlank c := by
  induction h with
  | done => cases hm
  | blank _ _ ih => exact ih hm
  | comment _ _ _ ih => exact ih hm
  | token _ _ _ ih => exact ih hm
  | unclosed _ => cases List.mem_singleton.mp hm
  | stray hb _ _ _ _ ih =>
    obtain he | hm := List.mem_cons.mp hm
    · cases he
      exact hb
    · exact ih hm

theorem Scan.le_place {place : Location} {text : List Char} {tokens : List Token}
    {diagnostics : List Diagnostic} (h : Scan place text tokens diagnostics) :
    ∀ diagnostic ∈ diagnostics, place ≤ diagnostic.place := by
  rw [h.eq_ofText.2]
  exact fun _ => le_place_of_mem_diagnosticsFrom place text

-- By induction on the scan. The complaints of a whole source are those in front of a
-- place and those from there on, and the former do not matter any more.
theorem Scan.spaced {place : Location} {text : List Char} {tokens : List Token}
    {diagnostics : List Diagnostic} (h : Scan place text tokens diagnostics)
    (before : List Diagnostic) (hbefore : ∀ diagnostic ∈ before, diagnostic.place < place) :
    Scan place (blanked (before ++ diagnostics) place text) tokens
      (diagnostics.filter (·.complaint = .unterminated)) := by
  induction h generalizing before with
  | done => exact .done
  | @blank place c rest tokens diagnostics hb hs ih =>
    have hlater := fun diagnostic hm => (hbefore diagnostic hm).trans (place.lt_after c)
    have hfront := blanked_between [c] hbefore hs.le_place rest
    rw [List.singleton_append, List.singleton_append] at hfront
    rw [hfront]
    exact .blank hb (ih before hlater)
  | @comment place body rest tokens diagnostics hbody hrest hs ih =>
    have hlater := fun diagnostic hm =>
      (hbefore diagnostic hm).trans (place.lt_afterAll (List.cons_ne_nil '#' body))
    have hfront := blanked_between ('#' :: body) hbefore hs.le_place rest
    rw [List.cons_append, List.cons_append] at hfront
    rw [hfront]
    refine .comment hbody ?_ (ih before hlater)
    -- the line feed that ends the comment is no character to complain about
    cases rest with
    | nil => nofun
    | cons c rest =>
      obtain rfl : c = '\n' := hrest c rfl
      have hquiet : ⟨.unrecognized '\n', place.afterAll ('#' :: body)⟩ ∉ before ++ diagnostics := by
        intro hm
        obtain hm | hm := List.mem_append.mp hm
        · exact (hlater _ hm).false
        · exact hs.not_isBlank hm (by simp [IsBlank])
      intro d hd
      rw [blanked, if_neg hquiet] at hd
      exact (Option.some.inj hd).symm
  | @token place written kept rest kind tokens diagnostics hl hlong hs ih =>
    have hlater := fun diagnostic hm =>
      (hbefore diagnostic hm).trans (place.lt_afterAll hl.ne_nil)
    have hfront := blanked_between written hbefore hs.le_place rest
    have hspaces := forall₂_blanked (before ++ diagnostics) place (written ++ rest)
    rw [hfront] at hspaces ⊢
    exact .token hl (hlong.of_forall₂ hl hspaces) (ih before hlater)
  | @unclosed place body hno =>
    have hself : blanked (before ++ [⟨.unterminated, place⟩]) place ('"' :: body) =
        '"' :: body := by
      refine blanked_eq_self fun other c hle _ hm => ?_
      obtain hm | hm := List.mem_append.mp hm
      · exact (hbefore _ hm).not_ge hle
      · cases List.mem_singleton.mp hm
    rw [hself]
    exact .unclosed hno
  | @stray place c rest tokens diagnostics hb hc hq hno hs ih =>
    have hlater : ∀ diagnostic ∈ before ++ [⟨.unrecognized c, place⟩],
        diagnostic.place < place.after c := by
      intro diagnostic hm
      obtain hm | hm := List.mem_append.mp hm
      · exact (hbefore diagnostic hm).trans (place.lt_after c)
      · obtain rfl := List.mem_singleton.mp hm
        exact place.lt_after c
    have hscan := ih _ hlater
    rw [List.append_assoc, List.singleton_append] at hscan
    have hplace : place.after c = place.after ' ' := by
      have hn : c ≠ '\n' := by
        rintro rfl
        exact hb (by simp [IsBlank])
      rw [Location.after, Location.after, if_neg hn, if_neg (by decide)]
    rw [blanked, if_pos (by simp), hplace]
    rw [hplace] at hscan
    exact .blank (by simp [IsBlank]) hscan

end Lexical

-- A character that begins nothing parts what is around it as a space does. So a source
-- that has spaces instead lexes to the same tokens in the same places, and only the
-- complaint about a string literal without an end is left. What is made of the tokens is
-- the same, errors included.
theorem mended_exact (source : String) :
    let lexed := Lexed.ofSource source
    Lexed.ofSource (mended source) =
      ⟨lexed.tokens, lexed.diagnostics.filter (·.complaint = .unterminated)⟩ ∧
    parse (Lexed.ofSource (mended source)).tokens = parse lexed.tokens ∧
    (parse (Lexed.ofSource (mended source)).tokens).map Tree.outline =
      (parse lexed.tokens).map Tree.outline ∧
    ∀ mode, compile mode (mended source) = compile mode source := by
  intro lexed
  have hscan : Scan .start source.toList lexed.tokens lexed.diagnostics :=
    (ofSource_eq_iff_scan source _ _).mp rfl
  have hmended : Lexed.ofSource (mended source) =
      ⟨lexed.tokens, lexed.diagnostics.filter (·.complaint = .unterminated)⟩ := by
    rw [ofSource_eq_iff_scan, mended, String.toList_ofList]
    exact hscan.spaced [] nofun
  have htokens : (Lexed.ofSource (mended source)).tokens = lexed.tokens := by rw [hmended]
  exact ⟨hmended, by rw [htokens], by rw [htokens], compile_eq_of_tokens htokens⟩

end ScriptIR
