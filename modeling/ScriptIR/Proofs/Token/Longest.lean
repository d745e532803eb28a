import ScriptIR.Proofs.Token.Lexical

namespace ScriptIR

open Lexical Piece

namespace Lexical

-- The piece that a lexeme is.
def piece (kind : TokenKind) (kept : List Char) : Piece :=
  match kind with
  | .literal .string => .quoted kept true
  | kind => .lexeme kind kept

theorem Lexeme.source_piece {written kept : List Char} {kind : TokenKind}
    (h : Lexeme written kind kept) : (piece kind kept).source = written := by
  cases h <;> simp [piece, Piece.source]

theorem Lexeme.ne_nil {written kept : List Char} {kind : TokenKind}
    (h : Lexeme written kind kept) : written ≠ [] := by
  cases h with
  | int h => exact h.1
  | float h _ => simp
  | keyword word => cases word <;> nofun
  | identifier h _ =>
    cases h
    simp
  | string _ => simp
  | operator sign => cases sign <;> nofun
  | mark sign => cases sign <;> nofun

-- A character is none of those that a class of it leaves out.
theorem ne_of_class {p : Char → Bool} {c d : Char} (h : p c = true) (hd : p d = false) :
    c ≠ d := by
  rintro rfl
  rw [h] at hd
  cases hd

theorem isBlank_eq_false {p : Char → Bool} {c : Char} (h : p c = true)
    (hp : ∀ d, IsBlank d → p d = false) : isBlank c = false := by
  rw [Bool.eq_false_iff]
  intro hb
  exact ne_of_class h (hp c (isBlank_iff.mpr hb)) rfl

theorem isDigit_eq_false {c : Char} (h : beginsWord c = true) : c.isDigit = false := by
  have halpha : c.isAlpha = (decide ('A'.val ≤ c.val ∧ c.val ≤ 'Z'.val) ||
      (decide ('a'.val ≤ c.val) && decide (c.val ≤ 'z'.val))) := rfl
  have hdigit : c.isDigit = (decide ('0'.val ≤ c.val) && decide (c.val ≤ '9'.val)) := rfl
  rw [beginsWord, Bool.or_eq_true] at h
  obtain h | h := h
  · rw [halpha] at h
    rw [hdigit]
    simp only [Bool.or_eq_true, Bool.and_eq_true, decide_eq_true_eq, Bool.and_eq_false_iff,
      decide_eq_false_iff_not, UInt32.le_iff_toNat_le] at h ⊢
    simp at h ⊢
    omega
  · obtain rfl : c = '_' := by simpa using h
    rfl

theorem cut_of_isDigit {c : Char} (h : c.isDigit = true) (rest : List Char) :
    cut c rest = cutNumber c rest := by
  have hb : isBlank c = false := isBlank_eq_false h (by simp [IsBlank])
  rw [cut, if_neg (by simp [hb]), if_neg (ne_of_class h rfl), if_neg (ne_of_class h rfl), if_pos h]

theorem cut_of_beginsWord {c : Char} (h : beginsWord c = true) (rest : List Char) :
    cut c rest = cutWord c rest := by
  have hb : isBlank c = false := isBlank_eq_false h (by simp [IsBlank, beginsWord])
  rw [cut, if_neg (by simp [hb]), if_neg (ne_of_class h rfl), if_neg (ne_of_class h rfl),
    if_neg (by simp [isDigit_eq_false h]), if_pos h]

theorem signOf?_eq_some {c : Char} {kind : TokenKind} (h : signOf? c = some kind) :
    (∃ sign : Operator, kind = .operator sign ∧ sign.spelling.toList = [c]) ∨
      ∃ sign : Mark, kind = .mark sign ∧ sign.spelling.toList = [c] := by
  unfold signOf? at h
  split at h
  all_goals cases h
  all_goals first
    | exact .inl ⟨_, rfl, rfl⟩
    | exact .inr ⟨_, rfl, rfl⟩

theorem cut_of_signOf? {c : Char} {kind : TokenKind} (h : signOf? c = some kind)
    (rest : List Char) : cut c rest = cutSign c rest := by
  unfold signOf? at h
  split at h
  all_goals first
    | rfl
    | cases h

theorem operator_spelling_cases (sign : Operator) :
    (∃ c, sign.spelling.toList = [c] ∧ signOf? c = some (.operator sign)) ∨
      ∃ c kind, sign.spelling.toList = [c, '='] ∧ signOf? c = some kind ∧
        signWithEquals? c = some sign := by
  cases sign
  all_goals first
    | exact .inl ⟨_, rfl, rfl⟩
    | exact .inr ⟨_, _, rfl, rfl, rfl⟩

theorem mark_spelling_eq (sign : Mark) :
    ∃ c, sign.spelling.toList = [c] ∧ signOf? c = some (.mark sign) := by
  cases sign <;> exact ⟨_, rfl, rfl⟩

theorem IsBody.cutBody {body : List Char} (h : IsBody body) (behind : List Char) :
    cutBody (body ++ '"' :: behind) = (body, some behind) := by
  induction h with
  | nil => rfl
  | plain hq he hb ih =>
    rw [List.cons_append, Piece.cutBody, ih]
    · exact hq
    · rintro _ _ rfl
      exact (he rfl).elim
  | escape c hb ih => rw [List.cons_append, List.cons_append, Piece.cutBody, ih]

theorem isBody_of_cutBody {text body behind : List Char}
    (h : cutBody text = (body, some behind)) : IsBody body := by
  fun_induction Piece.cutBody text generalizing body with
  | case1 => cases h
  | case2 rest =>
    cases h
    exact .nil
  | case3 c rest inner rest' hr ih =>
    cases h
    exact .escape c (ih hr)
  | case4 c rest hq he inner rest' hr ih =>
    cases h
    refine .plain hq ?_ (ih hr)
    rintro rfl
    cases rest with
    | nil => cases hr
    | cons d rest => exact he d rest rfl rfl

theorem wordKind_spelling (word : Keyword) : wordKind word.spelling.toList = .keyword word := by
  cases word <;> rfl

theorem wordKind_eq_identifier {text : List Char}
    (h : ∀ word : Keyword, text ≠ word.spelling.toList) : wordKind text = .identifier := by
  have hf : Keyword.all.find? (·.spelling.toList = text) = none :=
    List.find?_eq_none.mpr fun word _ => by simpa using (h word).symm
  rw [wordKind, hf]

theorem IsWord.lexeme {text : List Char} (h : IsWord text) :
    Lexeme text (wordKind text) text ∧
      piece (wordKind text) text = .lexeme (wordKind text) text := by
  by_cases hk : ∃ word : Keyword, text = word.spelling.toList
  · obtain ⟨word, rfl⟩ := hk
    rw [wordKind_spelling]
    exact ⟨.keyword word, rfl⟩
  · have hn (word : Keyword) (he : text = word.spelling.toList) : False := hk ⟨word, he⟩
    rw [wordKind_eq_identifier hn]
    exact ⟨.identifier h hn, rfl⟩

theorem isWord_cons {first : Char} {rest : List Char} (hf : beginsWord first = true)
    (hr : rest.all continuesWord = true) : IsWord (first :: rest) := by
  refine .word (by simpa [beginsWord] using hf) fun c hc => ?_
  simpa [continuesWord] using List.all_eq_true.mp hr c hc

theorem isWord_spelling (word : Keyword) : IsWord word.spelling.toList := by
  cases word <;> exact isWord_cons rfl rfl

theorem signWithEquals?_eq_some {c : Char} {sign : Operator} (h : signWithEquals? c = some sign) :
    sign.spelling.toList = [c, '='] := by
  unfold signWithEquals? at h
  split at h
  all_goals cases h
  all_goals rfl

-- A piece that is a lexeme and goes on from some beginning of it. If it is no longer
-- than that, then the beginning was a lexeme of this kind.
def Prolongs (found : Piece) (written : List Char) (kind : TokenKind) (kept : List Char) : Prop :=
  ∃ whole kind' kept', Lexeme whole kind' kept' ∧ found = piece kind' kept' ∧
    written <+: whole ∧ (written = whole → kind' = kind ∧ kept' = kept)

theorem prefix_takeWhile {p : Char → Bool} {front : List Char} (behind : List Char)
    (h : ∀ c ∈ front, p c = true) : front <+: (front ++ behind).takeWhile p := by
  rw [List.takeWhile_append_of_pos h]
  exact List.prefix_append _ _

section cut

variable {c : Char} {rest written behind : List Char}

theorem prolongs_word (h : IsWord written) (he : written ++ behind = c :: rest) :
    Prolongs (cut c rest).1 written (wordKind written) written := by
  cases h with
  | @word first tail hf hr =>
    obtain ⟨rfl, rfl⟩ := List.cons.inj he
    rw [cut_of_beginsWord (by simpa [beginsWord] using hf)]
    have hw : IsWord (first :: (tail ++ behind).takeWhile continuesWord) :=
      isWord_cons (by simpa [beginsWord] using hf) List.all_takeWhile
    refine ⟨_, _, _, hw.lexeme.1, hw.lexeme.2.symm, ?_, ?_⟩
    · rw [List.prefix_cons_inj]
      exact prefix_takeWhile behind fun d hd => by simpa [continuesWord] using hr d hd
    · intro hh
      rw [← hh]
      exact ⟨rfl, rfl⟩

theorem prolongs_sign {kind : TokenKind} (h : signOf? c = some kind) (rest : List Char) :
    Prolongs (cut c rest).1 [c] kind [c] := by
  have hs : Prolongs (cutSingle c rest).1 [c] kind [c] := by
    rw [cutSingle, h]
    obtain ⟨sign, rfl, hk⟩ | ⟨sign, rfl, hk⟩ := signOf?_eq_some h
    · exact ⟨[c], _, _, hk ▸ .operator sign, rfl, List.prefix_rfl, fun _ => ⟨rfl, rfl⟩⟩
    · exact ⟨[c], _, _, hk ▸ .mark sign, rfl, List.prefix_rfl, fun _ => ⟨rfl, rfl⟩⟩
  rw [cut_of_signOf? h]
  unfold cutSign
  split
  · split
    · rename_i more sign hw
      have hl := Lexeme.operator sign
      rw [signWithEquals?_eq_some hw] at hl
      exact ⟨[c, '='], _, _, hl, rfl, ⟨['='], rfl⟩, nofun⟩
    · exact hs
  · exact hs

theorem isRun_takeWhile {first : Char} (h : first.isDigit = true) (rest : List Char) :
    IsRun (first :: rest.takeWhile Char.isDigit) := by
  refine ⟨nofun, ?_⟩
  rw [List.forall_mem_cons]
  exact ⟨h, List.all_eq_true.mp List.all_takeWhile⟩

theorem prolongs_int (h : IsRun written) (he : written ++ behind = c :: rest) :
    Prolongs (cut c rest).1 written (.literal .int) written := by
  obtain ⟨hn, hd⟩ := h
  obtain ⟨first, tail, rfl⟩ := List.exists_cons_of_ne_nil hn
  obtain ⟨rfl, rfl⟩ := List.cons.inj he
  obtain ⟨hf, ht⟩ := List.forall_mem_cons.mp hd
  have hrun := isRun_takeWhile hf (tail ++ behind)
  have hp : first :: tail <+: first :: (tail ++ behind).takeWhile Char.isDigit :=
    (List.prefix_cons_inj first).mpr (prefix_takeWhile behind ht)
  have hint : Prolongs (.lexeme (.literal .int) (first :: (tail ++ behind).takeWhile Char.isDigit))
      (first :: tail) (.literal .int) (first :: tail) :=
    ⟨_, _, _, .int hrun, rfl, hp, fun hh => ⟨rfl, hh.symm⟩⟩
  rw [cut_of_isDigit hf]
  unfold cutNumber
  split
  · rename_i d more _
    split
    · rename_i hdd
      refine ⟨_, _, _, .float hrun (isRun_takeWhile hdd more), rfl,
        hp.trans (List.prefix_append _ _), ?_⟩
      -- a run of digits has no point in it
      intro hh
      exact absurd (hd '.' (by rw [hh]; simp)) (by decide)
    · exact hint
  · exact hint

theorem prolongs_float {whole part : List Char} (hw : IsRun whole) (hp : IsRun part)
    (he : whole ++ '.' :: (part ++ behind) = c :: rest) :
    Prolongs (cut c rest).1 (whole ++ '.' :: part) (.literal .float) (whole ++ '.' :: part) := by
  obtain ⟨first, tail, rfl⟩ := List.exists_cons_of_ne_nil hw.1
  obtain ⟨d, more, rfl⟩ := List.exists_cons_of_ne_nil hp.1
  obtain ⟨rfl, rfl⟩ := List.cons.inj he
  obtain ⟨hf, ht⟩ := List.forall_mem_cons.mp hw.2
  obtain ⟨hd, hm⟩ := List.forall_mem_cons.mp hp.2
  have htake : (tail ++ '.' :: d :: (more ++ behind)).takeWhile Char.isDigit = tail := by
    simp [List.takeWhile_append_of_pos ht]
  have hdrop : (tail ++ '.' :: d :: (more ++ behind)).dropWhile Char.isDigit =
      '.' :: d :: (more ++ behind) := by
    simp [List.dropWhile_append_of_pos ht]
  have hcut : (cut first (tail ++ '.' :: d :: (more ++ behind))).1 = .lexeme (.literal .float)
      (first :: tail ++ '.' :: d :: (more ++ behind).takeWhile Char.isDigit) := by
    simp only [cut_of_isDigit hf, cutNumber, htake, hdrop, if_pos hd]
  refine ⟨_, _, _, .float hw (isRun_takeWhile hd (more ++ behind)), hcut, ?_,
    fun hh => ⟨rfl, hh.symm⟩⟩
  rw [List.prefix_append_right_inj, List.prefix_cons_inj, List.prefix_cons_inj]
  exact prefix_takeWhile behind hm

theorem prolongs_string {body : List Char} (h : IsBody body)
    (he : '"' :: (body ++ '"' :: behind) = c :: rest) :
    Prolongs (cut c rest).1 ('"' :: (body ++ ['"'])) (.literal .string) body := by
  obtain ⟨rfl, rfl⟩ := List.cons.inj he
  refine ⟨_, _, _, .string h, ?_, List.prefix_rfl, fun _ => ⟨rfl, rfl⟩⟩
  have hq : cut '"' (body ++ '"' :: behind) = cutString (body ++ '"' :: behind) := rfl
  rw [hq, cutString, h.cutBody]
  rfl

-- Whatever lexeme a text begins with, a cut takes a lexeme that is no shorter.
theorem Lexeme.prolongs {kind : TokenKind} {kept : List Char} (h : Lexeme written kind kept)
    (he : written ++ behind = c :: rest) : Prolongs (cut c rest).1 written kind kept := by
  cases h with
  | int hr => exact prolongs_int hr he
  | float hw hp => exact prolongs_float hw hp (by simpa using he)
  | keyword word =>
    have hk := prolongs_word (isWord_spelling word) he
    rwa [wordKind_spelling] at hk
  | identifier hw hn =>
    have hk := prolongs_word hw he
    rwa [wordKind_eq_identifier hn] at hk
  | string hb => exact prolongs_string hb (by simpa using he)
  | operator sign =>
    obtain ⟨d, hs, hk⟩ | ⟨d, kind, hs, hk, hw⟩ := operator_spelling_cases sign
    · rw [hs] at he ⊢
      obtain ⟨rfl, rfl⟩ := List.cons.inj he
      exact prolongs_sign hk behind
    · have hl := Lexeme.operator sign
      rw [hs] at he hl ⊢
      obtain ⟨rfl, rfl⟩ := List.cons.inj he
      refine ⟨_, _, _, hl, ?_, List.prefix_rfl, fun _ => ⟨rfl, rfl⟩⟩
      simp [cut_of_signOf? hk, cutSign, hw, piece]
  | mark sign =>
    obtain ⟨d, hs, hk⟩ := mark_spelling_eq sign
    rw [hs] at he ⊢
    obtain ⟨rfl, rfl⟩ := List.cons.inj he
    exact prolongs_sign hk behind

end cut

theorem cut_quote (rest : List Char) :
    (∃ body, IsBody body ∧ (cut '"' rest).1 = .quoted body true) ∨
      cut '"' rest = (.quoted rest false, []) := by
  have hq : cut '"' rest = cutString rest := rfl
  have hs := cut_source '"' rest
  rw [hq, cutString] at hs ⊢
  split at hs
  · rename_i body behind hb
    exact .inl ⟨body, isBody_of_cutBody hb, rfl⟩
  · simp only [Piece.source, List.append_nil, Bool.false_eq_true, if_false,
      List.cons.injEq, true_and] at hs
    exact .inr (by rw [hs])

theorem cut_of_stray {c : Char} (hb : ¬ IsBlank c) (hc : c ≠ '#') (hq : c ≠ '"')
    (hd : c.isDigit ≠ true) (hw : beginsWord c ≠ true) (hs : signOf? c = none)
    (rest : List Char) : cut c rest = (.stray c, rest) := by
  have hno : signWithEquals? c = none := by
    unfold signWithEquals?
    split
    all_goals first
      | rfl
      | cases hs
  rw [cut, if_neg (fun h => hb (isBlank_iff.mpr h)), if_neg hc, if_neg hq, if_neg hd, if_neg hw]
  unfold cutSign
  simp only [hno, cutSingle, hs]
  split <;> rfl

-- All that a cut can come to.
theorem cut_cases (c : Char) (rest : List Char) :
    (IsBlank c ∧ cut c rest = (.blank c, rest)) ∨
    (c = '#' ∧ cut c rest = (.comment (rest.takeWhile (· ≠ '\n')), rest.dropWhile (· ≠ '\n'))) ∨
    (∃ written kind kept, Lexeme written kind kept ∧ (cut c rest).1 = piece kind kept) ∨
    (c = '"' ∧ cut c rest = (.quoted rest false, [])) ∨
    (¬ IsBlank c ∧ c ≠ '#' ∧ c ≠ '"' ∧ cut c rest = (.stray c, rest)) := by
  have lexeme {kind : TokenKind} (h : Prolongs (cut c rest).1 [c] kind [c]) :
      ∃ written kind kept, Lexeme written kind kept ∧ (cut c rest).1 = piece kind kept := by
    obtain ⟨whole, kind, kept, hl, he, -⟩ := h
    exact ⟨whole, kind, kept, hl, he⟩
  by_cases hb : IsBlank c
  · exact .inl ⟨hb, by rw [cut, if_pos (isBlank_iff.mp hb)]⟩
  by_cases hc : c = '#'
  · subst hc
    exact .inr (.inl ⟨rfl, rfl⟩)
  by_cases hq : c = '"'
  · subst hq
    obtain ⟨body, hbody, he⟩ | he := cut_quote rest
    · exact .inr (.inr (.inl ⟨_, _, _, .string hbody, he⟩))
    · exact .inr (.inr (.inr (.inl ⟨rfl, he⟩)))
  by_cases hd : c.isDigit = true
  · exact .inr (.inr (.inl (lexeme (prolongs_int ⟨nofun, by simpa using hd⟩ rfl))))
  by_cases hw : beginsWord c = true
  · exact .inr (.inr (.inl (lexeme (prolongs_word (.word (by simpa [beginsWord] using hw) nofun)
      rfl))))
  cases hs : signOf? c with
  | some kind => exact .inr (.inr (.inl (lexeme (prolongs_sign hs rest))))
  | none => exact .inr (.inr (.inr (.inr ⟨hb, hc, hq, cut_of_stray hb hc hq hd hw hs rest⟩)))

-- The longest lexeme in front of a text is what a cut takes.
theorem Longest.cut_eq {written kept : List Char} {kind : TokenKind} {c : Char}
    {rest behind : List Char} (h : Lexeme written kind kept)
    (hl : Longest written (c :: rest)) (he : written ++ behind = c :: rest) :
    cut c rest = (piece kind kept, behind) := by
  obtain ⟨whole, kind', kept', hw, hp, hx, hk⟩ := h.prolongs he
  have hs := cut_source c rest
  rw [hp, hw.source_piece] at hs
  obtain rfl := hx.eq_of_length_le (hl whole kind' kept' hw ⟨_, hs⟩)
  obtain ⟨rfl, rfl⟩ := hk rfl
  rw [← he, List.append_cancel_left_eq] at hs
  exact Prod.ext hp hs

-- No lexeme stands where a cut takes something else.
theorem not_prefix_of_cut {c : Char} {rest behind written kept : List Char} {kind : TokenKind}
    {found : Piece} (hcut : cut c rest = (found, behind))
    (hno : ∀ kind kept, found ≠ piece kind kept) (h : Lexeme written kind kept) :
    ¬ written <+: c :: rest := by
  rintro ⟨tail, he⟩
  obtain ⟨-, kind', kept', -, hp, -⟩ := h.prolongs he
  rw [hcut] at hp
  exact hno kind' kept' hp

-- A string literal without an end is no lexeme, and neither is a character that
-- begins nothing.
theorem stray_ne_piece (c : Char) (kind : TokenKind) (kept : List Char) :
    .stray c ≠ piece kind kept := by
  unfold piece
  split <;> nofun

theorem unclosed_ne_piece (body : List Char) (kind : TokenKind) (kept : List Char) :
    .quoted body false ≠ piece kind kept := by
  unfold piece
  split <;> nofun

theorem cut_unclosed_iff {body : List Char} : cut '"' body = (.quoted body false, []) ↔
    ∀ front, IsBody front → ¬ front ++ ['"'] <+: body := by
  constructor
  · intro h front hf hp
    refine not_prefix_of_cut h (unclosed_ne_piece body) (.string hf) ?_
    rwa [List.prefix_cons_inj]
  · intro h
    obtain ⟨front, hf, he⟩ | he := cut_quote body
    · have hs := cut_source '"' body
      rw [he, Piece.source, if_pos rfl, List.cons_append, List.cons_append, List.cons.injEq] at hs
      exact (h front hf ⟨_, hs.2⟩).elim
    · exact he

theorem cut_comment {body rest : List Char} (hb : '\n' ∉ body) (hr : ∀ c ∈ rest.head?, c = '\n') :
    cut '#' (body ++ rest) = (.comment body, rest) := by
  have hpos : ∀ c ∈ body, decide (c ≠ '\n') = true := by
    intro c hc
    rw [decide_eq_true_eq]
    rintro rfl
    exact hb hc
  have hcut : cut '#' (body ++ rest) = (.comment ((body ++ rest).takeWhile (· ≠ '\n')),
      (body ++ rest).dropWhile (· ≠ '\n')) := rfl
  rw [hcut, List.takeWhile_append_of_pos hpos, List.dropWhile_append_of_pos hpos]
  cases rest with
  | nil => simp
  | cons c rest =>
    obtain rfl : c = '\n' := hr c rfl
    simp

theorem token?_piece {written kept : List Char} {kind : TokenKind} (h : Lexeme written kind kept)
    (place : Location) :
    token? (place, piece kind kept) = some ⟨kind, String.ofList kept, place⟩ ∧
      diagnostic? (place, piece kind kept) = none := by
  cases h <;> exact ⟨rfl, rfl⟩

end Lexical

-- The tokens and the diagnostics of a text that begins at a place.
def tokensFrom (place : Location) (text : List Char) : List Token :=
  (locate place (ofText text)).filterMap token?

def diagnosticsFrom (place : Location) (text : List Char) : List Diagnostic :=
  (locate place (ofText text)).filterMap diagnostic?

section cons

variable {place : Location} {c : Char} {rest behind : List Char} {found : Piece}

theorem tokensFrom_cons (h : cut c rest = (found, behind)) :
    tokensFrom place (c :: rest) =
      (token? (place, found)).toList ++ tokensFrom (place.afterAll found.source) behind := by
  rw [tokensFrom, ofText_cons, h, locate]
  cases ht : token? (place, found) <;> simp [ht, tokensFrom]

theorem diagnosticsFrom_cons (h : cut c rest = (found, behind)) :
    diagnosticsFrom place (c :: rest) = (diagnostic? (place, found)).toList ++
      diagnosticsFrom (place.afterAll found.source) behind := by
  rw [diagnosticsFrom, ofText_cons, h, locate]
  cases hd : diagnostic? (place, found) <;> simp [hd, diagnosticsFrom]

end cons

theorem scan_ofText (place : Location) (text : List Char) :
    Scan place text (tokensFrom place text) (diagnosticsFrom place text) := by
  induction text using ofText.induct generalizing place with
  | case1 =>
    rw [tokensFrom, diagnosticsFrom, ofText_nil]
    exact .done
  | case2 c rest ih =>
    have hs := cut_source c rest
    generalize hcut : cut c rest = result at ih hs
    obtain ⟨found, behind⟩ := result
    rw [tokensFrom_cons hcut, diagnosticsFrom_cons hcut]
    obtain ⟨hb, he⟩ | ⟨rfl, he⟩ | ⟨written, kind, kept, hl, he⟩ | ⟨rfl, he⟩ | ⟨hb, hc, hq, he⟩ :=
      cut_cases c rest
    · obtain ⟨rfl, rfl⟩ := Prod.mk.inj (hcut.symm.trans he)
      exact .blank hb (ih _)
    · obtain ⟨rfl, rfl⟩ := Prod.mk.inj (hcut.symm.trans he)
      rw [← hs]
      refine .comment ?_ ?_ (ih _)
      · intro hm
        simpa using List.all_eq_true.mp List.all_takeWhile _ hm
      · intro d hd
        have hn := List.head?_dropWhile_not (· ≠ '\n') rest
        rw [hd] at hn
        simpa using hn
    · obtain rfl : found = piece kind kept := by rw [← he, hcut]
      rw [hl.source_piece] at hs ⊢
      rw [(token?_piece hl place).1, (token?_piece hl place).2, ← hs]
      refine .token hl ?_ (ih _)
      rintro other kind' kept' ho ⟨tail, ht⟩
      obtain ⟨whole, _, _, hw, hp, hx, -⟩ := ho.prolongs (ht.trans hs)
      rw [← hl.source_piece, ← he, hp, hw.source_piece]
      exact hx.length_le
    · obtain ⟨rfl, rfl⟩ := Prod.mk.inj (hcut.symm.trans he)
      rw [tokensFrom, diagnosticsFrom, ofText_nil]
      exact .unclosed (cut_unclosed_iff.mp he)
    · obtain ⟨rfl, rfl⟩ := Prod.mk.inj (hcut.symm.trans he)
      exact .stray hb hc hq (fun _ _ _ => not_prefix_of_cut he (stray_ne_piece c)) (ih _)

-- A text has one scan only.
theorem Lexical.Scan.eq_ofText {place : Location} {text : List Char} {tokens : List Token}
    {diagnostics : List Diagnostic} (h : Scan place text tokens diagnostics) :
    tokens = tokensFrom place text ∧ diagnostics = diagnosticsFrom place text := by
  induction h with
  | done => simp [tokensFrom, diagnosticsFrom, ofText_nil, locate]
  | @blank place c rest _ _ hb _ ih =>
    have hcut : cut c rest = (.blank c, rest) := by rw [cut, if_pos (isBlank_iff.mp hb)]
    rw [tokensFrom_cons hcut, diagnosticsFrom_cons hcut]
    exact ih
  | comment hb hr _ ih =>
    rw [tokensFrom_cons (cut_comment hb hr), diagnosticsFrom_cons (cut_comment hb hr)]
    exact ih
  | @token place written kept rest kind _ _ hl hlong _ ih =>
    obtain ⟨c, tail, rfl⟩ := List.exists_cons_of_ne_nil hl.ne_nil
    have hcut : cut c (tail ++ rest) = (piece kind kept, rest) := hlong.cut_eq hl rfl
    rw [List.cons_append, tokensFrom_cons hcut, diagnosticsFrom_cons hcut,
      (token?_piece hl place).1, (token?_piece hl place).2, hl.source_piece, ih.1, ih.2]
    exact ⟨rfl, rfl⟩
  | unclosed hno =>
    have hcut := cut_unclosed_iff.mpr hno
    rw [tokensFrom_cons hcut, diagnosticsFrom_cons hcut, tokensFrom, diagnosticsFrom, ofText_nil]
    exact ⟨rfl, rfl⟩
  | @stray place c rest _ _ hb hc hq hno _ ih =>
    have hcut : cut c rest = (.stray c, rest) := by
      obtain ⟨h, -⟩ | ⟨h, -⟩ | ⟨written, kind, kept, hl, he⟩ | ⟨h, -⟩ | ⟨-, -, -, he⟩ :=
        cut_cases c rest
      · exact (hb h).elim
      · exact (hc h).elim
      · refine (hno written kind kept hl ⟨(cut c rest).2, ?_⟩).elim
        rw [← cut_source c rest, he, hl.source_piece]
      · exact (hq h).elim
      · exact he
    rw [tokensFrom_cons hcut, diagnosticsFrom_cons hcut, ih.1, ih.2]
    exact ⟨rfl, rfl⟩

-- The tokens and the diagnostics of a source are those of its one scan.
theorem ofSource_eq_iff_scan (source : String) (tokens : List Token)
    (diagnostics : List Diagnostic) :
    Lexed.ofSource source = ⟨tokens, diagnostics⟩ ↔
      Scan .start source.toList tokens diagnostics := by
  have hl : Lexed.ofSource source =
      ⟨tokensFrom .start source.toList, diagnosticsFrom .start source.toList⟩ := rfl
  rw [hl, Lexed.mk.injEq]
  constructor
  · rintro ⟨rfl, rfl⟩
    exact scan_ofText .start source.toList
  · intro h
    exact ⟨h.eq_ofText.1.symm, h.eq_ofText.2.symm⟩

end ScriptIR
