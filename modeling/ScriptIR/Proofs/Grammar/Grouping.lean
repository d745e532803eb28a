import Mathlib.Data.List.Chain
import ScriptIR.Proofs.Grammar.Spelling

namespace ScriptIR

-- Whether a parenthesis behind a token goes with that token: a call and a function have
-- theirs behind the name, and three keywords have one.
def TokenKind.claims : TokenKind → Bool
  | .identifier => true
  | .keyword .mainWord => true
  | .keyword .ifWord => true
  | .keyword .forWord => true
  | _ => false

def TokenKind.isParen : TokenKind → Bool
  | .mark .leftParen => true
  | .mark .rightParen => true
  | _ => false

namespace Grammar

-- The tokens without the parentheses that are there for grouping. One that nothing in front
-- of it claims is such, and one that closes it is. The marks of those that are open say
-- which of them stay.
def dropGroups (claimed : Bool) (opened : List Bool) : List Token → List Token
  | [] => []
  | token :: rest =>
    match token.kind with
    | .mark .leftParen =>
      if claimed then token :: dropGroups false (true :: opened) rest
      else dropGroups false (false :: opened) rest
    | .mark .rightParen =>
      if opened.headD true then token :: dropGroups false opened.tail rest
      else dropGroups false opened.tail rest
    | kind => token :: dropGroups kind.claims opened rest

def ungrouped (tokens : List Token) : List Token := dropGroups false [] tokens

-- Whether tokens are not begun by a parenthesis.
def Plain (word : List Token) : Prop := ∀ token ∈ word.head?, token.kind ≠ .mark .leftParen

theorem plain_nil : Plain [] := nofun

theorem plain_cons {token : Token} {word : List Token} (hk : token.kind ≠ .mark .leftParen) :
    Plain (token :: word) := by
  rintro _ ⟨⟩
  exact hk

theorem Plain.append {word rest : List Token} (hw : Plain word) (hr : Plain rest) :
    Plain (word ++ rest) := by
  cases word with
  | nil => exact hr
  | cons token word => exact plain_cons (hw token rfl)

-- Statements and declarations are begun by no parenthesis of either kind.
def Begun (word : List Token) : Prop :=
  ∃ token rest, word = token :: rest ∧ token.kind.isParen = false

theorem Begun.plain {word : List Token} (h : Begun word) : Plain word := by
  obtain ⟨token, rest, rfl, hp⟩ := h
  refine plain_cons fun hl => ?_
  rw [hl] at hp
  cases hp

theorem begun_cons {token : Token} {kind : TokenKind} (hk : token.kind = kind)
    (hp : kind.isParen = false) (rest : List Token) : Begun (token :: rest) :=
  ⟨token, rest, rfl, hk ▸ hp⟩

theorem Begun.append {word : List Token} (h : Begun word) (rest : List Token) :
    Begun (word ++ rest) := by
  obtain ⟨token, back, rfl, hp⟩ := h
  exact ⟨token, back ++ rest, rfl, hp⟩

-- Without the groups in it a word is another one, whatever comes next. The parentheses that
-- are open inside of the word are given, as some words lack the one they begin with.
def Drops (claimed : Bool) (inside : List Bool) (word bare : List Token) : Prop :=
  ∀ opened rest, Plain rest →
    dropGroups claimed (inside ++ opened) (word ++ rest) = bare ++ dropGroups false opened rest

section

variable {claimed : Bool} {opened inside : List Bool} {token : Token}
variable {word bare back other rest : List Token}

theorem dropGroups_opening (hk : token.kind = .mark .leftParen) :
    dropGroups claimed opened (token :: rest) =
      if claimed then token :: dropGroups false (true :: opened) rest
      else dropGroups false (false :: opened) rest := by
  rw [dropGroups.eq_def]
  simp only [hk]

theorem dropGroups_closing (hk : token.kind = .mark .rightParen) :
    dropGroups claimed opened (token :: rest) =
      if opened.headD true then token :: dropGroups false opened.tail rest
      else dropGroups false opened.tail rest := by
  rw [dropGroups.eq_def]
  simp only [hk]

theorem dropGroups_cons (hp : token.kind.isParen = false) :
    dropGroups claimed opened (token :: rest) =
      token :: dropGroups token.kind.claims opened rest := by
  obtain ⟨kind, text, place⟩ := token
  cases kind with
  | mark sign =>
    cases sign with
    | leftParen => cases hp
    | rightParen => cases hp
    | _ => rfl
  | _ => rfl

theorem isParen_eq_false (hl : token.kind ≠ .mark .leftParen)
    (hr : token.kind ≠ .mark .rightParen) : token.kind.isParen = false := by
  rw [TokenKind.isParen.eq_def]
  split <;> simp_all

theorem dropGroups_plain (h : Plain rest) :
    dropGroups claimed opened rest = dropGroups false opened rest := by
  cases rest with
  | nil => rfl
  | cons token rest =>
    have hl := h token rfl
    by_cases hr : token.kind = .mark .rightParen
    · rw [dropGroups_closing hr, dropGroups_closing hr]
    · have hp := isParen_eq_false hl hr
      rw [dropGroups_cons hp, dropGroups_cons hp]

-- A parenthesis stands only behind a token that claims it.
def Claimed (first second : Token) : Prop :=
  second.kind = .mark .leftParen → first.kind.claims = true

theorem claimed_cons (hp : Plain rest) (hc : rest.IsChain Claimed) :
    (token :: rest).IsChain Claimed :=
  List.isChain_cons.mpr ⟨fun next hn hk => absurd hk (hp next hn), hc⟩

-- No group is left, at the beginning or further on.
theorem claimed_dropGroups (tokens : List Token) (claimed : Bool) (opened : List Bool) :
    (claimed = false → Plain (dropGroups claimed opened tokens)) ∧
      (dropGroups claimed opened tokens).IsChain Claimed := by
  induction tokens generalizing claimed opened with
  | nil => exact ⟨fun _ => plain_nil, .nil⟩
  | cons token rest ih =>
    by_cases hl : token.kind = .mark .leftParen
    · rw [dropGroups_opening hl]
      cases claimed with
      | false => exact ih false (false :: opened)
      | true =>
        obtain ⟨hplain, hchain⟩ := ih false (true :: opened)
        refine ⟨fun h => ?_, claimed_cons (hplain rfl) hchain⟩
        cases h
    by_cases hr : token.kind = .mark .rightParen
    · obtain ⟨hplain, hchain⟩ := ih false opened.tail
      rw [dropGroups_closing hr]
      split
      · exact ⟨fun _ => plain_cons hl, claimed_cons (hplain rfl) hchain⟩
      · exact ⟨fun _ => hplain rfl, hchain⟩
    · obtain ⟨hplain, hchain⟩ := ih token.kind.claims opened
      rw [dropGroups_cons (isParen_eq_false hl hr)]
      refine ⟨fun _ => plain_cons hl, ?_⟩
      cases hc : token.kind.claims with
      | false =>
        rw [hc] at hplain hchain
        exact claimed_cons (hplain rfl) hchain
      | true =>
        rw [hc] at hchain
        exact List.isChain_cons.mpr ⟨fun _ _ _ => hc, hchain⟩

theorem drops_nil : Drops claimed [] [] [] := fun _ _ h => dropGroups_plain h

theorem Drops.cons {kind : TokenKind} (hk : token.kind = kind)
    (h : Drops kind.claims inside word bare) (hp : kind.isParen = false) :
    Drops claimed inside (token :: word) (token :: bare) := fun opened rest hr => by
  subst hk
  rw [List.cons_append, dropGroups_cons hp, h opened rest hr, List.cons_append]

-- A parenthesis that is claimed stays.
theorem Drops.opening (h : Drops false (true :: inside) word bare)
    (hk : token.kind = .mark .leftParen) :
    Drops true inside (token :: word) (token :: bare) := fun opened rest hp => by
  have hd := h opened rest hp
  rw [List.cons_append] at hd
  rw [List.cons_append, dropGroups_opening hk, if_pos rfl, hd, List.cons_append]

theorem Drops.closing (h : Drops false inside word bare) (hk : token.kind = .mark .rightParen) :
    Drops claimed (true :: inside) (token :: word) (token :: bare) := fun opened rest hp => by
  have hd := h opened rest hp
  rw [List.cons_append, List.cons_append, dropGroups_closing hk, List.headD_cons, if_pos rfl,
    List.tail_cons, hd, List.cons_append]

-- Any other one goes.
theorem Drops.group (h : Drops false (false :: inside) word bare)
    (hk : token.kind = .mark .leftParen) :
    Drops false inside (token :: word) bare := fun opened rest hp => by
  have hd := h opened rest hp
  rw [List.cons_append] at hd
  rw [List.cons_append, dropGroups_opening hk, if_neg nofun, hd]

theorem Drops.closeGroup (h : Drops false inside word bare)
    (hk : token.kind = .mark .rightParen) :
    Drops claimed (false :: inside) (token :: word) bare := fun opened rest hp => by
  have hd := h opened rest hp
  rw [List.cons_append, List.cons_append, dropGroups_closing hk, List.headD_cons, if_neg nofun,
    List.tail_cons, hd]

theorem Drops.append {outer : List Bool} (h : Drops claimed inside word bare)
    (hb : Drops false outer back other) (hp : Plain back) :
    Drops claimed (inside ++ outer) (word ++ back) (bare ++ other) := fun opened rest hr => by
  have hd := h (outer ++ opened) (back ++ rest) (hp.append hr)
  rw [List.append_assoc, List.append_assoc, List.append_assoc, hd, hb opened rest hr]

theorem Drops.closed {kind : TokenKind} (h : Drops claimed [] word bare) (hk : token.kind = kind)
    (hp : kind.isParen = false) : Drops claimed [] (word ++ [token]) (bare ++ [token]) := by
  subst hk
  exact h.append (.cons rfl drops_nil hp) (begun_cons rfl hp []).plain

theorem Drops.paren (h : Drops claimed [] word bare) (hk : token.kind = .mark .rightParen) :
    Drops claimed [true] (word ++ [token]) (bare ++ [token]) :=
  h.append (drops_nil.closing hk) (plain_cons (by simp [hk]))

-- What a word begins with is not lost.
theorem Drops.exists_cons (h : Drops claimed [] (token :: word) bare)
    (hp : token.kind.isParen = false) : ∃ back, bare = token :: back := by
  have hd := h [] [] plain_nil
  simp only [List.append_nil, dropGroups_cons hp, dropGroups] at hd
  exact ⟨_, hd.symm⟩

-- An operand in parentheses.
theorem Drops.parens {closing : Token} (h : Drops false [] word bare)
    (ho : token.kind = .mark .leftParen) (hc : closing.kind = .mark .rightParen) :
    Drops false [] (token :: (word ++ [closing])) bare := by
  have hd : Drops false [false] (word ++ [closing]) (bare ++ []) :=
    h.append (drops_nil.closeGroup hc) (plain_cons (by simp [hc]))
  rw [List.append_nil] at hd
  exact hd.group ho

end

end Grammar

end ScriptIR
