import ScriptIR.Grammar.Program
import ScriptIR.Proofs.Grammar.Declaration

namespace ScriptIR

open Grammar

-- A list of tokens that is a program.
def Accepted (tokens : List Token) : Prop := ∃ tree, parse tokens = .ok tree

-- A list of tokens that is used up to a point and cannot be used any further.
-- What is used can still be completed, but not with the token that comes next.
-- Where no token comes next, what is used is no program itself.
structure StopsAt (used rest : List Token) : Prop where
  viable : ∃ trees more, ProgramSpelling trees (used ++ more)
  dead : ∀ trees behind, behind.head? = rest.head? → ¬ ProgramSpelling trees (used ++ behind)

namespace StopsAt

variable {used rest : List Token}

-- Only the next token matters.
theorem congr {other : List Token} (h : StopsAt used rest) (hr : other.head? = rest.head?) :
    StopsAt used other :=
  ⟨h.viable, fun trees behind hb => h.dead trees behind (hb.trans hr)⟩

-- The later one of two such points would be a completion of the earlier one.
theorem length_le {front back : List Token} (h : StopsAt used rest) (ho : StopsAt front back)
    (he : used ++ rest = front ++ back) : front.length ≤ used.length := by
  apply Nat.le_of_not_lt
  intro hlt
  obtain ⟨middle, rfl⟩ : used <+: front :=
    List.prefix_of_prefix_length_le ⟨rest, he⟩ (List.prefix_append front back) (Nat.le_of_lt hlt)
  obtain ⟨trees, more, hp⟩ := ho.viable
  rw [List.append_assoc] at hp he
  refine h.dead trees (middle ++ more) ?_ hp
  rw [List.append_cancel_left he]
  cases middle with
  | nil => simp at hlt
  | cons token middle => rfl

theorem unique {front back : List Token} (h : StopsAt used rest) (ho : StopsAt front back)
    (he : used ++ rest = front ++ back) : used = front ∧ rest = back :=
  List.append_inj he (Nat.le_antisymm (ho.length_le h he.symm) (h.length_le ho he))

end StopsAt

namespace Grammar

variable {α β : Type} {n : Nat}

-- An outcome that leaves nothing behind a success.
def Outcome.Exhausts (outcome : Outcome α n) : Prop :=
  ∀ value rest shorter, outcome = .parsed value rest shorter → rest = []

theorem Outcome.Exhausts.within {k : Nat} {outcome : Outcome α k} (h : outcome.Exhausts)
    (hk : k ≤ n) : (outcome.within hk).Exhausts := by
  cases outcome with
  | refused wanted rest => nofun
  | parsed value rest shorter =>
    intro other back shorter' ho
    cases ho
    exact h value rest shorter rfl

theorem Outcome.Exhausts.map {outcome : Outcome α n} (h : outcome.Exhausts) (f : α → β) :
    (outcome.map f).Exhausts := by
  cases outcome with
  | refused wanted rest => nofun
  | parsed value rest shorter =>
    intro other back shorter' ho
    cases ho
    exact h value rest shorter rfl

theorem Outcome.Exhausts.andMaybe (outcome : Outcome α n)
    {next : (value : α) → (rest : List Token) → rest.length < n → Outcome β (rest.length + 1)}
    (h : ∀ value rest shorter, (next value rest shorter).Exhausts) :
    (outcome.andMaybe next).Exhausts := by
  cases outcome with
  | refused wanted rest => nofun
  | parsed value rest shorter => exact (h value rest shorter).within shorter

theorem declarations_exhausts (tokens : List Token) : (declarations tokens).outcome.Exhausts := by
  induction tokens using declarations.induct with
  | case1 =>
    rw [declarations]
    intro trees rest shorter h
    cases h
    rfl
  | case2 tokens hne ih =>
    rw [declarations, Traced.outcome_loosen, Traced.outcome_andMaybe]
    · exact (Outcome.Exhausts.andMaybe _ fun first rest shorter =>
        (ih rest shorter).map (first :: ·)).within _
    · exact hne

end Grammar

-- All that a reading of a list of tokens can come to.
theorem program_cases (tokens : List Token) :
    (∃ trees, ProgramSpelling trees tokens ∧ parse tokens = .ok (.node .program trees .start)) ∨
    ∃ wanted used rest, tokens = used ++ rest ∧ StopsAt used rest ∧
      parse tokens = .error ((Reader.ofTokens tokens).errorAt wanted rest) ∧
      (Reader.ofTokens tokens).program.2.unread = rest := by
  have hd := declarations_decides tokens
  have hx := declarations_exhausts tokens
  simp only [parse, Reader.program, Reader.ofTokens]
  generalize (declarations tokens).outcome = outcome at hd hx
  cases outcome with
  | parsed trees rest shorter =>
    obtain rfl := hx trees rest shorter rfl
    obtain ⟨used, ht, hp, -⟩ := hd
    obtain rfl : tokens = used := by rw [ht, List.append_nil]
    exact .inl ⟨trees, hp, rfl⟩
  | refused wanted rest =>
    obtain ⟨used, ht, ⟨trees, more, hp⟩, hn⟩ := hd
    refine .inr ⟨wanted, used, rest, ht, ⟨⟨trees, more, hp⟩, ?_⟩, rfl, rfl⟩
    intro trees behind hb hp
    refine hn trees (used ++ behind) [] ⟨hp, rfl⟩ ⟨behind, List.append_nil _, hb⟩

-- A list of tokens has one reading at most, for all that an else is ambiguous.
theorem Grammar.ProgramSpelling.unique {tokens : List Token} {trees others : List Tree}
    (h : ProgramSpelling trees tokens) (ho : ProgramSpelling others tokens) : trees = others := by
  have hd := declarations_decides tokens
  generalize (declarations tokens).outcome = outcome at hd
  have meets {used rest : List Token} (ht : tokens = used ++ rest) :
      Meets used rest (tokens ++ []) := by
    rw [List.append_nil, ht]
    exact Meets.of_append used rest
  cases outcome with
  | parsed value rest shorter =>
    obtain ⟨used, ht, -, hu⟩ := hd
    rw [(hu trees tokens [] ⟨h, rfl⟩ (meets ht)).1, (hu others tokens [] ⟨ho, rfl⟩ (meets ht)).1]
  | refused wanted rest =>
    obtain ⟨used, ht, -, hn⟩ := hd
    exact (hn trees tokens [] ⟨h, rfl⟩ (meets ht)).elim

theorem parse_eq_ok_iff {tokens : List Token} {tree : Tree} :
    parse tokens = .ok tree ↔
      ∃ trees, tree = .node .program trees .start ∧ ProgramSpelling trees tokens := by
  obtain ⟨trees, hp, he⟩ | ⟨wanted, used, rest, rfl, hs, he, -⟩ := program_cases tokens
  · rw [he, Except.ok.injEq]
    constructor
    · rintro rfl
      exact ⟨trees, rfl, hp⟩
    · intro h
      obtain ⟨others, rfl, ho⟩ := h
      rw [hp.unique ho]
  · rw [he]
    constructor
    · nofun
    · intro h
      obtain ⟨trees, -, hp⟩ := h
      exact (hs.dead trees rest rfl hp).elim

theorem accepted_iff {tokens : List Token} :
    Accepted tokens ↔ ∃ trees, ProgramSpelling trees tokens := by
  constructor
  · intro hv
    obtain ⟨tree, h⟩ := hv
    obtain ⟨trees, -, hp⟩ := parse_eq_ok_iff.mp h
    exact ⟨trees, hp⟩
  · intro hv
    obtain ⟨trees, hp⟩ := hv
    exact ⟨_, parse_eq_ok_iff.mpr ⟨trees, rfl, hp⟩⟩

-- What is known of a list of tokens that is not a program.
theorem StopsAt.program {used rest : List Token} (h : StopsAt used rest) :
    ∃ wanted, parse (used ++ rest) = .error ((Reader.ofTokens (used ++ rest)).errorAt wanted rest) ∧
      (Reader.ofTokens (used ++ rest)).program.2.unread = rest := by
  obtain ⟨trees, hp, -⟩ | ⟨wanted, front, back, ht, hs, he, hr⟩ := program_cases (used ++ rest)
  · exact (h.dead trees rest rfl hp).elim
  · obtain ⟨rfl, rfl⟩ := h.unique hs ht
    exact ⟨wanted, he, hr⟩

theorem exists_stopsAt {tokens : List Token} {error : SyntaxError}
    (h : parse tokens = .error error) : ∃ used rest, tokens = used ++ rest ∧ StopsAt used rest := by
  obtain ⟨trees, -, he⟩ | ⟨wanted, used, rest, ht, hs, -⟩ := program_cases tokens
  · rw [he] at h
    cases h
  · exact ⟨used, rest, ht, hs⟩

-- An error that blames a token. The parser has taken all that is in front of the
-- token, and that may become a program, but with the token it can become none.
-- So the error is the same whatever is behind the token.
structure RefusesToken (tokens : List Token) (error : SyntaxError) (position : Nat)
    (token : Token) : Prop where
  get : tokens[position]? = some token
  found : error.found = some token
  foundText : error.foundText = token.describe
  place : error.place = token.place
  cursor : (Reader.ofTokens tokens).program.2.unread = tokens.drop position
  viable : ∃ more, Accepted (tokens.take position ++ more)
  dead : ∀ more, ¬ Accepted (tokens.take (position + 1) ++ more)
  stays : ∀ more, ∃ other, parse (tokens.take (position + 1) ++ more) = .error other ∧
    other.found = some token ∧ other.place = token.place ∧
    (Reader.ofTokens (tokens.take (position + 1) ++ more)).program.2.unread = token :: more

-- An error that blames the end. More tokens would have made a program.
structure EndsEarly (tokens : List Token) (error : SyntaxError) : Prop where
  found : error.found = none
  cursor : (Reader.ofTokens tokens).program.2.unread = []
  viable : ∃ more, more ≠ [] ∧ Accepted (tokens ++ more)
  place : ∃ last, tokens.getLast? = some last ∧ error.place = last.place

theorem StopsAt.refusesToken {used behind : List Token} {token : Token} {error : SyntaxError}
    (h : StopsAt used (token :: behind)) (he : parse (used ++ token :: behind) = .error error) :
    RefusesToken (used ++ token :: behind) error used.length token := by
  obtain ⟨wanted, hp, hr⟩ := h.program
  rw [hp] at he
  cases he
  have front : (used ++ token :: behind).take (used.length + 1) = used ++ [token] := by
    rw [List.append_cons, List.take_left' (by simp)]
  refine ⟨by simp, rfl, rfl, rfl, ?_, ?_, ?_, ?_⟩
  · rw [hr, List.drop_left]
  · obtain ⟨trees, more, hv⟩ := h.viable
    rw [List.take_left]
    exact ⟨more, accepted_iff.mpr ⟨trees, hv⟩⟩
  · intro more ha
    obtain ⟨trees, hs⟩ := accepted_iff.mp ha
    rw [front, ← List.append_cons] at hs
    exact h.dead trees (token :: more) rfl hs
  · intro more
    have hm : StopsAt used (token :: more) := h.congr rfl
    obtain ⟨wanted', hp', hr'⟩ := hm.program
    rw [front, ← List.append_cons]
    exact ⟨_, hp', rfl, rfl, hr'⟩

theorem StopsAt.endsEarly {tokens : List Token} {error : SyntaxError} (h : StopsAt tokens [])
    (he : parse tokens = .error error) : EndsEarly tokens error := by
  obtain ⟨wanted, hp, hr⟩ := h.program
  rw [List.append_nil] at hp hr
  rw [hp] at he
  cases he
  obtain ⟨trees, more, hv⟩ := h.viable
  have hno : ¬ ProgramSpelling trees tokens := fun hs =>
    h.dead trees [] rfl (by rwa [List.append_nil])
  refine ⟨rfl, hr, ⟨more, ?_, accepted_iff.mpr ⟨trees, hv⟩⟩, ?_⟩
  · rintro rfl
    rw [List.append_nil] at hv
    exact hno hv
  · cases hl : tokens.getLast? with
    | some last => exact ⟨last, rfl, by simp [Reader.errorAt, Reader.ofTokens, hl]⟩
    | none =>
      -- an empty list of tokens is a program
      obtain rfl := List.getLast?_eq_none_iff.mp hl
      exact (h.dead [] [] rfl .nil).elim

-- The first place that a message can blame is where it blames it: at the token
-- that no program has there, or at the end where more was to come.
theorem parse_error_exact (tokens : List Token) :
    (∀ error, parse tokens = .error error →
      (∃ position token, RefusesToken tokens error position token) ∨ EndsEarly tokens error) ∧
    ∀ more, Accepted (tokens ++ more) → Accepted tokens ∨
      ∃ error, parse tokens = .error error ∧ EndsEarly tokens error := by
  constructor
  · intro error he
    obtain ⟨used, rest, rfl, hs⟩ := exists_stopsAt he
    cases rest with
    | nil =>
      rw [List.append_nil] at he ⊢
      exact .inr (hs.endsEarly he)
    | cons token behind => exact .inl ⟨used.length, token, hs.refusesToken he⟩
  · intro more ha
    cases he : parse tokens with
    | ok tree => exact .inl ⟨tree, he⟩
    | error error =>
      obtain ⟨used, rest, rfl, hs⟩ := exists_stopsAt he
      cases rest with
      | nil =>
        rw [List.append_nil] at he ⊢
        exact .inr ⟨error, rfl, hs.endsEarly he⟩
      | cons token behind =>
        obtain ⟨trees, hp⟩ := accepted_iff.mp ha
        rw [List.append_assoc] at hp
        exact (hs.dead trees (token :: behind ++ more) rfl hp).elim

end ScriptIR
