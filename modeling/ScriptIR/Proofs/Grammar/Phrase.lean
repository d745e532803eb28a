import ScriptIR.Grammar.Traced

namespace ScriptIR.Grammar

-- What a rule is meant to read. A value has its spellings, and a spelling may
-- need a certain token, or none, behind it in order not to be read on.
structure Phrase (α : Type) where
  spells : α → List Token → Prop
  fits : α → List Token → List Token → Prop

namespace Phrase

variable {α β : Type}

-- A rule can only be completed by a phrase that has some spelling.
def Spelled (phrase : Phrase α) : Prop := ∃ value word, phrase.spells value word

def map (f : α → β) (phrase : Phrase α) : Phrase β where
  spells value word := ∃ inner, value = f inner ∧ phrase.spells inner word
  fits value word behind := ∃ inner, value = f inner ∧ phrase.fits inner word behind

-- A value that also says where its spelling begins.
def mapPlaced (f : Location → α → β) (phrase : Phrase α) : Phrase β where
  spells value word := ∃ inner, value = f (nextPlace word) inner ∧ phrase.spells inner word
  fits value word behind :=
    ∃ inner, value = f (nextPlace word) inner ∧ phrase.fits inner word behind

-- One phrase behind the other. What the second one is may depend on the first,
-- on its value and on its spelling.
def seq (first : Phrase α) (second : α → List Token → Phrase β) : Phrase β where
  spells value word := ∃ left front back, word = front ++ back ∧ first.spells left front ∧
    (second left front).spells value back
  fits value word behind := ∃ left front back, word = front ++ back ∧
    first.fits left front (back ++ behind) ∧ (second left front).fits value back behind

-- A single token of a kind.
def one (kind : TokenKind) : Phrase Token where
  spells token word := token.kind = kind ∧ word = [token]
  fits token word _ := token.kind = kind ∧ word = [token]

-- A token of a kind and what is behind it.
def lead (kind : TokenKind) (second : Token → Phrase β) : Phrase β where
  spells value word := ∃ token back, word = token :: back ∧ token.kind = kind ∧
    (second token).spells value back
  fits value word behind := ∃ token back, word = token :: back ∧ token.kind = kind ∧
    (second token).fits value back behind

-- A phrase and the token of a kind that ends it.
def closed (phrase : Phrase α) (kind : TokenKind) : Phrase α where
  spells value word := ∃ front token, word = front ++ [token] ∧ token.kind = kind ∧
    phrase.spells value front
  fits value word behind := ∃ front token, word = front ++ [token] ∧ token.kind = kind ∧
    phrase.fits value front (token :: behind)

-- What is behind an element of a list: nothing, or a comma and the other ones.
def tail (list : Phrase (List α)) (value : α) : Phrase (List α) where
  spells values word := (values = [value] ∧ word = []) ∨ ∃ comma back more, word = comma :: back ∧
    values = value :: more ∧ comma.kind = .mark .comma ∧ list.spells more back
  fits values word behind := (values = [value] ∧ word = [] ∧
      ∀ token, behind.head? = some token → token.kind ≠ .mark .comma) ∨
    ∃ comma back more, word = comma :: back ∧ values = value :: more ∧
      comma.kind = .mark .comma ∧ list.fits more back behind

-- What one phrase is behind a token, another one is from the token on.
structure Led (inner : Phrase α) (token : Token) (outer : Phrase α) : Prop where
  sound : ∀ value word, inner.spells value word → outer.spells value (token :: word)
  complete : ∀ value back rest, outer.fits value (token :: back) rest → inner.fits value back rest

-- A phrase in other words.
structure Means (inner outer : Phrase α) : Prop where
  sound : ∀ value word, inner.spells value word → outer.spells value word
  complete : ∀ value word rest, outer.fits value word rest → inner.fits value word rest

theorem Spelled.map {phrase : Phrase α} (h : phrase.Spelled) (f : α → β) :
    (phrase.map f).Spelled := by
  obtain ⟨value, word, hs⟩ := h
  exact ⟨f value, word, value, rfl, hs⟩

theorem Spelled.seq {first : Phrase α} {second : α → List Token → Phrase β} (h : first.Spelled)
    (hs : ∀ value word, (second value word).Spelled) : (first.seq second).Spelled := by
  obtain ⟨left, front, hl⟩ := h
  obtain ⟨value, back, hb⟩ := hs left front
  exact ⟨value, _, left, front, back, rfl, hl, hb⟩

theorem Spelled.lead (kind : TokenKind) {second : Token → Phrase β}
    (h : ∀ token, (second token).Spelled) : (Phrase.lead kind second).Spelled := by
  obtain ⟨value, back, hb⟩ := h ⟨kind, "", .start⟩
  exact ⟨value, _, _, back, rfl, rfl, hb⟩

theorem spelled_tail (list : Phrase (List α)) (value : α) : (list.tail value).Spelled :=
  ⟨_, _, .inl ⟨rfl, rfl⟩⟩

end Phrase

theorem Traced.outcome_andMaybe {α β : Type} {n : Nat} (traced : Traced α n)
    (next : (value : α) → (rest : List Token) → rest.length < n → Traced β (rest.length + 1)) :
    (traced.andMaybe next).outcome =
      traced.outcome.andMaybe fun value rest shorter => (next value rest shorter).outcome := by
  obtain ⟨choices, outcome⟩ := traced
  cases outcome <;> rfl

theorem Traced.outcome_andThen {α β : Type} {n : Nat} (traced : Traced α n)
    (next : (value : α) → (rest : List Token) → rest.length < n → Traced β rest.length) :
    (traced.andThen next).outcome =
      traced.outcome.andThen fun value rest shorter => (next value rest shorter).outcome :=
  traced.outcome_andMaybe _

theorem Traced.outcome_map {α β : Type} {n : Nat} (f : α → β) (traced : Traced α n) :
    (traced.map f).outcome = traced.outcome.map f := rfl

theorem Traced.outcome_loosen {α : Type} {n : Nat} (traced : Traced α n) :
    traced.loosen.outcome = traced.outcome.loosen := rfl

theorem Traced.outcome_noting {α : Type} {n : Nat} (choice : Choice) (traced : Traced α n) :
    (traced.noting choice).outcome = traced.outcome := rfl

theorem Outcome.outcome_traced {α : Type} {n : Nat} (outcome : Outcome α n) :
    outcome.traced.outcome = outcome := rfl

-- Promises and functions of the value leave a success a success.
theorem Outcome.parsed_of_within {α : Type} {n k : Nat} {outcome : Outcome α k} (h : k ≤ n)
    {value : α} {rest : List Token} {shorter : rest.length < n}
    (ho : outcome.within h = .parsed value rest shorter) :
    ∃ shorter, outcome = .parsed value rest shorter := by
  cases outcome with
  | refused _ _ => cases ho
  | parsed _ _ shorter =>
    cases ho
    exact ⟨shorter, rfl⟩

theorem Outcome.parsed_of_map {α β : Type} {n : Nat} {outcome : Outcome α n} {f : α → β}
    {value : β} {rest : List Token} {shorter : rest.length < n}
    (ho : outcome.map f = .parsed value rest shorter) :
    ∃ inner, value = f inner ∧ outcome = .parsed inner rest shorter := by
  cases outcome with
  | refused _ _ => cases ho
  | parsed inner _ _ =>
    cases ho
    exact ⟨inner, rfl, rfl⟩

-- A list that no row of a match takes for one that begins with a kind has no
-- such token at its head.
theorem head_kind_ne {tokens : List Token} {kind : TokenKind}
    (h : ∀ (text : String) (place : Location) (rest : List Token),
      tokens = ⟨kind, text, place⟩ :: rest → False) :
    ∀ token, tokens.head? = some token → token.kind ≠ kind := by
  rintro ⟨_, text, place⟩ ht rfl
  obtain ⟨rest, rfl⟩ := List.head?_eq_some_iff.mp ht
  exact h text place rest rfl

-- A token of a kind that prolongs nothing ends what is before it.
theorem stops_cons {prolongs : TokenKind → Bool} {token : Token} {behind : List Token}
    (h : prolongs token.kind = false) :
    ∀ next, (token :: behind).head? = some next → prolongs next.kind = false := by
  intro next hn
  cases hn
  exact h

theorem nextPlace_append {front back : List Token} (h : front ≠ []) :
    nextPlace (front ++ back) = nextPlace front := by
  cases front with
  | nil => exact absurd rfl h
  | cons token rest => rfl

-- A whole agrees with what a rule has used and with the very next token, be
-- that the end.
def Meets (used rest whole : List Token) : Prop :=
  ∃ behind, whole = used ++ behind ∧ behind.head? = rest.head?

theorem Meets.of_append (used rest : List Token) : Meets used rest (used ++ rest) :=
  ⟨rest, rfl, rfl⟩

theorem Meets.head?_eq {used rest whole : List Token} (h : Meets used rest whole) :
    whole.head? = (used ++ rest).head? := by
  obtain ⟨behind, rfl, hb⟩ := h
  cases used with
  | nil => exact hb
  | cons token used => rfl

theorem Meets.of_append_left {front used rest whole : List Token}
    (h : Meets (front ++ used) rest (front ++ whole)) : Meets used rest whole := by
  obtain ⟨behind, he, hb⟩ := h
  rw [List.append_assoc] at he
  exact ⟨behind, List.append_cancel_left he, hb⟩

-- Whatever agrees up to some later point agrees up to an earlier one.
theorem Meets.shorten {front used rest whole : List Token}
    (h : Meets (front ++ used) rest whole) : Meets front (used ++ rest) whole := by
  obtain ⟨behind, rfl, hb⟩ := h
  refine ⟨used ++ behind, List.append_assoc _ _ _, ?_⟩
  cases used with
  | nil => exact hb
  | cons token used => rfl

namespace Outcome

variable {α β : Type} {n k : Nat}

-- A rule decides its phrase on a list of tokens. What it reads is a spelling,
-- and no other spelling agrees with the list up to the next token. Where it
-- stops short, what it used begins a spelling, and none goes on with the next
-- token.
def Decides (outcome : Outcome α n) (phrase : Phrase α) (tokens : List Token) : Prop :=
  match outcome with
  | .parsed value rest _ => ∃ used, tokens = used ++ rest ∧ phrase.spells value used ∧
      ∀ other word behind, phrase.fits other word behind → Meets used rest (word ++ behind) →
        other = value ∧ word = used
  | .refused _ rest => ∃ used, tokens = used ++ rest ∧
      (∃ value more, phrase.spells value (used ++ more)) ∧
      ∀ value word behind, phrase.fits value word behind → ¬ Meets used rest (word ++ behind)

@[simp] theorem decides_within {outcome : Outcome α k} {h : k ≤ n} {phrase : Phrase α}
    {tokens : List Token} :
    (outcome.within h).Decides phrase tokens ↔ outcome.Decides phrase tokens := by
  cases outcome <;> rfl

@[simp] theorem decides_loosen {outcome : Outcome α n} {phrase : Phrase α}
    {tokens : List Token} : outcome.loosen.Decides phrase tokens ↔ outcome.Decides phrase tokens :=
  decides_within

namespace Decides

variable {outcome : Outcome α n} {phrase other : Phrase α} {tokens : List Token}

-- Nothing but the next token has been looked at by a rule that refuses at once.
theorem refuse {wanted : Wanted} (spelled : phrase.Spelled)
    (none : ∀ value word behind, phrase.fits value word behind →
      (word ++ behind).head? ≠ tokens.head?) :
    (Outcome.refused wanted tokens : Outcome α n).Decides phrase tokens := by
  refine ⟨[], rfl, spelled, ?_⟩
  intro value word behind hf hm
  exact none value word behind hf hm.head?_eq

theorem done {value : α} {rest : List Token} (used : List Token)
    (spelled : phrase.spells value used)
    (only : ∀ other word behind, phrase.fits other word behind →
      Meets used rest (word ++ behind) → other = value ∧ word = used) :
    (Outcome.done value rest).Decides phrase (used ++ rest) :=
  ⟨used, rfl, spelled, only⟩

-- A rule does not refuse what can be read, and reads nothing else.
theorem parsed {value : α} {word rest : List Token} (h : outcome.Decides phrase (word ++ rest))
    (hf : phrase.fits value word rest) : ∃ shorter, outcome = .parsed value rest shorter := by
  cases outcome with
  | parsed other behind shorter =>
    obtain ⟨used, ht, -, hu⟩ := h
    have hm : Meets used behind (word ++ rest) := ht ▸ Meets.of_append used behind
    obtain ⟨rfl, rfl⟩ := hu value word rest hf hm
    obtain rfl := List.append_cancel_left ht
    exact ⟨shorter, rfl⟩
  | refused wanted behind =>
    obtain ⟨used, ht, -, hn⟩ := h
    have hm : Meets used behind (word ++ rest) := ht ▸ Meets.of_append used behind
    exact (hn value word rest hf hm).elim

-- A rule behind some tokens that its caller has taken already.
theorem behind (taken : List Token) (h : outcome.Decides phrase tokens)
    (sound : ∀ value word, phrase.spells value word → other.spells value (taken ++ word))
    (complete : ∀ value whole rest word, other.fits value whole rest →
      whole ++ rest = taken ++ word → word.head? = tokens.head? →
      ∃ back, whole = taken ++ back ∧ phrase.fits value back rest) :
    outcome.Decides other (taken ++ tokens) := by
  have agree : ∀ used rest value whole more, tokens = used ++ rest → other.fits value whole more →
      Meets (taken ++ used) rest (whole ++ more) →
      ∃ back, whole = taken ++ back ∧ phrase.fits value back more ∧
        Meets used rest (back ++ more) := by
    intro used rest value whole more ht hf hm
    obtain ⟨word, he, hw⟩ := hm.shorten
    obtain ⟨back, rfl, hb⟩ := complete value whole more word hf he (ht ▸ hw)
    exact ⟨back, rfl, hb, Meets.of_append_left (by rwa [List.append_assoc] at hm)⟩
  cases outcome with
  | parsed value rest shorter =>
    obtain ⟨used, ht, hs, hu⟩ := h
    refine ⟨taken ++ used, by rw [ht, List.append_assoc], sound value used hs, ?_⟩
    intro value' whole more hf hm
    obtain ⟨back, rfl, hb, hm⟩ := agree used rest value' whole more ht hf hm
    obtain ⟨hv, rfl⟩ := hu value' back more hb hm
    exact ⟨hv, rfl⟩
  | refused wanted rest =>
    obtain ⟨used, ht, ⟨value, more, hs⟩, hu⟩ := h
    refine ⟨taken ++ used, by rw [ht, List.append_assoc], ⟨value, more, ?_⟩, ?_⟩
    · rw [List.append_assoc]
      exact sound value _ hs
    · intro value' whole more' hf hm
      obtain ⟨back, rfl, hb, hm⟩ := agree used rest value' whole more' ht hf hm
      exact hu value' back more' hb hm

theorem afterOne (token : Token) (h : outcome.Decides phrase tokens)
    (sound : ∀ value word, phrase.spells value word → other.spells value (token :: word))
    (complete : ∀ value whole rest word, other.fits value whole rest →
      whole ++ rest = token :: word → word.head? = tokens.head? →
      ∃ back, whole = token :: back ∧ phrase.fits value back rest) :
    outcome.Decides other (token :: tokens) :=
  h.behind [token] sound complete

theorem afterTwo (first second : Token) (h : outcome.Decides phrase tokens)
    (sound : ∀ value word, phrase.spells value word → other.spells value (first :: second :: word))
    (complete : ∀ value whole rest word, other.fits value whole rest →
      whole ++ rest = first :: second :: word → word.head? = tokens.head? →
      ∃ back, whole = first :: second :: back ∧ phrase.fits value back rest) :
    outcome.Decides other (first :: second :: tokens) :=
  h.behind [first, second] sound complete

-- A rule behind the one token that its caller goes by. Spellings that begin
-- otherwise are out of the question.
theorem led (token : Token) (h : outcome.Decides phrase tokens)
    (nonempty : ∀ value rest, ¬ other.fits value [] rest)
    (sound : ∀ value word, phrase.spells value word → other.spells value (token :: word))
    (complete : ∀ value back rest, other.fits value (token :: back) rest →
      (back ++ rest).head? = tokens.head? → phrase.fits value back rest) :
    outcome.Decides other (token :: tokens) := by
  refine h.afterOne token sound ?_
  intro value whole rest word hf he hh
  cases whole with
  | nil => exact (nonempty value rest hf).elim
  | cons first back =>
    simp only [List.cons_append, List.cons.injEq] at he
    obtain ⟨rfl, rfl⟩ := he
    exact ⟨back, rfl, complete value back rest hf hh⟩

-- The same rule seen as one for another phrase. Only spellings that begin like
-- the tokens at hand need to be spellings of both.
theorem congr (h : outcome.Decides phrase tokens)
    (sound : ∀ value word, phrase.spells value word → other.spells value word)
    (complete : ∀ value word rest, other.fits value word rest →
      (word ++ rest).head? = tokens.head? → phrase.fits value word rest) :
    outcome.Decides other tokens :=
  h.behind [] sound fun value whole rest word hf he hw =>
    ⟨whole, rfl, complete value whole rest hf (by rw [he]; exact hw)⟩

theorem of_led {token : Token} (h : outcome.Decides phrase tokens) (hl : phrase.Led token other)
    (nonempty : ∀ value rest, ¬ other.fits value [] rest) :
    outcome.Decides other (token :: tokens) :=
  h.led token nonempty hl.sound fun value back rest hf _ => hl.complete value back rest hf

theorem of_means (h : outcome.Decides phrase tokens) (hm : phrase.Means other) :
    outcome.Decides other tokens :=
  h.congr hm.sound fun value word rest hf _ => hm.complete value word rest hf

-- The same again for a phrase that has the spellings of a certain beginning only.
-- A rule that has not used a token yet can be completed by any of them.
theorem narrow (h : outcome.Decides phrase tokens) (spelled : other.Spelled)
    (nonempty : ∀ value, ¬ phrase.spells value [])
    (sound : ∀ value word, word.head? = tokens.head? → phrase.spells value word →
      other.spells value word)
    (complete : ∀ value word rest, other.fits value word rest →
      (word ++ rest).head? = tokens.head? → phrase.fits value word rest) :
    outcome.Decides other tokens := by
  have agree : ∀ used rest value word behind, tokens = used ++ rest →
      other.fits value word behind → Meets used rest (word ++ behind) →
      phrase.fits value word behind := by
    rintro used rest value word behind rfl hf hm
    exact complete value word behind hf hm.head?_eq
  cases outcome with
  | parsed value rest shorter =>
    obtain ⟨used, ht, hs, hu⟩ := h
    refine ⟨used, ht, sound value used ?_ hs, fun value' word behind hf hm =>
      hu value' word behind (agree used rest value' word behind ht hf hm) hm⟩
    cases used with
    | nil => exact (nonempty value hs).elim
    | cons token used => rw [ht]; rfl
  | refused wanted rest =>
    obtain ⟨used, ht, ⟨value, more, hs⟩, hu⟩ := h
    refine ⟨used, ht, ?_, fun value' word behind hf hm =>
      hu value' word behind (agree used rest value' word behind ht hf hm) hm⟩
    cases used with
    | nil => exact spelled
    | cons token used => exact ⟨value, more, sound value _ (by rw [ht]; rfl) hs⟩

theorem mapPlaced (f : Location → α → β) (h : outcome.Decides phrase tokens)
    (nonempty : ∀ value, ¬ phrase.spells value []) :
    (outcome.map (f (nextPlace tokens))).Decides (phrase.mapPlaced f) tokens := by
  cases outcome with
  | parsed value rest shorter =>
    obtain ⟨used, ht, hs, hu⟩ := h
    have hp : nextPlace tokens = nextPlace used := by
      cases used with
      | nil => exact absurd hs (nonempty value)
      | cons token used => rw [ht]; rfl
    refine ⟨used, ht, ⟨value, by rw [hp], hs⟩, ?_⟩
    intro value word behind hv hm
    obtain ⟨inner, rfl, hf⟩ := hv
    obtain ⟨rfl, rfl⟩ := hu inner word behind hf hm
    exact ⟨by rw [hp], rfl⟩
  | refused wanted rest =>
    obtain ⟨used, ht, ⟨value, more, hs⟩, hu⟩ := h
    refine ⟨used, ht, ⟨_, more, value, rfl, hs⟩, ?_⟩
    intro value word behind hv hm
    obtain ⟨inner, rfl, hf⟩ := hv
    exact hu inner word behind hf hm

theorem map (f : α → β) (h : outcome.Decides phrase tokens) :
    (outcome.map f).Decides (phrase.map f) tokens := by
  cases outcome with
  | parsed value rest shorter =>
    obtain ⟨used, ht, hs, hu⟩ := h
    refine ⟨used, ht, ⟨value, rfl, hs⟩, ?_⟩
    intro value word behind hv hm
    obtain ⟨inner, rfl, hf⟩ := hv
    obtain ⟨rfl, rfl⟩ := hu inner word behind hf hm
    exact ⟨rfl, rfl⟩
  | refused wanted rest =>
    obtain ⟨used, ht, ⟨value, more, hs⟩, hu⟩ := h
    refine ⟨used, ht, ⟨_, more, value, rfl, hs⟩, ?_⟩
    intro value word behind hv hm
    obtain ⟨inner, rfl, hf⟩ := hv
    exact hu inner word behind hf hm

-- Two rules one behind the other. The first may be told apart from every other
-- way to read what it has used, and the second may build on that.
theorem andMaybe (second : α → List Token → Phrase β)
    {next : (value : α) → (rest : List Token) → rest.length < n → Outcome β (rest.length + 1)}
    (h : outcome.Decides phrase tokens)
    (hnext : ∀ value used rest shorter, tokens = used ++ rest → phrase.spells value used →
      (∀ other word behind, phrase.fits other word behind → Meets used rest (word ++ behind) →
        other = value ∧ word = used) →
      (next value rest shorter).Decides (second value used) rest)
    (spelled : ∀ value used, (second value used).Spelled) :
    (outcome.andMaybe next).Decides (phrase.seq second) tokens := by
  cases outcome with
  | refused wanted rest =>
    obtain ⟨used, ht, ⟨value, more, hs⟩, hu⟩ := h
    obtain ⟨final, word, hw⟩ := spelled value (used ++ more)
    refine ⟨used, ht, ⟨final, more ++ word, value, used ++ more, word, ?_, hs, hw⟩, ?_⟩
    · rw [List.append_assoc]
    · intro final' word behind hq hm
      obtain ⟨left, front, back, rfl, hf, -⟩ := hq
      rw [List.append_assoc] at hm
      exact hu left front (back ++ behind) hf hm
  | parsed value rest shorter =>
    obtain ⟨used, ht, hs, hu⟩ := h
    have hn := hnext value used rest shorter ht hs hu
    -- A spelling of both that agrees with the tokens behind the second rule
    -- agrees behind the first one too, so its front is what that one has used.
    have agree : ∀ taken last final whole behind, rest = taken ++ last →
        (phrase.seq second).fits final whole behind → Meets (used ++ taken) last (whole ++ behind) →
        ∃ back, whole = used ++ back ∧ (second value used).fits final back behind ∧
          Meets taken last (back ++ behind) := by
      intro taken last final _ behind hr hq hm
      obtain ⟨left, front, back, rfl, hf, hb⟩ := hq
      rw [List.append_assoc] at hm
      obtain ⟨rfl, rfl⟩ := hu left front (back ++ behind) hf (hr ▸ hm.shorten)
      exact ⟨back, rfl, hb, hm.of_append_left⟩
    simp only [Outcome.andMaybe, decides_within]
    generalize next value rest shorter = result at hn
    cases result with
    | parsed final last shorter' =>
      obtain ⟨taken, hr, hs', hu'⟩ := hn
      refine ⟨used ++ taken, by rw [ht, hr, List.append_assoc],
        ⟨value, used, taken, rfl, hs, hs'⟩, ?_⟩
      intro final' whole behind hf hm
      obtain ⟨back, rfl, hb, hm⟩ := agree taken last final' whole behind hr hf hm
      obtain ⟨hv, rfl⟩ := hu' final' back behind hb hm
      exact ⟨hv, rfl⟩
    | refused wanted last =>
      obtain ⟨taken, hr, ⟨final, more, hs'⟩, hu'⟩ := hn
      refine ⟨used ++ taken, by rw [ht, hr, List.append_assoc],
        ⟨final, more, value, used, taken ++ more, ?_, hs, hs'⟩, ?_⟩
      · rw [List.append_assoc]
      · intro final' whole behind hf hm
        obtain ⟨back, rfl, hb, hm⟩ := agree taken last final' whole behind hr hf hm
        exact hu' final' back behind hb hm

theorem andThen (second : α → List Token → Phrase β)
    {next : (value : α) → (rest : List Token) → rest.length < n → Outcome β rest.length}
    (h : outcome.Decides phrase tokens)
    (hnext : ∀ value used rest shorter, tokens = used ++ rest → phrase.spells value used →
      (next value rest shorter).Decides (second value used) rest)
    (spelled : ∀ value used, (second value used).Spelled) :
    (outcome.andThen next).Decides (phrase.seq second) tokens :=
  h.andMaybe second (fun value used rest shorter ht hs _ =>
    decides_loosen.mpr (hnext value used rest shorter ht hs)) spelled

end Decides

end Outcome

theorem expect_decides (kind : TokenKind) (role : String) (tokens : List Token) :
    (expect kind role tokens).Decides (.one kind) tokens := by
  have spelled : (Phrase.one kind).Spelled :=
    ⟨⟨kind, "", .start⟩, _, rfl, rfl⟩
  cases tokens with
  | nil =>
    refine Outcome.Decides.refuse spelled ?_
    intro token word behind h hh
    obtain ⟨-, rfl⟩ := h
    cases hh
  | cons token rest =>
    simp only [expect]
    split
    · rename_i hk
      refine Outcome.Decides.done [token] ⟨hk, rfl⟩ ?_
      intro other word behind h hm
      obtain ⟨-, rfl⟩ := h
      have hh := hm.head?_eq
      simp only [List.singleton_append, List.head?_cons, Option.some.injEq] at hh
      exact ⟨hh, by rw [hh]⟩
    · rename_i hk
      refine Outcome.Decides.refuse spelled ?_
      intro other word behind h hh
      obtain ⟨rfl, rfl⟩ := h
      simp only [List.singleton_append, List.head?_cons, Option.some.injEq] at hh
      exact hk (by rw [hh])

theorem expect_andThen_decides {β : Type} {kind : TokenKind} {role : String} {tokens : List Token}
    {second : Token → Phrase β}
    {next : (token : Token) → (rest : List Token) → rest.length < tokens.length →
      Outcome β rest.length}
    (hnext : ∀ token rest shorter, (next token rest shorter).Decides (second token) rest)
    (spelled : ∀ token, (second token).Spelled) :
    ((expect kind role tokens).andThen next).Decides (.lead kind second) tokens := by
  refine ((expect_decides kind role tokens).andThen (fun token _ => second token)
    (fun token _ rest shorter _ _ => hnext token rest shorter) (fun token _ => spelled token)).congr
    ?_ ?_
  · intro value word h
    obtain ⟨token, _, back, rfl, ⟨hk, rfl⟩, hs⟩ := h
    exact ⟨token, back, rfl, hk, hs⟩
  · intro value word behind h _
    obtain ⟨token, back, rfl, hk, hf⟩ := h
    exact ⟨token, [token], back, rfl, ⟨hk, rfl⟩, hf⟩

theorem Outcome.Decides.closedBy {α : Type} {n : Nat} {outcome : Outcome α n} {phrase : Phrase α}
    {tokens : List Token} (h : outcome.Decides phrase tokens) (kind : TokenKind) (role : String) :
    (outcome.closedBy kind role).Decides (phrase.closed kind) tokens := by
  refine (h.andThen (fun value _ => (Phrase.one kind).map fun _ => value)
    (fun value used rest shorter _ _ => (expect_decides kind role rest).map _)
    (fun value _ => ⟨value, _, ⟨kind, "", .start⟩, rfl, rfl, rfl⟩)).congr ?_ ?_
  · intro value word hv
    obtain ⟨value, front, _, rfl, hs, token, rfl, hk, rfl⟩ := hv
    exact ⟨front, token, rfl, hk, hs⟩
  · intro value word behind hv _
    obtain ⟨front, token, rfl, hk, hf⟩ := hv
    exact ⟨value, front, [token], rfl, hf, token, rfl, hk, rfl⟩

theorem Outcome.Decides.tail_more {α : Type} {n : Nat} {outcome : Outcome (List α) n}
    {list : Phrase (List α)} {tokens : List Token} {text : String} {place : Location}
    (h : outcome.Decides list tokens) (value : α) :
    (outcome.map (value :: ·)).Decides (list.tail value)
      (⟨.mark .comma, text, place⟩ :: tokens) := by
  refine (h.map (value :: ·)).afterOne _ ?_ ?_
  · intro value word hv
    obtain ⟨more, rfl, hs⟩ := hv
    exact .inr ⟨_, word, more, rfl, rfl, rfl, hs⟩
  · intro values whole rest word hv he _
    obtain ⟨rfl, rfl, hno⟩ | ⟨comma, back, more, rfl, rfl, -, hf⟩ := hv
    · exact (hno _ (by rw [List.nil_append] at he; rw [he]; rfl) rfl).elim
    · simp only [List.cons_append, List.cons.injEq] at he
      obtain ⟨rfl, -⟩ := he
      exact ⟨back, rfl, more, rfl, hf⟩

theorem Outcome.Decides.tail_last {α : Type} {list : Phrase (List α)} {tokens : List Token}
    (value : α) (hno : ∀ (text : String) (place : Location) (behind : List Token),
      tokens = ⟨.mark .comma, text, place⟩ :: behind → False) :
    (Outcome.done [value] tokens).Decides (list.tail value) tokens := by
  refine Outcome.Decides.done [] (.inl ⟨rfl, rfl⟩) ?_
  intro values word rest h hm
  obtain ⟨rfl, rfl, -⟩ | ⟨comma, back, more, rfl, rfl, hk, -⟩ := h
  · exact ⟨rfl, rfl⟩
  · exact (head_kind_ne hno comma hm.head?_eq.symm hk).elim

end ScriptIR.Grammar
