import Mathlib
import ScriptIR.Proofs.Grammar.Derivation
import ScriptIR.Proofs.Grammar.Rewinding

namespace ScriptIR

open Grammar

namespace Grammar

-- A return begins a statement, and nothing else in a program does. So there is room for a
-- statement behind some tokens where a return behind them can be completed.

section keyless

-- Whether a rule has no statements in it, which is where keywords are.
def Rule.keyless : Rule → Bool
  | .program | .main | .function | .statement => false
  | _ => true

def Form.keyless : Form → Bool
  | .empty | .never => true
  | .token kind => !kind.isKeyword
  | .rule name => name.keyless
  | .seq first second | .either first second => first.keyless && second.keyless
  | .maybe form | .many form => form.keyless

theorem Rule.keyless_form {name : Rule} (h : name.keyless = true) : name.form.keyless = true := by
  cases name <;> first | rfl | cases h

-- By the steps of the derivation.
theorem Derives.keyless {form : Form} {kinds : List TokenKind} (h : Derives form kinds)
    (hf : form.keyless = true) : ∀ kind ∈ kinds, kind.isKeyword = false := by
  induction h with
  | empty | none | nil => nofun
  | token kind => simpa [Form.keyless] using hf
  | rule _ ih => exact ih (Rule.keyless_form hf)
  | seq _ _ ihf ihb =>
    obtain ⟨hfirst, hsecond⟩ := (Bool.and_eq_true _ _).mp hf
    exact List.forall_mem_append.mpr ⟨ihf hfirst, ihb hsecond⟩
  | left _ ih => exact ih ((Bool.and_eq_true _ _).mp hf).1
  | right _ ih => exact ih ((Bool.and_eq_true _ _).mp hf).2
  | some _ ih => exact ih hf
  | cons _ _ ihf ihb => exact List.forall_mem_append.mpr ⟨ihf hf, ihb hf⟩

-- Tokens that are no keywords.
def Keyless (word : List Token) : Prop := ∀ token ∈ word, token.kind.isKeyword = false

theorem Keyless.not_mem {word : List Token} {token : Token} {text : Keyword} (h : Keyless word)
    (hk : token.kind = .keyword text) : token ∉ word := by
  intro hm
  have hn := h token hm
  rw [hk] at hn
  cases hn

theorem Keyless.of_derives {form : Form} {word : List Token}
    (h : Derives form (word.map Token.kind)) (hf : form.keyless = true) : Keyless word :=
  fun token ht => h.keyless hf token.kind (List.mem_map_of_mem ht)

theorem Keyless.of_derives_cons {form : Form} {kind : TokenKind} {word : List Token}
    (h : Derives form (kind :: word.map Token.kind)) (hf : form.keyless = true) : Keyless word :=
  fun token ht => h.keyless hf token.kind (List.mem_cons_of_mem _ (List.mem_map_of_mem ht))

theorem Keyless.cons {token : Token} {word : List Token} (hk : token.kind.isKeyword = false)
    (h : Keyless word) : Keyless (token :: word) :=
  List.forall_mem_cons.mpr ⟨hk, h⟩

theorem Keyless.closed {token : Token} {word : List Token} (h : Keyless word)
    (hk : token.kind.isKeyword = false) : Keyless (word ++ [token]) :=
  List.forall_mem_append.mpr ⟨h, List.forall_mem_singleton.mpr hk⟩

theorem Keyless.append {front back : List Token} (h : Keyless front) (hb : Keyless back) :
    Keyless (front ++ back) :=
  List.forall_mem_append.mpr ⟨h, hb⟩

theorem AssignmentSpelling.keyless {name : String} {place : Location} {tree : Tree}
    {word : List Token} (h : AssignmentSpelling name place tree word) : Keyless word := by
  obtain ⟨hs, hk, ht, he⟩ := h
  have hvalue := (Keyless.of_derives he.derives rfl).closed (by rw [hk]; rfl)
  exact (Keyless.of_derives ht.derives rfl).append (hvalue.cons (by rw [hs]; rfl))

theorem CallSpelling.keyless {name : String} {place : Location} {tree : Tree} {word : List Token}
    (h : CallSpelling name place tree word) : Keyless word :=
  .of_derives_cons h.derives rfl

theorem VariableSpelling.keyless {name : String} {place : Location} {tree : Tree}
    {word : List Token} (h : VariableSpelling name place tree word) : Keyless word := by
  cases h with
  | array hs ho hk ha =>
    have hitems := (Keyless.of_derives_cons ha.derives rfl).closed (by rw [hk]; rfl)
    exact (hitems.cons (by rw [ho]; rfl)).cons (by rw [hs]; rfl)
  | keyValue hs ho hk hm =>
    have hpairs := (Keyless.of_derives_cons hm.derives rfl).closed (by rw [hk]; rfl)
    exact (hpairs.cons (by rw [ho]; rfl)).cons (by rw [hs]; rfl)
  | value hs hk he =>
    exact ((Keyless.of_derives he.derives rfl).closed (by rw [hk]; rfl)).cons (by rw [hs]; rfl)

end keyless

variable {α β : Type} {n : Nat}

namespace Phrase

-- Whether what begins with some tokens and a return behind them can be completed.
def Awaits (phrase : Phrase α) (front : List Token) : Prop :=
  ∃ value word more, word.kind = .keyword .returnWord ∧ phrase.spells value (front ++ word :: more)

-- The same for a phrase that is done where it ends.
def Wants (phrase : Phrase α) (front : List Token) : Prop :=
  ∃ value word more rest, word.kind = .keyword .returnWord ∧
    phrase.fits value (front ++ word :: more) rest

-- A phrase that has no statement in it.
def Keyless (phrase : Phrase α) : Prop :=
  ∀ value word rest, phrase.fits value word rest → Grammar.Keyless word

-- A phrase that does not care which statement comes later.
def Steady (phrase : Phrase α) : Prop :=
  ∀ value used front word name more behind, word.kind = .keyword .returnWord →
    name.kind = .identifier → phrase.fits value used (front ++ word :: more) →
    phrase.fits value used (front ++ name :: behind)

theorem Keyless.not_wants {phrase : Phrase α} (h : phrase.Keyless) (front : List Token) :
    ¬ phrase.Wants front := by
  intro hw
  obtain ⟨value, word, more, rest, hk, hf⟩ := hw
  exact (h value _ rest hf).not_mem hk (by simp)

section sequence

variable {first : Phrase α} {second : α → List Token → Phrase β} {front used : List Token}

theorem Awaits.seq (h : first.Awaits front)
    (spelled : ∀ value used, (second value used).Spelled) : (first.seq second).Awaits front := by
  obtain ⟨value, word, more, hk, hs⟩ := h
  obtain ⟨final, back, hb⟩ := spelled value (front ++ word :: more)
  exact ⟨final, word, more ++ back, hk, value, _, back, by simp, hs, hb⟩

theorem Awaits.behind {value : α} (hs : first.spells value used)
    (h : (second value used).Awaits front) : (first.seq second).Awaits (used ++ front) := by
  obtain ⟨final, word, more, hk, hb⟩ := h
  exact ⟨final, word, more, hk, value, used, _, List.append_assoc _ _ _, hs, hb⟩

end sequence

end Phrase

-- A name in a list of tokens, and what is in front of it.
structure Start.At (start : Start) (tokens front : List Token) : Prop where
  split : tokens = front ++ start.name :: start.behind
  identifier : start.name.kind = .identifier

-- The names that a rule of the parser goes back to are those in front of which its phrase has
-- room for a statement, from left to right.
structure Finds (rewound : Rewound α n) (phrase : Phrase β) (tokens : List Token) : Prop where
  sound : ∀ start ∈ rewound.starts, ∃ front, start.At tokens front ∧ phrase.Awaits front
  complete : ∀ start front, start.At tokens front → phrase.Wants front → start ∈ rewound.starts
  -- a rule uses the names it goes back to
  used : ∀ value rest shorter, rewound.outcome = .parsed value rest shorter →
    ∀ start ∈ rewound.starts, rest.length ≤ start.behind.length
  ordered : rewound.starts.Pairwise fun start later => later.behind.length < start.behind.length

-- A list that is cut in two is cut behind a certain element or in front of it.
theorem split_at_cons {γ : Type} {front back left right : List γ} {entry : γ}
    (h : front ++ entry :: back = left ++ right) :
    (∃ inner, left = front ++ entry :: inner) ∨
      ∃ middle, front = left ++ middle ∧ right = middle ++ entry :: back := by
  obtain ⟨middle, hl, hr⟩ | ⟨middle, hl, hr⟩ := List.append_eq_append_iff.mp h
  · cases middle with
    | nil => exact .inr ⟨[], by simpa using hl.symm, hr.symm⟩
    | cons first inner =>
      obtain ⟨rfl, -⟩ := List.cons.inj hr
      exact .inl ⟨inner, hl⟩
  · exact .inr ⟨middle, hl, hr⟩

theorem Start.At.length_lt {start : Start} {tokens front : List Token} (h : start.At tokens front) :
    start.behind.length < tokens.length := by
  rw [h.split, List.length_append, List.length_cons]
  omega

namespace Finds

variable {rewound : Rewound α n} {tokens : List Token}

theorem none {outcome : Outcome α n} {phrase : Phrase β}
    (h : ∀ start front, Start.At start tokens front → ¬ phrase.Wants front) :
    Finds outcome.rewound phrase tokens where
  sound := nofun
  complete start front ha hw := (h start front ha hw).elim
  used _ _ _ _ := nofun
  ordered := .nil

theorem keyless {outcome : Outcome α n} {phrase : Phrase β} (h : phrase.Keyless) :
    Finds outcome.rewound phrase tokens :=
  .none fun _ front _ => h.not_wants front

theorem loosen {phrase : Phrase β} (h : Finds rewound phrase tokens) :
    Finds rewound.loosen phrase tokens where
  sound := h.sound
  complete := h.complete
  used value rest shorter ho := by
    obtain ⟨shorter, hp⟩ := Outcome.parsed_of_within (Nat.le_succ n) ho
    exact h.used value rest shorter hp
  ordered := h.ordered

theorem map {γ δ : Type} {phrase : Phrase β} (h : Finds rewound phrase tokens) (f : α → γ)
    (g : β → δ) : Finds (rewound.map f) (phrase.map g) tokens where
  sound start hs := by
    obtain ⟨front, ha, value, word, more, hk, hv⟩ := h.sound start hs
    exact ⟨front, ha, _, word, more, hk, value, rfl, hv⟩
  complete start front ha hw := by
    obtain ⟨_, word, more, rest, hk, value, -, hf⟩ := hw
    exact h.complete start front ha ⟨value, word, more, rest, hk, hf⟩
  used value rest shorter ho := by
    obtain ⟨inner, -, hp⟩ := Outcome.parsed_of_map ho
    exact h.used inner rest shorter hp
  ordered := h.ordered

-- The same rule seen as one for another phrase.
theorem transfer {phrase other : Phrase β} (h : Finds rewound phrase tokens)
    (sound : ∀ start front, Start.At start tokens front → phrase.Awaits front → other.Awaits front)
    (complete : ∀ start front, Start.At start tokens front → other.Wants front →
      phrase.Wants front) : Finds rewound other tokens where
  sound start hs := by
    obtain ⟨front, ha, hw⟩ := h.sound start hs
    exact ⟨front, ha, sound start front ha hw⟩
  complete start front ha hw := h.complete start front ha (complete start front ha hw)
  used := h.used
  ordered := h.ordered

theorem of_means {phrase other : Phrase β} (h : Finds rewound phrase tokens)
    (hm : phrase.Means other) : Finds rewound other tokens :=
  h.transfer
    (fun _ _ _ ⟨value, word, more, hk, hs⟩ => ⟨value, word, more, hk, hm.sound value _ hs⟩)
    fun _ _ _ ⟨value, word, more, rest, hk, hf⟩ =>
      ⟨value, word, more, rest, hk, hm.complete value _ rest hf⟩

-- Behind a token that is no name.
theorem of_led {phrase other : Phrase β} {token : Token} (h : Finds rewound phrase tokens)
    (hl : phrase.Led token other) (hk : token.kind ≠ .identifier) :
    Finds rewound other (token :: tokens) where
  sound start hs := by
    obtain ⟨front, ha, value, word, more, hr, hv⟩ := h.sound start hs
    exact ⟨token :: front, ⟨congrArg (token :: ·) ha.split, ha.identifier⟩, value, word, more, hr,
      hl.sound value _ hv⟩
  complete start front ha hw := by
    obtain ⟨hsplit, hname⟩ := ha
    cases front with
    | nil =>
      obtain ⟨rfl, -⟩ := List.cons.inj hsplit
      exact (hk hname).elim
    | cons first front =>
      obtain ⟨rfl, hrest⟩ := List.cons.inj hsplit
      obtain ⟨value, word, more, rest, hr, hf⟩ := hw
      exact h.complete start front ⟨hrest, hname⟩
        ⟨value, word, more, rest, hr, hl.complete value _ rest hf⟩
  used := h.used
  ordered := h.ordered

section sequence

variable {phrase : Phrase α} {second : α → List Token → Phrase β}
variable {next : (value : α) → (rest : List Token) → rest.length < n → Rewound β (rest.length + 1)}

-- A return that a spelling of both parts has is in the first part or in the second one. In the
-- latter case the first rule has the first part for its own, whatever the statement.
theorem wants_seq (h : Finds rewound phrase tokens) (hd : rewound.outcome.Decides phrase tokens)
    (steady : phrase.Steady) {start : Start} {front : List Token} (ha : start.At tokens front)
    (hw : (phrase.seq second).Wants front) :
    start ∈ rewound.starts ∨ ∃ value used back shorter, front = used ++ back ∧
      rewound.outcome = .parsed value (back ++ start.name :: start.behind) shorter ∧
      (second value used).Wants back := by
  obtain ⟨final, word, more, rest, hk, value, used, later, he, hf, hb⟩ := hw
  obtain ⟨inner, rfl⟩ | ⟨back, rfl, rfl⟩ := split_at_cons he
  · exact .inl (h.complete start front ha ⟨value, word, inner, _, hk, hf⟩)
  · rw [List.append_assoc] at hf
    have hp := steady value used back word start.name _ start.behind hk ha.identifier hf
    have ht := ha.split
    rw [List.append_assoc] at ht
    obtain ⟨shorter, ho⟩ := (ht ▸ hd).parsed hp
    exact .inr ⟨value, used, back, shorter, rfl, ho, final, word, more, rest, hk, hb⟩

theorem andMaybe (h : Finds rewound phrase tokens) (hd : rewound.outcome.Decides phrase tokens)
    (steady : phrase.Steady)
    (hnext : ∀ value used rest shorter, tokens = used ++ rest → phrase.spells value used →
      (∀ other word behind, phrase.fits other word behind → Meets used rest (word ++ behind) →
        other = value ∧ word = used) →
      Finds (next value rest shorter) (second value used) rest)
    (spelled : ∀ value used, (second value used).Spelled) :
    Finds (rewound.andMaybe next) (phrase.seq second) tokens := by
  have hsound (start : Start) (hm : start ∈ rewound.starts) :
      ∃ front, start.At tokens front ∧ (phrase.seq second).Awaits front := by
    obtain ⟨front, ha, hw⟩ := h.sound start hm
    exact ⟨front, ha, hw.seq spelled⟩
  have hwants (start : Start) (front : List Token) (ha : start.At tokens front)
      (hw : (phrase.seq second).Wants front) := h.wants_seq hd steady ha hw
  obtain ⟨starts, outcome⟩ := rewound
  cases outcome with
  | refused wanted rest =>
    refine ⟨hsound, fun start front ha hw => ?_, nofun, h.ordered⟩
    obtain hm | ⟨_, _, _, _, _, ho, _⟩ := hwants start front ha hw
    · exact hm
    · cases ho
  | parsed value rest shorter =>
    obtain ⟨used, rfl, hs, hu⟩ := hd
    have hn := hnext value used rest shorter rfl hs hu
    simp only [Rewound.andMaybe]
    generalize next value rest shorter = behind at hn
    obtain ⟨later, outcome⟩ := behind
    constructor
    case sound =>
      intro start hm
      obtain hm | hm := List.mem_append.mp hm
      · exact hsound start hm
      · obtain ⟨front, ⟨hsplit, hname⟩, hw⟩ := hn.sound start hm
        exact ⟨used ++ front, ⟨by rw [hsplit, List.append_assoc], hname⟩, .behind hs hw⟩
    case complete =>
      intro start front ha hw
      refine List.mem_append.mpr ?_
      obtain hm | ⟨_, _, back, _, rfl, ho, hb⟩ := hwants start front ha hw
      · exact .inl hm
      · cases ho
        have hsplit := ha.split
        rw [List.append_assoc] at hsplit
        obtain rfl := List.append_cancel_right hsplit
        exact .inr (hn.complete start back ⟨rfl, ha.identifier⟩ hb)
    case used =>
      intro final last _ ho start hm
      obtain ⟨shorter', rfl⟩ := Outcome.parsed_of_within shorter ho
      obtain hm | hm := List.mem_append.mp hm
      · exact Nat.le_trans (Nat.le_of_lt_succ shorter') (h.used value rest shorter rfl start hm)
      · exact hn.used final last shorter' rfl start hm
    case ordered =>
      refine List.pairwise_append.mpr ⟨h.ordered, hn.ordered, fun start hm other ho => ?_⟩
      obtain ⟨front, ha, -⟩ := hn.sound other ho
      exact Nat.lt_of_lt_of_le ha.length_lt (h.used value rest shorter rfl start hm)

theorem andThen
    {next : (value : α) → (rest : List Token) → rest.length < n → Rewound β rest.length}
    (h : Finds rewound phrase tokens) (hd : rewound.outcome.Decides phrase tokens)
    (steady : phrase.Steady)
    (hnext : ∀ value used rest shorter, Finds (next value rest shorter) (second value used) rest)
    (spelled : ∀ value used, (second value used).Spelled) :
    Finds (rewound.andThen next) (phrase.seq second) tokens :=
  h.andMaybe hd steady (fun value used rest shorter _ _ _ =>
    (hnext value used rest shorter).loosen) spelled

end sequence

end Finds

end Grammar

end ScriptIR
