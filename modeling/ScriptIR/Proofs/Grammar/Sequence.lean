import ScriptIR.Proofs.Grammar.Derivation
import ScriptIR.Proofs.Grammar.Renamed

namespace ScriptIR

namespace Grammar

-- Every derivation of a body has the brace at its end.
theorem BodySpelling.getLast? {statements : List Tree} {word : List Token}
    (h : BodySpelling statements word) :
    ∃ closing, word.getLast? = some closing ∧ closing.kind = .mark .rightBrace := by
  obtain ⟨front, hw, -⟩ := h.derives
  have hl : (word.map Token.kind).getLast? = some (.mark .rightBrace) := by simp [hw]
  rw [List.getLast?_map] at hl
  exact Option.map_eq_some_iff.mp hl

theorem VariableSpelling.getLast? {name : String} {place : Location} {tree : Tree}
    {word : List Token} (h : VariableSpelling name place tree word) :
    ∃ semicolon, word.getLast? = some semicolon ∧ semicolon.kind = .mark .semicolon := by
  cases h with
  | array _ _ hk _ => exact ⟨_, by simp [List.getLast?_cons], hk⟩
  | keyValue _ _ hk _ => exact ⟨_, by simp [List.getLast?_cons], hk⟩
  | value _ hk _ => exact ⟨_, by simp [List.getLast?_cons], hk⟩

-- Whether a declaration may end with a token.
def endsDeclaration : TokenKind → Bool
  | .mark .semicolon | .mark .rightBrace => true
  | _ => false

theorem DeclarationSpelling.getLast? {tree : Tree} {word : List Token}
    (h : DeclarationSpelling tree word) :
    ∃ closing, word.getLast? = some closing ∧ endsDeclaration closing.kind = true := by
  cases h with
  | main _ hm =>
    obtain ⟨-, -, -, hb⟩ := hm
    obtain ⟨closing, hl, hk⟩ := hb.getLast?
    exact ⟨closing, by simp [List.getLast?_cons, hl], by rw [hk]; rfl⟩
  | function _ hf =>
    obtain ⟨-, -, -, -, hb⟩ := hf
    obtain ⟨closing, hl, hk⟩ := hb.getLast?
    exact ⟨closing, by simp [List.getLast?_cons, hl], by rw [hk]; rfl⟩
  | named _ hv =>
    obtain ⟨semicolon, hl, hk⟩ := hv.getLast?
    exact ⟨semicolon, by simp [List.getLast?_cons, hl], by rw [hk]; rfl⟩

theorem ProgramSpelling.getLast? {trees : List Tree} {word : List Token} {last : Token}
    (h : ProgramSpelling trees word) (hl : word.getLast? = some last) :
    endsDeclaration last.kind = true := by
  induction h with
  | nil => cases hl
  | @cons _ _ front back hd hp ih =>
    rw [List.getLast?_append] at hl
    cases hb : back.getLast? with
    | none =>
      obtain ⟨closing, hc, hk⟩ := hd.getLast?
      rw [hb, hc, Option.none_or, Option.some.injEq] at hl
      rwa [← hl]
    | some last =>
      rw [hb, Option.some_or, Option.some.injEq] at hl
      exact ih (by rw [hb, hl])

theorem declaration_append {tree : Tree} {word : List Token} (h : DeclarationSpelling tree word)
    (rest : List Token) :
    ∃ shorter, (declaration (word ++ rest)).outcome = .parsed tree rest shorter :=
  (declaration_decides (word ++ rest)).parsed h

@[simp] theorem Outcome.result_within {α : Type} {n k : Nat} (outcome : Outcome α k) (h : k ≤ n) :
    (outcome.within h).result = outcome.result := by
  cases outcome <;> rfl

@[simp] theorem Outcome.result_loosen {α : Type} {n : Nat} (outcome : Outcome α n) :
    outcome.loosen.result = outcome.result :=
  outcome.result_within _

theorem Outcome.result_map {α β : Type} {n : Nat} (f : α → β) (outcome : Outcome α n) :
    (outcome.map f).result = outcome.result.map fun read => (f read.1, read.2) := by
  cases outcome <;> rfl

-- A program in front of some tokens leaves the reading of these as it is.
theorem declarations_append {trees : List Tree} {word : List Token} (h : ProgramSpelling trees word)
    (tokens : List Token) : (declarations (word ++ tokens)).outcome.result =
      (declarations tokens).outcome.result.map fun read => (trees ++ read.1, read.2) := by
  induction h with
  | nil => cases hr : (declarations tokens).outcome.result <;> simp [hr, Except.map]
  | @cons tree trees front back hd hp ih =>
    obtain ⟨shorter, ho⟩ := declaration_append hd (back ++ tokens)
    have hne : front ++ (back ++ tokens) ≠ [] := by
      obtain ⟨first, rest, rfl, -⟩ := hd.head
      nofun
    rw [List.append_assoc, declarations, Traced.outcome_loosen, Traced.outcome_andMaybe, ho,
      Outcome.result_loosen]
    · simp only [Outcome.andMaybe, Outcome.result_within, Traced.outcome_map,
        Outcome.result_map, ih]
      cases (declarations tokens).outcome <;> rfl
    · exact hne

end Grammar

open Grammar

theorem errorAt_append (front : List Token) {back : List Token} (h : back ≠ []) (wanted : Wanted)
    (rest : List Token) : (Reader.ofTokens (front ++ back)).errorAt wanted rest =
      (Reader.ofTokens back).errorAt wanted rest := by
  cases rest with
  | cons token rest => rfl
  | nil =>
    simp only [Reader.errorAt, Reader.ofTokens, List.getLast?_append,
      List.getLast?_eq_some_getLast h, Option.some_or]

-- What is behind a program is read as if it stood alone, with its errors.
theorem parse_append {front : List Token} {trees : List Tree} (h : ProgramSpelling trees front)
    (back : List Token) :
    (∀ others, parse back = .ok (.node .program others .start) →
      parse (front ++ back) = .ok (.node .program (trees ++ others) .start)) ∧
    ∀ error, parse back = .error error → parse (front ++ back) = .error error := by
  by_cases hne : back = []
  · subst hne
    rw [parse_nil, List.append_nil]
    refine ⟨fun others ho => ?_, fun error h => by cases h⟩
    cases ho
    rw [List.append_nil]
    exact parse_eq_ok_iff.mpr ⟨trees, rfl, h⟩
  have hr := declarations_append h back
  cases ho : (declarations back).outcome with
  | parsed others rest shorter =>
    rw [ho] at hr
    cases hm : (declarations (front ++ back)).outcome with
    | parsed trees' rest' shorter' =>
      rw [hm] at hr
      obtain ⟨rfl, -⟩ := Prod.mk.inj (Except.ok.inj hr)
      rw [parse_of_parsed ho, parse_of_parsed hm]
      exact ⟨fun others h => by cases h; rfl, fun error h => by cases h⟩
    | refused wanted rest' =>
      rw [hm] at hr
      cases hr
  | refused wanted rest =>
    rw [ho] at hr
    cases hm : (declarations (front ++ back)).outcome with
    | parsed trees' rest' shorter' =>
      rw [hm] at hr
      cases hr
    | refused wanted' rest' =>
      rw [hm] at hr
      obtain ⟨rfl, rfl⟩ := Prod.mk.inj (Except.error.inj hr)
      rw [parse_of_refused ho, parse_of_refused hm, errorAt_append front hne]
      exact ⟨fun others h => (by cases h), fun error h => h⟩

end ScriptIR
