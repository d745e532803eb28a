import ScriptIR.Proofs.Grammar.Aggregate
import ScriptIR.Proofs.Grammar.Statement

namespace ScriptIR.Grammar

-- Whether a token behind parameters would be read as a part of them.
def continuesParameters (kind : TokenKind) : Bool := kind = .mark .comma

def parametersPhrase : Phrase (List Tree) := .stopping ParametersSpelling continuesParameters

def parameterListPhrase : Phrase Tree := .whole ParameterListSpelling

def mainPhrase (place : Location) : Phrase Tree := .whole (MainSpelling place)

def functionPhrase (place : Location) : Phrase Tree := .whole (FunctionSpelling place)

def variablePhrase (name : String) (place : Location) : Phrase Tree :=
  .whole (VariableSpelling name place)

def declarationPhrase : Phrase Tree := .whole DeclarationSpelling

-- Declarations up to the end of input.
def programPhrase : Phrase (List Tree) where
  spells := ProgramSpelling
  fits trees word behind := ProgramSpelling trees word ∧ behind = []

theorem ParametersSpelling.head {names : List Tree} {word : List Token}
    (h : ParametersSpelling names word) :
    ∃ token rest, word = token :: rest ∧ token.kind = .identifier := by
  cases h with
  | last hk => exact ⟨_, [], rfl, hk⟩
  | more hk _ _ => exact ⟨_, _, rfl, hk⟩

theorem mainPhrase_means (place : Location) :
    (Phrase.lead (.mark .leftParen) fun _ => .lead (.mark .rightParen) fun _ =>
      .lead (.mark .leftBrace) fun _ => bodyPhrase.map fun statements =>
        Tree.node .main statements place).Means (mainPhrase place) where
  sound value word h := by
    obtain ⟨left, _, rfl, hl, right, _, rfl, hr, opening, back, rfl, ho, statements, rfl, hb⟩ := h
    exact .main hl hr ho hb
  complete value word rest h := by
    obtain ⟨hl, hr, ho, hb⟩ := h
    exact ⟨_, _, rfl, hl, _, _, rfl, hr, _, _, rfl, ho, _, rfl, hb⟩

theorem mainFunction_decides (place : Location) (tokens : List Token) :
    (mainFunction place tokens).outcome.Decides (mainPhrase place) tokens := by
  have spelled : (bodyPhrase.map fun statements => Tree.node .main statements place).Spelled :=
    body_spelled.map _
  simp only [mainFunction, Traced.outcome_andThen, Outcome.outcome_traced]
  exact (expect_andThen_decides (fun _ rest _ =>
    expect_andThen_decides (fun _ rest _ =>
      expect_andThen_decides (fun _ rest _ => (body_decides _ rest).map _) fun _ => spelled)
      fun _ => .lead _ fun _ => spelled)
    fun _ => .lead _ fun _ => .lead _ fun _ => spelled).of_means (mainPhrase_means place)

theorem parameters_decides_of {tokens : List Token}
    (hm : ∀ (text : String) (place : Location) (behind : List Token),
      (⟨.mark .comma, text, place⟩ :: behind : List Token).length < tokens.length →
        (parameters behind).Decides parametersPhrase behind) :
    (parameters tokens).Decides parametersPhrase tokens := by
  rw [parameters]
  refine ((expect_decides .identifier _ tokens).andMaybe
    (fun first _ => parametersPhrase.tail (identifierNode first.text first.place))
    (fun first _ rest shorter _ _ _ => ?_) (fun first _ => Phrase.spelled_tail _ _)).congr ?_ ?_
  · split
    · rename_i shorter _ _
      simp only [Outcome.decides_loosen]
      exact (hm _ _ _ shorter).tail_more _
    · rename_i hno
      exact .tail_last _ (by rintro text place behind rfl; exact hno _ _ _ shorter rfl HEq.rfl)
  · intro value word h
    obtain ⟨first, _, _, rfl, ⟨hk, rfl⟩, ⟨rfl, rfl⟩ | ⟨comma, back, more, rfl, rfl, hc, hm⟩⟩ := h
    · exact .last hk
    · exact .more hk hc hm
  · intro value word rest h _
    obtain ⟨hs, hend⟩ := h
    cases hs with
    | last hk =>
      refine ⟨_, [_], [], rfl, ⟨hk, rfl⟩, .inl ⟨rfl, rfl, ?_⟩⟩
      intro token ht
      exact of_decide_eq_false (hend token ht)
    | more hk hc hm =>
      exact ⟨_, [_], _, rfl, ⟨hk, rfl⟩, .inr ⟨_, _, _, rfl, rfl, hc, hm, hend⟩⟩

theorem parameters_decides (tokens : List Token) :
    (parameters tokens).Decides parametersPhrase tokens := by
  induction tokens using parameters.induct with
  | case1 tokens hm => exact parameters_decides_of hm

theorem parameterList_decides (tokens : List Token) :
    (parameterList tokens).Decides parameterListPhrase tokens := by
  unfold parameterList
  split
  · rename_i text place rest
    refine Outcome.Decides.done [⟨.mark .rightParen, text, place⟩]
      (@.empty ⟨.mark .rightParen, text, place⟩ rfl) ?_
    intro tree word behind hs h
    obtain ⟨back, hw, hb⟩ := h
    cases hs with
    | empty hk =>
      simp only [List.singleton_append, List.cons.injEq] at hw
      exact ⟨by rw [hw.1], by rw [hw.1]⟩
    | names _ hn =>
      obtain ⟨token, rest, rfl, hk⟩ := hn.head
      simp only [List.cons_append, List.nil_append, List.cons.injEq] at hw
      rw [hw.1] at hk
      cases hk
  · rename_i hno
    refine (((parameters_decides _).closedBy _ _).mapPlaced
      (fun (first : Location) (names : List Tree) => Tree.node .paramList names first) ?_).congr
      ?_ ?_
    · intro value h
      obtain ⟨front, token, hw, -⟩ := h
      simp at hw
    · intro value word h
      obtain ⟨names, rfl, front, token, rfl, hk, hs⟩ := h
      obtain ⟨head, rest, rfl, -⟩ := hs.head
      exact .names hk hs
    · intro tree word rest hs hh
      cases hs with
      | empty hk => exact (head_kind_ne hno _ hh.symm hk).elim
      | names hk hs =>
        obtain ⟨head, rest, rfl, -⟩ := hs.head
        exact ⟨_, rfl, _, _, rfl, hk, hs, stops_cons (by rw [hk]; rfl)⟩

theorem parameterList_spelled : parameterListPhrase.Spelled :=
  ⟨_, _, @.empty ⟨.mark .rightParen, "", .start⟩ rfl⟩

theorem functionPhrase_means (place : Location) :
    (Phrase.lead .identifier fun name => .lead (.mark .leftParen) fun _ =>
      parameterListPhrase.seq fun params _ => .lead (.mark .leftBrace) fun _ =>
        bodyPhrase.map fun statements => Tree.function name.text params statements place).Means
      (functionPhrase place) where
  sound value word h := by
    obtain ⟨name, _, rfl, hn, left, _, rfl, hl, params, front, _, rfl, hp, opening, back, rfl, ho,
      statements, rfl, hb⟩ := h
    exact .function hn hl hp ho hb
  complete value word rest h := by
    obtain ⟨hn, hl, hp, ho, hb⟩ := h
    exact ⟨_, _, rfl, hn, _, _, rfl, hl, _, _, _, rfl, hp, _, _, rfl, ho, _, rfl, hb⟩

theorem functionDeclaration_decides (place : Location) (tokens : List Token) :
    (functionDeclaration place tokens).outcome.Decides (functionPhrase place) tokens := by
  -- The brace and the body, which end up in the tree behind the name.
  have rest_decides (name : Token) (params : Tree) (rest : List Token) :
      ((expect (.mark .leftBrace) "before function body" rest).andThen fun _ rest _ =>
        (body "after function body" rest).outcome.map fun statements =>
          Tree.function name.text params statements place).Decides
        (.lead (.mark .leftBrace) fun _ => bodyPhrase.map fun statements =>
          .function name.text params statements place) rest :=
    expect_andThen_decides (fun _ rest _ => (body_decides _ rest).map _)
      fun _ => body_spelled.map _
  have rest_spelled (name : Token) (params : Tree) :
      (Phrase.lead (.mark .leftBrace) fun _ => bodyPhrase.map fun statements =>
        Tree.function name.text params statements place).Spelled :=
    .lead _ fun _ => body_spelled.map _
  have params_spelled (name : Token) := parameterList_spelled.seq fun params _ =>
    rest_spelled name params
  simp only [functionDeclaration, Traced.outcome_andThen, Outcome.outcome_traced]
  exact (expect_andThen_decides (fun name rest _ =>
    expect_andThen_decides (fun _ rest _ =>
      (parameterList_decides rest).andThen _ (fun params _ rest _ _ _ =>
        rest_decides name params rest) fun params _ => rest_spelled name params)
      fun _ => params_spelled name)
    fun name => .lead _ fun _ => params_spelled name).of_means (functionPhrase_means place)

theorem VariableSpelling.head {name : String} {place : Location} {tree : Tree} {word : List Token}
    (h : VariableSpelling name place tree word) :
    ∃ token rest, word = token :: rest ∧ token.kind = .mark .assign := by
  cases h with
  | array hs _ _ _ => exact ⟨_, _, rfl, hs⟩
  | keyValue hs _ _ _ => exact ⟨_, _, rfl, hs⟩
  | value hs _ _ => exact ⟨_, _, rfl, hs⟩

theorem variable_spelled (name : String) (place : Location) :
    (variablePhrase name place).Spelled := by
  obtain ⟨tree, word, he⟩ := expression_spelled
  exact ⟨_, _, @VariableSpelling.value _ _ ⟨.mark .assign, "", .start⟩
    ⟨.mark .semicolon, "", .start⟩ _ _ rfl rfl he⟩

-- A token that is there as expected leaves all else to the next rule.
theorem expect_andThen_decides_iff {β : Type} {kind : TokenKind} {role : String} {head : Token}
    {back tokens : List Token} {phrase : Phrase β} (hk : head.kind = kind)
    {next : (token : Token) → (rest : List Token) → rest.length < (head :: back).length →
      Outcome β rest.length} :
    ((expect kind role (head :: back)).andThen next).Decides phrase tokens ↔
      (next head back (length_lt_length_add_one back)).Decides phrase tokens := by
  simp only [expect, if_pos hk, Outcome.done, Outcome.andThen, Outcome.andMaybe,
    Outcome.decides_within, Outcome.decides_loosen]

section behindName

variable {name : String} {place : Location} {sign opening : Token} {rest : List Token}

theorem arrayDeclaration_decides (hs : sign.kind = .mark .assign)
    (ho : opening.kind = .mark .leftBracket) :
    (arrayDeclaration name place (sign :: opening :: rest)).Decides (variablePhrase name place)
      (sign :: opening :: rest) := by
  rw [arrayDeclaration, expect_andThen_decides_iff hs, expect_andThen_decides_iff ho]
  refine ((array_decides (some name) place rest).closedBy _ _).afterTwo _ _ ?_ ?_
  · intro tree word h
    obtain ⟨front, semicolon, rfl, hk, ha⟩ := h
    exact .array hs ho hk ha
  · intro tree whole more word hv hw _
    cases hv with
    | array _ _ hk ha =>
      simp only [List.cons_append, List.cons.injEq] at hw
      obtain ⟨rfl, rfl, -⟩ := hw
      exact ⟨_, rfl, _, _, rfl, hk, ha⟩
    | keyValue _ hb _ _ => simp_all
    | value _ _ he =>
      obtain ⟨token, rest, rfl, hk⟩ := he.head
      simp only [List.cons_append, List.cons.injEq] at hw
      rw [hw.2.1, ho] at hk
      cases hk

theorem keyValueDeclaration_decides (hs : sign.kind = .mark .assign)
    (ho : opening.kind = .mark .leftBrace) :
    (keyValueDeclaration name place (sign :: opening :: rest)).Decides (variablePhrase name place)
      (sign :: opening :: rest) := by
  rw [keyValueDeclaration, expect_andThen_decides_iff hs, expect_andThen_decides_iff ho]
  refine ((keyValue_decides (some name) place rest).closedBy _ _).afterTwo _ _ ?_ ?_
  · intro tree word h
    obtain ⟨front, semicolon, rfl, hk, hm⟩ := h
    exact .keyValue hs ho hk hm
  · intro tree whole more word hv hw _
    cases hv with
    | keyValue _ _ hk hm =>
      simp only [List.cons_append, List.cons.injEq] at hw
      obtain ⟨rfl, rfl, -⟩ := hw
      exact ⟨_, rfl, _, _, rfl, hk, hm⟩
    | array _ hb _ _ => simp_all
    | value _ _ he =>
      obtain ⟨token, rest, rfl, hk⟩ := he.head
      simp only [List.cons_append, List.cons.injEq] at hw
      rw [hw.2.1, ho] at hk
      cases hk

theorem valueDeclaration_decides (hs : sign.kind = .mark .assign)
    (hbracket : ∀ token, rest.head? = some token → token.kind ≠ .mark .leftBracket)
    (hbrace : ∀ token, rest.head? = some token → token.kind ≠ .mark .leftBrace) :
    (valueDeclaration name place (sign :: rest)).Decides (variablePhrase name place)
      (sign :: rest) := by
  rw [valueDeclaration, expect_andThen_decides_iff hs]
  refine ((closedExpression_decides _ _ rest rfl).map _).afterOne _ ?_ ?_
  · intro value word h
    obtain ⟨value, rfl, front, semicolon, rfl, hk, he⟩ := h
    exact .value hs hk he
  · intro tree whole more word hv hw hh
    cases hv with
    | array _ ho _ _ =>
      simp only [List.cons_append, List.cons.injEq] at hw
      exact (hbracket _ (by rw [← hh, ← hw.2]; rfl) ho).elim
    | keyValue _ ho _ _ =>
      simp only [List.cons_append, List.cons.injEq] at hw
      exact (hbrace _ (by rw [← hh, ← hw.2]; rfl) ho).elim
    | value _ hk he =>
      simp only [List.cons_append, List.cons.injEq] at hw
      obtain ⟨rfl, -⟩ := hw
      exact ⟨_, rfl, _, rfl, _, _, rfl, hk, he⟩

end behindName

-- What is behind the name may be told by its second token only where its first
-- one is the sign. Elsewhere all three rules refuse at once.
theorem variableDeclaration_decides (name : String) (place : Location) (tokens : List Token) :
    (variableDeclaration name place tokens).Decides (variablePhrase name place) tokens := by
  rcases tokens with _ | ⟨sign, rest⟩
  · refine Outcome.Decides.refuse (variable_spelled name place) ?_
    intro tree word behind hv hh
    obtain ⟨token, rest, rfl, -⟩ := VariableSpelling.head hv
    cases hh
  by_cases hs : sign.kind = .mark .assign
  · unfold variableDeclaration
    rcases rest with _ | ⟨opening, rest⟩
    · exact valueDeclaration_decides hs nofun nofun
    · simp only [List.getElem?_cons_succ, List.getElem?_cons_zero, Option.map_some]
      split
      · rename_i ho
        exact arrayDeclaration_decides hs (Option.some.inj ho)
      · rename_i ho
        exact keyValueDeclaration_decides hs (Option.some.inj ho)
      · rename_i hbracket hbrace
        refine valueDeclaration_decides hs ?_ ?_
        · intro token ht hk
          cases ht
          exact hbracket (congrArg some hk)
        · intro token ht hk
          cases ht
          exact hbrace (congrArg some hk)
  · have refuses (wanted : Wanted) :
        (Outcome.refused wanted (sign :: rest) : Outcome Tree (sign :: rest).length).Decides
          (variablePhrase name place) (sign :: rest) := by
      refine Outcome.Decides.refuse (variable_spelled name place) ?_
      intro tree word behind hv hh
      obtain ⟨token, back, rfl, hk⟩ := VariableSpelling.head hv
      cases hh
      exact hs hk
    unfold variableDeclaration
    split <;> simp only [arrayDeclaration, keyValueDeclaration, valueDeclaration, expect, if_neg hs]
    · exact refuses _
    · exact refuses _
    · exact refuses _

-- Whether a declaration may begin with a token.
def startsDeclaration : TokenKind → Bool
  | .identifier | .keyword .functionWord | .keyword .mainWord => true
  | _ => false

theorem DeclarationSpelling.head {tree : Tree} {word : List Token}
    (h : DeclarationSpelling tree word) :
    ∃ token rest, word = token :: rest ∧ startsDeclaration token.kind = true := by
  cases h with
  | main hk _ => exact ⟨_, _, rfl, by rw [hk]; rfl⟩
  | function hk _ => exact ⟨_, _, rfl, by rw [hk]; rfl⟩
  | named hk _ => exact ⟨_, _, rfl, by rw [hk]; rfl⟩

theorem declaration_spelled : declarationPhrase.Spelled := by
  obtain ⟨tree, word, hv⟩ := variable_spelled "" .start
  exact ⟨tree, _, @DeclarationSpelling.named _ _ ⟨.identifier, "", .start⟩ rfl hv⟩

theorem declaration_nonempty (tree : Tree) (rest : List Token) :
    ¬ declarationPhrase.fits tree [] rest := by
  intro h
  obtain ⟨token, word, hw, -⟩ := DeclarationSpelling.head h
  cases hw

theorem functionPhrase_led (text : String) (place : Location) :
    (functionPhrase place).Led ⟨.keyword .functionWord, text, place⟩ declarationPhrase where
  sound tree word hf :=
    @DeclarationSpelling.function _ _ ⟨.keyword .functionWord, text, place⟩ rfl hf
  complete tree back rest hd := by
    cases hd with
    | function hk hf => exact hf
    | _ => simp_all

theorem mainPhrase_led (text : String) (place : Location) :
    (mainPhrase place).Led ⟨.keyword .mainWord, text, place⟩ declarationPhrase where
  sound tree word hm := @DeclarationSpelling.main _ _ ⟨.keyword .mainWord, text, place⟩ rfl hm
  complete tree back rest hd := by
    cases hd with
    | main hk hm => exact hm
    | _ => simp_all

theorem declaration_decides (tokens : List Token) :
    (declaration tokens).outcome.Decides declarationPhrase tokens := by
  unfold declaration
  split
  · rename_i text place behind
    rw [Traced.outcome_loosen, Outcome.decides_loosen]
    exact (functionDeclaration_decides place behind).of_led (functionPhrase_led text place)
      declaration_nonempty
  · rename_i text place behind
    rw [Traced.outcome_loosen, Outcome.decides_loosen]
    exact (mainFunction_decides place behind).of_led (mainPhrase_led text place)
      declaration_nonempty
  · rename_i name place behind
    rw [Outcome.outcome_traced, Outcome.decides_loosen]
    refine (variableDeclaration_decides name place behind).led _ declaration_nonempty ?_ ?_
    · intro tree word hv
      exact @DeclarationSpelling.named _ _ ⟨.identifier, name, place⟩ rfl hv
    · intro tree back rest hd _
      cases hd with
      | named hk hv => exact hv
      | _ => simp_all
  · rename_i hfunction hmain hvariable
    refine Outcome.Decides.refuse declaration_spelled ?_
    intro tree word behind hd hh
    obtain ⟨token, rest, rfl, hk⟩ := DeclarationSpelling.head hd
    have hf := head_kind_ne hfunction token hh.symm
    have hm := head_kind_ne hmain token hh.symm
    have hv := head_kind_ne hvariable token hh.symm
    unfold startsDeclaration at hk
    split at hk <;> simp_all

theorem ProgramSpelling.eq_nil {trees : List Tree} {word : List Token}
    (h : ProgramSpelling trees word) (hw : word = []) : trees = [] := by
  cases h with
  | nil => rfl
  | cons hd _ =>
    obtain ⟨token, rest, rfl, -⟩ := hd.head
    cases hw

theorem declarations_decides (tokens : List Token) :
    (declarations tokens).outcome.Decides programPhrase tokens := by
  have spelled : programPhrase.Spelled := ⟨[], [], .nil⟩
  induction tokens using declarations.induct with
  | case1 =>
    rw [declarations, Outcome.outcome_traced]
    refine Outcome.Decides.done [] .nil ?_
    intro trees word behind h hv
    obtain ⟨hp, rfl⟩ := h
    obtain ⟨rest, hw, hr⟩ := hv
    obtain rfl : rest = [] := List.head?_eq_none_iff.mp hr
    obtain rfl : word = [] := by simpa using hw
    exact ⟨hp.eq_nil rfl, rfl⟩
  | case2 tokens hne ih =>
    rw [declarations, Traced.outcome_loosen, Traced.outcome_andMaybe]
    · rw [Outcome.decides_loosen]
      refine ((declaration_decides tokens).andMaybe (fun first _ => programPhrase.map (first :: ·))
        (fun first _ rest shorter _ _ _ => (ih rest shorter).map _)
        (fun first _ => spelled.map _)).congr ?_ ?_
      · intro value word h
        obtain ⟨first, front, back, rfl, hd, more, rfl, hm⟩ := h
        exact .cons hd hm
      · intro trees word rest h hh
        obtain ⟨hp, rfl⟩ := h
        cases hp with
        | nil => exact (hne (List.head?_eq_none_iff.mp hh.symm)).elim
        | cons hd hm => exact ⟨_, _, _, rfl, hd, _, rfl, hm, rfl⟩
    · exact hne

end ScriptIR.Grammar
