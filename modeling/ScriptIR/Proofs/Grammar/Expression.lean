import ScriptIR.Proofs.Grammar.Phrase
import ScriptIR.Proofs.Grammar.Spelling

namespace ScriptIR.Grammar

-- The operators of a chain, each with the operand behind it.
inductive ChainSpelling : List (Tree × Tree) → List Token → Prop
  | nil : ChainSpelling [] []
  | cons {right : Tree} {more : List (Tree × Tree)} {front back : List Token} {sign : Operator}
      {token : Token} : token.kind = .operator sign → OperandSpelling right front →
      ChainSpelling more back →
      ChainSpelling ((.node (.operator token.text) [] token.place, right) :: more)
        (token :: (front ++ back))

theorem ChainSpelling.expression {pairs : List (Tree × Tree)} {left : Tree}
    {front back : List Token} (ho : OperandSpelling left front) (hc : ChainSpelling pairs back) :
    ExpressionSpelling (nestRight left pairs) (front ++ back) := by
  induction hc generalizing left front with
  | nil => simpa using .operand ho
  | cons hk hr _ ih => exact .binary ho hk (ih hr)

theorem ExpressionSpelling.exists_chain : {tree : Tree} → {word : List Token} →
    ExpressionSpelling tree word → ∃ left pairs front back, tree = nestRight left pairs ∧
      word = front ++ back ∧ OperandSpelling left front ∧ ChainSpelling pairs back
  | _, _, .operand ho => ⟨_, [], _, [], rfl, (List.append_nil _).symm, ho, .nil⟩
  | _, _, .binary ho hk he => by
    obtain ⟨left, pairs, front, back, rfl, rfl, hl, hc⟩ := he.exists_chain
    exact ⟨_, _, _, _, rfl, rfl, ho, .cons hk hl hc⟩

-- Whether a token behind a name would be read together with it.
def continuesName : TokenKind → Bool
  | .mark .leftParen | .mark .leftBracket => true
  | _ => false

-- Whether a token behind an expression might be read as a part of it.
def continuesExpression (kind : TokenKind) : Bool := kind.isOperator || continuesName kind

-- A phrase that a token of some kinds behind it would prolong.
def Phrase.stopping {α : Type} (spells : α → List Token → Prop) (prolongs : TokenKind → Bool) :
    Phrase α where
  spells := spells
  fits value word behind := spells value word ∧
    ∀ token, behind.head? = some token → prolongs token.kind = false

-- A phrase that ends in a token of its own.
def Phrase.whole {α : Type} (spells : α → List Token → Prop) : Phrase α where
  spells := spells
  fits value word _ := spells value word

def expressionPhrase : Phrase Tree := .stopping ExpressionSpelling continuesExpression

def chainPhrase : Phrase (List (Tree × Tree)) := .stopping ChainSpelling continuesExpression

def operandPhrase : Phrase Tree := .stopping OperandSpelling continuesName

def callPhrase (name : String) (place : Location) : Phrase Tree := .whole (CallSpelling name place)

def accessPhrase (name : String) (place : Location) : Phrase Tree :=
  .whole (AccessSpelling name place)

-- Whether a token behind a list of expressions might be read as a part of it.
def continuesList (kind : TokenKind) : Bool := continuesExpression kind || kind = .mark .comma

def argumentsPhrase : Phrase (List Tree) := .stopping ArgumentsSpelling continuesList

-- Whether an expression may begin with a token.
def startsExpression : TokenKind → Bool
  | .identifier | .literal _ | .mark .leftParen => true
  | _ => false

theorem continuesList_eq_false {kind : TokenKind} :
    continuesList kind = false ↔ continuesExpression kind = false ∧ kind ≠ .mark .comma := by
  simp [continuesList]

theorem OperandSpelling.head {tree : Tree} {word : List Token} (h : OperandSpelling tree word) :
    ∃ token rest, word = token :: rest ∧ startsExpression token.kind = true := by
  cases h with
  | group hk _ _ => exact ⟨_, _, rfl, by rw [hk]; rfl⟩
  | call hk _ _ => exact ⟨_, _, rfl, by rw [hk]; rfl⟩
  | access hk _ _ => exact ⟨_, _, rfl, by rw [hk]; rfl⟩
  | name hk => exact ⟨_, _, rfl, by rw [hk]; rfl⟩
  | literal hk => exact ⟨_, _, rfl, by rw [hk]; rfl⟩

theorem ExpressionSpelling.head {tree : Tree} {word : List Token}
    (h : ExpressionSpelling tree word) :
    ∃ token rest, word = token :: rest ∧ startsExpression token.kind = true := by
  cases h with
  | operand ho => exact ho.head
  | binary ho _ _ =>
    obtain ⟨token, rest, rfl, hk⟩ := ho.head
    exact ⟨token, _, rfl, hk⟩

theorem OperandSpelling.ne_nil {tree : Tree} {word : List Token}
    (h : OperandSpelling tree word) : word ≠ [] := by
  obtain ⟨token, rest, rfl, -⟩ := h.head
  simp

theorem ExpressionSpelling.ne_nil {tree : Tree} {word : List Token}
    (h : ExpressionSpelling tree word) : word ≠ [] := by
  obtain ⟨token, rest, rfl, -⟩ := h.head
  simp

theorem ArgumentsSpelling.head {values : List Tree} {word : List Token}
    (h : ArgumentsSpelling values word) :
    ∃ token rest, word = token :: rest ∧ startsExpression token.kind = true := by
  cases h with
  | last he => exact he.head
  | more he _ _ =>
    obtain ⟨token, rest, rfl, hk⟩ := he.head
    exact ⟨token, _, rfl, hk⟩

theorem expression_spelled : expressionPhrase.Spelled :=
  ⟨_, _, .operand (@.literal _ ⟨.literal .int, "", .start⟩ rfl)⟩

-- An operator or the token behind a chain is no token that goes on with a name.
theorem ChainSpelling.stops_name {pairs : List (Tree × Tree)} {back behind : List Token}
    (hc : ChainSpelling pairs back)
    (hend : ∀ token, behind.head? = some token → continuesExpression token.kind = false) :
    ∀ token, (back ++ behind).head? = some token → continuesName token.kind = false := by
  intro token ht
  cases hc with
  | nil =>
    have hk := hend token ht
    simp only [continuesExpression, Bool.or_eq_false_iff] at hk
    exact hk.2
  | cons hk _ _ => exact stops_cons (by rw [hk]; rfl) token ht

-- Elements with a comma between any two of them. What one element is, and that
-- a list is made of such elements, is the business of the rule.
theorem Outcome.Decides.list {α : Type} {n : Nat} {first : Outcome α n} {tokens : List Token}
    {one : α → List Token → Prop} {many : List α → List Token → Prop}
    {next : (value : α) → (rest : List Token) → rest.length < n →
      Outcome (List α) (rest.length + 1)}
    (h : first.Decides (.stopping one continuesExpression) tokens)
    (hnext : ∀ value rest shorter,
      (next value rest shorter).Decides ((Phrase.stopping many continuesList).tail value) rest)
    (hlist : ∀ values word, many values word ↔ (∃ value, values = [value] ∧ one value word) ∨
      ∃ value more front comma back, values = value :: more ∧ word = front ++ comma :: back ∧
        one value front ∧ comma.kind = .mark .comma ∧ many more back) :
    (first.andMaybe next).Decides (.stopping many continuesList) tokens := by
  refine (h.andMaybe _ (fun value _ rest shorter _ _ _ => hnext value rest shorter)
    (fun value _ => Phrase.spelled_tail _ value)).congr ?_ ?_
  · intro value word hq
    obtain ⟨value, front, _, rfl, hs, ⟨rfl, rfl⟩ | ⟨comma, back, more, rfl, rfl, hk, hm⟩⟩ := hq
    · exact (hlist _ _).mpr (.inl ⟨value, rfl, (List.append_nil front).symm ▸ hs⟩)
    · exact (hlist _ _).mpr (.inr ⟨value, more, front, comma, back, rfl, rfl, hs, hk, hm⟩)
  · intro values word rest hq _
    obtain ⟨hs, hend⟩ := hq
    have hlast := fun token ht => continuesList_eq_false.mp (hend token ht)
    obtain ⟨value, rfl, hv⟩ | ⟨value, more, front, comma, back, rfl, rfl, hv, hk, hm⟩ :=
      (hlist values word).mp hs
    · exact ⟨value, word, [], (List.append_nil _).symm, ⟨hv, fun token ht => (hlast token ht).1⟩,
        .inl ⟨rfl, rfl, fun token ht => (hlast token ht).2⟩⟩
    · exact ⟨value, front, _, rfl, ⟨hv, stops_cons (by rw [hk]; rfl)⟩,
        .inr ⟨comma, back, more, rfl, rfl, hk, hm, hend⟩⟩

theorem argumentsSpelling_iff (values : List Tree) (word : List Token) :
    ArgumentsSpelling values word ↔ (∃ value, values = [value] ∧ ExpressionSpelling value word) ∨
      ∃ value more front comma back, values = value :: more ∧ word = front ++ comma :: back ∧
        ExpressionSpelling value front ∧ comma.kind = .mark .comma ∧
        ArgumentsSpelling more back := by
  constructor
  · intro h
    obtain hs | ⟨hs, hk, hm⟩ := h
    · exact .inl ⟨_, rfl, hs⟩
    · exact .inr ⟨_, _, _, _, _, rfl, rfl, hs, hk, hm⟩
  · intro h
    obtain ⟨value, rfl, hs⟩ | ⟨value, more, front, comma, back, rfl, rfl, hs, hk, hm⟩ := h
    · exact .last hs
    · exact .more hs hk hm

section rules

variable {tokens : List Token}

theorem expression_decides_of (ho : (operand tokens).Decides operandPhrase tokens)
    (hc : ∀ rest, rest.length < tokens.length → (chain rest).Decides chainPhrase rest) :
    (expression tokens).Decides expressionPhrase tokens := by
  rw [expression]
  refine (ho.andMaybe (fun first _ => chainPhrase.map (nestRight first))
    (fun first _ rest shorter _ _ _ => (hc rest shorter).map _)
    (fun first _ => ⟨_, [], [], rfl, .nil⟩)).congr ?_ ?_
  · intro value word h
    obtain ⟨left, front, back, rfl, hl, pairs, rfl, hc⟩ := h
    exact hc.expression hl
  · intro value word rest h _
    obtain ⟨he, hend⟩ := h
    obtain ⟨left, pairs, front, back, rfl, rfl, hl, hc⟩ := he.exists_chain
    exact ⟨left, front, back, rfl, ⟨hl, hc.stops_name hend⟩, pairs, rfl, hc, hend⟩

theorem chain_operator_decides {sign : Operator} {text : String} {place : Location}
    (ho : (operand tokens).Decides operandPhrase tokens)
    (hc : ∀ rest, rest.length < tokens.length → (chain rest).Decides chainPhrase rest) :
    (chain (⟨.operator sign, text, place⟩ :: tokens)).Decides chainPhrase
      (⟨.operator sign, text, place⟩ :: tokens) := by
  rw [chain]
  simp only [Outcome.decides_loosen]
  refine (ho.andMaybe
    (fun right _ => chainPhrase.map ((.node (.operator text) [] place, right) :: ·))
    (fun right _ rest shorter _ _ _ => (hc rest shorter).map _)
    (fun right _ => ⟨_, [], [], rfl, .nil⟩)).afterOne _ ?_ ?_
  · intro value word h
    obtain ⟨right, front, back, rfl, hr, more, rfl, hm⟩ := h
    exact @.cons _ _ _ _ _ ⟨.operator sign, text, place⟩ rfl hr hm
  · intro pairs whole rest word h he _
    obtain ⟨hp, hend⟩ := h
    cases hp with
    | nil =>
      have hk := hend _ (by rw [List.nil_append] at he; rw [he]; rfl)
      cases hk
    | @cons right more front back sign' token hk hr hm =>
      simp only [List.cons_append, List.cons.injEq] at he
      obtain ⟨rfl, -⟩ := he
      exact ⟨front ++ back, rfl, right, front, back, rfl, ⟨hr, hm.stops_name hend⟩, more, rfl, hm,
        hend⟩

theorem chain_end_decides (hno : ∀ (sign : Operator) (text : String) (place : Location)
      (behind : List Token), tokens = ⟨.operator sign, text, place⟩ :: behind → False) :
    (chain tokens).Decides chainPhrase tokens := by
  rw [chain]
  · refine Outcome.Decides.done [] .nil ?_
    intro pairs word behind h hm
    obtain ⟨hp, -⟩ := h
    cases hp with
    | nil => exact ⟨rfl, rfl⟩
    | @cons right more front back sign token hk hr hc =>
      have hh := hm.head?_eq
      cases tokens with
      | nil => cases hh
      | cons head rest =>
        simp only [List.cons_append, List.nil_append, List.head?_cons, Option.some.injEq] at hh
        obtain ⟨kind, text, place⟩ := head
        subst hh
        cases hk
        exact (hno sign text place rest rfl).elim
  · exact hno

theorem operand_group_decides {text : String} {place : Location}
    (he : (expression tokens).Decides expressionPhrase tokens) :
    (operand (⟨.mark .leftParen, text, place⟩ :: tokens)).Decides operandPhrase
      (⟨.mark .leftParen, text, place⟩ :: tokens) := by
  rw [operand]
  simp only [Outcome.decides_loosen]
  refine (he.closedBy _ _).led _ ?_ ?_ ?_
  · intro tree rest h
    exact h.1.ne_nil rfl
  · intro tree word h
    obtain ⟨front, token, rfl, hk, hs⟩ := h
    exact .group rfl hk hs
  · intro tree back rest h _
    obtain ⟨ho, -⟩ := h
    cases ho with
    | group _ hc he => exact ⟨_, _, rfl, hc, he, stops_cons (by rw [hc]; rfl)⟩
    | _ => simp_all

theorem operand_call_decides {name text : String} {place other : Location}
    (hc : (call name place tokens).Decides (callPhrase name place) tokens) :
    (operand (⟨.identifier, name, place⟩ :: ⟨.mark .leftParen, text, other⟩ :: tokens)).Decides
      operandPhrase (⟨.identifier, name, place⟩ :: ⟨.mark .leftParen, text, other⟩ :: tokens) := by
  rw [operand]
  simp only [Outcome.decides_loosen]
  refine hc.afterTwo _ _ ?_ ?_
  · intro tree word hs
    exact @.call _ _ ⟨.identifier, name, place⟩ _ rfl rfl hs
  · intro tree whole rest word h hw _
    obtain ⟨ho, hend⟩ := h
    cases ho with
    | call _ _ hc =>
      simp only [List.cons_append, List.cons.injEq] at hw
      obtain ⟨rfl, rfl, -⟩ := hw
      exact ⟨_, rfl, hc⟩
    | _ => simp_all [continuesName]

theorem operand_access_decides {name text : String} {place other : Location}
    (ha : (access name place tokens).Decides (accessPhrase name place) tokens) :
    (operand (⟨.identifier, name, place⟩ :: ⟨.mark .leftBracket, text, other⟩ :: tokens)).Decides
      operandPhrase
      (⟨.identifier, name, place⟩ :: ⟨.mark .leftBracket, text, other⟩ :: tokens) := by
  rw [operand]
  simp only [Outcome.decides_loosen]
  refine ha.afterTwo _ _ ?_ ?_
  · intro tree word hs
    exact @.access _ _ ⟨.identifier, name, place⟩ _ rfl rfl hs
  · intro tree whole rest word h hw _
    obtain ⟨ho, hend⟩ := h
    cases ho with
    | access _ _ ha =>
      simp only [List.cons_append, List.cons.injEq] at hw
      obtain ⟨rfl, rfl, -⟩ := hw
      exact ⟨_, rfl, ha⟩
    | _ => simp_all [continuesName]

theorem operand_name_decides {name : String} {place : Location}
    (hcall : ∀ (text : String) (place : Location) (inner : List Token),
      tokens = ⟨.mark .leftParen, text, place⟩ :: inner → False)
    (haccess : ∀ (text : String) (place : Location) (inner : List Token),
      tokens = ⟨.mark .leftBracket, text, place⟩ :: inner → False) :
    (operand (⟨.identifier, name, place⟩ :: tokens)).Decides operandPhrase
      (⟨.identifier, name, place⟩ :: tokens) := by
  rw [operand]
  · refine Outcome.Decides.done [⟨.identifier, name, place⟩]
      (@.name ⟨.identifier, name, place⟩ rfl) ?_
    intro tree word rest h hv
    obtain ⟨ho, -⟩ := h
    obtain ⟨behind, hw, hb⟩ := hv
    have hparen := head_kind_ne hcall
    have hbracket := head_kind_ne haccess
    rw [← hb] at hparen hbracket
    cases ho with
    | @name token _ =>
      simp only [List.singleton_append, List.cons.injEq] at hw
      obtain ⟨rfl, -⟩ := hw
      exact ⟨rfl, rfl⟩
    | _ => grind
  · exact hcall
  · exact haccess

theorem operand_literal_decides {form : Literal} {value : String} {place : Location} :
    (operand (⟨.literal form, value, place⟩ :: tokens)).Decides operandPhrase
      (⟨.literal form, value, place⟩ :: tokens) := by
  rw [operand]
  refine Outcome.Decides.done [⟨.literal form, value, place⟩]
    (@.literal _ ⟨.literal form, value, place⟩ rfl) ?_
  intro tree word rest h hv
  obtain ⟨ho, -⟩ := h
  obtain ⟨behind, hw, hb⟩ := hv
  cases ho with
  | @literal form token _ =>
    simp only [List.singleton_append, List.cons.injEq] at hw
    obtain ⟨rfl, -⟩ := hw
    exact ⟨rfl, rfl⟩
  | _ => simp_all

theorem operand_refused_decides
    (hgroup : ∀ (text : String) (place : Location) (inner : List Token),
      tokens = ⟨.mark .leftParen, text, place⟩ :: inner → False)
    (hcall : ∀ (name : String) (place : Location) (text : String) (other : Location)
      (inner : List Token),
      tokens = ⟨.identifier, name, place⟩ :: ⟨.mark .leftParen, text, other⟩ :: inner → False)
    (haccess : ∀ (name : String) (place : Location) (text : String) (other : Location)
      (inner : List Token),
      tokens = ⟨.identifier, name, place⟩ :: ⟨.mark .leftBracket, text, other⟩ :: inner → False)
    (hname : ∀ (name : String) (place : Location) (rest : List Token),
      tokens = ⟨.identifier, name, place⟩ :: rest → False)
    (hliteral : ∀ (form : Literal) (value : String) (place : Location) (rest : List Token),
      tokens = ⟨.literal form, value, place⟩ :: rest → False) :
    (operand tokens).Decides operandPhrase tokens := by
  rw [operand]
  · refine Outcome.Decides.refuse ⟨_, _, @.literal _ ⟨.literal .int, "", .start⟩ rfl⟩ ?_
    intro tree word behind h hh
    obtain ⟨ho, -⟩ := h
    obtain ⟨token, rest, rfl, hk⟩ := ho.head
    have hparen := head_kind_ne hgroup token hh.symm
    have hident := head_kind_ne hname token hh.symm
    have hlit := fun form => head_kind_ne (hliteral form) token hh.symm
    unfold startsExpression at hk
    split at hk <;> simp_all
  · exact hgroup
  · exact hcall
  · exact haccess
  · exact hname
  · exact hliteral

theorem access_decides_of {name : String} {place : Location}
    (he : (expression tokens).Decides expressionPhrase tokens) :
    (access name place tokens).Decides (accessPhrase name place) tokens := by
  rw [access]
  refine ((he.closedBy _ _).map _).congr ?_ ?_
  · intro value word h
    obtain ⟨index, rfl, front, token, rfl, hk, hs⟩ := h
    exact .index hk hs
  · intro value word rest h _
    obtain ⟨hk, hs⟩ := h
    exact ⟨_, rfl, _, _, rfl, hk, hs, stops_cons (by rw [hk]; rfl)⟩

theorem call_empty_decides {name text : String} {place other : Location} :
    (call name place (⟨.mark .rightParen, text, other⟩ :: tokens)).Decides (callPhrase name place)
      (⟨.mark .rightParen, text, other⟩ :: tokens) := by
  rw [call]
  refine Outcome.Decides.done [⟨.mark .rightParen, text, other⟩] (.empty rfl) ?_
  intro tree word rest hs h
  obtain ⟨behind, hw, hb⟩ := h
  cases hs with
  | empty hk =>
    simp only [List.singleton_append, List.cons.injEq] at hw
    exact ⟨rfl, by rw [hw.1]⟩
  | given _ ha =>
    obtain ⟨token, rest, rfl, hk⟩ := ha.head
    simp only [List.cons_append, List.nil_append, List.cons.injEq] at hw
    rw [hw.1] at hk
    cases hk

theorem call_given_decides {name : String} {place : Location}
    (hno : ∀ (text : String) (place : Location) (rest : List Token),
      tokens = ⟨.mark .rightParen, text, place⟩ :: rest → False)
    (ha : (arguments tokens).Decides argumentsPhrase tokens) :
    (call name place tokens).Decides (callPhrase name place) tokens := by
  rw [call]
  · refine ((ha.closedBy _ _).mapPlaced (fun (first : Location) (values : List Tree) =>
      Tree.node .call [identifierNode name place, .node .argumentList values first] place)
      ?_).congr ?_ ?_
    · intro value h
      obtain ⟨front, token, hw, -⟩ := h
      simp at hw
    · intro value word h
      obtain ⟨values, rfl, front, token, rfl, hk, hs⟩ := h
      obtain ⟨head, rest, rfl, -⟩ := hs.head
      exact .given hk hs
    · intro tree word rest hc hh
      cases hc with
      | empty hk => exact (head_kind_ne hno _ hh.symm hk).elim
      | given hk hs =>
        obtain ⟨head, rest, rfl, -⟩ := hs.head
        exact ⟨_, rfl, _, _, rfl, hk, hs, stops_cons (by simp only [hk]; rfl)⟩
  · exact hno

theorem arguments_decides_of (he : (expression tokens).Decides expressionPhrase tokens)
    (ha : ∀ (text : String) (place : Location) (behind : List Token),
      (⟨.mark .comma, text, place⟩ :: behind : List Token).length < tokens.length →
        (arguments behind).Decides argumentsPhrase behind) :
    (arguments tokens).Decides argumentsPhrase tokens := by
  rw [arguments]
  refine he.list (fun value rest shorter => ?_) argumentsSpelling_iff
  split
  · rename_i shorter
    simp only [Outcome.decides_loosen]
    exact (ha _ _ _ shorter).tail_more value
  · rename_i hno
    exact .tail_last value (by rintro text place behind rfl; exact hno _ _ _ shorter rfl HEq.rfl)

end rules

-- Every rule of the group decides its phrase.
theorem expression_rules_decide :
    (∀ tokens, (expression tokens).Decides expressionPhrase tokens) ∧
    (∀ tokens, (chain tokens).Decides chainPhrase tokens) ∧
    (∀ tokens, (operand tokens).Decides operandPhrase tokens) ∧
    (∀ name place tokens, (access name place tokens).Decides (accessPhrase name place) tokens) ∧
    (∀ name place tokens, (call name place tokens).Decides (callPhrase name place) tokens) ∧
    (∀ tokens, (arguments tokens).Decides argumentsPhrase tokens) := by
  apply expression.mutual_induct
  case case1 => exact fun _ => expression_decides_of
  case case2 => exact fun _ _ _ _ => chain_operator_decides
  case case3 => exact fun _ => chain_end_decides
  case case4 => exact fun _ _ _ => operand_group_decides
  case case5 => exact fun _ _ _ _ _ => operand_call_decides
  case case6 => exact fun _ _ _ _ _ => operand_access_decides
  case case7 => exact fun _ _ _ => operand_name_decides
  case case8 => exact fun _ _ _ _ => operand_literal_decides
  case case9 => exact fun _ => operand_refused_decides
  case case10 => exact fun _ _ _ => access_decides_of
  case case11 => exact fun _ _ _ _ _ => call_empty_decides
  case case12 => exact fun _ _ _ => call_given_decides
  case case13 => exact fun _ => arguments_decides_of

theorem expression_decides (tokens : List Token) :
    (expression tokens).Decides expressionPhrase tokens := expression_rules_decide.1 tokens

theorem call_decides (name : String) (place : Location) (tokens : List Token) :
    (call name place tokens).Decides (callPhrase name place) tokens :=
  expression_rules_decide.2.2.2.2.1 name place tokens

theorem access_decides (name : String) (place : Location) (tokens : List Token) :
    (access name place tokens).Decides (accessPhrase name place) tokens :=
  expression_rules_decide.2.2.2.1 name place tokens

end ScriptIR.Grammar
