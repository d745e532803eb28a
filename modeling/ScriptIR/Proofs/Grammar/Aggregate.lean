import ScriptIR.Proofs.Grammar.Expression

namespace ScriptIR.Grammar

def itemPhrase : Phrase Tree := .stopping ItemSpelling continuesExpression

def arrayPhrase (name : Option String) (place : Location) : Phrase Tree :=
  .whole (ArraySpelling name place)

def keyValuePhrase (name : Option String) (place : Location) : Phrase Tree :=
  .whole (KeyValueSpelling name place)

def itemsPhrase : Phrase (List Tree) := .stopping ItemsSpelling continuesList

def pairsPhrase : Phrase (List Tree) := .stopping PairsSpelling continuesList

theorem ItemSpelling.ne_nil {tree : Tree} {word : List Token} (h : ItemSpelling tree word) :
    word ≠ [] := by
  cases h with
  | array _ _ => simp
  | keyValue _ _ => simp
  | expression he =>
    obtain ⟨token, rest, rfl, -⟩ := he.head
    simp

theorem ItemsSpelling.ne_nil {values : List Tree} {word : List Token}
    (h : ItemsSpelling values word) : word ≠ [] := by
  cases h with
  | last hi => exact hi.ne_nil
  | more _ _ _ => simp

-- The key comes first, so pairs begin as an expression does.
theorem PairsSpelling.head {entries : List Tree} {word : List Token}
    (h : PairsSpelling entries word) :
    ∃ token rest, word = token :: rest ∧ startsExpression token.kind = true := by
  have pair : ∀ {tree word}, PairSpelling tree word →
      ∃ token rest, word = token :: rest ∧ startsExpression token.kind = true := by
    intro value word hv
    obtain ⟨he, _, _⟩ := hv
    obtain ⟨token, rest, rfl, hk⟩ := he.head
    exact ⟨token, _, rfl, hk⟩
  cases h with
  | last hp => exact pair hp
  | more hp _ _ =>
    obtain ⟨token, rest, rfl, hk⟩ := pair hp
    exact ⟨token, _, rfl, hk⟩

theorem itemsSpelling_iff (values : List Tree) (word : List Token) :
    ItemsSpelling values word ↔ (∃ value, values = [value] ∧ ItemSpelling value word) ∨
      ∃ value more front comma back, values = value :: more ∧ word = front ++ comma :: back ∧
        ItemSpelling value front ∧ comma.kind = .mark .comma ∧ ItemsSpelling more back := by
  constructor
  · intro h
    obtain hs | ⟨hs, hk, hm⟩ := h
    · exact .inl ⟨_, rfl, hs⟩
    · exact .inr ⟨_, _, _, _, _, rfl, rfl, hs, hk, hm⟩
  · intro h
    obtain ⟨value, rfl, hs⟩ | ⟨value, more, front, comma, back, rfl, rfl, hs, hk, hm⟩ := h
    · exact .last hs
    · exact .more hs hk hm

theorem item_spelled : itemPhrase.Spelled := by
  obtain ⟨tree, word, he⟩ := expression_spelled
  exact ⟨tree, word, .expression he⟩

section rules

variable {tokens : List Token}

theorem item_array_decides {text : String} {place : Location}
    (ha : (array none place tokens).Decides (arrayPhrase none place) tokens) :
    (item (⟨.mark .leftBracket, text, place⟩ :: tokens)).Decides itemPhrase
      (⟨.mark .leftBracket, text, place⟩ :: tokens) := by
  rw [item]
  simp only [Outcome.decides_loosen]
  refine ha.led _ ?_ ?_ ?_
  · intro tree rest h
    exact h.1.ne_nil rfl
  · intro tree word hs
    exact @.array _ _ ⟨.mark .leftBracket, text, place⟩ rfl hs
  · intro tree back rest h _
    obtain ⟨hs, -⟩ := h
    cases hs with
    | array _ ha => exact ha
    | keyValue hk _ => cases hk
    | expression hs =>
      obtain ⟨token, inner, hw, hk⟩ := hs.head
      cases hw
      cases hk

theorem item_keyValue_decides {text : String} {place : Location}
    (hm : (keyValue none place tokens).Decides (keyValuePhrase none place) tokens) :
    (item (⟨.mark .leftBrace, text, place⟩ :: tokens)).Decides itemPhrase
      (⟨.mark .leftBrace, text, place⟩ :: tokens) := by
  rw [item]
  simp only [Outcome.decides_loosen]
  refine hm.led _ ?_ ?_ ?_
  · intro tree rest h
    exact h.1.ne_nil rfl
  · intro tree word hs
    exact @.keyValue _ _ ⟨.mark .leftBrace, text, place⟩ rfl hs
  · intro tree back rest h _
    obtain ⟨hs, -⟩ := h
    cases hs with
    | keyValue _ hm => exact hm
    | array hk _ => cases hk
    | expression hs =>
      obtain ⟨token, inner, hw, hk⟩ := hs.head
      cases hw
      cases hk

theorem item_expression_decides
    (harray : ∀ (text : String) (place : Location) (inner : List Token),
      tokens = ⟨.mark .leftBracket, text, place⟩ :: inner → False)
    (hpairs : ∀ (text : String) (place : Location) (inner : List Token),
      tokens = ⟨.mark .leftBrace, text, place⟩ :: inner → False) :
    (item tokens).Decides itemPhrase tokens := by
  rw [item]
  · refine (expression_decides tokens).congr (fun _ _ => .expression) ?_
    intro tree word rest h hh
    obtain ⟨hs, hend⟩ := h
    cases hs with
    | expression hs => exact ⟨hs, hend⟩
    | array hk _ => exact (head_kind_ne harray _ hh.symm hk).elim
    | keyValue hk _ => exact (head_kind_ne hpairs _ hh.symm hk).elim
  · exact harray
  · exact hpairs

theorem array_decides_of {name : Option String} {place : Location}
    (hi : (items tokens).Decides itemsPhrase tokens) :
    (array name place tokens).Decides (arrayPhrase name place) tokens := by
  rw [array]
  refine ((hi.closedBy _ _).mapPlaced (fun (first : Location) (values : List Tree) =>
    Tree.node (.array name) [.node .expressionList values first] place) ?_).congr ?_ ?_
  · intro value h
    obtain ⟨front, token, hw, -⟩ := h
    simp at hw
  · intro value word h
    obtain ⟨values, rfl, front, token, rfl, hk, hs⟩ := h
    rw [nextPlace_append hs.ne_nil]
    exact .items hk hs
  · intro value word rest h _
    obtain ⟨hk, hs⟩ := h
    exact ⟨_, by rw [nextPlace_append hs.ne_nil], _, _, rfl, hk, hs,
      stops_cons (by rw [hk]; rfl)⟩

theorem keyValue_empty_decides {name : Option String} {text : String} {place other : Location} :
    (keyValue name place (⟨.mark .rightBrace, text, other⟩ :: tokens)).Decides
      (keyValuePhrase name place) (⟨.mark .rightBrace, text, other⟩ :: tokens) := by
  rw [keyValue]
  refine Outcome.Decides.done [⟨.mark .rightBrace, text, other⟩] (.empty rfl) ?_
  intro tree word rest hs h
  obtain ⟨behind, hw, hb⟩ := h
  cases hs with
  | empty hk =>
    simp only [List.singleton_append, List.cons.injEq] at hw
    exact ⟨rfl, by rw [hw.1]⟩
  | pairs _ hp =>
    obtain ⟨token, rest, rfl, hk⟩ := hp.head
    simp only [List.cons_append, List.nil_append, List.cons.injEq] at hw
    rw [hw.1] at hk
    cases hk

theorem keyValue_pairs_decides {name : Option String} {place : Location}
    (hno : ∀ (text : String) (place : Location) (rest : List Token),
      tokens = ⟨.mark .rightBrace, text, place⟩ :: rest → False)
    (hp : (pairs tokens).Decides pairsPhrase tokens) :
    (keyValue name place tokens).Decides (keyValuePhrase name place) tokens := by
  rw [keyValue]
  · refine ((hp.closedBy _ _).map _).congr ?_ ?_
    · intro value word h
      obtain ⟨entries, rfl, front, token, rfl, hk, hs⟩ := h
      exact .pairs hk hs
    · intro tree word rest hs hh
      cases hs with
      | empty hk => exact (head_kind_ne hno _ hh.symm hk).elim
      | pairs hk hs => exact ⟨_, rfl, _, _, rfl, hk, hs, stops_cons (by rw [hk]; rfl)⟩
  · exact hno

theorem items_decides_of (hi : (item tokens).Decides itemPhrase tokens)
    (hm : ∀ (text : String) (place : Location) (behind : List Token),
      (⟨.mark .comma, text, place⟩ :: behind : List Token).length < tokens.length →
        (items behind).Decides itemsPhrase behind) :
    (items tokens).Decides itemsPhrase tokens := by
  rw [items]
  refine hi.list (fun value rest shorter => ?_) itemsSpelling_iff
  split
  · rename_i shorter
    simp only [Outcome.decides_loosen]
    exact (hm _ _ _ shorter).tail_more value
  · rename_i hno
    exact .tail_last value (by rintro text place behind rfl; exact hno _ _ _ shorter rfl HEq.rfl)

-- The place of a pair is that of its key, which is known before the value is.
theorem pairs_decides_of
    (hi : ∀ rest : List Token, rest.length < tokens.length → (item rest).Decides itemPhrase rest)
    (hp : ∀ rest : List Token, rest.length < tokens.length →
      ∀ (text : String) (place : Location) (behind : List Token),
        (⟨.mark .comma, text, place⟩ :: behind : List Token).length < rest.length →
          (pairs behind).Decides pairsPhrase behind) :
    (pairs tokens).Decides pairsPhrase tokens := by
  rw [pairs]
  refine (((expression_decides tokens).closedBy _ _).andThen
    (fun key front => itemPhrase.seq fun value _ =>
      pairsPhrase.tail (.node .pair [key, value] (nextPlace front)))
    (fun key front rest shorter ht hs => ?_) ?_).congr ?_ ?_
  · have hplace : nextPlace tokens = nextPlace front := by
      obtain ⟨word, colon, rfl, -⟩ := hs
      rw [ht, nextPlace_append (by simp)]
    refine (hi rest shorter).andMaybe _ (fun value _ last shorter' _ _ _ => ?_)
      (fun value _ => Phrase.spelled_tail _ _)
    simp only [hplace]
    split
    · rename_i shorter' _ _
      simp only [Outcome.decides_loosen]
      exact (hp rest shorter _ _ _ shorter').tail_more _
    · rename_i hno
      exact .tail_last _ (by rintro text place behind rfl; exact hno _ _ _ shorter' rfl HEq.rfl)
  · intro key front
    exact item_spelled.seq fun _ _ => Phrase.spelled_tail _ _
  · intro value word h
    obtain ⟨key, _, _, rfl, ⟨front, colon, rfl, hk, he⟩, value, middle, _, rfl, hv, ht⟩ := h
    rw [nextPlace_append he.ne_nil] at ht
    have hpair := PairSpelling.pair he hk hv
    rw [← List.append_assoc, List.append_assoc front]
    obtain ⟨rfl, rfl⟩ | ⟨comma, back, more, rfl, rfl, hc, hm⟩ := ht
    · rw [List.append_nil]
      exact .last hpair
    · exact .more hpair hc hm
  · intro entries word rest h _
    obtain ⟨hs, hend⟩ := h
    have hlast := fun token ht => continuesList_eq_false.mp (hend token ht)
    cases hs with
    | last hs =>
      obtain ⟨he, hk, hv⟩ := hs
      refine ⟨_, _, _, List.append_cons _ _ _, ⟨_, _, rfl, hk, he, stops_cons (by rw [hk]; rfl)⟩,
        _, _, [], (List.append_nil _).symm, ⟨hv, fun token ht => (hlast token ht).1⟩,
        .inl ⟨?_, rfl, ?_⟩⟩
      · rw [nextPlace_append he.ne_nil]
      · exact fun token ht => (hlast token ht).2
    | @more _ _ _ back comma hs hc hm =>
      obtain @⟨key, value, front, middle, colon, he, hk, hv⟩ := hs
      refine ⟨key, front ++ [colon], middle ++ comma :: back, by simp,
        ⟨front, colon, rfl, hk, he, stops_cons (by rw [hk]; rfl)⟩, value, middle, _, rfl,
        ⟨hv, stops_cons (by rw [hc]; rfl)⟩, .inr ⟨comma, back, _, rfl, ?_, hc, hm, hend⟩⟩
      rw [nextPlace_append he.ne_nil]

end rules

-- Every rule of the group decides its phrase.
theorem aggregate_rules_decide :
    (∀ tokens, (item tokens).Decides itemPhrase tokens) ∧
    (∀ name place tokens, (keyValue name place tokens).Decides (keyValuePhrase name place) tokens) ∧
    (∀ tokens, (pairs tokens).Decides pairsPhrase tokens) ∧
    (∀ name place tokens, (array name place tokens).Decides (arrayPhrase name place) tokens) ∧
    (∀ tokens, (items tokens).Decides itemsPhrase tokens) := by
  apply item.mutual_induct
  case case1 => exact fun _ _ _ => item_array_decides
  case case2 => exact fun _ _ _ => item_keyValue_decides
  case case3 => exact fun _ => item_expression_decides
  case case4 => exact fun _ _ _ _ _ => keyValue_empty_decides
  case case5 => exact fun _ _ _ => keyValue_pairs_decides
  case case6 => exact fun _ => pairs_decides_of
  case case7 => exact fun _ _ _ => array_decides_of
  case case8 => exact fun _ => items_decides_of

theorem array_decides (name : Option String) (place : Location) (tokens : List Token) :
    (array name place tokens).Decides (arrayPhrase name place) tokens :=
  aggregate_rules_decide.2.2.2.1 name place tokens

theorem keyValue_decides (name : Option String) (place : Location) (tokens : List Token) :
    (keyValue name place tokens).Decides (keyValuePhrase name place) tokens :=
  aggregate_rules_decide.2.1 name place tokens

end ScriptIR.Grammar
