import ScriptIR.Proofs.Grammar.Program
import ScriptIR.Proofs.Grammar.Rules

namespace ScriptIR.Grammar

-- Every spelling can be derived. The kinds of a word are cut where the right side
-- of the rule has its parts.

mutual

theorem ExpressionSpelling.derives : ∀ {tree : Tree} {word : List Token},
    ExpressionSpelling tree word → Derives (.rule .expression) (word.map Token.kind)
  | _, _, .operand ho => .rule ho.derives.seq_none
  | _, _, .binary ho hk he => by
    rw [List.map_append, List.map_cons, hk]
    exact .rule (.seq ho.derives (.some (.seq (.operator _) he.derives)))

theorem OperandSpelling.derives : ∀ {tree : Tree} {word : List Token},
    OperandSpelling tree word → Derives (.rule .operand) (word.map Token.kind)
  | _, _, .group ho hc he => by
    rw [List.map_cons, List.map_append, List.map_singleton, ho, hc]
    exact .rule (.any (by decide) (.seq (.token _) (.seq he.derives (.token _))))
  | _, _, .call hn ho hc => by
    rw [List.map_cons, List.map_cons, hn, ho]
    exact .rule (.any (by decide) (.seq (.token _) hc.derives))
  | _, _, .access hn ho ha => by
    rw [List.map_cons, List.map_cons, hn, ho]
    exact .rule (.any (by decide) (.seq (.token _) (.some ha.derives)))
  | _, _, .name hk => by
    have hn : Derives (.all [.name, .maybe (.bracketed (.rule .expression))]) [.identifier] :=
      .seq (.token _) .none
    rw [List.map_singleton, hk]
    exact .rule (.any (by decide) hn)
  | _, _, @OperandSpelling.literal form token hk => by
    rw [List.map_singleton, hk]
    refine .rule (.any ?_ (.token _))
    cases form <;> decide

theorem CallSpelling.derives : ∀ {name : String} {place : Location} {tree : Tree}
    {word : List Token}, CallSpelling name place tree word →
      Derives (.parens (.maybe (.rule .arguments))) (.mark .leftParen :: word.map Token.kind)
  | _, _, _, _, .empty hk => by
    rw [List.map_singleton, hk]
    exact .seq (.token _) (.seq .none (.token _))
  | _, _, _, _, .given hk ha => by
    rw [List.map_append, List.map_singleton, hk]
    exact .seq (.token _) (.seq (.some (.rule ha.derives)) (.token _))

theorem ArgumentsSpelling.derives : ∀ {values : List Tree} {word : List Token},
    ArgumentsSpelling values word → Derives (.list (.rule .expression)) (word.map Token.kind)
  | _, _, .last he => .list_last he.derives
  | _, _, .more he hk ha => by
    rw [List.map_append, List.map_cons, hk]
    exact .list_more he.derives ha.derives

theorem AccessSpelling.derives : ∀ {name : String} {place : Location} {tree : Tree}
    {word : List Token}, AccessSpelling name place tree word →
      Derives (.bracketed (.rule .expression)) (.mark .leftBracket :: word.map Token.kind)
  | _, _, _, _, .index hk he => by
    rw [List.map_append, List.map_singleton, hk]
    exact .seq (.token _) (.seq he.derives (.token _))

end

mutual

theorem ItemSpelling.derives : ∀ {tree : Tree} {word : List Token}, ItemSpelling tree word →
    Derives (.rule .item) (word.map Token.kind)
  | _, _, .array hk ha => by
    rw [List.map_cons, hk]
    exact .rule (.any (by decide) ha.derives)
  | _, _, .keyValue hk hm => by
    rw [List.map_cons, hk]
    exact .rule (.any (by decide) hm.derives)
  | _, _, .expression he => .rule (.any (by decide) he.derives)

theorem ArraySpelling.derives : ∀ {name : Option String} {place : Location} {tree : Tree}
    {word : List Token}, ArraySpelling name place tree word →
      Derives (.bracketed (.rule .items)) (.mark .leftBracket :: word.map Token.kind)
  | _, _, _, _, .items hk hi => by
    rw [List.map_append, List.map_singleton, hk]
    exact .seq (.token _) (.seq (.rule hi.derives) (.token _))

theorem KeyValueSpelling.derives : ∀ {name : Option String} {place : Location} {tree : Tree}
    {word : List Token}, KeyValueSpelling name place tree word →
      Derives (.braced (.rule .pairs)) (.mark .leftBrace :: word.map Token.kind)
  | _, _, _, _, .empty hk => by
    rw [List.map_singleton, hk]
    exact .braced_of ⟨[], rfl, @Derives.rule .pairs _ .none⟩
  | _, _, _, _, .pairs hk hp => by
    rw [List.map_append, List.map_singleton, hk]
    exact .braced_of ⟨_, rfl, .rule (.some hp.derives)⟩

theorem ItemsSpelling.derives : ∀ {values : List Tree} {word : List Token},
    ItemsSpelling values word → Derives (.list (.rule .item)) (word.map Token.kind)
  | _, _, .last hi => .list_last hi.derives
  | _, _, .more hi hk hm => by
    rw [List.map_append, List.map_cons, hk]
    exact .list_more hi.derives hm.derives

theorem PairSpelling.derives : ∀ {tree : Tree} {word : List Token}, PairSpelling tree word →
    Derives (.rule .pair) (word.map Token.kind)
  | _, _, .pair he hk hi => by
    rw [List.map_append, List.map_cons, hk]
    exact .rule (.seq he.derives (.seq (.token _) hi.derives))

theorem PairsSpelling.derives : ∀ {entries : List Tree} {word : List Token},
    PairsSpelling entries word → Derives (.list (.rule .pair)) (word.map Token.kind)
  | _, _, .last hp => .list_last hp.derives
  | _, _, .more hp hk hm => by
    rw [List.map_append, List.map_cons, hk]
    exact .list_more hp.derives hm.derives

end

theorem TargetSpelling.derives {name : String} {place : Location} {tree : Tree}
    {word : List Token} (h : TargetSpelling name place tree word) :
    Derives (.maybe (.bracketed (.rule .expression))) (word.map Token.kind) := by
  cases h with
  | name => exact .none
  | element hk ha =>
    rw [List.map_cons, hk]
    exact .some ha.derives

theorem ConditionSpelling.derives {tree : Tree} {word : List Token}
    (h : ConditionSpelling tree word) :
    Derives (.parens (.rule .expression)) (word.map Token.kind) := by
  obtain ⟨ho, hc, he⟩ := h
  rw [List.map_cons, List.map_append, List.map_singleton, ho, hc]
  exact .seq (.token _) (.seq he.derives (.token _))

theorem LoopHeadSpelling.derives {head : String × Tree × Tree} {word : List Token}
    (h : LoopHeadSpelling head word) :
    Derives (.parens .bounds) (word.map Token.kind) := by
  obtain ⟨ho, hn, hc, hm, hr, hf, hl⟩ := h
  have hb : Derives .bounds _ :=
    .seq (.token _) (.seq (.token _) (.seq hf.derives (.seq (.token _) hl.derives)))
  have h : Derives (.parens .bounds) _ := .seq (.token _) (.seq hb (.token _))
  simpa [ho, hn, hc, hm, hr] using h

theorem ReturnSpelling.derives {place : Location} {tree : Tree} {word : List Token}
    (h : ReturnSpelling place tree word) :
    Derives (.all [.maybe (.rule .expression), .mark .semicolon]) (word.map Token.kind) := by
  cases h with
  | bare hs =>
    rw [List.map_singleton, hs]
    exact .seq .none (.token _)
  | giving hs he =>
    rw [List.map_append, List.map_singleton, hs]
    exact .seq (.some he.derives) (.token _)

mutual

theorem StatementSpelling.derives : ∀ {hangs : Bool} {tree : Tree} {word : List Token},
    StatementSpelling hangs tree word → Derives (.rule .statement) (word.map Token.kind)
  | _, _, _, .call hn ho hs hc => by
    rw [List.map_cons, List.map_cons, List.map_append, List.map_singleton, hn, ho, hs]
    exact .rule (.any (by decide) (.seq (.token _) (.seq hc.derives (.token _))))
  | _, _, _, .assignment hn ha => by
    obtain ⟨hs, hk, ht, he⟩ := ha
    rw [List.map_cons, List.map_append, List.map_cons, List.map_append, List.map_singleton, hn, hs,
      hk]
    exact .rule (.any (by decide) (.seq (.token _) (.seq ht.derives (.seq (.token _)
      (.seq he.derives (.token _))))))
  | _, _, _, .branching hk hi => by
    rw [List.map_cons, hk]
    exact .rule (.any (by decide) (.seq (.token _) hi.derives))
  | _, _, _, .loop hk hl => by
    rw [List.map_cons, hk]
    exact .rule (.any (by decide) (.seq (.token _) hl.derives))
  | _, _, _, .returning hk hr => by
    rw [List.map_cons, hk]
    exact .rule (.any (by decide) (.seq (.token _) hr.derives))
  | _, _, _, .block hk hb => by
    rw [List.map_cons, hk]
    exact .rule (.any (by decide) (.braced_of hb.derives))

theorem IfSpelling.derives : ∀ {hangs : Bool} {place : Location} {tree : Tree} {word : List Token},
    IfSpelling hangs place tree word →
      Derives (.all [.parens (.rule .expression), .rule .statement,
        .maybe (.all [.keyword .elseWord, .rule .statement])]) (word.map Token.kind)
  | _, _, _, _, .lone hc hs => by
    rw [List.map_append]
    exact .seq hc.derives hs.derives.seq_none
  | _, _, _, _, .withElse hc hs hk ho => by
    rw [List.map_append, List.map_append, List.map_cons, hk]
    exact .seq hc.derives (.seq hs.derives (.some (.seq (.token _) ho.derives)))

theorem LoopSpelling.derives : ∀ {hangs : Bool} {place : Location} {tree : Tree}
    {word : List Token}, LoopSpelling hangs place tree word →
      Derives (.all [.parens .bounds, .rule .statement]) (word.map Token.kind)
  | _, _, _, _, .braced hh hk hb => by
    rw [List.map_append, List.map_cons, hk]
    exact .seq hh.derives (.rule (.any (by decide) (.braced_of hb.derives)))
  | _, _, _, _, .single hh _ hs => by
    rw [List.map_append]
    exact .seq hh.derives hs.derives

theorem BodySpelling.derives : ∀ {statements : List Tree} {word : List Token},
    BodySpelling statements word → ∃ front, word.map Token.kind = front ++ [.mark .rightBrace] ∧
      Derives (.many (.rule .statement)) front
  | _, _, .close hk => ⟨[], by rw [List.map_singleton, hk]; rfl, .nil⟩
  | _, _, .cons hs hb => by
    obtain ⟨front, hw, hm⟩ := hb.derives
    exact ⟨_, by rw [List.map_append, hw, List.append_assoc], .cons hs.derives hm⟩

end

theorem ParametersSpelling.derives {names : List Tree} {word : List Token}
    (h : ParametersSpelling names word) : Derives (.list .name) (word.map Token.kind) := by
  induction h with
  | last hk =>
    rw [List.map_singleton, hk]
    exact .list_last (.token _)
  | more hk hc _ ih =>
    rw [List.map_cons, List.map_cons, hk, hc]
    exact .list_more (.token _) ih

theorem ParameterListSpelling.derives {tree : Tree} {word : List Token}
    (h : ParameterListSpelling tree word) :
    Derives (.parens (.rule .parameters)) (.mark .leftParen :: word.map Token.kind) := by
  cases h with
  | empty hk =>
    rw [List.map_singleton, hk]
    exact .seq (.token _) (.seq (@Derives.rule .parameters _ .none) (.token _))
  | names hk hn =>
    rw [List.map_append, List.map_singleton, hk]
    exact .seq (.token _) (.seq (.rule (.some hn.derives)) (.token _))

theorem VariableSpelling.derives {name : String} {place : Location} {tree : Tree}
    {word : List Token} (h : VariableSpelling name place tree word) :
    Derives .declaration (.identifier :: word.map Token.kind) := by
  cases h with
  | array hs ho hk ha =>
    have hd : Derives Rule.arrayDecl.form _ :=
      .seq (.token _) (.seq (.token _) (.seq ha.derives (.token _)))
    rw [List.map_cons, List.map_cons, List.map_append, List.map_singleton, hs, ho, hk]
    exact .any (by decide) (.rule hd)
  | keyValue hs ho hk hm =>
    have hd : Derives Rule.keyValueDecl.form _ :=
      .seq (.token _) (.seq (.token _) (.seq hm.derives (.token _)))
    rw [List.map_cons, List.map_cons, List.map_append, List.map_singleton, hs, ho, hk]
    exact .any (by decide) (.rule hd)
  | value hs hk he =>
    have hd : Derives Rule.varDecl.form _ :=
      .seq (.token _) (.seq (.token _) (.seq he.derives (.token _)))
    rw [List.map_cons, List.map_append, List.map_singleton, hs, hk]
    exact .any (by decide) (.rule hd)

theorem DeclarationSpelling.derives {tree : Tree} {word : List Token}
    (h : DeclarationSpelling tree word) : Derives .declaration (word.map Token.kind) := by
  cases h with
  | main hk hm =>
    obtain ⟨hl, hr, ho, hb⟩ := hm
    have hd : Derives Rule.main.form _ := .seq (.token _)
      (.seq (.seq (.token _) (.seq .empty (.token _))) (.braced_of hb.derives))
    rw [List.map_cons, List.map_cons, List.map_cons, List.map_cons, hk, hl, hr, ho]
    exact .any (by decide) (.rule hd)
  | function hk hf =>
    obtain ⟨hn, hl, hp, ho, hb⟩ := hf
    have hd : Derives Rule.function.form _ := .seq (.token _) (.seq (.token _)
      (.seq hp.derives (.braced_of hb.derives)))
    rw [List.map_cons, List.map_cons, List.map_cons, List.map_append, List.map_cons, hk, hn, hl, ho]
    exact .any (by decide) (.rule hd)
  | named hk hv =>
    rw [List.map_cons, hk]
    exact hv.derives

theorem ProgramSpelling.derives {trees : List Tree} {word : List Token}
    (h : ProgramSpelling trees word) : Derives (.rule .program) (word.map Token.kind) := by
  refine .rule ?_
  induction h with
  | nil => exact .nil
  | cons hd _ ih =>
    rw [List.map_append]
    exact .cons hd.derives ih

-- Lists of tokens of one sort, joined.
inductive Repeated (reads : List Token → Prop) : List Token → Prop
  | nil : Repeated reads []
  | cons {front back : List Token} : reads front → Repeated reads back →
      Repeated reads (front ++ back)

-- The lists of tokens that are spellings of what a rule is about.
def Rule.Spells : Rule → List Token → Prop
  | .program, word => ∃ trees, ProgramSpelling trees word
  | .main, word | .function, word | .varDecl, word | .arrayDecl, word | .keyValueDecl, word =>
    ∃ tree, DeclarationSpelling tree word
  | .parameters, word => word = [] ∨ ∃ names, ParametersSpelling names word
  | .items, word => ∃ values, ItemsSpelling values word
  | .item, word => ∃ tree, ItemSpelling tree word
  | .pairs, word => word = [] ∨ ∃ entries, PairsSpelling entries word
  | .pair, word => ∃ tree, PairSpelling tree word
  | .statement, word => ∃ hangs tree, StatementSpelling hangs tree word
  | .expression, word => ∃ tree, ExpressionSpelling tree word
  | .operand, word => ∃ tree, OperandSpelling tree word
  | .arguments, word => ∃ values, ArgumentsSpelling values word
  | .operator, word => ∃ token sign, word = [token] ∧ token.kind = .operator sign

namespace Form

-- What a form stands for where its rules stand for their spellings.
def Reads : Form → List Token → Prop
  | .empty, word => word = []
  | .never, _ => False
  | .token kind, word => ∃ token, word = [token] ∧ token.kind = kind
  | .rule name, word => name.Spells word
  | .seq first second, word => ∃ front back, word = front ++ back ∧ first.Reads front ∧
      second.Reads back
  | .either first second, word => first.Reads word ∨ second.Reads word
  | .maybe form, word => word = [] ∨ form.Reads word
  | .many form, word => Repeated form.Reads word

variable {form : Form} {word : List Token}

theorem reads_list (many : List Token → Prop) (last : ∀ front, form.Reads front → many front)
    (more : ∀ front comma back, form.Reads front → comma.kind = .mark .comma → many back →
      many (front ++ comma :: back)) (h : form.list.Reads word) : many word := by
  obtain ⟨front, back, rfl, hf, hb⟩ := h
  have rest : ∀ {back}, Repeated (Form.seq (mark .comma) form).Reads back →
      ∀ front, form.Reads front → many (front ++ back) := by
    intro back hb
    induction hb with
    | nil =>
      intro front hf
      rw [List.append_nil]
      exact last front hf
    | cons hc _ ih =>
      intro front hf
      obtain ⟨_, inner, rfl, ⟨comma, rfl, hk⟩, hi⟩ := hc
      exact more front comma _ hf hk (ih inner hi)
  exact rest hb front hf

theorem reads_parens (h : (parens form).Reads word) :
    ∃ opening inner closing, word = opening :: (inner ++ [closing]) ∧
      opening.kind = .mark .leftParen ∧ closing.kind = .mark .rightParen ∧ form.Reads inner := by
  obtain ⟨_, _, rfl, ⟨opening, rfl, ho⟩, inner, _, rfl, hi, closing, rfl, hc⟩ := h
  exact ⟨opening, inner, closing, rfl, ho, hc, hi⟩

theorem reads_bracketed (h : (bracketed form).Reads word) :
    ∃ opening inner closing, word = opening :: (inner ++ [closing]) ∧
      opening.kind = .mark .leftBracket ∧ closing.kind = .mark .rightBracket ∧
      form.Reads inner := by
  obtain ⟨_, _, rfl, ⟨opening, rfl, ho⟩, inner, _, rfl, hi, closing, rfl, hc⟩ := h
  exact ⟨opening, inner, closing, rfl, ho, hc, hi⟩

theorem reads_braced (h : (braced form).Reads word) :
    ∃ opening inner closing, word = opening :: (inner ++ [closing]) ∧
      opening.kind = .mark .leftBrace ∧ closing.kind = .mark .rightBrace ∧ form.Reads inner := by
  obtain ⟨_, _, rfl, ⟨opening, rfl, ho⟩, inner, _, rfl, hi, closing, rfl, hc⟩ := h
  exact ⟨opening, inner, closing, rfl, ho, hc, hi⟩

end Form

section rules

variable {word : List Token}

theorem Rule.arguments_spells (h : Rule.arguments.form.Reads word) :
    Rule.arguments.Spells word := by
  refine Form.reads_list _ ?_ ?_ h
  · intro front hs
    obtain ⟨value, hv⟩ := hs
    exact ⟨_, .last hv⟩
  · intro front comma back hs hk hq
    obtain ⟨value, hv⟩ := hs
    obtain ⟨values, hm⟩ := hq
    exact ⟨_, .more hv hk hm⟩

theorem Rule.items_spells (h : Rule.items.form.Reads word) : Rule.items.Spells word := by
  refine Form.reads_list _ ?_ ?_ h
  · intro front hs
    obtain ⟨value, hv⟩ := hs
    exact ⟨_, .last hv⟩
  · intro front comma back hs hk hq
    obtain ⟨value, hv⟩ := hs
    obtain ⟨values, hm⟩ := hq
    exact ⟨_, .more hv hk hm⟩

theorem Rule.pairs_spells (h : Rule.pairs.form.Reads word) : Rule.pairs.Spells word := by
  refine h.imp_right (Form.reads_list (fun back => ∃ entries, PairsSpelling entries back) ?_ ?_)
  · intro front hv
    obtain ⟨entry, he⟩ := hv
    exact ⟨_, .last he⟩
  · intro front comma back hv hk hs
    obtain ⟨entry, he⟩ := hv
    obtain ⟨entries, hm⟩ := hs
    exact ⟨_, .more he hk hm⟩

theorem Rule.parameters_spells (h : Rule.parameters.form.Reads word) :
    Rule.parameters.Spells word := by
  refine h.imp_right (Form.reads_list (fun back => ∃ names, ParametersSpelling names back) ?_ ?_)
  · intro value hv
    obtain ⟨name, rfl, hk⟩ := hv
    exact ⟨_, .last hk⟩
  · intro value comma back hv hc hs
    obtain ⟨name, rfl, hk⟩ := hv
    obtain ⟨names, hm⟩ := hs
    exact ⟨_, .more hk hc hm⟩

theorem Rule.pair_spells (h : Rule.pair.form.Reads word) : Rule.pair.Spells word := by
  obtain ⟨front, _, rfl, ⟨key, he⟩, _, back, rfl, ⟨colon, rfl, hk⟩, value, hi⟩ := h
  exact ⟨_, .pair he hk hi⟩

-- A call or an element, by what is behind the name.
theorem exists_call (name : Token)
    (h : (Form.parens (.maybe (.rule .arguments))).Reads word) :
    ∃ opening back tree, word = opening :: back ∧ opening.kind = .mark .leftParen ∧
      CallSpelling name.text name.place tree back := by
  obtain ⟨opening, inner, closing, rfl, ho, hc, rfl | ⟨values, ha⟩⟩ := Form.reads_parens h
  · exact ⟨opening, _, _, rfl, ho, .empty hc⟩
  · exact ⟨opening, _, _, rfl, ho, .given hc ha⟩

theorem exists_target (name : Token)
    (h : (Form.maybe (.bracketed (.rule .expression))).Reads word) :
    ∃ tree, TargetSpelling name.text name.place tree word := by
  obtain rfl | h := h
  · exact ⟨_, .name⟩
  · obtain ⟨opening, inner, closing, rfl, ho, hc, index, he⟩ := Form.reads_bracketed h
    exact ⟨_, .element ho (.index hc he)⟩

theorem Rule.operand_spells (h : Rule.operand.form.Reads word) : Rule.operand.Spells word := by
  obtain h | ⟨_, _, rfl, ⟨name, rfl, hn⟩, h⟩ | ⟨_, _, rfl, ⟨name, rfl, hn⟩, h⟩ | h := h
  · obtain ⟨opening, inner, closing, rfl, ho, hc, tree, he⟩ := Form.reads_parens h
    exact ⟨tree, .group ho hc he⟩
  · obtain ⟨opening, back, tree, rfl, ho, hc⟩ := exists_call name h
    exact ⟨tree, .call hn ho hc⟩
  · obtain ⟨tree, ht⟩ := exists_target name h
    cases ht with
    | name => exact ⟨_, .name hn⟩
    | element ho ha => exact ⟨_, .access hn ho ha⟩
  · obtain ⟨token, rfl, hk⟩ | ⟨token, rfl, hk⟩ | ⟨token, rfl, hk⟩ := h
    · exact ⟨_, .literal hk⟩
    · exact ⟨_, .literal hk⟩
    · exact ⟨_, .literal hk⟩

theorem Rule.operator_spells (h : Rule.operator.form.Reads word) : Rule.operator.Spells word := by
  rcases h with h | h | h | h | h | h | h | h | h <;>
  · obtain ⟨token, rfl, hk⟩ := h
    exact ⟨token, _, rfl, hk⟩

theorem Rule.expression_spells (h : Rule.expression.form.Reads word) :
    Rule.expression.Spells word := by
  obtain ⟨front, _, rfl, ⟨left, hl⟩, rfl | ⟨_, back, rfl, ⟨token, sign, rfl, hk⟩, right, hr⟩⟩ := h
  · rw [List.append_nil]
    exact ⟨left, .operand hl⟩
  · exact ⟨_, .binary hl hk hr⟩

theorem Rule.item_spells (h : Rule.item.form.Reads word) : Rule.item.Spells word := by
  obtain h | h | ⟨tree, he⟩ := h
  · obtain ⟨opening, inner, closing, rfl, ho, hc, values, hi⟩ := Form.reads_bracketed h
    exact ⟨_, .array ho (.items hc hi)⟩
  · obtain ⟨opening, inner, closing, rfl, ho, hc, rfl | ⟨entries, hp⟩⟩ := Form.reads_braced h
    · exact ⟨_, .keyValue ho (.empty hc)⟩
    · exact ⟨_, .keyValue ho (.pairs hc hp)⟩
  · exact ⟨tree, .expression he⟩

theorem exists_body {closing : Token}
    (h : (Form.many (.rule .statement)).Reads word) (hc : closing.kind = .mark .rightBrace) :
    ∃ statements, BodySpelling statements (word ++ [closing]) := by
  induction h with
  | nil => exact ⟨[], .close hc⟩
  | cons hs _ ih =>
    obtain ⟨hangs, tree, hs⟩ := hs
    obtain ⟨statements, hb⟩ := ih
    rw [List.append_assoc]
    exact ⟨_, .cons hs hb⟩

-- Behind a branch that hangs an else goes to an inner if.
theorem exists_if {place : Location} {tree branch other : Tree} {hangs hangs' : Bool}
    {front middle back : List Token} {elseWord : Token} (hc : ConditionSpelling tree front)
    (hs : StatementSpelling hangs branch middle) (hk : elseWord.kind = .keyword .elseWord)
    (ho : StatementSpelling hangs' other back) :
    ∃ hangs tree, IfSpelling hangs place tree (front ++ (middle ++ elseWord :: back)) := by
  cases hangs with
  | false => exact ⟨_, _, .withElse hc hs hk ho⟩
  | true =>
    obtain ⟨_, whole, hw⟩ := hs.attach hk ho
    exact ⟨_, _, .lone hc hw⟩

-- A block as the body of a loop is the body itself.
theorem exists_loop {place : Location} {counter : String} {first last only : Tree} {hangs : Bool}
    {front back : List Token} (hh : LoopHeadSpelling (counter, first, last) front)
    (hs : StatementSpelling hangs only back) :
    ∃ hangs tree, LoopSpelling hangs place tree (front ++ back) := by
  obtain ⟨token, rest, rfl, -⟩ := hs.head
  by_cases hk : token.kind = .mark .leftBrace
  · cases hs with
    | block ho hb => exact ⟨_, _, .braced hh ho hb⟩
    | _ => simp_all
  · exact ⟨_, _, .single hh hk hs⟩

theorem exists_bounds (h : (Form.parens .bounds).Reads word) :
    ∃ head, LoopHeadSpelling head word := by
  obtain ⟨opening, inner, closing, rfl, ho, hc, h⟩ := Form.reads_parens h
  obtain ⟨_, _, rfl, ⟨counter, rfl, hn⟩, _, _, rfl, ⟨colon, rfl, hk⟩, front, _, rfl, ⟨first, hf⟩,
    _, back, rfl, ⟨comma, rfl, hm⟩, last, hl⟩ := h
  have hs := LoopHeadSpelling.parens ho hn hk hm hc hf hl
  exact ⟨_, by simpa using hs⟩

theorem Rule.statement_spells (h : Rule.statement.form.Reads word) :
    Rule.statement.Spells word := by
  obtain h | h | h | h | h | h := h
  · obtain ⟨_, _, rfl, ⟨name, rfl, hn⟩, front, _, rfl, h, semicolon, rfl, hs⟩ := h
    obtain ⟨opening, back, tree, rfl, ho, hc⟩ := exists_call name h
    exact ⟨_, _, .call hn ho hs hc⟩
  · obtain ⟨_, _, rfl, ⟨name, rfl, hn⟩, front, _, rfl, h, _, _, rfl, ⟨sign, rfl, hs⟩, back, _, rfl,
      ⟨value, he⟩, semicolon, rfl, hk⟩ := h
    obtain ⟨target, ht⟩ := exists_target name h
    exact ⟨_, _, .assignment hn (.assign hs hk ht he)⟩
  · obtain ⟨_, _, rfl, ⟨ifWord, rfl, hk⟩, front, _, rfl, hc, middle, _, rfl, ⟨hangs, branch, hs⟩,
      h⟩ := h
    obtain ⟨opening, inner, closing, rfl, ho, hp, tree, he⟩ := Form.reads_parens hc
    have hc := ConditionSpelling.parens ho hp he
    obtain rfl | ⟨_, back, rfl, ⟨elseWord, rfl, hw⟩, hangs', other, ho⟩ := h
    · have hi : IfSpelling _ ifWord.place _ _ := .lone hc hs
      rw [List.append_nil]
      exact ⟨_, _, .branching hk hi⟩
    · obtain ⟨hangs, tree, hi⟩ := exists_if hc hs hw ho
      exact ⟨_, _, .branching hk hi⟩
  · obtain ⟨_, _, rfl, ⟨forWord, rfl, hk⟩, front, back, rfl, hh, hangs, only, hs⟩ := h
    obtain ⟨⟨counter, first, last⟩, hh⟩ := exists_bounds hh
    obtain ⟨hangs, tree, hl⟩ := exists_loop hh hs
    exact ⟨_, _, .loop hk hl⟩
  · obtain ⟨_, _, rfl, ⟨returnWord, rfl, hk⟩, front, _, rfl, h, semicolon, rfl, hs⟩ := h
    obtain rfl | ⟨value, he⟩ := h
    · exact ⟨_, _, .returning hk (.bare hs)⟩
    · exact ⟨_, _, .returning hk (.giving hs he)⟩
  · obtain ⟨opening, inner, closing, rfl, ho, hc, h⟩ := Form.reads_braced h
    obtain ⟨statements, hb⟩ := exists_body h hc
    exact ⟨_, _, .block ho hb⟩

theorem Rule.main_spells (h : Rule.main.form.Reads word) : Rule.main.Spells word := by
  obtain ⟨_, _, rfl, ⟨mainWord, rfl, hk⟩, front, back, rfl, hp, hb⟩ := h
  obtain ⟨left, _, right, rfl, hl, hr, rfl⟩ := Form.reads_parens hp
  obtain ⟨opening, inner, closing, rfl, ho, hc, h⟩ := Form.reads_braced hb
  obtain ⟨statements, hb⟩ := exists_body h hc
  exact ⟨_, .main hk (.main hl hr ho hb)⟩

theorem Rule.function_spells (h : Rule.function.form.Reads word) : Rule.function.Spells word := by
  obtain ⟨_, _, rfl, ⟨functionWord, rfl, hk⟩, _, _, rfl, ⟨name, rfl, hn⟩, front, back, rfl, hp,
    hb⟩ := h
  obtain ⟨left, params, right, rfl, hl, hr, h⟩ := Form.reads_parens hp
  have hp : ∃ tree, ParameterListSpelling tree (params ++ [right]) := by
    obtain rfl | ⟨names, hn⟩ := h
    · exact ⟨_, .empty hr⟩
    · exact ⟨_, .names hr hn⟩
  obtain ⟨tree, hp⟩ := hp
  obtain ⟨opening, inner, closing, rfl, ho, hc, h⟩ := Form.reads_braced hb
  obtain ⟨statements, hb⟩ := exists_body h hc
  exact ⟨_, .function hk (.function hn hl hp ho hb)⟩

theorem Rule.varDecl_spells (h : Rule.varDecl.form.Reads word) : Rule.varDecl.Spells word := by
  obtain ⟨_, _, rfl, ⟨name, rfl, hn⟩, _, _, rfl, ⟨sign, rfl, hs⟩, front, _, rfl, ⟨value, he⟩,
    semicolon, rfl, hk⟩ := h
  exact ⟨_, .named hn (.value hs hk he)⟩

theorem Rule.arrayDecl_spells (h : Rule.arrayDecl.form.Reads word) :
    Rule.arrayDecl.Spells word := by
  obtain ⟨_, _, rfl, ⟨name, rfl, hn⟩, _, _, rfl, ⟨sign, rfl, hs⟩, front, _, rfl, h, semicolon, rfl,
    hk⟩ := h
  obtain ⟨opening, inner, closing, rfl, ho, hc, values, hi⟩ := Form.reads_bracketed h
  exact ⟨_, .named hn (.array hs ho hk (.items hc hi))⟩

theorem Rule.keyValueDecl_spells (h : Rule.keyValueDecl.form.Reads word) :
    Rule.keyValueDecl.Spells word := by
  obtain ⟨_, _, rfl, ⟨name, rfl, hn⟩, _, _, rfl, ⟨sign, rfl, hs⟩, front, _, rfl, h, semicolon, rfl,
    hk⟩ := h
  obtain ⟨opening, inner, closing, rfl, ho, hc, rfl | ⟨entries, hp⟩⟩ := Form.reads_braced h
  · exact ⟨_, .named hn (.keyValue hs ho hk (.empty hc))⟩
  · exact ⟨_, .named hn (.keyValue hs ho hk (.pairs hc hp))⟩

theorem Rule.program_spells (h : Rule.program.form.Reads word) : Rule.program.Spells word := by
  change Repeated _ word at h
  induction h with
  | nil => exact ⟨[], .nil⟩
  | @cons front back hd _ ih =>
    have hd : ∃ tree, DeclarationSpelling tree front := by
      obtain h | h | h | h | h := hd <;> exact h
    obtain ⟨tree, hd⟩ := hd
    obtain ⟨trees, hp⟩ := ih
    exact ⟨_, .cons hd hp⟩

-- Spellings are closed under every rule.
theorem Rule.spells_of_reads (name : Rule) (h : name.form.Reads word) : name.Spells word := by
  cases name with
  | program => exact program_spells h
  | main => exact main_spells h
  | function => exact function_spells h
  | parameters => exact parameters_spells h
  | varDecl => exact varDecl_spells h
  | arrayDecl => exact arrayDecl_spells h
  | keyValueDecl => exact keyValueDecl_spells h
  | items => exact items_spells h
  | item => exact item_spells h
  | pairs => exact pairs_spells h
  | pair => exact pair_spells h
  | statement => exact statement_spells h
  | expression => exact expression_spells h
  | operand => exact operand_spells h
  | arguments => exact arguments_spells h
  | operator => exact operator_spells h

end rules

-- A derivation is the least that is closed under every rule.
theorem Derives.reads {form : Form} {kinds : List TokenKind} (h : Derives form kinds) :
    ∀ word : List Token, word.map Token.kind = kinds → form.Reads word := by
  induction h with
  | empty =>
    intro word hw
    exact List.map_eq_nil_iff.mp hw
  | token kind =>
    intro word hw
    obtain ⟨token, rfl, hk⟩ := List.map_eq_singleton_iff.mp hw
    exact ⟨token, rfl, hk⟩
  | rule _ ih =>
    intro word hw
    exact Rule.spells_of_reads _ (ih word hw)
  | seq _ _ ihf ihb =>
    intro word hw
    obtain ⟨front, back, rfl, hf, hb⟩ := List.map_eq_append_iff.mp hw
    exact ⟨front, back, rfl, ihf front hf, ihb back hb⟩
  | left _ ih =>
    intro word hw
    exact .inl (ih word hw)
  | right _ ih =>
    intro word hw
    exact .inr (ih word hw)
  | none =>
    intro word hw
    exact .inl (List.map_eq_nil_iff.mp hw)
  | some _ ih =>
    intro word hw
    exact .inr (ih word hw)
  | nil =>
    intro word hw
    obtain rfl := List.map_eq_nil_iff.mp hw
    exact .nil
  | cons _ _ ihf ihb =>
    intro word hw
    obtain ⟨front, back, rfl, hf, hb⟩ := List.map_eq_append_iff.mp hw
    exact .cons (ihf front hf) (ihb back hb)

-- A list of tokens is a program if and only if the kinds of its tokens can be
-- derived. Texts and places do not matter, and neither do the choices that are
-- made on the way.
theorem parse_ok_iff_derives (tokens : List Token) :
    (∃ tree, parse tokens = .ok tree) ↔ Derives (.rule .program) (tokens.map Token.kind) := by
  constructor
  · intro h
    obtain ⟨trees, hp⟩ := accepted_iff.mp h
    exact hp.derives
  · intro h
    obtain ⟨trees, hp⟩ : Rule.program.Spells tokens := h.reads tokens rfl
    exact accepted_iff.mpr ⟨trees, hp⟩

end ScriptIR.Grammar
