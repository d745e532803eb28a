import ScriptIR.Proofs.Grammar.Shape

namespace ScriptIR

open Grammar

-- What a tree fixes about a token. The form of a literal and the sign of an
-- operator are not kept in a tree, only their texts are, and the texts of
-- keywords and marks are not kept either.
inductive Word where
  | literal (text : String)
  | name (text : String)
  | operator (text : String)
  | keyword (word : Keyword)
  | mark (sign : Mark)
deriving DecidableEq

def Token.word (token : Token) : Word :=
  match token.kind with
  | .literal _ => .literal token.text
  | .identifier => .name token.text
  | .operator _ => .operator token.text
  | .keyword word => .keyword word
  | .mark sign => .mark sign

-- Some token for a word.
def Word.token : Word → Token
  | .literal text => ⟨.literal .int, text, .start⟩
  | .name text => ⟨.identifier, text, .start⟩
  | .operator text => ⟨.operator .plus, text, .start⟩
  | .keyword word => ⟨.keyword word, word.spelling, .start⟩
  | .mark sign => ⟨.mark sign, sign.spelling, .start⟩

theorem Word.word_token (word : Word) : word.token.word = word := by
  cases word <;> rfl

namespace Word

def parens (words : List Word) : List Word :=
  .mark .leftParen :: (words ++ [.mark .rightParen])

def bracketed (words : List Word) : List Word :=
  .mark .leftBracket :: (words ++ [.mark .rightBracket])

def braced (words : List Word) : List Word :=
  .mark .leftBrace :: (words ++ [.mark .rightBrace])

end Word

namespace Tree

-- The words of a left operand. A chain of operators would be read to the right.
def grouped (tree : Tree) (words : List Word) : List Word :=
  match tree with
  | .node .expression _ _ => Word.parens words
  | _ => words

mutual

-- The words of an expression, of an aggregate below a declaration or of a pair.
def printValue : Tree → List Word
  | .node (.literal text) _ _ => [.literal text]
  | .node (.identifier name) _ _ => [.name name]
  | .node .call [callee] _ => printValue callee ++ Word.parens []
  | .node .call [callee, .node .argumentList values _] _ =>
    printValue callee ++ Word.parens (printValues values)
  | .node .arrayAccess [array, index] _ => printValue array ++ Word.bracketed (printValue index)
  | .node .expression [left, .node (.operator sign) _ _, right] _ =>
    left.grouped (printValue left) ++ .operator sign :: printValue right
  | .node (.array _) [.node .expressionList values _] _ => Word.bracketed (printValues values)
  | .node (.keyValue _) entries _ => Word.braced (printValues entries)
  | .node .pair [key, value] _ => printValue key ++ .mark .colon :: printValue value
  | _ => []

-- With commas between them.
def printValues : List Tree → List Word
  | [] => []
  | [tree] => printValue tree
  | tree :: rest => printValue tree ++ .mark .comma :: printValues rest

end

mutual

-- The words of a statement. The body of a loop is always put in braces.
def printStatement : Tree → List Word
  | .node .assignment [target, value] _ =>
    printValue target ++ .mark .assign :: (printValue value ++ [.mark .semicolon])
  | .node .call children place => printValue (.node .call children place) ++ [.mark .semicolon]
  | .node .ifStatement [condition, branch] _ =>
    .keyword .ifWord :: (Word.parens (printValue condition) ++ printStatement branch)
  | .node .ifStatement [condition, branch, .node .elseStatement [other] _] _ =>
    .keyword .ifWord :: (Word.parens (printValue condition) ++
      (printStatement branch ++ .keyword .elseWord :: printStatement other))
  | .loop counter first last statements _ =>
    .keyword .forWord :: (Word.parens (.name counter :: .mark .colon ::
      (printValue first ++ .mark .comma :: printValue last)) ++
        Word.braced (printStatements statements))
  | .node .bareReturn _ _ => [.keyword .returnWord, .mark .semicolon]
  | .giving value _ _ => .keyword .returnWord :: (printValue value ++ [.mark .semicolon])
  | .node .block statements _ => Word.braced (printStatements statements)
  | _ => []

def printStatements : List Tree → List Word
  | [] => []
  | tree :: rest => printStatement tree ++ printStatements rest

end

def printDeclaration : Tree → List Word
  | .node .main statements _ =>
    .keyword .mainWord :: (Word.parens [] ++ Word.braced (printStatements statements))
  | .function name (.node .paramList params _) statements _ =>
    .keyword .functionWord :: .name name :: (Word.parens (printValues params) ++
      Word.braced (printStatements statements))
  | .node (.array (some name)) values place =>
    .name name :: .mark .assign ::
      (printValue (.node (.array (some name)) values place) ++ [.mark .semicolon])
  | .node (.keyValue (some name)) entries place =>
    .name name :: .mark .assign ::
      (printValue (.node (.keyValue (some name)) entries place) ++ [.mark .semicolon])
  | .node (.varDecl name) [value] _ =>
    .name name :: .mark .assign :: (printValue value ++ [.mark .semicolon])
  | _ => []

-- The words of a program. Read again they give the program, but for its places.
def print : Tree → List Word
  | .node .program trees _ => trees.flatMap printDeclaration
  | _ => []

mutual

-- The tree without its places.
def bare : Tree → Tree
  | .node kind children _ => .node kind (bareAll children) .start
  | .function name params children _ => .function name (bare params) (bareAll children) .start
  | .loop counter first last children _ =>
    .loop counter (bare first) (bare last) (bareAll children) .start
  | .giving value children _ => .giving (bare value) (bareAll children) .start

def bareAll : List Tree → List Tree
  | [] => []
  | tree :: rest => bare tree :: bareAll rest

end

end Tree

theorem Token.word_eq_name {token : Token} {text : String} :
    token.word = .name text ↔ token.kind = .identifier ∧ token.text = text := by
  cases token with
  | mk kind text place => cases kind <;> simp [Token.word]

theorem Token.word_eq_literal {token : Token} {text : String} :
    token.word = .literal text ↔ (∃ form, token.kind = .literal form) ∧ token.text = text := by
  cases token with
  | mk kind text place => cases kind <;> simp [Token.word]

theorem Token.word_eq_operator {token : Token} {text : String} :
    token.word = .operator text ↔ (∃ sign, token.kind = .operator sign) ∧ token.text = text := by
  cases token with
  | mk kind text place => cases kind <;> simp [Token.word]

theorem Token.word_eq_keyword {token : Token} {word : Keyword} :
    token.word = .keyword word ↔ token.kind = .keyword word := by
  cases token with
  | mk kind text place => cases kind <;> simp [Token.word]

theorem Token.word_eq_mark {token : Token} {sign : Mark} :
    token.word = .mark sign ↔ token.kind = .mark sign := by
  cases token with
  | mk kind text place => cases kind <;> simp [Token.word]

section words

variable {tokens : List Token} {words more : List Word} {sign closing : Mark}

-- A list of tokens is cut where its words are.
theorem exists_mark_cons (h : tokens.map Token.word = .mark sign :: words) :
    ∃ token rest, tokens = token :: rest ∧ token.kind = .mark sign ∧
      rest.map Token.word = words := by
  obtain ⟨token, rest, rfl, hk, hr⟩ := List.map_eq_cons_iff.mp h
  exact ⟨token, rest, rfl, Token.word_eq_mark.mp hk, hr⟩

theorem exists_keyword_cons {word : Keyword}
    (h : tokens.map Token.word = .keyword word :: words) :
    ∃ token rest, tokens = token :: rest ∧ token.kind = .keyword word ∧
      rest.map Token.word = words := by
  obtain ⟨token, rest, rfl, hk, hr⟩ := List.map_eq_cons_iff.mp h
  exact ⟨token, rest, rfl, Token.word_eq_keyword.mp hk, hr⟩

theorem exists_name_cons {text : String} (h : tokens.map Token.word = .name text :: words) :
    ∃ token rest, tokens = token :: rest ∧ token.kind = .identifier ∧ token.text = text ∧
      rest.map Token.word = words := by
  obtain ⟨token, rest, rfl, hk, hr⟩ := List.map_eq_cons_iff.mp h
  exact ⟨token, rest, rfl, (Token.word_eq_name.mp hk).1, (Token.word_eq_name.mp hk).2, hr⟩

theorem exists_append_mark (h : tokens.map Token.word = words ++ .mark sign :: more) :
    ∃ front token back, tokens = front ++ token :: back ∧ front.map Token.word = words ∧
      token.kind = .mark sign ∧ back.map Token.word = more := by
  obtain ⟨front, _, rfl, hf, hb⟩ := List.map_eq_append_iff.mp h
  obtain ⟨token, back, rfl, hk, hb⟩ := exists_mark_cons hb
  exact ⟨front, token, back, rfl, hf, hk, hb⟩

theorem exists_closed (h : tokens.map Token.word = words ++ [.mark sign]) :
    ∃ front token, tokens = front ++ [token] ∧ front.map Token.word = words ∧
      token.kind = .mark sign := by
  obtain ⟨front, token, back, rfl, hf, hk, hb⟩ := exists_append_mark h
  obtain rfl := List.map_eq_nil_iff.mp hb
  exact ⟨front, token, rfl, hf, hk⟩

theorem exists_enclosed (h : tokens.map Token.word = .mark sign :: (words ++ [.mark closing])) :
    ∃ first inner last, tokens = first :: (inner ++ [last]) ∧ first.kind = .mark sign ∧
      last.kind = .mark closing ∧ inner.map Token.word = words := by
  obtain ⟨first, _, rfl, hf, hr⟩ := exists_mark_cons h
  obtain ⟨inner, last, rfl, hi, hl⟩ := exists_closed hr
  exact ⟨first, inner, last, rfl, hf, hl, hi⟩

end words

-- Whatever has the words of a tree is a spelling of it, but for its places.
def Respells (spells : Tree → List Token → Prop) (words : List Word) (tree : Tree) : Prop :=
  ∀ tokens : List Token, tokens.map Token.word = words →
    ∃ read, spells read tokens ∧ read.bare = tree.bare

theorem respells_list {one : Tree → List Token → Prop} {many : List Tree → List Token → Prop}
    (last : ∀ {value word}, one value word → many [value] word)
    (more : ∀ {value values front back comma}, one value front → comma.kind = .mark .comma →
      many values back → many (value :: values) (front ++ comma :: back))
    {values : List Tree} (hne : values ≠ [])
    (h : ∀ value ∈ values, Respells one value.printValue value) {tokens : List Token}
    (hw : tokens.map Token.word = Tree.printValues values) :
    ∃ reads, many reads tokens ∧ Tree.bareAll reads = Tree.bareAll values := by
  induction values generalizing tokens with
  | nil => exact (hne rfl).elim
  | cons value rest ih =>
    obtain ⟨hv, hr⟩ := List.forall_mem_cons.mp h
    cases rest with
    | nil =>
      obtain ⟨read, hs, hb⟩ := hv tokens hw
      exact ⟨[read], last hs, by simp only [Tree.bareAll, hb]⟩
    | cons next rest =>
      obtain ⟨front, comma, back, rfl, hf, hk, hm⟩ := exists_append_mark hw
      obtain ⟨read, hs, hb⟩ := hv front hf
      obtain ⟨reads, hrs, hbs⟩ := ih (List.cons_ne_nil _ _) hr hm
      exact ⟨read :: reads, more hs hk hrs, by rw [Tree.bareAll, Tree.bareAll, hb, hbs]⟩

theorem respells_of_operand {tree : Tree} (h : Respells OperandSpelling tree.printValue tree)
    (hg : tree.grouped tree.printValue = tree.printValue) :
    Respells ExpressionSpelling tree.printValue tree ∧
      Respells OperandSpelling (tree.grouped tree.printValue) tree := by
  rw [hg]
  refine ⟨?_, h⟩
  intro tokens hw
  obtain ⟨read, hs, hb⟩ := h tokens hw
  exact ⟨read, .operand hs, hb⟩

theorem IsExpression.respells {tree : Tree} (h : IsExpression tree) :
    Respells ExpressionSpelling tree.printValue tree ∧
      Respells OperandSpelling (tree.grouped tree.printValue) tree := by
  induction h with
  | literal =>
    refine respells_of_operand ?_ rfl
    intro tokens hw
    obtain ⟨token, rfl, ht⟩ := List.map_eq_singleton_iff.mp hw
    obtain ⟨⟨form, hk⟩, rfl⟩ := Token.word_eq_literal.mp ht
    exact ⟨_, .literal hk, rfl⟩
  | identifier =>
    refine respells_of_operand ?_ rfl
    intro tokens hw
    obtain ⟨token, rfl, ht⟩ := List.map_eq_singleton_iff.mp hw
    obtain ⟨hk, rfl⟩ := Token.word_eq_name.mp ht
    exact ⟨_, .name hk, rfl⟩
  | emptyCall =>
    refine respells_of_operand ?_ rfl
    intro tokens hw
    obtain ⟨name, _, rfl, hn, rfl, hr⟩ := exists_name_cons hw
    obtain ⟨opening, inner, closing, rfl, ho, hc, hi⟩ := exists_enclosed hr
    obtain rfl := List.map_eq_nil_iff.mp hi
    exact ⟨_, .call hn ho (.empty hc), rfl⟩
  | call hne _ ih =>
    refine respells_of_operand ?_ rfl
    intro tokens hw
    obtain ⟨name, _, rfl, hn, rfl, hr⟩ := exists_name_cons hw
    obtain ⟨opening, inner, closing, rfl, ho, hc, hi⟩ := exists_enclosed hr
    obtain ⟨reads, hs, hb⟩ := respells_list ArgumentsSpelling.last .more hne
      (fun value hv => (ih value hv).1) hi
    exact ⟨_, .call hn ho (.given hc hs),
      by simp only [Tree.bare, Tree.bareAll, identifierNode, hb]⟩
  | arrayAccess _ ih =>
    refine respells_of_operand ?_ rfl
    intro tokens hw
    obtain ⟨name, _, rfl, hn, rfl, hr⟩ := exists_name_cons hw
    obtain ⟨opening, inner, closing, rfl, ho, hc, hi⟩ := exists_enclosed hr
    obtain ⟨index, hs, hb⟩ := ih.1 inner hi
    exact ⟨_, .access hn ho (.index hc hs),
      by simp only [Tree.bare, Tree.bareAll, identifierNode, hb]⟩
  | @operation left right sign inner place _ _ ihl ihr =>
    have he : Respells ExpressionSpelling (left.grouped left.printValue ++
        .operator sign :: right.printValue)
        (.node .expression [left, .node (.operator sign) [] inner, right] place) := by
      intro tokens hw
      obtain ⟨front, _, rfl, hf, hr⟩ := List.map_eq_append_iff.mp hw
      obtain ⟨token, back, rfl, ht, hb⟩ := List.map_eq_cons_iff.mp hr
      obtain ⟨⟨sign', hk⟩, rfl⟩ := Token.word_eq_operator.mp ht
      obtain ⟨left', hl, hbl⟩ := ihl.2 front hf
      obtain ⟨right', hr, hbr⟩ := ihr.1 back hb
      exact ⟨_, .binary hl hk hr, by simp only [Tree.bare, Tree.bareAll, hbl, hbr]⟩
    refine ⟨he, ?_⟩
    intro tokens hw
    obtain ⟨opening, inner, closing, rfl, ho, hc, hi⟩ := exists_enclosed hw
    obtain ⟨read, hs, hb⟩ := he inner hi
    exact ⟨read, .group ho hc hs, hb⟩

mutual

theorem IsItem.respells : ∀ {tree : Tree}, IsItem tree →
    Respells ItemSpelling tree.printValue tree
  | _, .expression he => by
    intro tokens hw
    obtain ⟨read, hs, hb⟩ := he.respells.1 tokens hw
    exact ⟨read, .expression hs, hb⟩
  | _, .array hne hi => by
    intro tokens hw
    obtain ⟨opening, inner, closing, rfl, ho, hc, hm⟩ := exists_enclosed hw
    obtain ⟨reads, hs, hb⟩ := respells_list ItemsSpelling.last .more hne
      (fun value hv => (hi value hv).respells) hm
    exact ⟨_, .array ho (.items hc hs), by simp only [Tree.bare, Tree.bareAll, hb]⟩
  | _, @IsItem.keyValue place entries hp => by
    intro tokens hw
    obtain ⟨opening, inner, closing, rfl, ho, hc, hm⟩ := exists_enclosed hw
    by_cases hne : entries = []
    · subst hne
      obtain rfl := List.map_eq_nil_iff.mp hm
      exact ⟨_, .keyValue ho (.empty hc), rfl⟩
    · obtain ⟨reads, hs, hb⟩ := respells_list PairsSpelling.last .more hne
        (fun entry he => (hp entry he).respells) hm
      exact ⟨_, .keyValue ho (.pairs hc hs), by simp only [Tree.bare, hb]⟩

theorem IsPair.respells : ∀ {tree : Tree}, IsPair tree →
    Respells PairSpelling tree.printValue tree
  | _, .pair he hi => by
    intro tokens hw
    obtain ⟨front, colon, back, rfl, hf, hk, hb⟩ := exists_append_mark hw
    obtain ⟨key, hs, hbk⟩ := he.respells.1 front hf
    obtain ⟨value, hi, hbv⟩ := hi.respells back hb
    exact ⟨_, .pair hs hk hi, by simp only [Tree.bare, Tree.bareAll, hbk, hbv]⟩

end

theorem IsTarget.respells {tree : Tree} (h : IsTarget tree) {tokens : List Token}
    (hw : tokens.map Token.word = tree.printValue) :
    ∃ name rest read, tokens = name :: rest ∧ name.kind = .identifier ∧
      TargetSpelling name.text name.place read rest ∧ read.bare = tree.bare := by
  cases h with
  | identifier =>
    obtain ⟨name, rest, rfl, hn, rfl, hr⟩ := exists_name_cons hw
    obtain rfl := List.map_eq_nil_iff.mp hr
    exact ⟨name, [], _, rfl, hn, .name, rfl⟩
  | arrayAccess he =>
    obtain ⟨name, rest, rfl, hn, rfl, hr⟩ := exists_name_cons hw
    obtain ⟨opening, inner, closing, rfl, ho, hc, hi⟩ := exists_enclosed hr
    obtain ⟨index, hs, hb⟩ := he.respells.1 inner hi
    exact ⟨name, _, _, rfl, hn, .element ho (.index hc hs),
      by simp only [Tree.bare, Tree.bareAll, identifierNode, hb]⟩

theorem respells_body {statements : List Tree}
    (h : ∀ statement ∈ statements,
      Respells (StatementSpelling statement.hangs) statement.printStatement statement)
    {tokens : List Token} {closing : Token} (hc : closing.kind = .mark .rightBrace)
    (hw : tokens.map Token.word = Tree.printStatements statements) :
    ∃ reads, BodySpelling reads (tokens ++ [closing]) ∧
      Tree.bareAll reads = Tree.bareAll statements := by
  induction statements generalizing tokens with
  | nil =>
    obtain rfl := List.map_eq_nil_iff.mp hw
    exact ⟨[], .close hc, rfl⟩
  | cons statement rest ih =>
    obtain ⟨hs, hr⟩ := List.forall_mem_cons.mp h
    obtain ⟨front, back, rfl, hf, hb⟩ := List.map_eq_append_iff.mp hw
    obtain ⟨read, hs, hbr⟩ := hs front hf
    obtain ⟨reads, hm, hbm⟩ := ih hr hb
    rw [List.append_assoc]
    exact ⟨_, .cons hs hm, by rw [Tree.bareAll, Tree.bareAll, hbr, hbm]⟩

theorem respells_condition {tree : Tree} (h : IsExpression tree) {tokens : List Token}
    (hw : tokens.map Token.word = Word.parens tree.printValue) :
    ∃ read, ConditionSpelling read tokens ∧ read.bare = tree.bare := by
  obtain ⟨opening, inner, closing, rfl, ho, hc, hi⟩ := exists_enclosed hw
  obtain ⟨read, hs, hb⟩ := h.respells.1 inner hi
  exact ⟨read, .parens ho hc hs, hb⟩

theorem respells_loopHead {counter : String} {first last : Tree} (hf : IsExpression first)
    (hl : IsExpression last) {tokens : List Token}
    (hw : tokens.map Token.word = Word.parens (.name counter :: .mark .colon ::
      (first.printValue ++ .mark .comma :: last.printValue))) :
    ∃ first' last', LoopHeadSpelling (counter, first', last') tokens ∧
      first'.bare = first.bare ∧ last'.bare = last.bare := by
  obtain ⟨opening, inner, closing, rfl, ho, hc, hi⟩ := exists_enclosed hw
  obtain ⟨name, _, rfl, hn, rfl, hr⟩ := exists_name_cons hi
  obtain ⟨colon, _, rfl, hk, hb⟩ := exists_mark_cons hr
  obtain ⟨front, comma, back, rfl, hfront, hm, hback⟩ := exists_append_mark hb
  obtain ⟨first', hsf, hbf⟩ := hf.respells.1 front hfront
  obtain ⟨last', hsl, hbl⟩ := hl.respells.1 back hback
  have hs := LoopHeadSpelling.parens ho hn hk hm hc hsf hsl
  exact ⟨first', last', by simpa using hs, hbf, hbl⟩

-- Printed in braces, the body of a loop never hangs. So a statement hangs as far as
-- its tree does.
theorem IsStatement.respells {tree : Tree} (h : IsStatement tree) :
    Respells (StatementSpelling tree.hangs) tree.printStatement tree := by
  induction h with
  | assignment ht he =>
    intro tokens hw
    obtain ⟨front, sign, back, rfl, hf, hk, hb⟩ := exists_append_mark hw
    obtain ⟨name, rest, target, rfl, hn, ht, hbt⟩ := ht.respells hf
    obtain ⟨inner, semicolon, rfl, hi, hs⟩ := exists_closed hb
    obtain ⟨value, he, hbv⟩ := he.respells.1 inner hi
    exact ⟨_, .assignment hn (.assign hk hs ht he),
      by simp only [Tree.bare, Tree.bareAll, hbt, hbv]⟩
  | @call children place he =>
    intro tokens hw
    obtain ⟨front, semicolon, rfl, hf, hs⟩ := exists_closed hw
    have hname : ∃ text more, (Tree.node .call children place).printValue = .name text :: more := by
      cases he <;> exact ⟨_, _, rfl⟩
    obtain ⟨read, ho, hb⟩ := he.respells.2 front hf
    cases ho with
    | call hn ho hc => exact ⟨_, .call hn ho hs hc, hb⟩
    | group ho _ _ =>
      obtain ⟨text, more, hp⟩ := hname
      rw [hp] at hf
      simp [Token.word, ho] at hf
    | access _ _ ha =>
      cases ha
      cases hb
    | name _ => cases hb
    | literal _ => cases hb
  | ifStatement he _ ih =>
    intro tokens hw
    obtain ⟨ifWord, _, rfl, hk, hr⟩ := exists_keyword_cons hw
    obtain ⟨front, back, rfl, hf, hb⟩ := List.map_eq_append_iff.mp hr
    obtain ⟨condition, hc, hbc⟩ := respells_condition he hf
    obtain ⟨branch, hs, hbs⟩ := ih back hb
    exact ⟨_, .branching hk (.lone hc hs), by simp only [Tree.bare, Tree.bareAll, hbc, hbs]⟩
  | ifElse he _ hh _ ihb iho =>
    intro tokens hw
    obtain ⟨ifWord, _, rfl, hk, hr⟩ := exists_keyword_cons hw
    obtain ⟨front, _, rfl, hf, hr⟩ := List.map_eq_append_iff.mp hr
    obtain ⟨middle, _, rfl, hm, hr⟩ := List.map_eq_append_iff.mp hr
    obtain ⟨elseWord, back, rfl, hw, hb⟩ := exists_keyword_cons hr
    obtain ⟨condition, hc, hbc⟩ := respells_condition he hf
    obtain ⟨branch, hs, hbs⟩ := ihb middle hm
    obtain ⟨other, ho, hbo⟩ := iho back hb
    rw [hh] at hs
    exact ⟨_, .branching hk (.withElse hc hs hw ho),
      by simp only [Tree.bare, Tree.bareAll, hbc, hbs, hbo]⟩
  | loop hf hl _ ih =>
    intro tokens hw
    obtain ⟨forWord, _, rfl, hk, hr⟩ := exists_keyword_cons hw
    obtain ⟨front, back, rfl, hh, hb⟩ := List.map_eq_append_iff.mp hr
    obtain ⟨first, last, hs, hbf, hbl⟩ := respells_loopHead hf hl hh
    obtain ⟨opening, inner, closing, rfl, ho, hc, hi⟩ := exists_enclosed hb
    obtain ⟨reads, hm, hbb⟩ := respells_body ih hc hi
    exact ⟨_, .loop hk (.braced hs ho hm), by simp only [Tree.bare, hbf, hbl, hbb]⟩
  | bareReturn =>
    intro tokens hw
    obtain ⟨returnWord, _, rfl, hk, hr⟩ := exists_keyword_cons hw
    obtain ⟨semicolon, rest, rfl, hs, he⟩ := exists_mark_cons hr
    obtain rfl := List.map_eq_nil_iff.mp he
    exact ⟨_, .returning hk (.bare hs), rfl⟩
  | giving he =>
    intro tokens hw
    obtain ⟨returnWord, _, rfl, hk, hr⟩ := exists_keyword_cons hw
    obtain ⟨front, semicolon, rfl, hf, hs⟩ := exists_closed hr
    obtain ⟨value, he, hb⟩ := he.respells.1 front hf
    exact ⟨_, .returning hk (.giving hs he), by simp only [Tree.bare, Tree.bareAll, hb]⟩
  | block _ ih =>
    intro tokens hw
    obtain ⟨opening, inner, closing, rfl, ho, hc, hi⟩ := exists_enclosed hw
    obtain ⟨reads, hb, hbb⟩ := respells_body ih hc hi
    exact ⟨_, .block ho hb, by simp only [Tree.bare, hbb]⟩

theorem IsParameter.respells {tree : Tree} (h : IsParameter tree) :
    Respells (fun read tokens => ∃ name : Token, tokens = [name] ∧ name.kind = .identifier ∧
      read = identifierNode name.text name.place) tree.printValue tree := by
  cases h with
  | identifier =>
    intro tokens hw
    obtain ⟨name, rest, rfl, hn, rfl, hr⟩ := exists_name_cons hw
    obtain rfl := List.map_eq_nil_iff.mp hr
    exact ⟨_, ⟨name, rfl, hn, rfl⟩, rfl⟩

theorem respells_parameterList {params : List Tree} (h : ∀ param ∈ params, IsParameter param)
    {tokens : List Token} {closing : Token} (hc : closing.kind = .mark .rightParen)
    (hw : tokens.map Token.word = Tree.printValues params) (place : Location) :
    ∃ read, ParameterListSpelling read (tokens ++ [closing]) ∧
      read.bare = (Tree.node .paramList params place).bare := by
  by_cases hne : params = []
  · subst hne
    obtain rfl := List.map_eq_nil_iff.mp hw
    exact ⟨_, .empty hc, rfl⟩
  · have last {value : Tree} {word : List Token} : (∃ name : Token, word = [name] ∧
        name.kind = .identifier ∧ value = identifierNode name.text name.place) →
        ParametersSpelling [value] word := by
      intro hv
      obtain ⟨name, rfl, hn, rfl⟩ := hv
      exact .last hn
    have more {value : Tree} {values : List Tree} {front back : List Token} {comma : Token} :
        (∃ name : Token, front = [name] ∧ name.kind = .identifier ∧
          value = identifierNode name.text name.place) → comma.kind = .mark .comma →
        ParametersSpelling values back →
        ParametersSpelling (value :: values) (front ++ comma :: back) := by
      intro hv hk hm
      obtain ⟨name, rfl, hn, rfl⟩ := hv
      exact .more hn hk hm
    obtain ⟨reads, hs, hb⟩ := respells_list last more hne (fun param hp => (h param hp).respells) hw
    exact ⟨_, .names hc hs, by simp only [Tree.bare, hb]⟩

theorem IsDeclaration.respells {tree : Tree} (h : IsDeclaration tree) :
    Respells DeclarationSpelling tree.printDeclaration tree := by
  cases h with
  | main hs =>
    intro tokens hw
    obtain ⟨mainWord, _, rfl, hk, hr⟩ := exists_keyword_cons hw
    obtain ⟨_, _, rfl, hp, hb⟩ := List.map_eq_append_iff.mp hr
    obtain ⟨left, inner, right, rfl, hl, hright, he⟩ := exists_enclosed hp
    obtain rfl := List.map_eq_nil_iff.mp he
    obtain ⟨opening, inner, closing, rfl, ho, hc, hi⟩ := exists_enclosed hb
    obtain ⟨reads, hm, hbb⟩ := respells_body (fun statement hm => (hs statement hm).respells) hc hi
    exact ⟨_, .main hk (.main hl hright ho hm), by simp only [Tree.bare, hbb]⟩
  | @function _ params statements inner _ hp hs =>
    intro tokens hw
    obtain ⟨functionWord, _, rfl, hk, hr⟩ := exists_keyword_cons hw
    obtain ⟨name, _, rfl, hn, rfl, hpb⟩ := exists_name_cons hr
    obtain ⟨_, _, rfl, hps, hb⟩ := List.map_eq_append_iff.mp hpb
    obtain ⟨left, front, right, rfl, hl, hright, hf⟩ := exists_enclosed hps
    obtain ⟨read, hread, hbp⟩ := respells_parameterList hp hright hf inner
    obtain ⟨opening, back, closing, rfl, ho, hc, hi⟩ := exists_enclosed hb
    obtain ⟨reads, hm, hbb⟩ := respells_body (fun statement hm => (hs statement hm).respells) hc hi
    exact ⟨_, .function hk (.function hn hl hread ho hm), by rw [Tree.bare, Tree.bare, hbp, hbb]⟩
  | array hne hi =>
    intro tokens hw
    obtain ⟨name, _, rfl, hn, rfl, hr⟩ := exists_name_cons hw
    obtain ⟨sign, _, rfl, hs, hb⟩ := exists_mark_cons hr
    obtain ⟨_, semicolon, rfl, hv, hk⟩ := exists_closed hb
    obtain ⟨opening, inner, closing, rfl, ho, hc, hm⟩ := exists_enclosed hv
    obtain ⟨reads, hrs, hbs⟩ := respells_list ItemsSpelling.last .more hne
      (fun value hv => (hi value hv).respells) hm
    exact ⟨_, .named hn (.array hs ho hk (.items hc hrs)),
      by simp only [Tree.bare, Tree.bareAll, hbs]⟩
  | @keyValue _ _ entries hp =>
    intro tokens hw
    obtain ⟨name, _, rfl, hn, rfl, hr⟩ := exists_name_cons hw
    obtain ⟨sign, _, rfl, hs, hb⟩ := exists_mark_cons hr
    obtain ⟨_, semicolon, rfl, hv, hk⟩ := exists_closed hb
    obtain ⟨opening, inner, closing, rfl, ho, hc, hm⟩ := exists_enclosed hv
    by_cases hne : entries = []
    · subst hne
      obtain rfl := List.map_eq_nil_iff.mp hm
      exact ⟨_, .named hn (.keyValue hs ho hk (.empty hc)), rfl⟩
    · obtain ⟨reads, hrs, hbs⟩ := respells_list PairsSpelling.last .more hne
        (fun entry he => (hp entry he).respells) hm
      exact ⟨_, .named hn (.keyValue hs ho hk (.pairs hc hrs)), by simp only [Tree.bare, hbs]⟩
  | value he =>
    intro tokens hw
    obtain ⟨name, _, rfl, hn, rfl, hr⟩ := exists_name_cons hw
    obtain ⟨sign, _, rfl, hs, hb⟩ := exists_mark_cons hr
    obtain ⟨front, semicolon, rfl, hv, hk⟩ := exists_closed hb
    obtain ⟨value, hread, hbv⟩ := he.respells.1 front hv
    exact ⟨_, .named hn (.value hs hk hread), by simp only [Tree.bare, Tree.bareAll, hbv]⟩

theorem respells_program {trees : List Tree} (h : ∀ tree ∈ trees, IsDeclaration tree)
    {tokens : List Token} (hw : tokens.map Token.word = trees.flatMap Tree.printDeclaration) :
    ∃ reads, ProgramSpelling reads tokens ∧ Tree.bareAll reads = Tree.bareAll trees := by
  induction trees generalizing tokens with
  | nil =>
    obtain rfl := List.map_eq_nil_iff.mp hw
    exact ⟨[], .nil, rfl⟩
  | cons tree rest ih =>
    obtain ⟨hd, hr⟩ := List.forall_mem_cons.mp h
    rw [List.flatMap_cons] at hw
    obtain ⟨front, back, rfl, hf, hb⟩ := List.map_eq_append_iff.mp hw
    obtain ⟨read, hs, hbr⟩ := hd.respells front hf
    obtain ⟨reads, hm, hbm⟩ := ih hr hb
    exact ⟨_, .cons hs hm, by rw [Tree.bareAll, Tree.bareAll, hbr, hbm]⟩

-- Whatever has the words of a well-shaped tree is read as the tree.
theorem parse_print {tree : Tree} (h : IsProgram tree) {tokens : List Token}
    (hw : tokens.map Token.word = tree.print) :
    ∃ read, parse tokens = .ok read ∧ read.bare = tree.bare := by
  obtain ⟨hd⟩ := h
  obtain ⟨reads, hp, hb⟩ := respells_program hd hw
  exact ⟨_, parse_eq_ok_iff.mpr ⟨reads, rfl, hp⟩, by rw [Tree.bare, Tree.bare, hb]⟩

theorem exists_print (tree : Tree) : ∃ tokens : List Token, tokens.map Token.word = tree.print :=
  ⟨tree.print.map Word.token, by
    rw [List.map_map]
    exact (List.map_congr_left fun word _ => word.word_token).trans (List.map_id _)⟩

-- The trees that are read are the well-shaped ones, and printing is undone by
-- reading. Neither has a say in the places of the nodes.
theorem parse_image :
    (∀ tokens tree, parse tokens = .ok tree → IsProgram tree) ∧
    (∀ tree, IsProgram tree → ∀ tokens : List Token, tokens.map Token.word = tree.print →
      ∃ read, parse tokens = .ok read ∧ read.bare = tree.bare) ∧
    ∀ shape, (∃ tokens tree, parse tokens = .ok tree ∧ tree.bare = shape) ↔
      ∃ tree, IsProgram tree ∧ tree.bare = shape := by
  refine ⟨fun tokens tree h => isProgram_of_parse h, fun tree h tokens hw => parse_print h hw, ?_⟩
  intro shape
  constructor
  · intro hv
    obtain ⟨tokens, tree, hp, rfl⟩ := hv
    exact ⟨tree, isProgram_of_parse hp, rfl⟩
  · intro hv
    obtain ⟨tree, h, rfl⟩ := hv
    obtain ⟨tokens, hw⟩ := exists_print tree
    obtain ⟨read, hp, hb⟩ := parse_print h hw
    exact ⟨tokens, read, hp, hb⟩

end ScriptIR
