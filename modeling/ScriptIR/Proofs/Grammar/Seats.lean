import Mathlib
import ScriptIR.Proofs.Grammar.Print

namespace ScriptIR

open Grammar

namespace Tree

mutual

-- All nodes of a tree, each in front of what is below it. What it owns comes before its
-- children.
def preorder : Tree → List Tree
  | .node kind children place => .node kind children place :: preorderAll children
  | .function name params children place =>
    .function name params children place :: (preorder params ++ preorderAll children)
  | .loop counter first last children place =>
    .loop counter first last children place ::
      (preorder first ++ (preorder last ++ preorderAll children))
  | .giving value children place =>
    .giving value children place :: (preorder value ++ preorderAll children)

def preorderAll : List Tree → List Tree
  | [] => []
  | tree :: rest => preorder tree ++ preorderAll rest

end

theorem exists_preorder_eq (tree : Tree) : ∃ below, tree.preorder = tree :: below := by
  cases tree <;> exact ⟨_, rfl⟩

-- Where places are the numbers of tokens, the number of the token that a node stands at.
def index (tree : Tree) : Nat := tree.place.line

end Tree

-- Tokens with their numbers for places.
def indexed (tokens : List Token) : List Token :=
  tokens.mapIdx fun index token => { token with place := ⟨index, 0⟩ }

-- The place of the token of a number.
def placeAt (tokens : List Token) (number : Location) : Location :=
  ((tokens[number.line]?).map Token.place).getD .start

section seats

variable (tokens : List Token)

def WordAt (index : Nat) (word : Word) : Prop := (tokens[index]?).map Token.word = some word

-- The word in front of a token.
def WordBefore (index : Nat) (word : Word) : Prop :=
  ∃ before, index = before + 1 ∧ WordAt tokens before word

-- An aggregate and what is inside of it. A declaration has its name and the sign in front.
def Opened (sign : Mark) (place inside : Nat) : Option String → Prop
  | none => WordAt tokens place (.mark sign) ∧ inside = place + 1
  | some name => WordAt tokens place (.name name) ∧ WordAt tokens (place + 2) (.mark sign) ∧
    inside = place + 3

-- The token that each kind of node stands at, the tokens having their numbers for places.
def Seated : Tree → Prop
  | .node kind children place =>
    match kind with
    | .program => False
    | .main => WordAt tokens place.line (.keyword .mainWord)
    -- a list stands at what is first in its brackets, be it the closing one
    | .paramList => WordBefore tokens place.line (.mark .leftParen) ∧
      (∀ first ∈ children.head?, first.place = place) ∧
      (children = [] → WordAt tokens place.line (.mark .rightParen))
    | .expressionList => WordBefore tokens place.line (.mark .leftBracket)
    | .argumentList => WordBefore tokens place.line (.mark .leftParen)
    | .block => WordAt tokens place.line (.mark .leftBrace)
    | .varDecl name => WordAt tokens place.line (.name name)
    | .assignment => ∀ target ∈ children.head?, target.place = place
    | .ifStatement => WordAt tokens place.line (.keyword .ifWord)
    | .elseStatement => WordAt tokens place.line (.keyword .elseWord)
    | .bareReturn => WordAt tokens place.line (.keyword .returnWord)
    | .call => (∀ callee ∈ children.head?, callee.place = place) ∧
      WordAt tokens (place.line + 1) (.mark .leftParen) ∧
      ∀ arguments ∈ children[1]?, arguments.index = place.line + 2
    | .arrayAccess => (∀ array ∈ children.head?, array.place = place) ∧
      WordAt tokens (place.line + 1) (.mark .leftBracket)
    | .array name => ∀ list ∈ children.head?,
      Opened tokens .leftBracket place.line list.index name
    | .keyValue name => ∃ inside, Opened tokens .leftBrace place.line inside name
    | .pair => WordBefore tokens place.line (.mark .leftBrace) ∨
      WordBefore tokens place.line (.mark .comma)
    -- an operation stands where its left operand does
    | .expression => ∀ left ∈ children.head?, left.place = place
    | .literal value => WordAt tokens place.line (.literal value)
    | .operator sign => WordAt tokens place.line (.operator sign)
    | .identifier name => WordAt tokens place.line (.name name)
  | .function name params _ place => WordAt tokens place.line (.keyword .functionWord) ∧
    WordAt tokens (place.line + 1) (.name name) ∧
    WordAt tokens (place.line + 2) (.mark .leftParen) ∧ params.index = place.line + 3
  | .loop counter _ _ _ place => WordAt tokens place.line (.keyword .forWord) ∧
    WordAt tokens (place.line + 1) (.mark .leftParen) ∧
    WordAt tokens (place.line + 2) (.name counter)
  | .giving _ _ place => WordAt tokens place.line (.keyword .returnWord)

-- A word that is a stretch of the tokens, with their numbers for places.
structure Over (first last : Nat) (word : List Token) : Prop where
  length : last = first + word.length
  token : ∀ i token, word[i]? = some token →
    WordAt tokens (first + i) token.word ∧ token.place = ⟨first + i, 0⟩

-- Nodes that stand in a stretch of the tokens, from its beginning to its end.
structure Between (first last : Nat) (nodes : List Tree) : Prop where
  le : first ≤ last
  bounds : ∀ node ∈ nodes, first ≤ node.index ∧ node.index < last
  sorted : nodes.Pairwise fun one next => one.index ≤ next.index
  seated : ∀ node ∈ nodes, Seated tokens node

end seats

section stretch

variable {tokens word front back : List Token} {token : Token} {first last : Nat}

theorem Over.le (h : Over tokens first last word) : first ≤ last := by
  rw [h.length]
  exact Nat.le_add_right _ _

theorem Over.cons (h : Over tokens first last (token :: word)) :
    WordAt tokens first token.word ∧ token.place = ⟨first, 0⟩ ∧
      Over tokens (first + 1) last word := by
  obtain ⟨hw, hp⟩ := h.token 0 token rfl
  refine ⟨hw, hp, ?_, fun i next hi => ?_⟩
  · rw [h.length, List.length_cons]
    omega
  · rw [Nat.add_assoc, Nat.add_comm 1 i]
    exact h.token (i + 1) next hi

theorem Over.append (h : Over tokens first last (front ++ back)) :
    ∃ middle, Over tokens first middle front ∧ Over tokens middle last back := by
  refine ⟨first + front.length, ⟨rfl, fun i token hi => ?_⟩, ?_, fun i token hi => ?_⟩
  · refine h.token i token ?_
    rwa [List.getElem?_append_left (List.getElem?_eq_some_iff.mp hi).1]
  · rw [h.length, List.length_append]
    omega
  · rw [Nat.add_assoc]
    refine h.token (front.length + i) token ?_
    rwa [List.getElem?_append_right (Nat.le_add_right _ _), Nat.add_sub_cancel_left]

theorem Over.mark {sign : Mark} (h : Over tokens first last (token :: word))
    (hk : token.kind = .mark sign) :
    WordAt tokens first (.mark sign) ∧ Over tokens (first + 1) last word := by
  obtain ⟨hw, -, hr⟩ := h.cons
  rw [Token.word_eq_mark.mpr hk] at hw
  exact ⟨hw, hr⟩

theorem Over.keyword {text : Keyword} (h : Over tokens first last (token :: word))
    (hk : token.kind = .keyword text) : WordAt tokens first (.keyword text) ∧
      token.place = ⟨first, 0⟩ ∧ Over tokens (first + 1) last word := by
  obtain ⟨hw, hp, hr⟩ := h.cons
  rw [Token.word_eq_keyword.mpr hk] at hw
  exact ⟨hw, hp, hr⟩

theorem Over.name (h : Over tokens first last (token :: word)) (hk : token.kind = .identifier) :
    WordAt tokens first (.name token.text) ∧ token.place = ⟨first, 0⟩ ∧
      Over tokens (first + 1) last word := by
  obtain ⟨hw, hp, hr⟩ := h.cons
  rw [Token.word_eq_name.mpr ⟨hk, rfl⟩] at hw
  exact ⟨hw, hp, hr⟩

-- A word with one token behind it.
theorem Over.closed (h : Over tokens first last (word ++ [token])) :
    ∃ middle, Over tokens first middle word ∧ middle < last := by
  obtain ⟨middle, hw, hc⟩ := h.append
  have hl := hc.length
  rw [List.length_singleton] at hl
  exact ⟨middle, hw, by omega⟩

theorem Over.nextPlace (h : Over tokens first last word) (hne : word ≠ []) :
    nextPlace word = ⟨first, 0⟩ := by
  obtain ⟨token, rest, rfl⟩ := List.exists_cons_of_ne_nil hne
  exact h.cons.2.1

theorem Over.lt (h : Over tokens first last word) (hne : word ≠ []) : first < last := by
  have hpos := List.length_pos_iff.mpr hne
  rw [h.length]
  omega

theorem WordAt.before {index : Nat} {sign : Word} (h : WordAt tokens index sign) :
    WordBefore tokens (index + 1) sign := ⟨index, rfl, h⟩

theorem Opened.before {sign : Mark} {place inside : Nat} {name : Option String}
    (h : Opened tokens sign place inside name) : WordBefore tokens inside (.mark sign) := by
  cases name with
  | none =>
    obtain ⟨hw, rfl⟩ := h
    exact hw.before
  | some name =>
    obtain ⟨-, hw, rfl⟩ := h
    exact hw.before

theorem Opened.lt {sign : Mark} {place inside : Nat} {name : Option String}
    (h : Opened tokens sign place inside name) : place < inside := by
  cases name with
  | none =>
    obtain ⟨-, rfl⟩ := h
    omega
  | some name =>
    obtain ⟨-, -, rfl⟩ := h
    omega

end stretch

namespace Between

variable {tokens : List Token} {first middle last : Nat} {node : Tree} {nodes more : List Tree}

theorem nil (h : first ≤ last) : Between tokens first last [] :=
  ⟨h, by simp, .nil, by simp⟩

theorem widen {first' last' : Nat} (h : Between tokens first last nodes) (hf : first' ≤ first)
    (hl : last ≤ last') : Between tokens first' last' nodes := by
  refine ⟨hf.trans (h.le.trans hl), fun node hm => ?_, h.sorted, h.seated⟩
  obtain ⟨hn, hn'⟩ := h.bounds node hm
  exact ⟨hf.trans hn, hn'.trans_le hl⟩

theorem append (h : Between tokens first middle nodes) (hm : Between tokens middle last more) :
    Between tokens first last (nodes ++ more) where
  le := h.le.trans hm.le
  bounds := by
    refine List.forall_mem_append.mpr ⟨(h.widen le_rfl hm.le).bounds, (hm.widen h.le le_rfl).bounds⟩
  sorted := by
    refine List.pairwise_append.mpr ⟨h.sorted, hm.sorted, fun one hone next hnext => ?_⟩
    have hlt := (h.bounds one hone).2
    have hle := (hm.bounds next hnext).1
    omega
  seated := List.forall_mem_append.mpr ⟨h.seated, hm.seated⟩

theorem cons (h : Between tokens first last nodes) (node : Tree) (hp : node.index = first)
    (hs : Seated tokens node) (hlt : first < last) : Between tokens first last (node :: nodes) where
  le := h.le
  bounds := List.forall_mem_cons.mpr ⟨⟨hp.ge, hp.trans_lt hlt⟩, h.bounds⟩
  sorted := .cons (fun next hn => hp.trans_le (h.bounds next hn).1) h.sorted
  seated := List.forall_mem_cons.mpr ⟨hs, h.seated⟩

-- The first node is in front of all others.
theorem fromHead (h : Between tokens first last (node :: nodes)) :
    Between tokens node.index last (node :: nodes) where
  le := (h.bounds node List.mem_cons_self).2.le
  bounds := by
    obtain ⟨hle, -⟩ := List.pairwise_cons.mp h.sorted
    refine List.forall_mem_cons.mpr ⟨⟨le_rfl, (h.bounds node List.mem_cons_self).2⟩, ?_⟩
    exact fun next hn => ⟨hle next hn, (h.bounds next (List.mem_cons_of_mem _ hn)).2⟩
  sorted := h.sorted
  seated := h.seated

-- A node that stands where the first one below it does.
theorem consHead {tree : Tree} (h : Between tokens first last (tree.preorder ++ nodes))
    (node : Tree) (hp : node.place = tree.place) (hs : Seated tokens node) :
    Between tokens first last (node :: (tree.preorder ++ nodes)) := by
  obtain ⟨below, hb⟩ := tree.exists_preorder_eq
  rw [hb, List.cons_append] at h ⊢
  obtain ⟨hf, hlt⟩ := h.bounds tree List.mem_cons_self
  have hindex : node.index = tree.index := congrArg Location.line hp
  exact (h.fromHead.cons node hindex hs hlt).widen hf le_rfl

-- A list that stands where the first of its words does.
theorem consList {word : List Token} (h : Between tokens first last nodes)
    (node : Tree) (ho : Over tokens first last word) (hne : word ≠ [])
    (hp : node.place = nextPlace word)
    (hs : node.place = ⟨first, 0⟩ → Seated tokens node) :
    Between tokens first last (node :: nodes) := by
  rw [ho.nextPlace hne] at hp
  exact h.cons node (congrArg Location.line hp) (hs hp) (ho.lt hne)

-- A node without any below it.
theorem leaf (hp : node.index = first) (hs : Seated tokens node) :
    Between tokens first (first + 1) [node] :=
  (nil (Nat.le_succ first)).cons node hp hs (Nat.lt_succ_self first)

end Between

end ScriptIR
