import Mathlib
import ScriptIR.Proofs.Grammar.Print
import ScriptIR.Token.Scan

namespace ScriptIR

open Grammar

-- A text that a tree keeps of a token. The places of some names are not kept.
structure Mention where
  word : Word
  place : Option Location

-- A token that a mention is of.
structure Mention.Of (mention : Mention) (token : Token) : Prop where
  word : token.word = mention.word
  place : ∀ place, mention.place = some place → token.place = place

-- The texts of all other tokens are gone with the tokens.
def TokenKind.keepsText : TokenKind → Bool
  | .identifier | .literal _ | .operator _ => true
  | _ => false

-- A node stands where its name does, but for functions and loops.
def Kind.mention (place : Location) : Kind → List Mention
  | .varDecl name => [⟨.name name, some place⟩]
  | .array (some name) => [⟨.name name, some place⟩]
  | .keyValue (some name) => [⟨.name name, some place⟩]
  | .identifier name => [⟨.name name, some place⟩]
  | .literal value => [⟨.literal value, some place⟩]
  | .operator sign => [⟨.operator sign, some place⟩]
  | _ => []

namespace Tree

mutual

-- All texts of a tree. What a node keeps itself comes first, then its owned
-- sub-trees and then its children.
def reading : Tree → List Mention
  | .node kind children place => kind.mention place ++ readingAll children
  | .function name params children _ =>
    ⟨.name name, none⟩ :: (reading params ++ readingAll children)
  | .loop counter first last children _ =>
    ⟨.name counter, none⟩ :: (reading first ++ (reading last ++ readingAll children))
  | .giving value children _ => reading value ++ readingAll children

def readingAll : List Tree → List Mention
  | [] => []
  | tree :: rest => reading tree ++ readingAll rest

end

end Tree

-- The tokens of a word that keep their texts are the mentions, one by one.
def Reads (mentions : List Mention) (word : List Token) : Prop :=
  List.Forall₂ Mention.Of mentions (word.filter (·.kind.keepsText))

namespace Reads

variable {mentions more : List Mention} {word back : List Token} {token : Token}

theorem nil : Reads [] [] := List.Forall₂.nil

theorem append (h : Reads mentions word) (hm : Reads more back) :
    Reads (mentions ++ more) (word ++ back) := by
  rw [Reads, List.filter_append]
  exact List.rel_append h hm

-- Marks and keywords leave nothing in a tree.
theorem skip (hk : token.kind.keepsText = false) (h : Reads mentions word) :
    Reads mentions (token :: word) := by
  rwa [Reads, List.filter_cons_of_neg (by simp [hk])]

theorem mark {sign : Mark} (hk : token.kind = .mark sign) (h : Reads mentions word) :
    Reads mentions (token :: word) :=
  h.skip (by rw [hk]; rfl)

theorem keyword {text : Keyword} (hk : token.kind = .keyword text) (h : Reads mentions word) :
    Reads mentions (token :: word) :=
  h.skip (by rw [hk]; rfl)

theorem closed {sign : Mark} (h : Reads mentions word) (hk : token.kind = .mark sign) :
    Reads mentions (word ++ [token]) := by
  have hc := h.append (nil.mark hk)
  rwa [List.append_nil] at hc

theorem cons {mention : Mention} (hk : token.kind.keepsText = true) (ht : mention.Of token)
    (h : Reads mentions word) : Reads (mention :: mentions) (token :: word) := by
  rw [Reads, List.filter_cons_of_pos (by simp [hk])]
  exact .cons ht h

theorem name (hk : token.kind = .identifier) (h : Reads mentions word) :
    Reads (⟨.name token.text, some token.place⟩ :: mentions) (token :: word) :=
  h.cons (by rw [hk]; rfl) ⟨Token.word_eq_name.mpr ⟨hk, rfl⟩, fun _ hp => Option.some.inj hp⟩

theorem nameOnly (hk : token.kind = .identifier) (h : Reads mentions word) :
    Reads (⟨.name token.text, none⟩ :: mentions) (token :: word) :=
  h.cons (by rw [hk]; rfl) ⟨Token.word_eq_name.mpr ⟨hk, rfl⟩, fun _ hp => by cases hp⟩

theorem literal {form : Literal} (hk : token.kind = .literal form) (h : Reads mentions word) :
    Reads (⟨.literal token.text, some token.place⟩ :: mentions) (token :: word) :=
  h.cons (by rw [hk]; rfl) ⟨Token.word_eq_literal.mpr ⟨⟨form, hk⟩, rfl⟩,
    fun _ hp => Option.some.inj hp⟩

theorem operator {sign : Operator} (hk : token.kind = .operator sign) (h : Reads mentions word) :
    Reads (⟨.operator token.text, some token.place⟩ :: mentions) (token :: word) :=
  h.cons (by rw [hk]; rfl) ⟨Token.word_eq_operator.mpr ⟨⟨sign, hk⟩, rfl⟩,
    fun _ hp => Option.some.inj hp⟩

theorem map_word (h : Reads mentions word) :
    mentions.map Mention.word = (word.filter (·.kind.keepsText)).map Token.word := by
  rw [← List.forall₂_eq_eq_eq, List.forall₂_map_left_iff, List.forall₂_map_right_iff]
  exact h.imp fun _ _ ho => ho.word.symm

end Reads

-- The same for a rule behind what its tree mentions first.
def ReadsBehind (first : List Mention) (tree : Tree) (word : List Token) : Prop :=
  ∃ mentions, tree.reading = first ++ mentions ∧ Reads mentions word

namespace ReadsBehind

variable {first : List Mention} {tree : Tree} {word : List Token}

theorem mark {token : Token} {sign : Mark} (h : ReadsBehind first tree word)
    (hk : token.kind = .mark sign) : ReadsBehind first tree (token :: word) := by
  obtain ⟨mentions, hr, hm⟩ := h
  exact ⟨mentions, hr, hm.mark hk⟩

theorem closed {token : Token} {sign : Mark} (h : ReadsBehind first tree word)
    (hk : token.kind = .mark sign) : ReadsBehind first tree (word ++ [token]) := by
  obtain ⟨mentions, hr, hm⟩ := h
  exact ⟨mentions, hr, hm.closed hk⟩

theorem nothing (h : ReadsBehind [] tree word) : Reads tree.reading word := by
  obtain ⟨mentions, hr, hm⟩ := h
  rwa [hr]

theorem name {token : Token}
    (h : ReadsBehind [⟨.name token.text, some token.place⟩] tree word)
    (hk : token.kind = .identifier) : Reads tree.reading (token :: word) := by
  obtain ⟨mentions, hr, hm⟩ := h
  rw [hr]
  exact hm.name hk

end ReadsBehind

namespace Grammar

mutual

theorem ExpressionSpelling.reads : ∀ {tree : Tree} {word : List Token},
    ExpressionSpelling tree word → Reads tree.reading word
  | _, _, .operand ho => ho.reads
  | _, _, .binary ho hk he => by
    have hb := ho.reads.append (he.reads.operator hk)
    simpa [Tree.reading, Tree.readingAll, Kind.mention] using hb

theorem OperandSpelling.reads : ∀ {tree : Tree} {word : List Token},
    OperandSpelling tree word → Reads tree.reading word
  | _, _, .group hl hr he => (he.reads.closed hr).mark hl
  | _, _, .call hn ho hc => (hc.reads.mark ho).name hn
  | _, _, .access hn ho ha => (ha.reads.mark ho).name hn
  | _, _, .name hn => Reads.nil.name hn
  | _, _, .literal hk => Reads.nil.literal hk

theorem CallSpelling.reads : ∀ {name : String} {place : Location} {tree : Tree}
    {word : List Token}, CallSpelling name place tree word →
      ReadsBehind [⟨.name name, some place⟩] tree word
  | _, _, _, _, .empty hk => ⟨[], rfl, Reads.nil.mark hk⟩
  | _, _, _, _, .given hk ha =>
    ⟨_, rfl, by simpa [Tree.reading, Tree.readingAll, Kind.mention] using ha.reads.closed hk⟩

theorem ArgumentsSpelling.reads : ∀ {values : List Tree} {word : List Token},
    ArgumentsSpelling values word → Reads (Tree.readingAll values) word
  | _, _, .last he => by simpa [Tree.readingAll] using he.reads
  | _, _, .more he hk ha => he.reads.append (ha.reads.mark hk)

theorem AccessSpelling.reads : ∀ {name : String} {place : Location} {tree : Tree}
    {word : List Token}, AccessSpelling name place tree word →
      ReadsBehind [⟨.name name, some place⟩] tree word
  | _, _, _, _, .index hk he =>
    ⟨_, rfl, by simpa [Tree.reading, Tree.readingAll, Kind.mention] using he.reads.closed hk⟩

end

mutual

theorem ItemSpelling.reads : ∀ {tree : Tree} {word : List Token}, ItemSpelling tree word →
    Reads tree.reading word
  | _, _, .array hk ha => (ha.reads.mark hk).nothing
  | _, _, .keyValue hk hm => (hm.reads.mark hk).nothing
  | _, _, .expression he => he.reads

theorem ArraySpelling.reads : ∀ {name : Option String} {place : Location} {tree : Tree}
    {word : List Token}, ArraySpelling name place tree word →
      ReadsBehind ((Kind.array name).mention place) tree word
  | _, _, _, _, .items hk hi =>
    ⟨_, rfl, by simpa [Tree.reading, Tree.readingAll, Kind.mention] using hi.reads.closed hk⟩

theorem KeyValueSpelling.reads : ∀ {name : Option String} {place : Location} {tree : Tree}
    {word : List Token}, KeyValueSpelling name place tree word →
      ReadsBehind ((Kind.keyValue name).mention place) tree word
  | _, _, _, _, .empty hk => ⟨_, rfl, Reads.nil.mark hk⟩
  | _, _, _, _, .pairs hk hp => ⟨_, rfl, hp.reads.closed hk⟩

theorem ItemsSpelling.reads : ∀ {values : List Tree} {word : List Token},
    ItemsSpelling values word → Reads (Tree.readingAll values) word
  | _, _, .last hi => by simpa [Tree.readingAll] using hi.reads
  | _, _, .more hi hk hm => hi.reads.append (hm.reads.mark hk)

theorem PairSpelling.reads : ∀ {tree : Tree} {word : List Token}, PairSpelling tree word →
    Reads tree.reading word
  | _, _, .pair he hk hi => by
    have hb := he.reads.append (hi.reads.mark hk)
    simpa [Tree.reading, Tree.readingAll, Kind.mention] using hb

theorem PairsSpelling.reads : ∀ {entries : List Tree} {word : List Token},
    PairsSpelling entries word → Reads (Tree.readingAll entries) word
  | _, _, .last hp => by simpa [Tree.readingAll] using hp.reads
  | _, _, .more hp hk hm => hp.reads.append (hm.reads.mark hk)

end

theorem TargetSpelling.reads {name : String} {place : Location} {tree : Tree} {word : List Token}
    (h : TargetSpelling name place tree word) :
    ReadsBehind [⟨.name name, some place⟩] tree word := by
  cases h with
  | name => exact ⟨[], rfl, Reads.nil⟩
  | element hk ha => exact ha.reads.mark hk

theorem AssignmentSpelling.reads {name : String} {place : Location} {tree : Tree}
    {word : List Token} (h : AssignmentSpelling name place tree word) :
    ReadsBehind [⟨.name name, some place⟩] tree word := by
  cases h with
  | assign hk hs ht he =>
    obtain ⟨mentions, hr, hm⟩ := ht.reads
    refine ⟨_, ?_, hm.append ((he.reads.closed hs).mark hk)⟩
    simp [Tree.reading, Tree.readingAll, Kind.mention, hr]

theorem ReturnSpelling.reads {place : Location} {tree : Tree} {word : List Token}
    (h : ReturnSpelling place tree word) : Reads tree.reading word := by
  cases h with
  | bare hk => exact Reads.nil.mark hk
  | giving hk he => simpa [Tree.reading, Tree.readingAll] using he.reads.closed hk

theorem ConditionSpelling.reads {tree : Tree} {word : List Token}
    (h : ConditionSpelling tree word) : Reads tree.reading word := by
  cases h with
  | parens hl hr he => exact (he.reads.closed hr).mark hl

-- A loop does not keep the place of its counter.
theorem LoopHeadSpelling.reads {counter : String} {first last : Tree} {word : List Token}
    (h : LoopHeadSpelling (counter, first, last) word) :
    Reads (⟨.name counter, none⟩ :: (first.reading ++ last.reading)) word := by
  cases h with
  | parens ho hn hc hk hr hf hl =>
    have hb := hf.reads.append ((hl.reads.closed hr).mark hk)
    exact ((hb.mark hc).nameOnly hn).mark ho

mutual

theorem StatementSpelling.reads : ∀ {hangs : Bool} {tree : Tree} {word : List Token},
    StatementSpelling hangs tree word → Reads tree.reading word
  | _, _, _, .call hn ho hk hc => ((hc.reads.closed hk).mark ho).name hn
  | _, _, _, .assignment hn ha => ha.reads.name hn
  | _, _, _, .branching hk hi => hi.reads.keyword hk
  | _, _, _, .loop hk hl => hl.reads.keyword hk
  | _, _, _, .returning hk hr => hr.reads.keyword hk
  | _, _, _, .block hk hb => hb.reads.mark hk

theorem IfSpelling.reads : ∀ {hangs : Bool} {place : Location} {tree : Tree} {word : List Token},
    IfSpelling hangs place tree word → Reads tree.reading word
  | _, _, _, _, .lone hc hs => by
    simpa [Tree.reading, Tree.readingAll, Kind.mention] using hc.reads.append hs.reads
  | _, _, _, _, .withElse hc hs hk ho => by
    have hb := hc.reads.append (hs.reads.append (ho.reads.keyword hk))
    simpa [Tree.reading, Tree.readingAll, Kind.mention] using hb

theorem LoopSpelling.reads : ∀ {hangs : Bool} {place : Location} {tree : Tree}
    {word : List Token}, LoopSpelling hangs place tree word → Reads tree.reading word
  | _, _, _, _, .braced hh hk hb => by
    simpa [Tree.reading] using hh.reads.append (hb.reads.mark hk)
  | _, _, _, _, .single hh _ hs => by
    simpa [Tree.reading, Tree.readingAll] using hh.reads.append hs.reads

theorem BodySpelling.reads : ∀ {statements : List Tree} {word : List Token},
    BodySpelling statements word → Reads (Tree.readingAll statements) word
  | _, _, .close hk => Reads.nil.mark hk
  | _, _, .cons hs hb => hs.reads.append hb.reads

end

theorem ParametersSpelling.reads {names : List Tree} {word : List Token}
    (h : ParametersSpelling names word) : Reads (Tree.readingAll names) word := by
  induction h with
  | last hk => exact Reads.nil.name hk
  | more hn hk _ ih => exact (ih.mark hk).name hn

theorem ParameterListSpelling.reads {tree : Tree} {word : List Token}
    (h : ParameterListSpelling tree word) : Reads tree.reading word := by
  cases h with
  | empty hk => exact Reads.nil.mark hk
  | names hk hp => exact hp.reads.closed hk

theorem MainSpelling.reads {place : Location} {tree : Tree} {word : List Token}
    (h : MainSpelling place tree word) : Reads tree.reading word := by
  cases h with
  | main hl hr ho hb => exact ((hb.reads.mark ho).mark hr).mark hl

theorem FunctionSpelling.reads {place : Location} {tree : Tree} {word : List Token}
    (h : FunctionSpelling place tree word) : Reads tree.reading word := by
  cases h with
  | function hn hl hp ho hb =>
    have hr := hp.reads.append (hb.reads.mark ho)
    exact (hr.mark hl).nameOnly hn

theorem VariableSpelling.reads {name : String} {place : Location} {tree : Tree}
    {word : List Token} (h : VariableSpelling name place tree word) :
    ReadsBehind [⟨.name name, some place⟩] tree word := by
  cases h with
  | array hs ho hk ha => exact ((ha.reads.closed hk).mark ho).mark hs
  | keyValue hs ho hk hm => exact ((hm.reads.closed hk).mark ho).mark hs
  | value hs hk he =>
    refine ⟨_, rfl, ?_⟩
    simpa [Tree.readingAll] using (he.reads.closed hk).mark hs

theorem DeclarationSpelling.reads {tree : Tree} {word : List Token}
    (h : DeclarationSpelling tree word) : Reads tree.reading word := by
  cases h with
  | main hk hm => exact hm.reads.keyword hk
  | function hk hf => exact hf.reads.keyword hk
  | named hn hv => exact hv.reads.name hn

theorem ProgramSpelling.reads {trees : List Tree} {word : List Token}
    (h : ProgramSpelling trees word) : Reads (Tree.readingAll trees) word := by
  induction h with
  | nil => exact Reads.nil
  | cons hd _ ih => exact hd.reads.append ih

end Grammar

-- Of the tokens of a program, those with a text of their own are what the tree of the
-- program says from left to right: none is lost, none is there twice, and none is moved.
theorem reading_of_parse {tokens : List Token} {tree : Tree} (h : parse tokens = .ok tree) :
    List.Forall₂ Mention.Of tree.reading (tokens.filter (·.kind.keepsText)) := by
  obtain ⟨trees, rfl, hs⟩ := parse_eq_ok_iff.mp h
  exact hs.reads

-- The name in front of the sign is read twice, and it is there once.
theorem reading_of_assignment :
    ∃ tree, parse (Lexed.ofSource "main() \x7b a = f(1); \x7d").tokens = .ok tree ∧
      List.Forall₂ Mention.Of
        [⟨.name "a", some ⟨1, 10⟩⟩, ⟨.name "f", some ⟨1, 14⟩⟩, ⟨.literal "1", some ⟨1, 16⟩⟩]
        ((Lexed.ofSource "main() \x7b a = f(1); \x7d").tokens.filter (·.kind.keepsText)) := by
  have h : parse (Lexed.ofSource "main() \x7b a = f(1); \x7d").tokens =
      .ok (.node .program [.node .main [.node .assignment
        [identifierNode "a" ⟨1, 10⟩,
          .node .call [identifierNode "f" ⟨1, 14⟩,
            .node .argumentList [.node (.literal "1") [] ⟨1, 16⟩] ⟨1, 16⟩] ⟨1, 14⟩] ⟨1, 10⟩]
        ⟨1, 1⟩] .start) := by
    cbv
  exact ⟨_, h, reading_of_parse h⟩

end ScriptIR
