import ScriptIR.Proofs.Grammar.Program

namespace ScriptIR

open Grammar

-- The shapes of trees that the grammar makes. Places are free.

inductive IsExpression : Tree → Prop
  | literal {text : String} {place : Location} : IsExpression (.node (.literal text) [] place)
  | identifier {name : String} {place : Location} : IsExpression (identifierNode name place)
  | emptyCall {name : String} {inner place : Location} :
      IsExpression (.node .call [identifierNode name inner] place)
  | call {name : String} {inner between place : Location} {values : List Tree} : values ≠ [] →
      (∀ value ∈ values, IsExpression value) →
      IsExpression
        (.node .call [identifierNode name inner, .node .argumentList values between] place)
  | arrayAccess {name : String} {inner place : Location} {index : Tree} : IsExpression index →
      IsExpression (.node .arrayAccess [identifierNode name inner, index] place)
  | operation {left right : Tree} {sign : String} {inner place : Location} : IsExpression left →
      IsExpression right →
      IsExpression (.node .expression [left, .node (.operator sign) [] inner, right] place)

mutual

-- An array has items and a block of pairs may be empty. Below a declaration
-- neither has a name.
inductive IsItem : Tree → Prop
  | expression {tree : Tree} : IsExpression tree → IsItem tree
  | array {inner place : Location} {values : List Tree} : values ≠ [] →
      (∀ value ∈ values, IsItem value) →
      IsItem (.node (.array none) [.node .expressionList values inner] place)
  | keyValue {place : Location} {entries : List Tree} : (∀ entry ∈ entries, IsPair entry) →
      IsItem (.node (.keyValue none) entries place)

inductive IsPair : Tree → Prop
  | pair {key value : Tree} {place : Location} : IsExpression key → IsItem value →
      IsPair (.node .pair [key, value] place)

end

inductive IsTarget : Tree → Prop
  | identifier {name : String} {place : Location} : IsTarget (identifierNode name place)
  | arrayAccess {name : String} {inner place : Location} {index : Tree} : IsExpression index →
      IsTarget (.node .arrayAccess [identifierNode name inner, index] place)

-- Whether a statement ends in an if that could take an else. A loop does not, for
-- all that its last statement may be such an if, as braces can be put around it.
def Tree.hangs : Tree → Bool
  | .node .ifStatement [_, _] _ => true
  | .node .ifStatement [_, _, .node .elseStatement [other] _] _ => other.hangs
  | _ => false

inductive IsStatement : Tree → Prop
  | assignment {target value : Tree} {place : Location} : IsTarget target → IsExpression value →
      IsStatement (.node .assignment [target, value] place)
  | call {children : List Tree} {place : Location} : IsExpression (.node .call children place) →
      IsStatement (.node .call children place)
  | ifStatement {condition branch : Tree} {place : Location} : IsExpression condition →
      IsStatement branch → IsStatement (.node .ifStatement [condition, branch] place)
  | ifElse {condition branch other : Tree} {inner place : Location} : IsExpression condition →
      IsStatement branch → branch.hangs = false → IsStatement other →
      IsStatement
        (.node .ifStatement [condition, branch, .node .elseStatement [other] inner] place)
  | loop {counter : String} {first last : Tree} {statements : List Tree} {place : Location} :
      IsExpression first → IsExpression last → (∀ statement ∈ statements, IsStatement statement) →
      IsStatement (.loop counter first last statements place)
  | bareReturn {place : Location} : IsStatement (.node .bareReturn [] place)
  | giving {value : Tree} {place : Location} : IsExpression value →
      IsStatement (.giving value [] place)
  | block {statements : List Tree} {place : Location} :
      (∀ statement ∈ statements, IsStatement statement) →
      IsStatement (.node .block statements place)

inductive IsParameter : Tree → Prop
  | identifier {name : String} {place : Location} : IsParameter (identifierNode name place)

inductive IsDeclaration : Tree → Prop
  | main {statements : List Tree} {place : Location} :
      (∀ statement ∈ statements, IsStatement statement) →
      IsDeclaration (.node .main statements place)
  | function {name : String} {params statements : List Tree} {inner place : Location} :
      (∀ param ∈ params, IsParameter param) → (∀ statement ∈ statements, IsStatement statement) →
      IsDeclaration (.function name (.node .paramList params inner) statements place)
  | array {name : String} {inner place : Location} {values : List Tree} : values ≠ [] →
      (∀ value ∈ values, IsItem value) →
      IsDeclaration (.node (.array (some name)) [.node .expressionList values inner] place)
  | keyValue {name : String} {place : Location} {entries : List Tree} :
      (∀ entry ∈ entries, IsPair entry) →
      IsDeclaration (.node (.keyValue (some name)) entries place)
  | value {name : String} {value : Tree} {place : Location} : IsExpression value →
      IsDeclaration (.node (.varDecl name) [value] place)

inductive IsProgram : Tree → Prop
  | program {trees : List Tree} {place : Location} : (∀ tree ∈ trees, IsDeclaration tree) →
      IsProgram (.node .program trees place)

namespace Grammar

mutual

theorem ExpressionSpelling.isExpression : ∀ {tree : Tree} {word : List Token},
    ExpressionSpelling tree word → IsExpression tree
  | _, _, .operand ho => ho.isExpression
  | _, _, .binary ho _ he => .operation ho.isExpression he.isExpression

theorem OperandSpelling.isExpression : ∀ {tree : Tree} {word : List Token},
    OperandSpelling tree word → IsExpression tree
  | _, _, .group _ _ he => he.isExpression
  | _, _, .call _ _ hc => hc.isExpression
  | _, _, .access _ _ ha => ha.isExpression
  | _, _, .name _ => .identifier
  | _, _, .literal _ => .literal

theorem CallSpelling.isExpression : ∀ {name : String} {place : Location} {tree : Tree}
    {word : List Token}, CallSpelling name place tree word → IsExpression tree
  | _, _, _, _, .empty _ => .emptyCall
  | _, _, _, _, .given _ ha => .call ha.isExpression.1 ha.isExpression.2

theorem ArgumentsSpelling.isExpression : ∀ {values : List Tree} {word : List Token},
    ArgumentsSpelling values word → values ≠ [] ∧ ∀ value ∈ values, IsExpression value
  | _, _, .last he => ⟨nofun, List.forall_mem_singleton.mpr he.isExpression⟩
  | _, _, .more he _ hm => ⟨nofun, List.forall_mem_cons.mpr ⟨he.isExpression, hm.isExpression.2⟩⟩

theorem AccessSpelling.isExpression : ∀ {name : String} {place : Location} {tree : Tree}
    {word : List Token}, AccessSpelling name place tree word → IsExpression tree
  | _, _, _, _, .index _ he => .arrayAccess he.isExpression

end

mutual

theorem ItemSpelling.isItem : ∀ {tree : Tree} {word : List Token}, ItemSpelling tree word →
    IsItem tree
  | _, _, .array _ ha => by
    obtain ⟨values, inner, rfl, hne, hi⟩ := ha.isItem
    exact .array hne hi
  | _, _, .keyValue _ hm => by
    obtain ⟨entries, rfl, hp⟩ := hm.isPair
    exact .keyValue hp
  | _, _, .expression he => .expression he.isExpression

theorem ArraySpelling.isItem : ∀ {name : Option String} {place : Location} {tree : Tree}
    {word : List Token}, ArraySpelling name place tree word →
      ∃ values inner, tree = .node (.array name) [.node .expressionList values inner] place ∧
        values ≠ [] ∧ ∀ value ∈ values, IsItem value
  | _, _, _, _, .items _ hi => ⟨_, _, rfl, hi.isItem⟩

theorem KeyValueSpelling.isPair : ∀ {name : Option String} {place : Location} {tree : Tree}
    {word : List Token}, KeyValueSpelling name place tree word →
      ∃ entries, tree = .node (.keyValue name) entries place ∧ ∀ entry ∈ entries, IsPair entry
  | _, _, _, _, .empty _ => ⟨[], rfl, nofun⟩
  | _, _, _, _, .pairs _ hp => ⟨_, rfl, hp.isPair⟩

theorem ItemsSpelling.isItem : ∀ {values : List Tree} {word : List Token},
    ItemsSpelling values word → values ≠ [] ∧ ∀ value ∈ values, IsItem value
  | _, _, .last hi => ⟨nofun, List.forall_mem_singleton.mpr hi.isItem⟩
  | _, _, .more hi _ hm => ⟨nofun, List.forall_mem_cons.mpr ⟨hi.isItem, hm.isItem.2⟩⟩

theorem PairSpelling.isPair : ∀ {tree : Tree} {word : List Token}, PairSpelling tree word →
    IsPair tree
  | _, _, .pair he _ hi => .pair he.isExpression hi.isItem

theorem PairsSpelling.isPair : ∀ {entries : List Tree} {word : List Token},
    PairsSpelling entries word → ∀ entry ∈ entries, IsPair entry
  | _, _, .last hp => List.forall_mem_singleton.mpr hp.isPair
  | _, _, .more hp _ hm => List.forall_mem_cons.mpr ⟨hp.isPair, hm.isPair⟩

end

theorem TargetSpelling.isTarget {name : String} {place : Location} {tree : Tree}
    {word : List Token} (h : TargetSpelling name place tree word) : IsTarget tree := by
  cases h with
  | name => exact .identifier
  | element _ ha =>
    obtain ⟨-, he⟩ := ha
    exact .arrayAccess he.isExpression

mutual

-- Where an else may follow a spelling, the tree takes none.
theorem StatementSpelling.isStatement : ∀ {hangs : Bool} {tree : Tree} {word : List Token},
    StatementSpelling hangs tree word → IsStatement tree ∧ (tree.hangs = true → hangs = true)
  | _, _, _, .call _ _ _ hc => by
    cases hc with
    | empty hk => exact ⟨.call .emptyCall, nofun⟩
    | given hk ha => exact ⟨.call (.call ha.isExpression.1 ha.isExpression.2), nofun⟩
  | _, _, _, .assignment _ ha => by
    obtain ⟨-, -, ht, he⟩ := ha
    exact ⟨.assignment ht.isTarget he.isExpression, nofun⟩
  | _, _, _, .branching _ hi => hi.isStatement
  | _, _, _, .loop _ hl => hl.isStatement
  | _, _, _, .returning _ hr => by
    cases hr with
    | bare _ => exact ⟨.bareReturn, nofun⟩
    | giving _ he => exact ⟨.giving he.isExpression, nofun⟩
  | _, _, _, .block _ hb => ⟨.block hb.isStatement, nofun⟩

theorem IfSpelling.isStatement : ∀ {hangs : Bool} {place : Location} {tree : Tree}
    {word : List Token}, IfSpelling hangs place tree word →
      IsStatement tree ∧ (tree.hangs = true → hangs = true)
  | _, _, _, _, .lone hc hs => by
    obtain ⟨-, -, he⟩ := hc
    exact ⟨.ifStatement he.isExpression hs.isStatement.1, fun _ => rfl⟩
  | _, _, _, _, .withElse hc hs _ ho => by
    obtain ⟨-, -, he⟩ := hc
    have hb := hs.isStatement
    refine ⟨.ifElse he.isExpression hb.1 ?_ ho.isStatement.1, ho.isStatement.2⟩
    exact Bool.eq_false_iff.mpr fun h => nomatch hb.2 h

theorem LoopSpelling.isStatement : ∀ {hangs : Bool} {place : Location} {tree : Tree}
    {word : List Token}, LoopSpelling hangs place tree word →
      IsStatement tree ∧ (tree.hangs = true → hangs = true)
  | _, _, _, _, .braced hh _ hb => by
    obtain ⟨-, -, -, -, -, hf, hl⟩ := hh
    exact ⟨.loop hf.isExpression hl.isExpression hb.isStatement, nofun⟩
  | _, _, _, _, .single hh _ hs => by
    obtain ⟨-, -, -, -, -, hf, hl⟩ := hh
    exact ⟨.loop hf.isExpression hl.isExpression
      (List.forall_mem_singleton.mpr hs.isStatement.1), nofun⟩

theorem BodySpelling.isStatement : ∀ {statements : List Tree} {word : List Token},
    BodySpelling statements word → ∀ statement ∈ statements, IsStatement statement
  | _, _, .close _ => nofun
  | _, _, .cons hs hb => List.forall_mem_cons.mpr ⟨hs.isStatement.1, hb.isStatement⟩

end

theorem ParametersSpelling.isParameter {names : List Tree} {word : List Token}
    (h : ParametersSpelling names word) : ∀ param ∈ names, IsParameter param := by
  induction h with
  | last _ => exact List.forall_mem_singleton.mpr .identifier
  | more _ _ _ ih => exact List.forall_mem_cons.mpr ⟨.identifier, ih⟩

theorem DeclarationSpelling.isDeclaration {tree : Tree} {word : List Token}
    (h : DeclarationSpelling tree word) : IsDeclaration tree := by
  cases h with
  | main _ hm =>
    obtain ⟨-, -, -, hb⟩ := hm
    exact .main hb.isStatement
  | function _ hf =>
    obtain ⟨-, -, hp, -, hb⟩ := hf
    cases hp with
    | empty _ => exact .function nofun hb.isStatement
    | names _ hn => exact .function hn.isParameter hb.isStatement
  | named _ hv =>
    cases hv with
    | array _ _ _ ha =>
      obtain ⟨values, inner, rfl, hne, hi⟩ := ha.isItem
      exact .array hne hi
    | keyValue _ _ _ hm =>
      obtain ⟨entries, rfl, hp⟩ := hm.isPair
      exact .keyValue hp
    | value _ _ he => exact .value he.isExpression

theorem ProgramSpelling.isDeclaration {trees : List Tree} {word : List Token}
    (h : ProgramSpelling trees word) : ∀ tree ∈ trees, IsDeclaration tree := by
  induction h with
  | nil => exact nofun
  | cons hd _ ih => exact List.forall_mem_cons.mpr ⟨hd.isDeclaration, ih⟩

end Grammar

theorem isProgram_of_parse {tokens : List Token} {tree : Tree} (h : parse tokens = .ok tree) :
    IsProgram tree := by
  obtain ⟨trees, rfl, hp⟩ := parse_eq_ok_iff.mp h
  exact .program hp.isDeclaration

end ScriptIR
