import Mathlib
import ScriptIR.Proofs.Compile.Layout
import ScriptIR.Proofs.Grammar.Grouping
import ScriptIR.Proofs.Lowering.Flattened

namespace ScriptIR

open Grammar

namespace Tree

-- Two trees that are lowered alike, whatever the mode.
def SameCode (tree other : Tree) : Prop := ∀ mode, tree.lower mode = other.lower mode

theorem sameCode_refl (tree : Tree) : tree.SameCode tree := fun _ => rfl

variable {trees others : List Tree}

theorem lowerAll_of_sameCode (h : List.Forall₂ SameCode trees others) (mode : Mode) :
    lowerAll mode trees = lowerAll mode others := by
  induction h with
  | nil => rfl
  | cons hc _ ih => rw [lowerAll, lowerAll, hc mode, ih]

theorem lowerArguments_of_sameCode (h : List.Forall₂ SameCode trees others) (mode : Mode) :
    lowerArguments mode trees = lowerArguments mode others := by
  induction h with
  | nil => rfl
  | cons hc _ ih => rw [lowerArguments, lowerArguments, hc mode, ih]

theorem lower_operation (mode : Mode) (left sign right : Tree) (place : Location) :
    lower mode (.node .expression [left, sign, right] place) =
      (lower mode left >> lower mode sign >> lower mode right) := by
  rw [lower_expression, lowerAll, lowerAll, lowerAll_singleton]

end Tree

namespace Grammar

open ScriptIR.Tree Lowered

-- A phrase with the groups in it left out, and what it is a phrase of then.
def Loosens (spelling : Tree → List Token → Prop) (claimed : Bool) (inside : List Bool)
    (tree : Tree) (word : List Token) : Prop :=
  ∃ other bare, spelling other bare ∧ Drops claimed inside word bare ∧ tree.SameCode other

-- The same for a list of phrases of one kind.
def LoosensAll (spelling : List Tree → List Token → Prop) (trees : List Tree)
    (word : List Token) : Prop :=
  ∃ others bare, spelling others bare ∧ Drops false [] word bare ∧
    List.Forall₂ SameCode trees others

section

variable {spelling longer : Tree → List Token → Prop} {claimed : Bool} {inside : List Bool}
variable {tree : Tree} {word : List Token}

theorem Loosens.imp (h : Loosens spelling claimed inside tree word)
    (hs : ∀ {other bare}, spelling other bare → longer other bare) :
    Loosens longer claimed inside tree word := by
  obtain ⟨other, bare, hb, hd, hc⟩ := h
  exact ⟨other, bare, hs hb, hd, hc⟩

-- Most rules begin with a token that stays and leave the tree to another rule.
theorem Loosens.cons {token : Token} {kind : TokenKind}
    (h : Loosens spelling kind.claims inside tree word) (hk : token.kind = kind)
    (hp : kind.isParen = false)
    (hs : ∀ {other bare}, spelling other bare → longer other (token :: bare)) :
    Loosens longer claimed inside tree (token :: word) := by
  obtain ⟨other, bare, hb, hd, hc⟩ := h
  exact ⟨other, _, hs hb, .cons hk hd hp, hc⟩

variable {one : Tree → List Token → Prop} {list : List Tree → List Token → Prop}

theorem Loosens.last (h : Loosens one false [] tree word)
    (hs : ∀ {other bare}, one other bare → list [other] bare) : LoosensAll list [tree] word := by
  obtain ⟨other, bare, hb, hd, hc⟩ := h
  exact ⟨_, bare, hs hb, hd, .cons hc .nil⟩

theorem Loosens.more {trees : List Tree} {back : List Token} {comma : Token}
    (h : Loosens one false [] tree word) (hm : LoosensAll list trees back)
    (hk : comma.kind = .mark .comma)
    (hs : ∀ {other others front rest}, one other front → list others rest →
      list (other :: others) (front ++ comma :: rest)) :
    LoosensAll list (tree :: trees) (word ++ comma :: back) := by
  obtain ⟨other, front, hb, hd, hc⟩ := h
  obtain ⟨others, rest, hb', hd', hc'⟩ := hm
  exact ⟨_, _, hs hb hb', hd.append (.cons hk hd' rfl) (begun_cons hk rfl _).plain,
    .cons hc hc'⟩

-- Phrases without a comma between them, as none of them is begun by a parenthesis.
theorem Loosens.followed {trees : List Tree} {back : List Token}
    (h : Loosens one false [] tree word) (hm : LoosensAll list trees back) (hp : Plain back)
    (hs : ∀ {other others front rest}, one other front → list others rest →
      list (other :: others) (front ++ rest)) :
    LoosensAll list (tree :: trees) (word ++ back) := by
  obtain ⟨other, front, hb, hd, hc⟩ := h
  obtain ⟨others, rest, hb', hd', hc'⟩ := hm
  exact ⟨_, _, hs hb hb', hd.append hd' hp, .cons hc hc'⟩

end

-- An operation without parentheses goes on behind the last operand of its left side.
theorem ExpressionSpelling.join {left right : Tree} {front back : List Token} {sign : Operator}
    {token : Token} (hl : ExpressionSpelling left front) (hk : token.kind = .operator sign)
    (hr : ExpressionSpelling right back) :
    ∃ tree, ExpressionSpelling tree (front ++ token :: back) ∧ ∀ mode, tree.lower mode =
      (left.lower mode >> Tree.lower mode (.node (.operator token.text) [] token.place) >>
        right.lower mode) := by
  cases hl with
  | operand ho => exact ⟨_, .binary ho hk hr, fun mode => lower_operation mode _ _ _ _⟩
  | binary ho hs he =>
    obtain ⟨tree, ht, hc⟩ := join he hk hr
    refine ⟨_, by simpa using ExpressionSpelling.binary ho hs ht, fun mode => ?_⟩
    rw [lower_operation, lower_operation, hc mode, andThen_assoc, andThen_assoc]

mutual

theorem ExpressionSpelling.loosens : ∀ {tree : Tree} {word : List Token},
    ExpressionSpelling tree word → Loosens ExpressionSpelling false [] tree word
  | _, _, .operand ho => ho.loosens
  | _, _, .binary ho hk he => by
    obtain ⟨left, front, hl, hdl, hcl⟩ := ho.loosens
    obtain ⟨right, back, hr, hdr, hcr⟩ := he.loosens
    obtain ⟨tree, ht, hc⟩ := hl.join hk hr
    refine ⟨tree, _, ht, hdl.append (.cons hk hdr rfl) (begun_cons hk rfl _).plain, fun mode => ?_⟩
    rw [lower_operation, hcl mode, hcr mode, hc mode]

theorem OperandSpelling.loosens : ∀ {tree : Tree} {word : List Token},
    OperandSpelling tree word → Loosens ExpressionSpelling false [] tree word
  | _, _, .group hl hr he => by
    obtain ⟨tree, bare, hs, hd, hc⟩ := he.loosens
    exact ⟨tree, bare, hs, hd.parens hl hr, hc⟩
  | _, _, .call hn ho hc => by
    obtain ⟨tree, bare, hs, hd, hc⟩ := hc.loosens
    exact ⟨tree, _, .operand (.call hn ho hs), .cons hn (hd.opening ho) rfl, hc⟩
  | _, _, .access hn ho ha => by
    obtain ⟨index, other, bare, rfl, hs, hd, hc⟩ := ha.loosens
    refine ⟨_, _, .operand (.access hn ho hs), .cons hn (.cons ho hd rfl) rfl, fun mode => ?_⟩
    simp only [lower, lowerCouple, lowerAll, hc mode]
  | _, _, .name hn => ⟨_, _, .operand (.name hn), .cons hn drops_nil rfl, sameCode_refl _⟩
  | _, _, .literal hk => ⟨_, _, .operand (.literal hk), .cons hk drops_nil rfl, sameCode_refl _⟩

theorem CallSpelling.loosens : ∀ {name : String} {place : Location} {tree : Tree}
    {word : List Token}, CallSpelling name place tree word →
      Loosens (CallSpelling name place) false [true] tree word
  | _, _, _, _, .empty hk => ⟨_, _, .empty hk, drops_nil.closing hk, sameCode_refl _⟩
  | _, _, _, _, .given hk ha => by
    obtain ⟨others, bare, hs, hd, hc⟩ := ha.loosens
    refine ⟨_, _, .given hk hs, hd.paren hk, fun mode => ?_⟩
    simp only [lower, lowerCall, lowerBelow, lowerAll, lowerAll_of_sameCode hc mode,
      lowerArguments_of_sameCode hc mode, Tree.children, hc.length_eq]

theorem ArgumentsSpelling.loosens : ∀ {values : List Tree} {word : List Token},
    ArgumentsSpelling values word → LoosensAll ArgumentsSpelling values word
  | _, _, .last he => he.loosens.last .last
  | _, _, .more he hk ha => he.loosens.more ha.loosens hk fun hf hb => .more hf hk hb

-- The index is named, as a left side has no other use for the element.
theorem AccessSpelling.loosens : ∀ {name : String} {place : Location} {tree : Tree}
    {word : List Token}, AccessSpelling name place tree word →
      ∃ index other bare,
        tree = .node .arrayAccess [identifierNode name place, index] place ∧
        AccessSpelling name place (.node .arrayAccess [identifierNode name place, other] place)
          bare ∧
        Drops false [] word bare ∧ index.SameCode other
  | _, _, _, _, .index hk he => by
    obtain ⟨other, bare, hs, hd, hc⟩ := he.loosens
    exact ⟨_, other, _, rfl, .index hk hs, hd.closed hk rfl, hc⟩

end

mutual

theorem ItemSpelling.loosens : ∀ {tree : Tree} {word : List Token},
    ItemSpelling tree word → Loosens ItemSpelling false [] tree word
  | _, _, .array hk ha => ha.loosens.cons hk rfl (.array hk)
  | _, _, .keyValue hk hm => hm.loosens.cons hk rfl (.keyValue hk)
  | _, _, .expression he => he.loosens.imp .expression

theorem ArraySpelling.loosens : ∀ {name : Option String} {place : Location} {tree : Tree}
    {word : List Token}, ArraySpelling name place tree word →
      Loosens (ArraySpelling name place) false [] tree word
  | name, _, _, _, .items hk hi => by
    obtain ⟨others, bare, hs, hd, hc⟩ := hi.loosens
    refine ⟨_, _, .items hk hs, hd.closed hk rfl, fun mode => ?_⟩
    cases name <;> simp only [lower, lowerAll, lowerAll_of_sameCode hc mode]

theorem KeyValueSpelling.loosens : ∀ {name : Option String} {place : Location} {tree : Tree}
    {word : List Token}, KeyValueSpelling name place tree word →
      Loosens (KeyValueSpelling name place) false [] tree word
  | _, _, _, _, .empty hk => ⟨_, _, .empty hk, .cons hk drops_nil rfl, sameCode_refl _⟩
  | name, _, _, _, .pairs hk hp => by
    obtain ⟨others, bare, hs, hd, hc⟩ := hp.loosens
    refine ⟨_, _, .pairs hk hs, hd.closed hk rfl, fun mode => ?_⟩
    cases name <;> simp only [lower, lowerAll_of_sameCode hc mode]

theorem ItemsSpelling.loosens : ∀ {values : List Tree} {word : List Token},
    ItemsSpelling values word → LoosensAll ItemsSpelling values word
  | _, _, .last hi => hi.loosens.last .last
  | _, _, .more hi hk hm => hi.loosens.more hm.loosens hk fun hf hb => .more hf hk hb

theorem PairSpelling.loosens : ∀ {tree : Tree} {word : List Token},
    PairSpelling tree word → Loosens PairSpelling false [] tree word
  | _, _, .pair he hk hi => by
    obtain ⟨key, front, hs, hd, hc⟩ := he.loosens
    obtain ⟨value, back, hs', hd', hc'⟩ := hi.loosens
    refine ⟨_, _, .pair hs hk hs', hd.append (.cons hk hd' rfl) (begun_cons hk rfl _).plain,
      fun mode => ?_⟩
    simp only [lower, lowerCouple, lowerAll, hc mode, hc' mode]

theorem PairsSpelling.loosens : ∀ {entries : List Tree} {word : List Token},
    PairsSpelling entries word → LoosensAll PairsSpelling entries word
  | _, _, .last hp => hp.loosens.last .last
  | _, _, .more hp hk hm => hp.loosens.more hm.loosens hk fun hf hb => .more hf hk hb

end

theorem TargetSpelling.loosens {claimed : Bool} {name : String} {place : Location} {tree : Tree}
    {word : List Token} (h : TargetSpelling name place tree word) :
    ∃ other bare, TargetSpelling name place other bare ∧ Drops claimed [] word bare ∧
      tree.SameCode other ∧
      ∀ mode value, lowerTarget mode value tree = lowerTarget mode value other := by
  cases h with
  | name => exact ⟨_, _, .name, drops_nil, sameCode_refl _, fun _ _ => rfl⟩
  | element hk ha =>
    obtain ⟨index, other, bare, rfl, hs, hd, hc⟩ := ha.loosens
    refine ⟨_, _, .element hk hs, .cons hk hd rfl, fun mode => ?_, fun mode value => ?_⟩
    · simp only [lower, lowerCouple, lowerAll, hc mode]
    · simp only [lowerTarget, lowerElement, hc mode]

theorem AssignmentSpelling.loosens {name : String} {place : Location} {tree : Tree}
    {word : List Token} (h : AssignmentSpelling name place tree word) :
    Loosens (AssignmentSpelling name place) true [] tree word := by
  cases h with
  | assign hk hs ht he =>
    obtain ⟨target, front, hst, hdt, hct, htarget⟩ := ht.loosens
    obtain ⟨value, back, hsv, hdv, hcv⟩ := he.loosens
    refine ⟨_, _, .assign hk hs hst hsv,
      hdt.append (.cons hk (hdv.closed hs rfl) rfl) (begun_cons hk rfl _).plain, fun mode => ?_⟩
    simp only [lower, lowerAssignment, lowerAll, htarget, hct mode, hcv mode]

theorem ReturnSpelling.loosens {place : Location} {tree : Tree} {word : List Token}
    (h : ReturnSpelling place tree word) :
    Loosens (ReturnSpelling place) false [] tree word := by
  cases h with
  | bare hk => exact ⟨_, _, .bare hk, .cons hk drops_nil rfl, sameCode_refl _⟩
  | giving hk he =>
    obtain ⟨other, bare, hs, hd, hc⟩ := he.loosens
    refine ⟨_, _, .giving hk hs, hd.closed hk rfl, fun mode => ?_⟩
    simp only [lower, hc mode]

-- Its parentheses belong to the keyword.
theorem ConditionSpelling.loosens {tree : Tree} {word : List Token}
    (h : ConditionSpelling tree word) : Loosens ConditionSpelling true [] tree word := by
  cases h with
  | parens hl hr he =>
    obtain ⟨other, bare, hs, hd, hc⟩ := he.loosens
    exact ⟨other, _, .parens hl hr hs, (hd.paren hr).opening hl, hc⟩

theorem LoopHeadSpelling.loosens {counter : String} {first last : Tree} {word : List Token}
    (h : LoopHeadSpelling (counter, first, last) word) :
    ∃ start stop bare, LoopHeadSpelling (counter, start, stop) bare ∧ Drops true [] word bare ∧
      first.SameCode start ∧ last.SameCode stop := by
  cases h with
  | parens ho hn hc hk hr hf hl =>
    obtain ⟨start, front, hsf, hdf, hcf⟩ := hf.loosens
    obtain ⟨stop, back, hsl, hdl, hcl⟩ := hl.loosens
    have hd := hdf.append (.cons hk (hdl.paren hr) rfl) (begun_cons hk rfl _).plain
    exact ⟨start, stop, _, .parens ho hn hc hk hr hsf hsl,
      Drops.opening (.cons hn (.cons hc hd rfl) rfl) ho, hcf, hcl⟩

theorem StatementSpelling.begun {hangs : Bool} {tree : Tree} {word : List Token}
    (h : StatementSpelling hangs tree word) : Begun word := by
  cases h with
  | call hn _ _ _ => exact begun_cons hn rfl _
  | assignment hn _ => exact begun_cons hn rfl _
  | branching hk _ => exact begun_cons hk rfl _
  | loop hk _ => exact begun_cons hk rfl _
  | returning hk _ => exact begun_cons hk rfl _
  | block hk _ => exact begun_cons hk rfl _

theorem BodySpelling.begun {statements : List Tree} {word : List Token}
    (h : BodySpelling statements word) : Begun word := by
  cases h with
  | close hk => exact begun_cons hk rfl _
  | cons hs _ => exact hs.begun.append _

mutual

theorem StatementSpelling.loosens : ∀ {hangs : Bool} {tree : Tree} {word : List Token},
    StatementSpelling hangs tree word → Loosens (StatementSpelling hangs) false [] tree word
  | _, _, _, .call hn ho hk hc => by
    obtain ⟨other, bare, hs, hd, hc⟩ := hc.loosens
    have hd := hd.append (.cons hk drops_nil rfl) (begun_cons hk rfl []).plain
    exact ⟨other, _, .call hn ho hk hs, .cons hn (Drops.opening hd ho) rfl, hc⟩
  | _, _, _, .assignment hn ha => ha.loosens.cons hn rfl (.assignment hn)
  | _, _, _, .branching hk hi => hi.loosens.cons hk rfl (.branching hk)
  | _, _, _, .loop hk hl => hl.loosens.cons hk rfl (.loop hk)
  | _, _, _, .returning hk hr => hr.loosens.cons hk rfl (.returning hk)
  | _, _, _, .block hk hb => by
    obtain ⟨others, bare, hs, hd, hc⟩ := hb.loosens
    refine ⟨_, _, .block hk hs, .cons hk hd rfl, fun mode => ?_⟩
    simp only [lower, lowerAll_of_sameCode hc mode]

theorem IfSpelling.loosens : ∀ {hangs : Bool} {place : Location} {tree : Tree}
    {word : List Token}, IfSpelling hangs place tree word →
      Loosens (IfSpelling hangs place) true [] tree word
  | _, _, _, _, .lone hc hs => by
    obtain ⟨condition, front, hsc, hdc, hcc⟩ := hc.loosens
    obtain ⟨branch, back, hsb, hdb, hcb⟩ := hs.loosens
    refine ⟨_, _, .lone hsc hsb, hdc.append hdb hs.begun.plain, fun mode => ?_⟩
    simp only [lower, lowerIf, lowerElse, lowerAll, hcc mode, hcb mode]
  | _, _, _, _, .withElse hc hs hk ho => by
    obtain ⟨condition, front, hsc, hdc, hcc⟩ := hc.loosens
    obtain ⟨branch, middle, hsb, hdb, hcb⟩ := hs.loosens
    obtain ⟨other, back, hso, hdo, hco⟩ := ho.loosens
    have hd := hdb.append (.cons hk hdo rfl) (begun_cons hk rfl _).plain
    refine ⟨_, _, .withElse hsc hsb hk hso, hdc.append hd (hs.begun.append _).plain,
      fun mode => ?_⟩
    simp only [lower, lowerIf, lowerElse, lowerAll, hcc mode, hcb mode, hco mode]

theorem LoopSpelling.loosens : ∀ {hangs : Bool} {place : Location} {tree : Tree}
    {word : List Token}, LoopSpelling hangs place tree word →
      Loosens (LoopSpelling hangs place) true [] tree word
  | _, _, _, _, .braced hh hk hb => by
    obtain ⟨first, last, front, hsh, hdh, hcf, hcl⟩ := hh.loosens
    obtain ⟨others, back, hs, hd, hc⟩ := hb.loosens
    refine ⟨_, _, .braced hsh hk hs, hdh.append (.cons hk hd rfl) (begun_cons hk rfl _).plain,
      fun mode => ?_⟩
    simp only [lower, hcf mode, hcl mode, lowerAll_of_sameCode hc mode]
  | _, _, _, _, .single hh hn hs => by
    obtain ⟨first, last, front, hsh, hdh, hcf, hcl⟩ := hh.loosens
    obtain ⟨only, bare, hso, hdo, hco⟩ := hs.loosens
    obtain ⟨next, rest, ⟨⟩, hp⟩ := hs.begun
    obtain ⟨back, rfl⟩ := hdo.exists_cons hp
    refine ⟨_, _, .single hsh hn hso, hdh.append hdo hs.begun.plain, fun mode => ?_⟩
    simp only [lower, hcf mode, hcl mode, lowerAll, hco mode]

theorem BodySpelling.loosens : ∀ {statements : List Tree} {word : List Token},
    BodySpelling statements word → LoosensAll BodySpelling statements word
  | _, _, .close hk => ⟨_, _, .close hk, .cons hk drops_nil rfl, .nil⟩
  | _, _, .cons hs hb => hs.loosens.followed hb.loosens hb.begun.plain .cons

end

theorem ParametersSpelling.drops {names : List Tree} {word : List Token}
    (h : ParametersSpelling names word) : Drops false [] word word := by
  induction h with
  | last hn => exact .cons hn drops_nil rfl
  | more hn hk _ ih => exact .cons hn (.cons hk ih rfl) rfl

theorem ParameterListSpelling.drops {tree : Tree} {word : List Token}
    (h : ParameterListSpelling tree word) : Drops false [true] word word := by
  cases h with
  | empty hk => exact drops_nil.closing hk
  | names hk hp => exact hp.drops.paren hk

theorem MainSpelling.loosens {place : Location} {tree : Tree} {word : List Token}
    (h : MainSpelling place tree word) : Loosens (MainSpelling place) true [] tree word := by
  cases h with
  | main hl hr ho hb =>
    obtain ⟨others, bare, hs, hd, hc⟩ := hb.loosens
    refine ⟨_, _, .main hl hr ho hs, Drops.opening (.closing (.cons ho hd rfl) hr) hl,
      fun mode => ?_⟩
    simp only [lower, lowerAll_of_sameCode hc mode]

theorem FunctionSpelling.loosens {place : Location} {tree : Tree} {word : List Token}
    (h : FunctionSpelling place tree word) :
    Loosens (FunctionSpelling place) false [] tree word := by
  cases h with
  | function hn hl hp ho hb =>
    obtain ⟨others, bare, hs, hd, hc⟩ := hb.loosens
    have hd := hp.drops.append (.cons ho hd rfl) (begun_cons ho rfl _).plain
    refine ⟨_, _, .function hn hl hp ho hs, .cons hn (Drops.opening hd hl) rfl, fun mode => ?_⟩
    simp only [lower, lowerAll_of_sameCode hc mode]

theorem VariableSpelling.loosens {name : String} {place : Location} {tree : Tree}
    {word : List Token} (h : VariableSpelling name place tree word) :
    Loosens (VariableSpelling name place) true [] tree word := by
  cases h with
  | array hs ho hk ha =>
    obtain ⟨other, bare, hsa, hd, hc⟩ := ha.loosens
    exact ⟨other, _, .array hs ho hk hsa, .cons hs (.cons ho (hd.closed hk rfl) rfl) rfl, hc⟩
  | keyValue hs ho hk hm =>
    obtain ⟨other, bare, hsm, hd, hc⟩ := hm.loosens
    exact ⟨other, _, .keyValue hs ho hk hsm, .cons hs (.cons ho (hd.closed hk rfl) rfl) rfl, hc⟩
  | value hs hk he =>
    obtain ⟨other, bare, hse, hd, hc⟩ := he.loosens
    refine ⟨_, _, .value hs hk hse, .cons hs (hd.closed hk rfl) rfl, fun mode => ?_⟩
    simp only [lower, lowerValue, lowerAll, hc mode]

theorem DeclarationSpelling.begun {tree : Tree} {word : List Token}
    (h : DeclarationSpelling tree word) : Begun word := by
  cases h with
  | main hk _ => exact begun_cons hk rfl _
  | function hk _ => exact begun_cons hk rfl _
  | named hn _ => exact begun_cons hn rfl _

theorem DeclarationSpelling.loosens {tree : Tree} {word : List Token}
    (h : DeclarationSpelling tree word) : Loosens DeclarationSpelling false [] tree word := by
  cases h with
  | main hk hm => exact hm.loosens.cons hk rfl (.main hk)
  | function hk hf => exact hf.loosens.cons hk rfl (.function hk)
  | named hn hv => exact hv.loosens.cons hn rfl (.named hn)

theorem ProgramSpelling.plain {trees : List Tree} {word : List Token}
    (h : ProgramSpelling trees word) : Plain word := by
  cases h with
  | nil => exact plain_nil
  | cons hd _ => exact (hd.begun.append _).plain

theorem ProgramSpelling.loosens {trees : List Tree} {word : List Token}
    (h : ProgramSpelling trees word) : LoosensAll ProgramSpelling trees word := by
  induction h with
  | nil => exact ⟨[], [], .nil, drops_nil, .nil⟩
  | cons hd hp ih => exact hd.loosens.followed ih hp.plain .cons

end Grammar

-- Tokens that make a program make one without their groups as well, with the same code.
theorem parse_ungrouped {tokens : List Token} {tree : Tree} (h : parse tokens = .ok tree) :
    ∃ other, parse (ungrouped tokens) = .ok other ∧ tree.SameCode other := by
  obtain ⟨trees, rfl, hs⟩ := parse_eq_ok_iff.mp h
  obtain ⟨others, bare, hb, hd, hc⟩ := hs.loosens
  have hbare : ungrouped tokens = bare := by
    simpa [ungrouped, dropGroups] using hd [] [] plain_nil
  refine ⟨_, parse_eq_ok_iff.mpr ⟨others, rfl, hbare ▸ hb⟩, fun mode => ?_⟩
  simp only [Tree.lower, Tree.lowerAll_of_sameCode hc mode]

-- The parentheses of the call stay.
example : (ungrouped (Lexed.ofSource "a = (1 - f((2)));").tokens).map Token.text =
    ["a", "=", "1", "-", "f", "(", "2", ")", ";"] := by
  cbv

-- Operations have no code of their own. What is lowered is the row of their operands and
-- signs, once in either mode and however it is nested. So the loop along the last operands is
-- no more than a way to go, and parentheses that group operands leave no trace in the code.
theorem operations_flatten :
    (∀ mode children place,
      Tree.lower mode (.node .expression children place) =
        Tree.lowerAll mode (Tree.spreadAll children) ∧
      Tree.lower mode (.node .expression children place) = Tree.lowerAll mode children ∧
      Tree.lowerSpine mode children = Tree.lowerAll mode children) ∧
    (∀ children, ∀ leaf ∈ Tree.spreadAll children, leaf.kindName ≠ "expression") ∧
    (∀ tokens, (ungrouped tokens).IsChain Claimed) ∧
    (∀ tokens tree, parse tokens = .ok tree →
      ∃ other, parse (ungrouped tokens) = .ok other ∧ tree.SameCode other) ∧
    ∀ tokens others tree other, parse tokens = .ok tree → parse others = .ok other →
      (ungrouped tokens).map Token.content = (ungrouped others).map Token.content →
      ∀ mode, ∃ code, tree.lower mode = .ok code ∧ other.lower mode = .ok code := by
  refine ⟨fun mode children place => ⟨?_, ?_, ?_⟩, fun children leaf hleaf => ?_,
    fun tokens => ?_, fun tokens tree h => parse_ungrouped h, ?_⟩
  · rw [Tree.lower_expression, Tree.lowerAll_spreadAll]
  · exact Tree.lower_expression mode children place
  · exact Tree.lowerSpine_eq mode children
  · exact Tree.kindName_of_mem_spreadAll hleaf
  · exact (claimed_dropGroups tokens false []).2
  · intro tokens others tree other ht ho hcontent mode
    obtain ⟨code, hcode⟩ := (isProgram_of_parse ht).lowers mode
    obtain ⟨code', hcode'⟩ := (isProgram_of_parse ho).lowers mode
    obtain ⟨first, hf, hfirst⟩ := parse_ungrouped ht
    obtain ⟨second, hs, hsecond⟩ := parse_ungrouped ho
    -- without groups the two lists make trees that differ in their places only
    have hsame : SameButPlaces first second := by
      obtain ⟨tree, other, ht, ho, hsame⟩ | ⟨error, _, he, -⟩ := parse_of_content hcontent
      · cases hf.symm.trans ht
        cases hs.symm.trans ho
        exact hsame
      · cases hf.symm.trans he
    have heq := hsame.lower_eq mode
    rw [← hfirst mode, ← hsecond mode, hcode, hcode'] at heq
    cases heq
    exact ⟨code, hcode, hcode'⟩

-- The groups nest the two rows of operands in opposite ways.
theorem operations_flatten_of_groups :
    ∃ tree other,
      parse (Lexed.ofSource "main() \x7b a = (1 - b) - f((2)); \x7d").tokens = .ok tree ∧
      parse (Lexed.ofSource "main() \x7b a = 1 - (b - f(2)); \x7d").tokens = .ok other ∧
      ∃ code, tree.lower .revisit = .ok code ∧ other.lower .revisit = .ok code := by
  have hok {tokens : List Token} (h : (parse tokens).toBool = true) :
      ∃ tree, parse tokens = .ok tree := by
    cases hp : parse tokens with
    | ok tree => exact ⟨tree, rfl⟩
    | error error =>
      rw [hp] at h
      cases h
  obtain ⟨tree, ht⟩ : ∃ tree,
      parse (Lexed.ofSource "main() \x7b a = (1 - b) - f((2)); \x7d").tokens = .ok tree :=
    hok (by cbv)
  obtain ⟨other, ho⟩ : ∃ other,
      parse (Lexed.ofSource "main() \x7b a = 1 - (b - f(2)); \x7d").tokens = .ok other :=
    hok (by cbv)
  exact ⟨tree, other, ht, ho, operations_flatten.2.2.2.2 _ _ _ _ ht ho (by cbv) .revisit⟩

end ScriptIR
