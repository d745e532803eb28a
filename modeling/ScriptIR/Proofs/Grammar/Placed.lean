import ScriptIR.Proofs.Grammar.Numbered
import ScriptIR.Proofs.Grammar.Seats
import ScriptIR.Proofs.Grammar.Sequence
import ScriptIR.Proofs.Lowering.Moved
import ScriptIR.Proofs.Token.Places

namespace ScriptIR

open Grammar

namespace Grammar

variable {tokens : List Token}

theorem between_identifier {name : String} {place : Location} {first : Nat}
    (hp : place = ⟨first, 0⟩) (hw : WordAt tokens first (.name name)) :
    Between tokens first (first + 1) (identifierNode name place).preorder := by
  subst hp
  exact .leaf rfl hw

theorem ArgumentsSpelling.ne_nil {values : List Tree} {word : List Token}
    (h : ArgumentsSpelling values word) : word ≠ [] := by
  cases h with
  | last he => exact he.ne_nil
  | more he _ _ => simp

mutual

theorem ExpressionSpelling.between : ∀ {tree : Tree} {word : List Token} {first last : Nat},
    ExpressionSpelling tree word → Over tokens first last word →
      Between tokens first last tree.preorder
  | _, _, _, _, .operand ho, hover => ho.between hover
  | _, _, _, _, @ExpressionSpelling.binary left right _ _ _ token ho hk he, hover => by
    obtain ⟨middle, hfront, hback⟩ := hover.append
    obtain ⟨hw, hp, hright⟩ := hback.cons
    rw [Token.word_eq_operator.mpr ⟨⟨_, hk⟩, rfl⟩] at hw
    have hsign : Between tokens middle (middle + 1)
        [.node (.operator token.text) [] token.place] := by
      rw [hp]
      exact .leaf rfl hw
    have hbelow := (ho.between hfront).append (hsign.append (he.between hright))
    have hnode := hbelow.consHead (.node .expression
      [left, .node (.operator token.text) [] token.place, right] left.place) rfl
      (fun _ hl => by rw [← Option.some.inj hl])
    simpa [Tree.preorder, Tree.preorderAll] using hnode

theorem OperandSpelling.between : ∀ {tree : Tree} {word : List Token} {first last : Nat},
    OperandSpelling tree word → Over tokens first last word →
      Between tokens first last tree.preorder
  | _, _, first, _, .group hl _ he, hover => by
    obtain ⟨-, hinner⟩ := hover.mark hl
    obtain ⟨middle, hword, hlt⟩ := hinner.closed
    exact (he.between hword).widen (Nat.le_succ first) hlt.le
  | _, _, _, _, .call hn ho hc, hover => by
    obtain ⟨hname, hp, hopen⟩ := hover.name hn
    obtain ⟨hparen, hinner⟩ := hopen.mark ho
    exact hc.between hp hname hparen hinner
  | _, _, _, _, .access hn ho ha, hover => by
    obtain ⟨hname, hp, hopen⟩ := hover.name hn
    obtain ⟨hbracket, hinner⟩ := hopen.mark ho
    exact ha.between hp hname hbracket hinner
  | _, _, _, _, .name hn, hover => by
    obtain ⟨hname, hp, hend⟩ := hover.name hn
    exact (between_identifier hp hname).widen le_rfl hend.le
  | _, _, first, _, @OperandSpelling.literal _ token hk, hover => by
    obtain ⟨hw, hp, hend⟩ := hover.cons
    rw [Token.word_eq_literal.mpr ⟨⟨_, hk⟩, rfl⟩] at hw
    have hleaf : Between tokens first (first + 1) [.node (.literal token.text) [] token.place] := by
      rw [hp]
      exact .leaf rfl hw
    exact hleaf.widen le_rfl hend.le

theorem CallSpelling.between : ∀ {name : String} {place : Location} {tree : Tree}
    {word : List Token} {first last : Nat}, CallSpelling name place tree word →
      place = ⟨first, 0⟩ → WordAt tokens first (.name name) →
      WordAt tokens (first + 1) (.mark .leftParen) → Over tokens (first + 2) last word →
      Between tokens first last tree.preorder
  | name, _, _, _, first, last, .empty _, rfl, hname, hparen, hover => by
    have hle := hover.le
    have hbelow : Between tokens first last ((identifierNode name ⟨first, 0⟩).preorder ++ []) := by
      rw [List.append_nil]
      exact (between_identifier rfl hname).widen le_rfl (by omega)
    exact hbelow.consHead _ rfl ⟨fun _ hc => by rw [← Option.some.inj hc]; rfl, hparen, nofun⟩
  | name, _, _, _, first, last, @CallSpelling.given _ _ values word _ _ ha, rfl, hname, hparen,
      hover => by
    obtain ⟨middle, hword, hlt⟩ := hover.closed
    have hlist : Between tokens (first + 2) middle
        (.node .argumentList values (nextPlace word) :: Tree.preorderAll values) :=
      (ha.between hword).consList _ hword ha.ne_nil rfl fun hp => by
        rw [Tree.place] at hp
        simpa [Seated, hp] using hparen.before
    have hbelow := (between_identifier rfl hname).append (hlist.widen (Nat.le_succ _) hlt.le)
    have hnode := hbelow.consHead
      (.node .call [identifierNode name ⟨first, 0⟩,
        .node .argumentList values (nextPlace word)] ⟨first, 0⟩) rfl
      ⟨fun _ hc => by rw [← Option.some.inj hc]; rfl, hparen, fun _ hl => by
        rw [← Option.some.inj hl]
        exact congrArg Location.line (hword.nextPlace ha.ne_nil)⟩
    simpa [Tree.preorder, Tree.preorderAll] using hnode

theorem ArgumentsSpelling.between : ∀ {values : List Tree} {word : List Token}
    {first last : Nat}, ArgumentsSpelling values word → Over tokens first last word →
      Between tokens first last (Tree.preorderAll values)
  | _, _, _, _, .last he, hover => by
    simpa [Tree.preorderAll] using he.between hover
  | _, _, _, _, .more he hk ha, hover => by
    obtain ⟨middle, hfront, hback⟩ := hover.append
    obtain ⟨-, hrest⟩ := hback.mark hk
    exact (he.between hfront).append ((ha.between hrest).widen (Nat.le_succ middle) le_rfl)

theorem AccessSpelling.between : ∀ {name : String} {place : Location} {tree : Tree}
    {word : List Token} {first last : Nat}, AccessSpelling name place tree word →
      place = ⟨first, 0⟩ → WordAt tokens first (.name name) →
      WordAt tokens (first + 1) (.mark .leftBracket) → Over tokens (first + 2) last word →
      Between tokens first last tree.preorder
  | name, _, _, _, first, last, @AccessSpelling.index _ _ index _ _ _ he, rfl, hname, hbracket,
    hover => by
    obtain ⟨middle, hword, hlt⟩ := hover.closed
    have hbelow := (between_identifier rfl hname).append
      ((he.between hword).widen (Nat.le_succ _) hlt.le)
    have hnode := hbelow.consHead
      (.node .arrayAccess [identifierNode name ⟨first, 0⟩, index] ⟨first, 0⟩) rfl
      ⟨fun _ ha => by rw [← Option.some.inj ha]; rfl, hbracket⟩
    simpa [Tree.preorder, Tree.preorderAll] using hnode

end

mutual

theorem ItemSpelling.between : ∀ {tree : Tree} {word : List Token} {first last : Nat},
    ItemSpelling tree word → Over tokens first last word → Between tokens first last tree.preorder
  | _, _, first, _, .array hk ha, hover => by
    obtain ⟨hw, hinner⟩ := hover.mark hk
    have hp := hover.cons.2.1
    have hopen : Opened tokens .leftBracket _ (first + 1) none := ⟨hw, rfl⟩
    have harray := ha.between (by rw [hp]; exact hopen) hinner
    rwa [hp] at harray
  | _, _, first, _, .keyValue hk hm, hover => by
    obtain ⟨hw, hinner⟩ := hover.mark hk
    have hp := hover.cons.2.1
    have hopen : Opened tokens .leftBrace _ (first + 1) none := ⟨hw, rfl⟩
    have hpairs := hm.between (by rw [hp]; exact hopen) hinner
    rwa [hp] at hpairs
  | _, _, _, _, .expression he, hover => he.between hover

theorem ArraySpelling.between : ∀ {name : Option String} {place : Location} {tree : Tree}
    {word : List Token} {inside last : Nat}, ArraySpelling name place tree word →
      Opened tokens .leftBracket place.line inside name → Over tokens inside last word →
      Between tokens place.line last tree.preorder
  | name, place, _, _, inside, _, @ArraySpelling.items _ _ values word _ _ hi, hopen, hover => by
    obtain ⟨middle, hword, hlt⟩ := hover.closed
    have hlist : Between tokens inside middle
        (.node .expressionList values (nextPlace word) :: Tree.preorderAll values) :=
      (hi.between hword).consList _ hword hi.ne_nil rfl fun hp => by
        rw [Tree.place] at hp
        simpa [Seated, hp] using hopen.before
    have hstart := hopen.lt
    have hinside := hword.le
    have hnode := (hlist.widen hstart.le hlt.le).cons
      (.node (.array name) [.node .expressionList values (nextPlace word)] place) rfl
      (fun _ hl => by
        rw [← Option.some.inj hl, Tree.index, Tree.place, hword.nextPlace hi.ne_nil]
        exact hopen)
      (by omega)
    simpa [Tree.preorder, Tree.preorderAll] using hnode

theorem KeyValueSpelling.between : ∀ {name : Option String} {place : Location} {tree : Tree}
    {word : List Token} {inside last : Nat}, KeyValueSpelling name place tree word →
      Opened tokens .leftBrace place.line inside name → Over tokens inside last word →
      Between tokens place.line last tree.preorder
  | _, place, _, _, inside, last, .empty _, hopen, hover => by
    have hlt : place.line < last := hopen.lt.trans_le hover.le
    exact (Between.nil hlt.le).cons _ rfl ⟨inside, hopen⟩ hlt
  | name, place, _, _, inside, last, @KeyValueSpelling.pairs _ _ entries _ _ _ hp, hopen,
    hover => by
    obtain ⟨middle, hword, hlt⟩ := hover.closed
    have hbelow := (hp.between (.inl hopen.before) hword).widen hopen.lt.le hlt.le
    have hstart := hopen.lt
    have hinside := hover.le
    exact hbelow.cons (.node (.keyValue name) entries place) rfl ⟨inside, hopen⟩
      (by omega)

theorem ItemsSpelling.between : ∀ {values : List Tree} {word : List Token} {first last : Nat},
    ItemsSpelling values word → Over tokens first last word →
      Between tokens first last (Tree.preorderAll values)
  | _, _, _, _, .last hi, hover => by
    simpa [Tree.preorderAll] using hi.between hover
  | _, _, _, _, .more hi hk hm, hover => by
    obtain ⟨middle, hfront, hback⟩ := hover.append
    obtain ⟨-, hrest⟩ := hback.mark hk
    exact (hi.between hfront).append ((hm.between hrest).widen (Nat.le_succ middle) le_rfl)

theorem PairSpelling.between : ∀ {tree : Tree} {word : List Token} {first last : Nat},
    PairSpelling tree word →
      (WordBefore tokens first (.mark .leftBrace) ∨ WordBefore tokens first (.mark .comma)) →
      Over tokens first last word → Between tokens first last tree.preorder
  | _, _, first, _, @PairSpelling.pair key value front _ _ he hk hi, hbefore,
      hover => by
    obtain ⟨middle, hfront, hback⟩ := hover.append
    obtain ⟨-, hrest⟩ := hback.mark hk
    have hbelow := (he.between hfront).append
      ((hi.between hrest).widen (Nat.le_succ middle) le_rfl)
    have hplace := hfront.nextPlace he.ne_nil
    have hnode := hbelow.cons (.node .pair [key, value] (nextPlace front))
      (congrArg Location.line hplace) (by simpa [Seated, hplace] using hbefore)
      ((hfront.lt he.ne_nil).trans_le hback.le)
    simpa [Tree.preorder, Tree.preorderAll] using hnode

theorem PairsSpelling.between : ∀ {entries : List Tree} {word : List Token} {first last : Nat},
    PairsSpelling entries word →
      (WordBefore tokens first (.mark .leftBrace) ∨ WordBefore tokens first (.mark .comma)) →
      Over tokens first last word → Between tokens first last (Tree.preorderAll entries)
  | _, _, _, _, .last hp, hbefore, hover => by
    simpa [Tree.preorderAll] using hp.between hbefore hover
  | _, _, _, _, .more hp hk hm, hbefore, hover => by
    obtain ⟨middle, hfront, hback⟩ := hover.append
    obtain ⟨hw, hrest⟩ := hback.mark hk
    exact (hp.between hbefore hfront).append
      ((hm.between (.inr hw.before) hrest).widen (Nat.le_succ middle) le_rfl)

end

theorem TargetSpelling.between {name : String} {tree : Tree} {word : List Token}
    {first last : Nat} (h : TargetSpelling name ⟨first, 0⟩ tree word)
    (hname : WordAt tokens first (.name name)) (hover : Over tokens (first + 1) last word) :
    Between tokens first last tree.preorder ∧ tree.place = ⟨first, 0⟩ := by
  cases h with
  | name => exact ⟨(between_identifier rfl hname).widen le_rfl hover.le, rfl⟩
  | element hk ha =>
    obtain ⟨hbracket, hinner⟩ := hover.mark hk
    refine ⟨ha.between rfl hname hbracket hinner, ?_⟩
    cases ha
    rfl

theorem AssignmentSpelling.between {name : String} {tree : Tree} {word : List Token}
    {first last : Nat} (h : AssignmentSpelling name ⟨first, 0⟩ tree word)
    (hname : WordAt tokens first (.name name)) (hover : Over tokens (first + 1) last word) :
    Between tokens first last tree.preorder := by
  cases h with
  | @assign target value _ _ _ _ hk _ ht he =>
    obtain ⟨middle, hfront, hback⟩ := hover.append
    obtain ⟨-, hrest⟩ := hback.mark hk
    obtain ⟨final, hword, hlt⟩ := hrest.closed
    obtain ⟨htarget, hplace⟩ := ht.between hname hfront
    have hbelow := htarget.append ((he.between hword).widen (Nat.le_succ middle) hlt.le)
    have hnode := hbelow.consHead (.node .assignment [target, value] ⟨first, 0⟩)
      hplace.symm (fun _ htree => by rw [← Option.some.inj htree]; exact hplace)
    simpa [Tree.preorder, Tree.preorderAll] using hnode

theorem ReturnSpelling.between {tree : Tree} {word : List Token} {first last : Nat}
    (h : ReturnSpelling ⟨first, 0⟩ tree word)
    (hw : WordAt tokens first (.keyword .returnWord)) (hover : Over tokens (first + 1) last word) :
    Between tokens first last tree.preorder := by
  have hlt : first < last := hover.le
  cases h with
  | bare hk => exact (Between.nil hlt.le).cons _ rfl hw hlt
  | @giving value _ _ _ he =>
    obtain ⟨middle, hword, hend⟩ := hover.closed
    have hbelow := (he.between hword).widen (Nat.le_succ first) hend.le
    have hnode := hbelow.cons (.giving value [] ⟨first, 0⟩) rfl hw hlt
    simpa [Tree.preorder, Tree.preorderAll] using hnode

theorem ConditionSpelling.between {tree : Tree} {word : List Token} {first last : Nat}
    (h : ConditionSpelling tree word) (hover : Over tokens first last word) :
    Between tokens first last tree.preorder := by
  cases h with
  | parens hl _ he =>
    obtain ⟨-, hinner⟩ := hover.mark hl
    obtain ⟨middle, hword, hlt⟩ := hinner.closed
    exact (he.between hword).widen (Nat.le_succ first) hlt.le

theorem LoopHeadSpelling.between {counter : String} {low high : Tree} {word : List Token}
    {first last : Nat} (h : LoopHeadSpelling (counter, low, high) word)
    (hover : Over tokens first last word) :
    WordAt tokens first (.mark .leftParen) ∧ WordAt tokens (first + 1) (.name counter) ∧
      Between tokens first last (low.preorder ++ high.preorder) := by
  cases h with
  | parens ho hn hc hk _ hf hl =>
    obtain ⟨hparen, hcounter⟩ := hover.mark ho
    obtain ⟨hname, -, hcolon⟩ := hcounter.name hn
    obtain ⟨-, hbounds⟩ := hcolon.mark hc
    obtain ⟨middle, hlow, hback⟩ := hbounds.append
    obtain ⟨-, hrest⟩ := hback.mark hk
    obtain ⟨final, hhigh, hlt⟩ := hrest.closed
    refine ⟨hparen, hname, ?_⟩
    exact ((hf.between hlow).widen (by omega) le_rfl).append
      ((hl.between hhigh).widen (Nat.le_succ middle) hlt.le)

mutual

theorem StatementSpelling.between : ∀ {hangs : Bool} {tree : Tree} {word : List Token}
    {first last : Nat}, StatementSpelling hangs tree word → Over tokens first last word →
      Between tokens first last tree.preorder
  | _, _, _, _, _, .call hn ho _ hc, hover => by
    obtain ⟨hname, hp, hopen⟩ := hover.name hn
    obtain ⟨hparen, hinner⟩ := hopen.mark ho
    obtain ⟨middle, hword, hlt⟩ := hinner.closed
    exact (hc.between hp hname hparen hword).widen le_rfl hlt.le
  | _, _, _, _, _, .assignment hn ha, hover => by
    obtain ⟨hname, hp, hrest⟩ := hover.name hn
    rw [hp] at ha
    exact ha.between hname hrest
  | _, _, _, _, _, .branching hk hi, hover => by
    obtain ⟨hw, hp, hrest⟩ := hover.keyword hk
    exact hi.between hp hw hrest
  | _, _, _, _, _, .loop hk hl, hover => by
    obtain ⟨hw, hp, hrest⟩ := hover.keyword hk
    exact hl.between hp hw hrest
  | _, _, _, _, _, .returning hk hr, hover => by
    obtain ⟨hw, hp, hrest⟩ := hover.keyword hk
    rw [hp] at hr
    exact hr.between hw hrest
  | _, _, _, first, _, @StatementSpelling.block statements _ _ hk hb, hover => by
    obtain ⟨hw, hrest⟩ := hover.mark hk
    have hp := hover.cons.2.1
    have hbelow := (hb.between hrest).widen (Nat.le_succ first) le_rfl
    rw [hp]
    exact hbelow.cons (.node .block statements ⟨first, 0⟩) rfl hw hrest.le

theorem IfSpelling.between : ∀ {hangs : Bool} {place : Location} {tree : Tree}
    {word : List Token} {first last : Nat}, IfSpelling hangs place tree word →
      place = ⟨first, 0⟩ → WordAt tokens first (.keyword .ifWord) →
      Over tokens (first + 1) last word → Between tokens first last tree.preorder
  | _, _, _, _, first, _, @IfSpelling.lone _ _ tree branch _ _ hc hs, hp, hw, hover => by
    subst hp
    obtain ⟨middle, hfront, hback⟩ := hover.append
    have hbelow := ((hc.between hfront).append (hs.between hback)).widen (Nat.le_succ first) le_rfl
    have hnode := hbelow.cons (.node .ifStatement [tree, branch] ⟨first, 0⟩) rfl hw hover.le
    simpa [Tree.preorder, Tree.preorderAll] using hnode
  | _, _, _, _, first, last, @IfSpelling.withElse _ _ tree branch other _ _ _ elseWord hc hs hk
      ho, hp, hw, hover => by
    subst hp
    obtain ⟨middle, hfront, hback⟩ := hover.append
    obtain ⟨final, hbranch, helse⟩ := hback.append
    obtain ⟨he, hplace, hother⟩ := helse.keyword hk
    have hotherNode : Between tokens final last
        (.node .elseStatement [other] elseWord.place :: other.preorder) := by
      rw [hplace]
      exact ((ho.between hother).widen (Nat.le_succ final) le_rfl).cons _ rfl he hother.le
    have hbelow := ((hc.between hfront).append ((hs.between hbranch).append hotherNode)).widen
      (Nat.le_succ first) le_rfl
    have hnode := hbelow.cons (.node .ifStatement
      [tree, branch, .node .elseStatement [other] elseWord.place] ⟨first, 0⟩) rfl hw hover.le
    simpa [Tree.preorder, Tree.preorderAll] using hnode

theorem LoopSpelling.between : ∀ {hangs : Bool} {place : Location} {tree : Tree}
    {word : List Token} {first last : Nat}, LoopSpelling hangs place tree word →
      place = ⟨first, 0⟩ → WordAt tokens first (.keyword .forWord) →
      Over tokens (first + 1) last word → Between tokens first last tree.preorder
  | _, _, _, _, first, last, @LoopSpelling.braced _ counter low high statements _ _ _ hh hk hb,
      hp, hw, hover => by
    subst hp
    obtain ⟨middle, hfront, hback⟩ := hover.append
    obtain ⟨hparen, hname, hbounds⟩ := hh.between hfront
    obtain ⟨-, hbody⟩ := hback.mark hk
    have hbelow := (hbounds.append ((hb.between hbody).widen (Nat.le_succ middle) le_rfl)).widen
      (Nat.le_succ first) le_rfl
    have hnode := hbelow.cons (.loop counter low high statements ⟨first, 0⟩) rfl
      ⟨hw, hparen, hname⟩ hover.le
    simpa [Tree.preorder] using hnode
  | _, _, _, _, first, last, @LoopSpelling.single _ _ counter low high only _ _ _ hh _ hs,
      hp, hw, hover => by
    subst hp
    obtain ⟨middle, hfront, hback⟩ := hover.append
    obtain ⟨hparen, hname, hbounds⟩ := hh.between hfront
    have hbelow := (hbounds.append (hs.between hback)).widen (Nat.le_succ first) le_rfl
    have hnode := hbelow.cons (.loop counter low high [only] ⟨first, 0⟩) rfl
      ⟨hw, hparen, hname⟩ hover.le
    simpa [Tree.preorder, Tree.preorderAll] using hnode

theorem BodySpelling.between : ∀ {statements : List Tree} {word : List Token}
    {first last : Nat}, BodySpelling statements word → Over tokens first last word →
      Between tokens first last (Tree.preorderAll statements)
  | _, _, _, _, .close _, hover => .nil hover.le
  | _, _, _, _, .cons hs hb, hover => by
    obtain ⟨middle, hfront, hback⟩ := hover.append
    exact (hs.between hfront).append (hb.between hback)

end

theorem ParametersSpelling.ne_nil {names : List Tree} {word : List Token}
    (h : ParametersSpelling names word) : word ≠ [] := by
  cases h <;> simp

theorem ParametersSpelling.between {names : List Tree} {word : List Token} {first last : Nat}
    (h : ParametersSpelling names word) (hover : Over tokens first last word) :
    Between tokens first last (Tree.preorderAll names) := by
  induction h generalizing first with
  | last hk =>
    obtain ⟨hname, hp, hend⟩ := hover.name hk
    have hbelow := (between_identifier hp hname).widen le_rfl hend.le
    simpa [Tree.preorderAll] using hbelow
  | more hn hk _ ih =>
    obtain ⟨hname, hp, hcomma⟩ := hover.name hn
    obtain ⟨-, hrest⟩ := hcomma.mark hk
    exact (between_identifier hp hname).append ((ih hrest).widen (Nat.le_succ _) le_rfl)

theorem ParameterListSpelling.between {tree : Tree} {word : List Token} {first last : Nat}
    (h : ParameterListSpelling tree word) (hparen : WordBefore tokens first (.mark .leftParen))
    (hover : Over tokens first last word) :
    Between tokens first last tree.preorder ∧ tree.index = first := by
  cases h with
  | empty hk =>
    obtain ⟨hw, hp, hend⟩ := hover.cons
    rw [Token.word_eq_mark.mpr hk] at hw
    rw [hp]
    exact ⟨(Between.nil hover.le).cons _ rfl ⟨hparen, nofun, fun _ => hw⟩ hend.le, rfl⟩
  | @names names word _ _ hs =>
    obtain ⟨middle, hword, hlt⟩ := hover.closed
    have hplace := hword.nextPlace hs.ne_nil
    have hfirst : (∀ first ∈ names.head?, first.place = nextPlace word) ∧ names ≠ [] := by
      cases hs <;> exact ⟨fun _ hn => by rw [← Option.some.inj hn]; rfl, nofun⟩
    have hnode := (hs.between hword).cons (.node .paramList names (nextPlace word))
      (congrArg Location.line hplace)
      ⟨by rw [hplace]; exact hparen, hfirst.1, fun hn => (hfirst.2 hn).elim⟩ (hword.lt hs.ne_nil)
    exact ⟨hnode.widen le_rfl hlt.le, congrArg Location.line hplace⟩

theorem MainSpelling.between {tree : Tree} {word : List Token} {first last : Nat}
    (h : MainSpelling ⟨first, 0⟩ tree word) (hw : WordAt tokens first (.keyword .mainWord))
    (hover : Over tokens (first + 1) last word) : Between tokens first last tree.preorder := by
  have hlt : first < last := hover.le
  cases h with
  | main hl hr ho hb =>
    obtain ⟨-, hright⟩ := hover.mark hl
    obtain ⟨-, hopen⟩ := hright.mark hr
    obtain ⟨-, hbody⟩ := hopen.mark ho
    exact ((hb.between hbody).widen (by omega) le_rfl).cons _ rfl hw hlt

theorem FunctionSpelling.between {tree : Tree} {word : List Token} {first last : Nat}
    (h : FunctionSpelling ⟨first, 0⟩ tree word)
    (hw : WordAt tokens first (.keyword .functionWord))
    (hover : Over tokens (first + 1) last word) : Between tokens first last tree.preorder := by
  have hlt : first < last := hover.le
  cases h with
  | function hn hl hp ho hb =>
    obtain ⟨hname, -, hleft⟩ := hover.name hn
    obtain ⟨hparen, hrest⟩ := hleft.mark hl
    obtain ⟨middle, hfront, hback⟩ := hrest.append
    obtain ⟨-, hbody⟩ := hback.mark ho
    obtain ⟨hparams, hindex⟩ := hp.between hparen.before hfront
    have hbelow := hparams.append ((hb.between hbody).widen (Nat.le_succ middle) le_rfl)
    exact (hbelow.widen (by omega) le_rfl).cons _ rfl ⟨hw, hname, hparen, hindex⟩ hlt

theorem VariableSpelling.between {name : String} {tree : Tree} {word : List Token}
    {first last : Nat} (h : VariableSpelling name ⟨first, 0⟩ tree word)
    (hname : WordAt tokens first (.name name)) (hover : Over tokens (first + 1) last word) :
    Between tokens first last tree.preorder := by
  have hlt : first < last := hover.le
  cases h with
  | array hs ho _ ha =>
    obtain ⟨-, hopen⟩ := hover.mark hs
    obtain ⟨hbracket, hinner⟩ := hopen.mark ho
    obtain ⟨middle, hword, hend⟩ := hinner.closed
    exact (ha.between ⟨hname, hbracket, rfl⟩ hword).widen le_rfl hend.le
  | keyValue hs ho _ hm =>
    obtain ⟨-, hopen⟩ := hover.mark hs
    obtain ⟨hbrace, hinner⟩ := hopen.mark ho
    obtain ⟨middle, hword, hend⟩ := hinner.closed
    exact (hm.between ⟨hname, hbrace, rfl⟩ hword).widen le_rfl hend.le
  | @value _ _ tree _ hs _ he =>
    obtain ⟨-, hrest⟩ := hover.mark hs
    obtain ⟨middle, hword, hend⟩ := hrest.closed
    have hbelow := (he.between hword).widen (by omega : first ≤ first + 1 + 1) hend.le
    have hnode := hbelow.cons (.node (.varDecl name) [tree] ⟨first, 0⟩) rfl hname hlt
    simpa [Tree.preorder, Tree.preorderAll] using hnode

theorem DeclarationSpelling.between {tree : Tree} {word : List Token} {first last : Nat}
    (h : DeclarationSpelling tree word) (hover : Over tokens first last word) :
    Between tokens first last tree.preorder := by
  cases h with
  | main hk hm =>
    obtain ⟨hw, hp, hrest⟩ := hover.keyword hk
    rw [hp] at hm
    exact hm.between hw hrest
  | function hk hf =>
    obtain ⟨hw, hp, hrest⟩ := hover.keyword hk
    rw [hp] at hf
    exact hf.between hw hrest
  | named hn hv =>
    obtain ⟨hw, hp, hrest⟩ := hover.name hn
    rw [hp] at hv
    exact hv.between hw hrest

theorem ProgramSpelling.between {trees : List Tree} {word : List Token} {first last : Nat}
    (h : ProgramSpelling trees word) (hover : Over tokens first last word) :
    Between tokens first last (Tree.preorderAll trees) := by
  induction h generalizing first with
  | nil => exact .nil hover.le
  | cons hd _ ih =>
    obtain ⟨middle, hfront, hback⟩ := hover.append
    exact (hd.between hfront).append (ih hback)

theorem result_closedBy_eq_ok {α : Type} {n : Nat} {outcome : Outcome α n} {kind : TokenKind}
    {role : String} {value : α} {rest : List Token} :
    (outcome.closedBy kind role).result = .ok (value, rest) ↔
      ∃ closing : Token, closing.kind = kind ∧ outcome.result = .ok (value, closing :: rest) := by
  cases outcome with
  | refused wanted rest =>
    constructor
    · intro h
      cases h
    · rintro ⟨closing, -, h⟩
      cases h
  | parsed found behind shorter =>
    rw [Outcome.closedBy, Outcome.andThen, Outcome.andMaybe, Outcome.result_within,
      Outcome.result_loosen, Outcome.result]
    cases behind with
    | nil => simp [expect, Outcome.map, Outcome.result]
    | cons closing more =>
      by_cases hk : closing.kind = kind
      · have hresult : ((expect kind role (closing :: more)).map fun _ => found).result =
            .ok (found, more) := by
          rw [expect, if_pos hk]
          rfl
        rw [hresult]
        simp only [Except.ok.injEq, Prod.mk.injEq, List.cons.injEq]
        constructor
        · rintro ⟨rfl, rfl⟩
          exact ⟨closing, hk, rfl, rfl, rfl⟩
        · rintro ⟨_, -, rfl, -, rfl⟩
          exact ⟨rfl, rfl⟩
      · have hresult : ((expect kind role (closing :: more)).map fun _ => found).result =
            .error (.token kind role, closing :: more) := by
          rw [expect, if_neg hk]
          rfl
        rw [hresult]
        constructor
        · intro h
          cases h
        · rintro ⟨next, hn, h⟩
          simp only [Except.ok.injEq, Prod.mk.injEq, List.cons.injEq] at h
          exact (hk (by rw [h.2.1, hn])).elim

-- A group is the tree of what is inside of its parentheses, and so it stands where that does.
theorem operand_group {opening : Token} (ho : opening.kind = .mark .leftParen)
    (inner rest : List Token) (tree : Tree) :
    (operand (opening :: inner)).result = .ok (tree, rest) ↔
      ∃ closing : Token, closing.kind = .mark .rightParen ∧
        (expression inner).result = .ok (tree, closing :: rest) := by
  obtain ⟨kind, text, place⟩ := opening
  obtain rfl : kind = .mark .leftParen := ho
  rw [operand, Outcome.result_loosen, result_closedBy_eq_ok]

end Grammar

theorem over_indexed (tokens : List Token) : Over tokens 0 tokens.length (indexed tokens) := by
  refine ⟨by simp [indexed], fun i token hi => ?_⟩
  rw [indexed, List.getElem?_mapIdx, Option.map_eq_some_iff] at hi
  obtain ⟨old, hold, rfl⟩ := hi
  rw [Nat.zero_add, WordAt, hold]
  exact ⟨rfl, rfl⟩

theorem roles_indexed (tokens : List Token) : roles (indexed tokens) = roles tokens := by
  apply List.ext_getElem
  · simp [roles, indexed]
  · simp [roles, indexed]

-- Each number becomes the place that it stands for.
theorem indexed_moving (tokens : List Token) :
    (indexed tokens).map (Renaming.moving (placeAt tokens)).token = tokens := by
  apply List.ext_getElem
  · simp [indexed]
  · intro index _ hi
    simp [indexed, Renaming.token, Renaming.moving, placeAt, List.getElem?_eq_getElem hi]

namespace Tree

variable (move : Location → Location)

mutual

theorem preorder_moved : ∀ tree : Tree,
    (moved move tree).preorder = tree.preorder.map (moved move)
  | .node kind children place => by simp [preorder, preorderAll_moved children]
  | .function name params children place => by
    simp [preorder, preorder_moved params, preorderAll_moved children]
  | .loop counter first last children place => by
    simp [preorder, preorder_moved first, preorder_moved last, preorderAll_moved children]
  | .giving value children place => by
    simp [preorder, preorder_moved value, preorderAll_moved children]

theorem preorderAll_moved : ∀ trees : List Tree,
    preorderAll (movedAll move trees) = (preorderAll trees).map (moved move)
  | [] => rfl
  | tree :: rest => by simp [preorderAll, preorder_moved tree, preorderAll_moved rest]

end

end Tree

-- The tree of the numbered tokens is the tree of the tokens, with the numbers of the
-- tokens that its nodes stand at.
theorem exists_layout {tokens : List Token} {tree : Tree} (h : parse tokens = .ok tree) :
    ∃ layout, parse (indexed tokens) = .ok (.node .program layout .start) ∧
      tree = .node .program (Tree.movedAll (placeAt tokens) layout) .start ∧
      Between tokens 0 tokens.length (Tree.preorderAll layout) := by
  obtain ⟨skeleton, -, hall⟩ | ⟨wanted, index, -, hall⟩ := parse_by_roles tokens
  · have hlayout := hall (indexed tokens) ⟨.identifier, "", .start⟩ (roles_indexed tokens)
    refine ⟨_, hlayout, ?_, ?_⟩
    · have hmoved := (parse_map (.moving (placeAt tokens)) (indexed tokens)).1 _ hlayout
      rw [indexed_moving, h] at hmoved
      exact Except.ok.inj hmoved
    · obtain ⟨trees, ht, hspelled⟩ := parse_eq_ok_iff.mp hlayout
      cases ht
      exact hspelled.between (over_indexed tokens)
  · rw [hall tokens rfl] at h
    cases h

theorem exists_placeAt {tokens : List Token} {number : Location}
    (h : number.line < tokens.length) :
    ∃ token ∈ tokens, tokens[number.line]? = some token ∧ placeAt tokens number = token.place := by
  refine ⟨tokens[number.line], List.getElem_mem h, List.getElem?_eq_getElem h, ?_⟩
  rw [placeAt, List.getElem?_eq_getElem h]
  rfl

-- Where the tokens of a list stand further and further on, so do the nodes.
theorem placeAt_mono {tokens : List Token}
    (h : tokens.Pairwise fun one next => one.place < next.place) {one next : Location}
    (hle : one.line ≤ next.line) (hlt : next.line < tokens.length) :
    placeAt tokens one ≤ placeAt tokens next := by
  obtain ⟨first, -, hf, hp⟩ := exists_placeAt (hle.trans_lt hlt)
  obtain ⟨second, -, hs, hp'⟩ := exists_placeAt hlt
  rw [hp, hp']
  obtain ⟨hone, rfl⟩ := List.getElem?_eq_some_iff.mp hf
  obtain ⟨hnext, rfl⟩ := List.getElem?_eq_some_iff.mp hs
  rcases hle.eq_or_lt with he | hless
  · simp [he]
  · exact (List.pairwise_iff_getElem.mp h _ _ hone hnext hless).le

-- The places of an operation and its left operand are the same token, and so they are moved
-- alike.
theorem Seated.place_moved {tokens : List Token} {move : Location → Location} {node left : Tree}
    {more : List Tree} {place : Location} (h : Seated tokens node)
    (he : node.moved move = .node .expression (left :: more) place) : place = left.place := by
  cases node with
  | node kind children old =>
    rw [Tree.moved_node] at he
    obtain ⟨rfl, hc, rfl⟩ := Tree.node.inj he
    cases children with
    | nil => cases hc
    | cons first rest =>
      obtain ⟨hfirst, -⟩ := List.cons.inj hc
      rw [← hfirst, ← h first rfl]
      exact (Tree.place_moved move first).symm
  | _ => cases he

theorem pairwise_places {source : String} {tree : Tree}
    (h : parse (Lexed.ofSource source).tokens = .ok tree) :
    (tree.preorder.map Tree.place).Pairwise (· ≤ ·) := by
  have hordered : (Lexed.ofSource source).tokens.Pairwise fun one next => one.place < next.place :=
    pairwise_tokensFrom .start source.toList
  obtain ⟨layout, -, rfl, hbetween⟩ := exists_layout h
  rw [Tree.preorder, Tree.preorderAll_moved, List.map_cons, List.map_map]
  refine .cons (fun place hp => ?_) ?_
  · -- the program stands in front of all tokens
    obtain ⟨node, hn, rfl⟩ := List.mem_map.mp hp
    obtain ⟨token, hm, -, htoken⟩ := exists_placeAt (hbetween.bounds node hn).2
    rw [Function.comp_apply, Tree.place_moved, htoken]
    exact le_place_of_mem_tokensFrom .start source.toList hm
  · rw [List.pairwise_map]
    refine hbetween.sorted.imp_of_mem fun hone hnext hle => ?_
    rw [Function.comp_apply, Function.comp_apply, Tree.place_moved, Tree.place_moved]
    exact placeAt_mono hordered hle (hbetween.bounds _ hnext).2

-- Every node but the program stands at one token, and which one it is follows from its kind.
-- From each node to the next of a tree these tokens never go back. A group leaves no node,
-- and is the tree that it has inside.
theorem places_follow_tokens :
    (∀ tokens tree, parse tokens = .ok tree →
      (∃ layout, parse (indexed tokens) = .ok (.node .program layout .start) ∧
        tree = .node .program (Tree.movedAll (placeAt tokens) layout) .start ∧
        (∀ node ∈ Tree.preorderAll layout, node.index < tokens.length ∧ Seated tokens node) ∧
        ((Tree.preorderAll layout).map Tree.index).Pairwise (· ≤ ·)) ∧
      (∀ node ∈ Tree.preorderAll tree.children, ∃ token ∈ tokens, node.place = token.place) ∧
      ∀ left more place, .node .expression (left :: more) place ∈ tree.preorder →
        place = left.place) ∧
    (∀ (opening : Token) (inner rest : List Token) (tree : Tree),
      opening.kind = .mark .leftParen →
      ((operand (opening :: inner)).result = .ok (tree, rest) ↔
        ∃ closing : Token, closing.kind = .mark .rightParen ∧
          (expression inner).result = .ok (tree, closing :: rest))) ∧
    ∀ source tree, parse (Lexed.ofSource source).tokens = .ok tree →
      (tree.preorder.map Tree.place).Pairwise (· ≤ ·) := by
  refine ⟨fun tokens tree h => ?_, fun opening inner rest tree ho =>
    operand_group ho inner rest tree, fun source tree => pairwise_places⟩
  obtain ⟨layout, hparse, rfl, hbetween⟩ := exists_layout h
  refine ⟨⟨layout, hparse, rfl, fun node hn => ?_, List.pairwise_map.mpr hbetween.sorted⟩,
    fun node hn => ?_, fun left more place hn => ?_⟩
  · exact ⟨(hbetween.bounds node hn).2, hbetween.seated node hn⟩
  · rw [Tree.children, Tree.preorderAll_moved] at hn
    obtain ⟨old, hold, rfl⟩ := List.mem_map.mp hn
    obtain ⟨token, hm, -, hplace⟩ := exists_placeAt (hbetween.bounds old hold).2
    exact ⟨token, hm, by rw [Tree.place_moved, hplace]⟩
  · rw [Tree.preorder, Tree.preorderAll_moved, List.mem_cons] at hn
    obtain hn | hn := hn
    · cases hn
    · obtain ⟨old, hold, he⟩ := List.mem_map.mp hn
      exact (hbetween.seated old hold).place_moved he

-- A group in an expression, and aggregates in an aggregate.
theorem places_of_nested :
    let source := "a = [((1) + b), \x7bc: [2]\x7d];"
    ∃ tree, parse (Lexed.ofSource source).tokens = .ok tree ∧
      tree.preorder.map Tree.place =
        [⟨1, 1⟩, ⟨1, 1⟩, ⟨1, 6⟩, ⟨1, 8⟩, ⟨1, 8⟩, ⟨1, 11⟩, ⟨1, 13⟩, ⟨1, 17⟩, ⟨1, 18⟩, ⟨1, 18⟩,
          ⟨1, 21⟩, ⟨1, 22⟩, ⟨1, 22⟩] ∧
      (tree.preorder.map Tree.place).Pairwise (· ≤ ·) ∧
      (∃ layout, parse (indexed (Lexed.ofSource source).tokens) =
          .ok (.node .program layout .start) ∧
        tree = .node .program (Tree.movedAll (placeAt (Lexed.ofSource source).tokens) layout)
          .start ∧
        (∀ node ∈ Tree.preorderAll layout, node.index < (Lexed.ofSource source).tokens.length ∧
          Seated (Lexed.ofSource source).tokens node) ∧
        ((Tree.preorderAll layout).map Tree.index).Pairwise (· ≤ ·)) ∧
      (operand [⟨.mark .leftParen, "(", ⟨1, 7⟩⟩, ⟨.literal .int, "1", ⟨1, 8⟩⟩,
        ⟨.mark .rightParen, ")", ⟨1, 9⟩⟩]).result = .ok (.node (.literal "1") [] ⟨1, 8⟩, []) := by
  have h : parse (Lexed.ofSource "a = [((1) + b), \x7bc: [2]\x7d];").tokens =
      .ok (.node .program
        [.node (.array (some "a"))
          [.node .expressionList
            [.node .expression [.node (.literal "1") [] ⟨1, 8⟩, .node (.operator "+") [] ⟨1, 11⟩,
                identifierNode "b" ⟨1, 13⟩] ⟨1, 8⟩,
              .node (.keyValue none)
                [.node .pair
                  [identifierNode "c" ⟨1, 18⟩,
                    .node (.array none)
                      [.node .expressionList [.node (.literal "2") [] ⟨1, 22⟩] ⟨1, 22⟩] ⟨1, 21⟩]
                  ⟨1, 18⟩]
                ⟨1, 17⟩]
            ⟨1, 6⟩]
          ⟨1, 1⟩] .start) := by
    cbv
  obtain ⟨hlist, hgroup, hsource⟩ := places_follow_tokens
  exact ⟨_, h, rfl, hsource _ _ h, (hlist _ _ h).1,
    (hgroup _ _ _ _ rfl).mpr ⟨⟨.mark .rightParen, ")", ⟨1, 9⟩⟩, rfl, by cbv⟩⟩

end ScriptIR
