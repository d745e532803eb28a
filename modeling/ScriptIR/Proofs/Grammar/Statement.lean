import ScriptIR.Proofs.Grammar.Expression

namespace ScriptIR.Grammar

def conditionPhrase : Phrase Tree := .whole ConditionSpelling

def loopHeadPhrase : Phrase (String × Tree × Tree) := .whole LoopHeadSpelling

def assignmentPhrase (name : String) (place : Location) : Phrase Tree :=
  .whole (AssignmentSpelling name place)

def returnPhrase (place : Location) : Phrase Tree := .whole (ReturnSpelling place)

-- A spelling that hangs is not done where an else follows.
def hangingPhrase (spells : Bool → Tree → List Token → Prop) : Phrase Tree where
  spells tree word := ∃ hangs, spells hangs tree word
  fits tree word behind := ∃ hangs, spells hangs tree word ∧
    (hangs = true → ∀ token, behind.head? = some token → token.kind ≠ .keyword .elseWord)

def statementPhrase : Phrase Tree := hangingPhrase StatementSpelling

def ifPhrase (place : Location) : Phrase Tree := hangingPhrase fun hangs => IfSpelling hangs place

def loopPhrase (place : Location) : Phrase Tree :=
  hangingPhrase fun hangs => LoopSpelling hangs place

def bodyPhrase : Phrase (List Tree) := .whole BodySpelling

-- Whether a statement may begin with a token.
def startsStatement : TokenKind → Bool
  | .identifier | .keyword .ifWord | .keyword .forWord | .keyword .returnWord
  | .mark .leftBrace => true
  | _ => false

theorem StatementSpelling.head {hangs : Bool} {tree : Tree} {word : List Token}
    (h : StatementSpelling hangs tree word) :
    ∃ token rest, word = token :: rest ∧ startsStatement token.kind = true := by
  cases h with
  | call hk _ _ _ => exact ⟨_, _, rfl, by rw [hk]; rfl⟩
  | assignment hk _ => exact ⟨_, _, rfl, by rw [hk]; rfl⟩
  | branching hk _ => exact ⟨_, _, rfl, by rw [hk]; rfl⟩
  | loop hk _ => exact ⟨_, _, rfl, by rw [hk]; rfl⟩
  | returning hk _ => exact ⟨_, _, rfl, by rw [hk]; rfl⟩
  | block hk _ => exact ⟨_, _, rfl, by rw [hk]; rfl⟩

-- No else follows a statement within a body.
theorem BodySpelling.head {statements : List Tree} {word : List Token}
    (h : BodySpelling statements word) :
    ∃ token rest, word = token :: rest ∧ token.kind ≠ .keyword .elseWord := by
  cases h with
  | close hk => exact ⟨_, [], rfl, by rw [hk]; nofun⟩
  | cons hs _ =>
    obtain ⟨token, rest, rfl, hk⟩ := hs.head
    refine ⟨token, _, rfl, ?_⟩
    intro he
    rw [he] at hk
    cases hk

section attach

variable {hangs : Bool} {other : Tree} {elseWord : Token} {back : List Token}

mutual

-- An else behind a statement that hangs can always be read on. It goes to the
-- innermost if that lacks one, so the whole may hang again.
theorem StatementSpelling.attach : ∀ {tree : Tree} {word : List Token},
    StatementSpelling true tree word → elseWord.kind = .keyword .elseWord →
      StatementSpelling hangs other back →
      ∃ hangs' whole, StatementSpelling hangs' whole (word ++ elseWord :: back)
  | _, _, .branching hk h, he, ho =>
    have ⟨_, _, hw⟩ := h.attach he ho
    ⟨_, _, .branching hk hw⟩
  | _, _, .loop hk h, he, ho =>
    have ⟨_, _, hw⟩ := h.attach he ho
    ⟨_, _, .loop hk hw⟩

theorem IfSpelling.attach : ∀ {place : Location} {tree : Tree} {word : List Token},
    IfSpelling true place tree word → elseWord.kind = .keyword .elseWord →
      StatementSpelling hangs other back →
      ∃ hangs' whole, IfSpelling hangs' place whole (word ++ elseWord :: back)
  | _, _, _, @IfSpelling.lone true _ _ _ _ _ hc hs, he, ho => by
    obtain ⟨_, _, hw⟩ := hs.attach he ho
    exact ⟨_, _, by simpa using IfSpelling.lone hc hw⟩
  | _, _, _, @IfSpelling.lone false _ _ _ _ _ hc hs, he, ho =>
    ⟨_, _, by simpa using IfSpelling.withElse hc hs he ho⟩
  | _, _, _, .withElse hc hs hk h, he, ho => by
    obtain ⟨_, _, hw⟩ := h.attach he ho
    exact ⟨_, _, by simpa using IfSpelling.withElse hc hs hk hw⟩

theorem LoopSpelling.attach : ∀ {place : Location} {tree : Tree} {word : List Token},
    LoopSpelling true place tree word → elseWord.kind = .keyword .elseWord →
      StatementSpelling hangs other back →
      ∃ hangs' whole, LoopSpelling hangs' place whole (word ++ elseWord :: back)
  | _, _, _, .single hh hn h, he, ho => by
    obtain ⟨_, _, hw⟩ := h.attach he ho
    exact ⟨_, _, by simpa using LoopSpelling.single hh hn hw⟩

end

end attach

-- An expression and a token that ends it without fail.
def closedExpression (kind : TokenKind) : Phrase Tree :=
  .whole fun tree word => ∃ front token, word = front ++ [token] ∧ token.kind = kind ∧
    ExpressionSpelling tree front

theorem closedExpression_spelled (kind : TokenKind) : (closedExpression kind).Spelled := by
  obtain ⟨tree, front, he⟩ := expression_spelled
  exact ⟨tree, _, front, ⟨kind, "", .start⟩, rfl, rfl, he⟩

theorem closedExpression_decides (kind : TokenKind) (role : String) (tokens : List Token)
    (hk : continuesExpression kind = false) :
    ((expression tokens).closedBy kind role).Decides (closedExpression kind) tokens := by
  refine ((expression_decides tokens).closedBy kind role).congr (fun _ _ h => h) ?_
  intro tree word rest hv _
  obtain ⟨front, token, rfl, ht, he⟩ := hv
  exact ⟨front, token, rfl, ht, he, stops_cons (by rw [ht, hk])⟩

theorem condition_decides (tokens : List Token) :
    (condition tokens).Decides conditionPhrase tokens := by
  rw [condition]
  refine (expect_andThen_decides (fun _ rest _ => closedExpression_decides _ _ rest rfl)
    fun _ => closedExpression_spelled _).congr ?_ ?_
  · intro tree word h
    obtain ⟨opening, _, rfl, hk, front, closing, rfl, hc, he⟩ := h
    exact .parens hk hc he
  · intro value word rest h _
    obtain ⟨hk, hc, he⟩ := h
    exact ⟨_, _, rfl, hk, _, _, rfl, hc, he⟩

theorem loopHead_decides (tokens : List Token) :
    (loopHead tokens).Decides loopHeadPhrase tokens := by
  have bounds (counter : Token) (rest : List Token) :
      (((expression rest).closedBy (.mark .comma) "after loop start").andThen fun first rest _ =>
        ((expression rest).closedBy (.mark .rightParen) "after loop bounds").map fun last =>
          (counter.text, first, last)).Decides
        ((closedExpression (.mark .comma)).seq fun first _ =>
          (closedExpression (.mark .rightParen)).map fun last => (counter.text, first, last))
        rest :=
    (closedExpression_decides _ _ rest rfl).andThen _
      (fun _ _ rest _ _ _ => (closedExpression_decides _ _ rest rfl).map _)
      fun _ _ => (closedExpression_spelled _).map _
  have spelled (counter : Token) :
      ((closedExpression (.mark .comma)).seq fun first _ =>
        (closedExpression (.mark .rightParen)).map fun last =>
          (counter.text, first, last)).Spelled :=
    (closedExpression_spelled _).seq fun _ _ => (closedExpression_spelled _).map _
  rw [loopHead]
  refine (expect_andThen_decides (fun _ rest _ =>
    expect_andThen_decides (fun counter rest _ =>
      expect_andThen_decides (fun _ rest _ => bounds counter rest) fun _ => spelled counter)
      fun counter => .lead _ fun _ => spelled counter)
    fun _ => .lead _ fun counter => .lead _ fun _ => spelled counter).congr ?_ ?_
  · intro value word h
    obtain ⟨opening, _, rfl, ho, counter, _, rfl, hn, colon, _, rfl, hc, first, _, _, rfl, ⟨front,
      comma, rfl, hm, hf⟩, last, rfl, back, closing, rfl, hr, hl⟩ := h
    rw [← List.append_cons]
    exact .parens ho hn hc hm hr hf hl
  · intro value word rest h _
    obtain ⟨ho, hn, hc, hm, hr, hf, hl⟩ := h
    exact ⟨_, _, rfl, ho, _, _, rfl, hn, _, _, rfl, hc, _, _, _, List.append_cons _ _ _,
      ⟨_, _, rfl, hm, hf⟩, _, rfl, _, _, rfl, hr, hl⟩

-- The sign of an assignment and its right side.
def valuePhrase (left : Tree) (place : Location) : Phrase Tree :=
  .lead (.mark .assign) fun _ =>
    (closedExpression (.mark .semicolon)).map fun value => .node .assignment [left, value] place

theorem valuePhrase_spelled (left : Tree) (place : Location) : (valuePhrase left place).Spelled :=
  .lead _ fun _ => (closedExpression_spelled _).map _

theorem assignTo_decides (left : Tree) (place : Location) (tokens : List Token) :
    (assignTo left place tokens).Decides (valuePhrase left place) tokens := by
  rw [assignTo]
  exact expect_andThen_decides (fun _ rest _ => (closedExpression_decides _ _ rest rfl).map _)
    fun _ => (closedExpression_spelled _).map _

theorem assignment_decides (name : String) (place : Location) (tokens : List Token) :
    (assignment name place tokens).Decides (assignmentPhrase name place) tokens := by
  unfold assignment
  split
  · simp only [Outcome.decides_loosen]
    refine ((access_decides name place _).andThen (fun left _ => valuePhrase left place)
      (fun left _ rest _ _ _ => assignTo_decides left place rest)
      fun left _ => valuePhrase_spelled left place).afterOne _ ?_ ?_
    · intro value word h
      obtain ⟨left, front, _, rfl, ha, sign, _, rfl, hs, value, rfl, back, semicolon, rfl, hk,
        he⟩ := h
      exact .assign hs hk (.element rfl ha) he
    · intro value word rest word h hw _
      obtain ⟨hs, hk, ht, he⟩ := h
      cases ht with
      | name => simp_all
      | element ho ha =>
        simp only [List.cons_append, List.cons.injEq] at hw
        obtain ⟨rfl, -⟩ := hw
        exact ⟨_, rfl, _, _, _, rfl, ha, _, _, rfl, hs, _, rfl, _, _, rfl, hk, he⟩
  · rename_i hno
    refine (assignTo_decides _ place _).congr ?_ ?_
    · intro value word h
      obtain ⟨sign, _, rfl, hs, value, rfl, back, semicolon, rfl, hk, he⟩ := h
      exact .assign hs hk .name he
    · intro value word rest h hh
      obtain ⟨hs, hk, ht, he⟩ := h
      cases ht with
      | name => exact ⟨_, _, rfl, hs, _, rfl, _, _, rfl, hk, he⟩
      | element ho ha => exact (head_kind_ne hno _ hh.symm ho).elim

theorem returnStatement_decides (place : Location) (tokens : List Token) :
    (returnStatement place tokens).Decides (returnPhrase place) tokens := by
  unfold returnStatement
  split
  · rename_i text other rest
    refine Outcome.Decides.done [⟨.mark .semicolon, text, other⟩] (.bare rfl) ?_
    intro tree word behind hs h
    obtain ⟨back, hw, hb⟩ := h
    cases hs with
    | bare hk =>
      simp only [List.singleton_append, List.cons.injEq] at hw
      exact ⟨rfl, by rw [hw.1]⟩
    | giving _ he =>
      obtain ⟨token, rest, rfl, hk⟩ := he.head
      simp only [List.cons_append, List.nil_append, List.cons.injEq] at hw
      rw [hw.1] at hk
      cases hk
  · rename_i hno
    refine ((closedExpression_decides _ _ _ rfl).map _).congr ?_ ?_
    · intro value word h
      obtain ⟨value, rfl, front, token, rfl, hk, he⟩ := h
      exact .giving hk he
    · intro tree word rest hs hh
      cases hs with
      | bare hk => exact (head_kind_ne hno _ hh.symm hk).elim
      | giving hk he => exact ⟨_, rfl, _, _, rfl, hk, he⟩

section rules

variable {tokens : List Token} {n : Nat}

theorem statement_nonempty (tree : Tree) (rest : List Token) :
    ¬ statementPhrase.fits tree [] rest := by
  intro h
  obtain ⟨hangs, hs, -⟩ := h
  obtain ⟨token, word, hw, -⟩ := hs.head
  cases hw

theorem statement_call_decides {name text : String} {place other : Location} :
    (statement
      (⟨.identifier, name, place⟩ :: ⟨.mark .leftParen, text, other⟩ :: tokens)).outcome.Decides
      statementPhrase
      (⟨.identifier, name, place⟩ :: ⟨.mark .leftParen, text, other⟩ :: tokens) := by
  rw [statement, Traced.outcome_noting, Outcome.outcome_traced, callStatement]
  simp only [Outcome.decides_loosen]
  refine ((call_decides name place tokens).closedBy _ _).afterTwo _ _ ?_ ?_
  · intro tree word h
    obtain ⟨front, semicolon, rfl, hk, hc⟩ := h
    exact ⟨false, @.call _ _ ⟨.identifier, name, place⟩ _ _ rfl rfl hk hc⟩
  · intro tree whole rest word h hw _
    obtain ⟨hangs, hs, -⟩ := h
    cases hs with
    | call hn ho hk hc =>
      simp only [List.cons_append, List.cons.injEq] at hw
      obtain ⟨rfl, rfl, -⟩ := hw
      exact ⟨_, rfl, _, _, rfl, hk, hc⟩
    | assignment hn ha =>
      cases ha with
      | assign hs hk ht he => cases ht <;> simp_all
    | _ => simp_all

theorem statement_assignment_decides {name : String} {place : Location}
    (hno : ∀ (text : String) (place : Location) (inner : List Token),
      tokens = ⟨.mark .leftParen, text, place⟩ :: inner → False) :
    (statement (⟨.identifier, name, place⟩ :: tokens)).outcome.Decides statementPhrase
      (⟨.identifier, name, place⟩ :: tokens) := by
  rw [statement, Traced.outcome_noting, Outcome.outcome_traced]
  · simp only [Outcome.decides_loosen]
    refine (assignment_decides name place tokens).led _ statement_nonempty ?_ ?_
    · intro tree word ha
      exact ⟨false, @.assignment _ _ ⟨.identifier, name, place⟩ rfl ha⟩
    · intro tree back rest h hh
      obtain ⟨hangs, hs, -⟩ := h
      cases hs with
      | call hn ho hk hc => exact (head_kind_ne hno _ hh.symm ho).elim
      | assignment hn ha => exact ha
      | _ => simp_all
  · exact hno

theorem ifPhrase_led (text : String) (place : Location) :
    (ifPhrase place).Led ⟨.keyword .ifWord, text, place⟩ statementPhrase where
  sound tree word h := by
    obtain ⟨hangs, hs⟩ := h
    exact ⟨hangs, @.branching _ _ _ ⟨.keyword .ifWord, text, place⟩ rfl hs⟩
  complete tree back rest h := by
    obtain ⟨hangs, hs, hend⟩ := h
    cases hs with
    | branching hk hs => exact ⟨hangs, hs, hend⟩
    | _ => simp_all

theorem statement_if_decides {text : String} {place : Location}
    (hi : (ifStatement place tokens).outcome.Decides (ifPhrase place) tokens) :
    (statement (⟨.keyword .ifWord, text, place⟩ :: tokens)).outcome.Decides statementPhrase
      (⟨.keyword .ifWord, text, place⟩ :: tokens) := by
  rw [statement, Traced.outcome_loosen, Outcome.decides_loosen]
  exact hi.of_led (ifPhrase_led text place) statement_nonempty

theorem loopPhrase_led (text : String) (place : Location) :
    (loopPhrase place).Led ⟨.keyword .forWord, text, place⟩ statementPhrase where
  sound tree word h := by
    obtain ⟨hangs, hs⟩ := h
    exact ⟨hangs, @.loop _ _ _ ⟨.keyword .forWord, text, place⟩ rfl hs⟩
  complete tree back rest h := by
    obtain ⟨hangs, hs, hend⟩ := h
    cases hs with
    | loop hk hs => exact ⟨hangs, hs, hend⟩
    | _ => simp_all

theorem statement_loop_decides {text : String} {place : Location}
    (hl : (loop place tokens).outcome.Decides (loopPhrase place) tokens) :
    (statement (⟨.keyword .forWord, text, place⟩ :: tokens)).outcome.Decides statementPhrase
      (⟨.keyword .forWord, text, place⟩ :: tokens) := by
  rw [statement, Traced.outcome_loosen, Outcome.decides_loosen]
  exact hl.of_led (loopPhrase_led text place) statement_nonempty

theorem returnPhrase_led (text : String) (place : Location) :
    (returnPhrase place).Led ⟨.keyword .returnWord, text, place⟩ statementPhrase where
  sound tree word hs := ⟨false, @.returning _ _ ⟨.keyword .returnWord, text, place⟩ rfl hs⟩
  complete tree back rest h := by
    obtain ⟨hangs, hs, -⟩ := h
    cases hs with
    | returning hk hs => exact hs
    | _ => simp_all

theorem statement_return_decides {text : String} {place : Location} :
    (statement (⟨.keyword .returnWord, text, place⟩ :: tokens)).outcome.Decides statementPhrase
      (⟨.keyword .returnWord, text, place⟩ :: tokens) := by
  rw [statement, Outcome.outcome_traced, Outcome.decides_loosen]
  exact (returnStatement_decides place tokens).of_led (returnPhrase_led text place)
    statement_nonempty

theorem blockPhrase_led (text : String) (place : Location) :
    (bodyPhrase.map fun statements => Tree.node .block statements place).Led
      ⟨.mark .leftBrace, text, place⟩ statementPhrase where
  sound value word h := by
    obtain ⟨statements, rfl, hs⟩ := h
    exact ⟨false, @.block _ _ ⟨.mark .leftBrace, text, place⟩ rfl hs⟩
  complete tree back rest h := by
    obtain ⟨hangs, hs, -⟩ := h
    cases hs with
    | block hk hs => exact ⟨_, rfl, hs⟩
    | _ => simp_all

theorem statement_block_decides {text : String} {place : Location}
    (hb : (body "after block" tokens).outcome.Decides bodyPhrase tokens) :
    (statement (⟨.mark .leftBrace, text, place⟩ :: tokens)).outcome.Decides statementPhrase
      (⟨.mark .leftBrace, text, place⟩ :: tokens) := by
  rw [statement, Traced.outcome_loosen, Traced.outcome_map, Outcome.decides_loosen]
  exact (hb.map _).of_led (blockPhrase_led text place) statement_nonempty

theorem statement_spelled : statementPhrase.Spelled :=
  ⟨_, _, false, @.returning _ _ ⟨.keyword .returnWord, "", .start⟩ rfl
    (@.bare _ ⟨.mark .semicolon, "", .start⟩ rfl)⟩

theorem body_spelled : bodyPhrase.Spelled :=
  ⟨_, _, @.close ⟨.mark .rightBrace, "", .start⟩ rfl⟩

theorem statement_refused_decides
    (hcall : ∀ (name : String) (place : Location) (text : String) (other : Location)
      (inner : List Token),
      tokens = ⟨.identifier, name, place⟩ :: ⟨.mark .leftParen, text, other⟩ :: inner → False)
    (hname : ∀ (name : String) (place : Location) (behind : List Token),
      tokens = ⟨.identifier, name, place⟩ :: behind → False)
    (hif : ∀ (text : String) (place : Location) (behind : List Token),
      tokens = ⟨.keyword .ifWord, text, place⟩ :: behind → False)
    (hfor : ∀ (text : String) (place : Location) (behind : List Token),
      tokens = ⟨.keyword .forWord, text, place⟩ :: behind → False)
    (hreturn : ∀ (text : String) (place : Location) (behind : List Token),
      tokens = ⟨.keyword .returnWord, text, place⟩ :: behind → False)
    (hblock : ∀ (text : String) (place : Location) (inner : List Token),
      tokens = ⟨.mark .leftBrace, text, place⟩ :: inner → False) :
    (statement tokens).outcome.Decides statementPhrase tokens := by
  rw [statement, Outcome.outcome_traced]
  · refine Outcome.Decides.refuse statement_spelled ?_
    intro tree word behind h hh
    obtain ⟨hangs, hs, -⟩ := h
    obtain ⟨token, rest, rfl, hk⟩ := hs.head
    have hn := head_kind_ne hname token hh.symm
    have hi := head_kind_ne hif token hh.symm
    have hf := head_kind_ne hfor token hh.symm
    have hr := head_kind_ne hreturn token hh.symm
    have hb := head_kind_ne hblock token hh.symm
    unfold startsStatement at hk
    split at hk <;> simp_all
  · exact hcall
  · exact hname
  · exact hif
  · exact hfor
  · exact hreturn
  · exact hblock

theorem body_end_decides (role : String) : (body role []).outcome.Decides bodyPhrase [] := by
  rw [body, Outcome.outcome_traced]
  refine Outcome.Decides.refuse body_spelled ?_
  intro statements word behind hs hh
  obtain ⟨token, rest, rfl, -⟩ := BodySpelling.head hs
  cases hh

theorem body_close_decides {role text : String} {place : Location} :
    (body role (⟨.mark .rightBrace, text, place⟩ :: tokens)).outcome.Decides bodyPhrase
      (⟨.mark .rightBrace, text, place⟩ :: tokens) := by
  rw [body, Outcome.outcome_traced]
  refine Outcome.Decides.done [⟨.mark .rightBrace, text, place⟩] (.close rfl) ?_
  intro statements word rest hs h
  obtain ⟨behind, hw, hb⟩ := h
  cases hs with
  | close hk =>
    simp only [List.singleton_append, List.cons.injEq] at hw
    exact ⟨rfl, by rw [hw.1]⟩
  | cons hs _ =>
    obtain ⟨token, rest, rfl, hk⟩ := hs.head
    simp only [List.cons_append, List.nil_append, List.cons.injEq] at hw
    rw [hw.1] at hk
    cases hk

theorem body_cons_decides {role : String} (hne : tokens = [] → False)
    (hno : ∀ (text : String) (place : Location) (rest : List Token),
      tokens = ⟨.mark .rightBrace, text, place⟩ :: rest → False)
    (hs : (statement tokens).outcome.Decides statementPhrase tokens)
    (hb : ∀ rest : List Token, rest.length < tokens.length →
      (body role rest).outcome.Decides bodyPhrase rest) :
    (body role tokens).outcome.Decides bodyPhrase tokens := by
  rw [body, Traced.outcome_andThen]
  · refine (hs.andThen (fun first _ => bodyPhrase.map (first :: ·))
      (fun first _ rest shorter _ _ => (hb rest shorter).map _)
      fun first _ => body_spelled.map _).congr ?_ ?_
    · intro value word h
      obtain ⟨first, front, back, rfl, ⟨hangs, hs⟩, more, rfl, hm⟩ := h
      exact .cons hs hm
    · intro statements word rest hs hh
      cases hs with
      | close hk => exact (head_kind_ne hno _ hh.symm hk).elim
      | @cons hangs first more front back hs hm =>
        refine ⟨first, front, back, rfl, ⟨hangs, hs, ?_⟩, more, rfl, hm⟩
        obtain ⟨token, last, rfl, hk⟩ := hm.head
        intro _ next hn
        cases hn
        exact hk
  · exact hne
  · exact hno

-- What is behind the parenthesis of a loop.
inductive LoopBodySpelling (place : Location) (counter : String) (first last : Tree) :
    Bool → Tree → List Token → Prop
  | braced {statements : List Tree} {back : List Token} {opening : Token} :
      opening.kind = .mark .leftBrace → BodySpelling statements back →
      LoopBodySpelling place counter first last false (.loop counter first last statements place)
        (opening :: back)
  | single {hangs : Bool} {only : Tree} {back : List Token} {next : Token} :
      next.kind ≠ .mark .leftBrace → StatementSpelling hangs only (next :: back) →
      LoopBodySpelling place counter first last hangs (.loop counter first last [only] place)
        (next :: back)

def loopBodyPhrase (place : Location) (counter : String) (first last : Tree) : Phrase Tree :=
  hangingPhrase (LoopBodySpelling place counter first last)

section loopBody

variable {place : Location} {counter : String} {first last : Tree}

theorem loopBody_spelled (place : Location) (counter : String) (first last : Tree) :
    (loopBodyPhrase place counter first last).Spelled := by
  obtain ⟨statements, word, hb⟩ := body_spelled
  exact ⟨_, _, false, @.braced _ _ _ _ _ _ ⟨.mark .leftBrace, "", .start⟩ rfl hb⟩

theorem loopBody_nonempty (tree : Tree) (rest : List Token) :
    ¬ (loopBodyPhrase place counter first last).fits tree [] rest := by
  intro h
  obtain ⟨hangs, hl, -⟩ := h
  cases hl

theorem loopBody_braced_led (text : String) (other : Location) :
    (bodyPhrase.map fun statements => Tree.loop counter first last statements place).Led
      ⟨.mark .leftBrace, text, other⟩ (loopBodyPhrase place counter first last) where
  sound value word h := by
    obtain ⟨statements, rfl, hb⟩ := h
    exact ⟨false, .braced rfl hb⟩
  complete tree back rest h := by
    obtain ⟨hangs, hl, -⟩ := h
    cases hl with
    | braced _ hb => exact ⟨_, rfl, hb⟩
    | single hk _ => exact (hk rfl).elim

theorem loopBody_braced_decides {outcome : Outcome (List Tree) n} {text : String}
    {other : Location} (h : outcome.Decides bodyPhrase tokens) :
    (outcome.map fun statements => Tree.loop counter first last statements place).Decides
      (loopBodyPhrase place counter first last) (⟨.mark .leftBrace, text, other⟩ :: tokens) :=
  (h.map _).of_led (loopBody_braced_led text other) loopBody_nonempty

theorem loopBody_single_decides {outcome : Outcome Tree n}
    (hno : ∀ token, tokens.head? = some token → token.kind ≠ .mark .leftBrace)
    (h : outcome.Decides statementPhrase tokens) :
    (outcome.map fun only => Tree.loop counter first last [only] place).Decides
      (loopBodyPhrase place counter first last) tokens := by
  refine (h.map _).narrow (loopBody_spelled _ _ _ _) ?_ ?_ ?_
  · intro value h
    obtain ⟨only, rfl, hangs, hs⟩ := h
    obtain ⟨token, last, hw, -⟩ := hs.head
    cases hw
  · intro value word hw h
    obtain ⟨only, rfl, hangs, hs⟩ := h
    obtain ⟨token, back, rfl, -⟩ := hs.head
    exact ⟨hangs, .single (hno token hw.symm) hs⟩
  · intro tree word rest h hh
    obtain ⟨hangs, hl, hend⟩ := h
    cases hl with
    | braced hk _ => exact (hno _ hh.symm hk).elim
    | single _ hs => exact ⟨_, rfl, hangs, hs, hend⟩

end loopBody

theorem loopPhrase_means (place : Location) :
    (loopHeadPhrase.seq fun head _ => loopBodyPhrase place head.1 head.2.1 head.2.2).Means
      (loopPhrase place) where
  sound tree word h := by
    obtain ⟨⟨counter, first, last⟩, front, back, rfl, hh, hangs, hl⟩ := h
    cases hl with
    | braced hk hb => exact ⟨_, .braced hh hk hb⟩
    | single hk hs => exact ⟨_, .single hh hk hs⟩
  complete tree word rest h := by
    obtain ⟨hangs, hl, hend⟩ := h
    cases hl with
    | braced hh hk hb => exact ⟨_, _, _, rfl, hh, _, .braced hk hb, hend⟩
    | single hh hk hs => exact ⟨_, _, _, rfl, hh, _, .single hk hs, hend⟩

theorem loop_decides_of {place : Location}
    (hb : ∀ (text : String) (place : Location) (inner : List Token),
      (⟨.mark .leftBrace, text, place⟩ :: inner : List Token).length < tokens.length →
        (body "after loop body" inner).outcome.Decides bodyPhrase inner)
    (hs : ∀ rest : List Token, rest.length < tokens.length →
      (statement rest).outcome.Decides statementPhrase rest) :
    (loop place tokens).outcome.Decides (loopPhrase place) tokens := by
  rw [loop, Traced.outcome_andThen, Outcome.outcome_traced]
  refine ((loopHead_decides tokens).andThen
    (fun head _ => loopBodyPhrase place head.1 head.2.1 head.2.2) ?_ ?_).of_means
    (loopPhrase_means place)
  · intro head used rest shorter _ _
    obtain ⟨counter, first, last⟩ := head
    simp only
    split
    · rename_i shorter _
      rw [Traced.outcome_loosen, Outcome.decides_loosen, Traced.outcome_map]
      exact loopBody_braced_decides (hb _ _ _ shorter)
    · rename_i hno
      rw [Traced.outcome_map]
      refine loopBody_single_decides ?_ (hs rest shorter)
      exact head_kind_ne (by rintro text place inner rfl; exact hno _ _ _ shorter rfl HEq.rfl)
  · intro head _
    obtain ⟨counter, first, last⟩ := head
    exact loopBody_spelled _ _ _ _

-- What is behind the branch of an if. An else is only read where the branch does
-- not hang.
inductive ElseSpelling (place : Location) (tree branch : Tree) (used : List Token) :
    Bool → Tree → List Token → Prop
  | missing : ElseSpelling place tree branch used true (.node .ifStatement [tree, branch] place) []
  | given {hangs : Bool} {other : Tree} {back : List Token} {elseWord : Token} :
      elseWord.kind = .keyword .elseWord → StatementSpelling false branch used →
      StatementSpelling hangs other back →
      ElseSpelling place tree branch used hangs
        (.node .ifStatement [tree, branch, .node .elseStatement [other] elseWord.place] place)
        (elseWord :: back)

def elsePhrase (place : Location) (tree branch : Tree) (used : List Token) : Phrase Tree :=
  hangingPhrase (ElseSpelling place tree branch used)

theorem elsePhrase_spelled (place : Location) (tree branch : Tree) (used : List Token) :
    (elsePhrase place tree branch used).Spelled :=
  ⟨_, _, true, .missing⟩

-- Had a branch that hangs been read in front of an else, then there would be a
-- longer statement that begins with the branch and the else.
theorem closed_before_else {branch : Tree} {used rest : List Token} {elseWord : Token}
    (hs : statementPhrase.spells branch used)
    (hu : ∀ other word behind, statementPhrase.fits other word behind →
      Meets used rest (word ++ behind) → other = branch ∧ word = used)
    (hr : rest.head? = some elseWord) (hk : elseWord.kind = .keyword .elseWord) :
    StatementSpelling false branch used := by
  obtain ⟨hangs, hs⟩ := hs
  cases hangs with
  | false => exact hs
  | true =>
    obtain ⟨other, back, hangs, ho⟩ := statement_spelled
    obtain ⟨hangs', whole, hw⟩ := hs.attach hk ho
    have hl := (hu whole _ [] ⟨hangs', hw, fun _ => nofun⟩
      ⟨elseWord :: back, List.append_nil _, hr.symm⟩).2
    simp at hl

theorem elsePhrase_led (place : Location) (tree : Tree) {branch : Tree} {used : List Token}
    (hb : StatementSpelling false branch used) (text : String) (elsePlace : Location) :
    (statementPhrase.map fun other =>
      Tree.node .ifStatement [tree, branch, .node .elseStatement [other] elsePlace] place).Led
      ⟨.keyword .elseWord, text, elsePlace⟩ (elsePhrase place tree branch used) where
  sound value word h := by
    obtain ⟨other, rfl, hangs, ho⟩ := h
    exact ⟨hangs, @.given _ _ _ _ _ _ _ ⟨.keyword .elseWord, text, elsePlace⟩ rfl hb ho⟩
  complete value back rest h := by
    obtain ⟨hangs, he, hend⟩ := h
    cases he with
    | given _ _ ho => exact ⟨_, rfl, hangs, ho, hend⟩

theorem else_given_decides {outcome : Outcome Tree n} {place elsePlace : Location} {text : String}
    {tree branch : Tree} {used : List Token} (hb : StatementSpelling false branch used)
    (h : outcome.Decides statementPhrase tokens) :
    (outcome.map fun other =>
      Tree.node .ifStatement [tree, branch, .node .elseStatement [other] elsePlace] place).Decides
      (elsePhrase place tree branch used) (⟨.keyword .elseWord, text, elsePlace⟩ :: tokens) := by
  have hl := elsePhrase_led place tree hb text elsePlace
  refine (h.map _).afterOne _ hl.sound ?_
  intro value whole rest word hf hw _
  cases whole with
  | nil =>
    obtain ⟨hangs, he, hend⟩ := hf
    cases he
    rw [List.nil_append] at hw
    exact (hend rfl ⟨.keyword .elseWord, text, elsePlace⟩ (by rw [hw]; rfl) rfl).elim
  | cons first back =>
    simp only [List.cons_append, List.cons.injEq] at hw
    obtain ⟨rfl, -⟩ := hw
    exact ⟨back, rfl, hl.complete value back rest hf⟩

theorem else_missing_decides {place : Location} {tree branch : Tree} {used : List Token}
    (hno : ∀ token, tokens.head? = some token → token.kind ≠ .keyword .elseWord) :
    (Outcome.done (.node .ifStatement [tree, branch] place) tokens).Decides
      (elsePhrase place tree branch used) tokens := by
  refine Outcome.Decides.done [] ⟨true, .missing⟩ ?_
  intro value word behind h hm
  obtain ⟨hangs, he, -⟩ := h
  cases he with
  | missing => exact ⟨rfl, rfl⟩
  | given hk _ _ => exact (hno _ hm.head?_eq.symm hk).elim

theorem ifPhrase_means (place : Location) :
    (conditionPhrase.seq fun tree _ =>
      statementPhrase.seq fun branch used => elsePhrase place tree branch used).Means
      (ifPhrase place) where
  sound value word h := by
    obtain ⟨tree, front, _, rfl, hc, branch, middle, _, rfl, ⟨hangs, hb⟩, hangs', he⟩ := h
    cases he with
    | missing =>
      rw [List.append_nil]
      exact ⟨true, .lone hc hb⟩
    | given hk hb' ho => exact ⟨hangs', .withElse hc hb' hk ho⟩
  complete value word rest h := by
    obtain ⟨hangs, hi, hend⟩ := h
    cases hi with
    | @lone hangs _ tree branch front back hc hb =>
      exact ⟨tree, front, back, rfl, hc, branch, back, [], (List.append_nil _).symm,
        ⟨hangs, hb, fun _ => hend rfl⟩, true, .missing, hend⟩
    | @withElse _ _ tree branch other front middle back elseWord hc hb hk ho =>
      exact ⟨tree, front, _, rfl, hc, branch, middle, _, rfl,
        ⟨false, hb, fun hf => by cases hf⟩, hangs, .given hk hb ho, hend⟩

theorem ifStatement_decides_of {place : Location}
    (hs : ∀ rest : List Token, rest.length < tokens.length →
      (statement rest).outcome.Decides statementPhrase rest)
    (he : ∀ rest : List Token, rest.length < tokens.length →
      ∀ (text : String) (elsePlace : Location) (behind : List Token),
        (⟨.keyword .elseWord, text, elsePlace⟩ :: behind : List Token).length < rest.length →
          (statement behind).outcome.Decides statementPhrase behind) :
    (ifStatement place tokens).outcome.Decides (ifPhrase place) tokens := by
  rw [ifStatement, Traced.outcome_andThen, Outcome.outcome_traced]
  simp only [Traced.outcome_andMaybe]
  refine ((condition_decides tokens).andThen
    (fun tree _ => statementPhrase.seq fun branch used => elsePhrase place tree branch used)
    (fun tree _ rest shorter _ _ => (hs rest shorter).andMaybe _
      (fun branch used last shorter' _ hb hu => ?_)
      fun branch used => elsePhrase_spelled place tree branch used)
    fun tree _ => statement_spelled.seq fun branch used =>
      elsePhrase_spelled place tree branch used).of_means (ifPhrase_means place)
  split
  · rename_i shorter' _
    have hc := closed_before_else hb hu rfl rfl
    rw [Traced.outcome_loosen, Traced.outcome_loosen, Traced.outcome_map]
    simp only [Outcome.decides_loosen]
    exact else_given_decides hc (he rest shorter _ _ _ shorter')
  · rename_i hno
    refine else_missing_decides ?_
    exact head_kind_ne (by rintro text place behind rfl; exact hno _ _ _ shorter' rfl HEq.rfl)

end rules

-- Every rule of the group decides its phrase.
theorem statement_rules_decide :
    (∀ tokens, (statement tokens).outcome.Decides statementPhrase tokens) ∧
    (∀ role tokens, (body role tokens).outcome.Decides bodyPhrase tokens) ∧
    (∀ place tokens, (loop place tokens).outcome.Decides (loopPhrase place) tokens) ∧
    (∀ place tokens, (ifStatement place tokens).outcome.Decides (ifPhrase place) tokens) := by
  apply statement.mutual_induct
  case case1 => exact fun _ _ _ _ _ => statement_call_decides
  case case2 => exact fun _ _ _ => statement_assignment_decides
  case case3 => exact fun _ _ _ => statement_if_decides
  case case4 => exact fun _ _ _ => statement_loop_decides
  case case5 => exact fun _ _ _ => statement_return_decides
  case case6 => exact fun _ _ _ => statement_block_decides
  case case7 => exact fun _ => statement_refused_decides
  case case8 => exact body_end_decides
  case case9 => exact fun _ _ _ _ => body_close_decides
  case case10 => exact fun _ _ => body_cons_decides
  case case11 => exact fun _ _ => loop_decides_of
  case case12 => exact fun _ _ => ifStatement_decides_of

theorem body_decides (role : String) (tokens : List Token) :
    (body role tokens).outcome.Decides bodyPhrase tokens := statement_rules_decide.2.1 role tokens

end ScriptIR.Grammar
