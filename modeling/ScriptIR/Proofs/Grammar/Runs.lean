import Mathlib
import ScriptIR.Proofs.Grammar.Sequence

namespace ScriptIR

open Grammar

namespace Grammar

variable {α β : Type} {n k : Nat} {tokens : List Token}

-- What a rule leaves unread, whether it succeeds or not.
def Outcome.unread : Outcome α n → List Token
  | .parsed _ rest _ => rest
  | .refused _ rest => rest

namespace Outcome

@[simp] theorem unread_within (outcome : Outcome α k) (h : k ≤ n) :
    (outcome.within h).unread = outcome.unread := by
  cases outcome <;> rfl

@[simp] theorem unread_loosen (outcome : Outcome α n) : outcome.loosen.unread = outcome.unread :=
  unread_within _ _

@[simp] theorem unread_map (f : α → β) (outcome : Outcome α n) :
    (outcome.map f).unread = outcome.unread := by
  cases outcome <;> rfl

theorem Decides.unread_suffix {outcome : Outcome α n} {phrase : Phrase α}
    (h : outcome.Decides phrase tokens) : outcome.unread <:+ tokens := by
  cases outcome with
  | parsed value rest shorter =>
    obtain ⟨used, rfl, -⟩ := h
    exact List.suffix_append used rest
  | refused wanted rest =>
    obtain ⟨used, rfl, -⟩ := h
    exact List.suffix_append used rest

theorem unread_andMaybe {outcome : Outcome α n} (h : outcome.unread <:+ tokens)
    {next : (value : α) → (rest : List Token) → rest.length < n → Outcome β (rest.length + 1)}
    (hn : ∀ value rest shorter, (next value rest shorter).unread <:+ rest) :
    (outcome.andMaybe next).unread <:+ tokens := by
  cases outcome with
  | parsed value rest shorter =>
    rw [andMaybe, unread_within]
    exact (hn value rest shorter).trans h
  | refused wanted rest => exact h

theorem unread_andThen {outcome : Outcome α n} (h : outcome.unread <:+ tokens)
    {next : (value : α) → (rest : List Token) → rest.length < n → Outcome β rest.length}
    (hn : ∀ value rest shorter, (next value rest shorter).unread <:+ rest) :
    (outcome.andThen next).unread <:+ tokens :=
  unread_andMaybe h fun value rest shorter => by
    rw [unread_loosen]
    exact hn value rest shorter

end Outcome

theorem unread_expect (kind : TokenKind) (role : String) (tokens : List Token) :
    (expect kind role tokens).unread <:+ tokens :=
  (expect_decides kind role tokens).unread_suffix

theorem Outcome.unread_closedBy {outcome : Outcome α n} (h : outcome.unread <:+ tokens)
    (kind : TokenKind) (role : String) : (outcome.closedBy kind role).unread <:+ tokens :=
  unread_andThen h fun _ rest _ => by
    rw [unread_map]
    exact unread_expect kind role rest

-- The rules of the grammar.
inductive Production : {α : Type} → {bound : List Token → Nat} →
    ((tokens : List Token) → Outcome α (bound tokens)) → Prop
  | expect (kind : TokenKind) (role : String) : Production (expect kind role)
  | expression : Production expression
  | chain : Production chain
  | operand : Production operand
  | call (name : String) (place : Location) : Production (call name place)
  | arguments : Production arguments
  | access (name : String) (place : Location) : Production (access name place)
  | item : Production item
  | array (name : Option String) (place : Location) : Production (array name place)
  | keyValue (name : Option String) (place : Location) : Production (keyValue name place)
  | items : Production items
  | pairs : Production pairs
  | assignTo (left : Tree) (place : Location) : Production (assignTo left place)
  | assignment (name : String) (place : Location) : Production (assignment name place)
  | callStatement (name : String) (place : Location) : Production (callStatement name place)
  | returnStatement (place : Location) : Production (returnStatement place)
  | loopHead : Production loopHead
  | condition : Production condition
  | statement : Production fun tokens => (statement tokens).outcome
  | ifStatement (place : Location) : Production fun tokens => (ifStatement place tokens).outcome
  | loop (place : Location) : Production fun tokens => (loop place tokens).outcome
  | body (role : String) : Production fun tokens => (body role tokens).outcome
  | mainFunction (place : Location) : Production fun tokens => (mainFunction place tokens).outcome
  | parameters : Production parameters
  | parameterList : Production parameterList
  | functionDeclaration (place : Location) :
      Production fun tokens => (functionDeclaration place tokens).outcome
  | arrayDeclaration (name : String) (place : Location) : Production (arrayDeclaration name place)
  | keyValueDeclaration (name : String) (place : Location) :
      Production (keyValueDeclaration name place)
  | valueDeclaration (name : String) (place : Location) : Production (valueDeclaration name place)
  | variableDeclaration (name : String) (place : Location) :
      Production (variableDeclaration name place)
  | declaration : Production fun tokens => (declaration tokens).outcome
  | declarations : Production fun tokens => (declarations tokens).outcome

-- No rule goes back behind the place where it begins.
theorem Production.unread_suffix {bound : List Token → Nat}
    {rule : (tokens : List Token) → Outcome α (bound tokens)} (h : Production rule)
    (tokens : List Token) : (rule tokens).unread <:+ tokens := by
  obtain ⟨hexpression, hchain, hoperand, haccess, hcall, harguments⟩ := expression_rules_decide
  obtain ⟨hitem, hkeyValue, hpairs, harray, hitems⟩ := aggregate_rules_decide
  obtain ⟨hstatement, hbody, hloop, hif⟩ := statement_rules_decide
  cases h with
  | expect kind role => exact unread_expect kind role tokens
  | expression => exact (hexpression tokens).unread_suffix
  | chain => exact (hchain tokens).unread_suffix
  | operand => exact (hoperand tokens).unread_suffix
  | call name place => exact (hcall name place tokens).unread_suffix
  | arguments => exact (harguments tokens).unread_suffix
  | access name place => exact (haccess name place tokens).unread_suffix
  | item => exact (hitem tokens).unread_suffix
  | array name place => exact (harray name place tokens).unread_suffix
  | keyValue name place => exact (hkeyValue name place tokens).unread_suffix
  | items => exact (hitems tokens).unread_suffix
  | pairs => exact (hpairs tokens).unread_suffix
  | assignTo left place => exact (assignTo_decides left place tokens).unread_suffix
  | assignment name place => exact (assignment_decides name place tokens).unread_suffix
  | callStatement name place =>
    exact Outcome.unread_closedBy (hcall name place tokens).unread_suffix _ _
  | returnStatement place => exact (returnStatement_decides place tokens).unread_suffix
  | loopHead => exact (loopHead_decides tokens).unread_suffix
  | condition => exact (condition_decides tokens).unread_suffix
  | statement => exact (hstatement tokens).unread_suffix
  | ifStatement place => exact (hif place tokens).unread_suffix
  | loop place => exact (hloop place tokens).unread_suffix
  | body role => exact (hbody role tokens).unread_suffix
  | mainFunction place => exact (mainFunction_decides place tokens).unread_suffix
  | parameters => exact (parameters_decides tokens).unread_suffix
  | parameterList => exact (parameterList_decides tokens).unread_suffix
  | functionDeclaration place => exact (functionDeclaration_decides place tokens).unread_suffix
  | arrayDeclaration name place =>
    refine Outcome.unread_andThen (unread_expect _ _ tokens) fun _ rest _ => ?_
    refine Outcome.unread_andThen (unread_expect _ _ rest) fun _ rest _ => ?_
    exact Outcome.unread_closedBy (harray _ place rest).unread_suffix _ _
  | keyValueDeclaration name place =>
    refine Outcome.unread_andThen (unread_expect _ _ tokens) fun _ rest _ => ?_
    refine Outcome.unread_andThen (unread_expect _ _ rest) fun _ rest _ => ?_
    exact Outcome.unread_closedBy (hkeyValue _ place rest).unread_suffix _ _
  | valueDeclaration name place =>
    refine Outcome.unread_andThen (unread_expect _ _ tokens) fun _ rest _ => ?_
    rw [Outcome.unread_map]
    exact Outcome.unread_closedBy (hexpression rest).unread_suffix _ _
  | variableDeclaration name place =>
    exact (variableDeclaration_decides name place tokens).unread_suffix
  | declaration => exact (declaration_decides tokens).unread_suffix
  | declarations => exact (declarations_decides tokens).unread_suffix

end Grammar

namespace Reader

-- How many tokens have been used.
def cursor (reader : Reader) : Nat := reader.tokens.length - reader.unread.length

-- The reader after some more programs.
def after (reader : Reader) : Nat → Reader
  | 0 => reader
  | runs + 1 => reader.program.2.after runs

-- A reader never loses sight of its own list.
def Sound (reader : Reader) : Prop := reader.unread <:+ reader.tokens

-- Applies a rule to what is unread.
def run {α : Type} {bound : List Token → Nat}
    (rule : (tokens : List Token) → Outcome α (bound tokens)) (reader : Reader) :
    Except SyntaxError α × Reader :=
  match rule reader.unread with
  | .parsed value rest _ => (.ok value, { reader with unread := rest })
  | .refused wanted rest => (.error (reader.errorAt wanted rest), { reader with unread := rest })

theorem program_eq_run (reader : Reader) :
    reader.program.1.result =
        (reader.run fun tokens => (declarations tokens).outcome).1.map (.node .program · .start) ∧
      reader.program.2 = (reader.run fun tokens => (declarations tokens).outcome).2 := by
  simp only [program, run]
  generalize (declarations reader.unread).outcome = outcome
  cases outcome <;> exact ⟨rfl, rfl⟩

variable {α : Type} {bound : List Token → Nat}
variable {rule : (tokens : List Token) → Outcome α (bound tokens)}

theorem run_snd (reader : Reader) :
    (reader.run rule).2 = { reader with unread := (rule reader.unread).unread } := by
  rw [run]
  generalize rule reader.unread = outcome
  cases outcome <;> rfl

-- Behind the end there are only empty programs.
theorem program_end (tokens : List Token) : (Reader.mk tokens []).program =
    (⟨[], .ok (.node .program [] .start)⟩, ⟨tokens, []⟩) := by
  simp [program, declarations, Outcome.traced, Outcome.done]

theorem program_append (front unread : List Token) :
    (Reader.mk (front ++ unread) unread).program =
      ((ofTokens unread).program.1, ⟨front ++ unread, (ofTokens unread).program.2.unread⟩) := by
  by_cases hu : unread = []
  · rw [hu, program_end, ofTokens, program_end]
  · simp only [program, ofTokens]
    cases (declarations unread).outcome with
    | parsed trees rest shorter => rfl
    | refused wanted rest =>
      have he := errorAt_append front hu wanted rest
      simp only [errorAt, ofTokens] at he
      simp only [errorAt, he]

-- What the first program of a new reader has to do with what it leaves: nothing behind a
-- success, the token that is blamed, or nothing where there is no such token.
structure Leaves (tokens rest : List Token) : Prop where
  reader : (ofTokens tokens).program.2 = ⟨tokens, rest⟩
  ended : ∀ tree, (ofTokens tokens).program.1.result = .ok tree → rest = []
  refused : ∀ error token, (ofTokens tokens).program.1.result = .error error →
    error.found = some token → rest.head? = some token ∧ error.place = token.place
  exhausted : ∀ error, (ofTokens tokens).program.1.result = .error error →
    error.found = none → rest = []

theorem exists_leaves (tokens : List Token) :
    ∃ used rest, tokens = used ++ rest ∧ Leaves tokens rest := by
  have hx := declarations_exhausts tokens
  obtain ⟨used, hs⟩ := Production.declarations.unread_suffix tokens
  cases ho : (declarations tokens).outcome with
  | parsed trees rest shorter =>
    have hp : (ofTokens tokens).program = (⟨(declarations tokens).choices,
        .ok (.node .program trees .start)⟩, ⟨tokens, rest⟩) := by
      simp only [program, ofTokens, ho]
    rw [ho] at hs
    refine ⟨used, rest, hs.symm, by rw [hp], fun tree _ => hx trees rest shorter ho, ?_, ?_⟩
    · intro error token he
      rw [hp] at he
      cases he
    · intro error he
      rw [hp] at he
      cases he
  | refused wanted rest =>
    have hp : (ofTokens tokens).program = (⟨(declarations tokens).choices,
        .error ((ofTokens tokens).errorAt wanted rest)⟩, ⟨tokens, rest⟩) := by
      simp only [program, ofTokens, ho]
    rw [ho] at hs
    refine ⟨used, rest, hs.symm, by rw [hp], ?_, ?_, ?_⟩
    · intro tree ht
      rw [hp] at ht
      cases ht
    · intro error token he hf
      rw [hp] at he
      cases he
      cases rest with
      | nil => cases hf
      | cons first behind =>
        cases hf
        exact ⟨rfl, rfl⟩
    · intro error he hf
      rw [hp] at he
      cases he
      cases rest with
      | nil => rfl
      | cons first behind => cases hf

-- One more program of a reader, seen from its list of tokens.
structure Continues (tokens : List Token) (reader : Reader) : Prop where
  keeps : reader.program.2.tokens = tokens
  -- the cursor says what is unread
  unread : reader.unread = tokens.drop reader.cursor
  advances : reader.cursor ≤ reader.program.2.cursor
  bounded : reader.program.2.cursor ≤ tokens.length
  -- a new reader of the tokens that are left reads the same and goes as far
  fresh : reader.program.1 = (ofTokens (tokens.drop reader.cursor)).program.1
  distance : reader.program.2.cursor =
    reader.cursor + (ofTokens (tokens.drop reader.cursor)).program.2.cursor
  ended : ∀ tree, reader.program.1.result = .ok tree → reader.program.2.cursor = tokens.length
  refused : ∀ error token, reader.program.1.result = .error error → error.found = some token →
    tokens[reader.program.2.cursor]? = some token ∧ error.place = token.place
  exhausted : ∀ error, reader.program.1.result = .error error → error.found = none →
    reader.program.2.cursor = tokens.length
  -- behind the end there are only empty programs
  later : reader.program.2.cursor = tokens.length → ∀ runs,
    (reader.program.2.after runs).program.1 = ⟨[], .ok (.node .program [] .start)⟩

-- Behind the end nothing changes.
theorem after_end (tokens : List Token) (runs : Nat) :
    (Reader.mk tokens []).after runs = ⟨tokens, []⟩ := by
  induction runs with
  | zero => rfl
  | succ runs ih => rw [after, program_end, ih]

theorem cursor_append (front unread : List Token) :
    (Reader.mk (front ++ unread) unread).cursor = front.length := by
  simp [cursor]

theorem continues (front unread : List Token) :
    Continues (front ++ unread) ⟨front ++ unread, unread⟩ := by
  obtain ⟨used, rest, rfl, hl⟩ := exists_leaves unread
  have hprogram := program_append front (used ++ rest)
  rw [hl.reader] at hprogram
  have hstart := cursor_append front (used ++ rest)
  have hnext : (Reader.mk (front ++ (used ++ rest)) rest).cursor = front.length + used.length := by
    rw [← List.append_assoc, cursor_append, List.length_append]
  have hdistance : (Reader.mk (used ++ rest) rest).cursor = used.length := cursor_append used rest
  have hlength : (front ++ (used ++ rest)).length = front.length + used.length + rest.length := by
    simp only [List.length_append]
    omega
  have hdrop : (front ++ (used ++ rest)).drop front.length = used ++ rest := List.drop_left
  exact {
    keeps := by rw [hprogram]
    unread := by rw [hstart, hdrop]
    advances := by
      rw [hprogram, hstart, hnext]
      omega
    bounded := by
      rw [hprogram, hnext, hlength]
      omega
    fresh := by rw [hprogram, hstart, hdrop]
    distance := by rw [hprogram, hstart, hdrop, hnext, hl.reader, hdistance]
    ended := by
      intro tree ht
      rw [hprogram] at ht ⊢
      rw [hnext, hlength, hl.ended tree ht, List.length_nil, Nat.add_zero]
    refused := by
      intro error token he hf
      rw [hprogram] at he ⊢
      obtain ⟨hh, hp⟩ := hl.refused error token he hf
      refine ⟨?_, hp⟩
      rw [hnext, ← List.append_assoc, ← List.length_append,
        List.getElem?_append_right (Nat.le_refl _), Nat.sub_self, ← List.head?_eq_getElem?, hh]
    exhausted := by
      intro error he hf
      rw [hprogram] at he ⊢
      rw [hnext, hlength, hl.exhausted error he hf, List.length_nil, Nat.add_zero]
    later := by
      intro hend runs
      rw [hprogram] at hend ⊢
      rw [hnext, hlength] at hend
      obtain rfl : rest = [] := List.length_eq_zero_iff.mp (by omega)
      rw [after_end, program_end] }

theorem Sound.continues {reader : Reader} (h : reader.Sound) : Continues reader.tokens reader := by
  obtain ⟨tokens, unread⟩ := reader
  obtain ⟨front, hf⟩ := h
  have hc := Reader.continues front unread
  rwa [hf] at hc

-- One program keeps a reader sound.
theorem Sound.program {reader : Reader} (h : reader.Sound) : reader.program.2.Sound := by
  rw [(program_eq_run reader).2, run_snd]
  exact (Production.declarations.unread_suffix reader.unread).trans h

-- By the number of the programs.
theorem Sound.after {reader : Reader} (h : reader.Sound) (runs : Nat) :
    (reader.after runs).Sound ∧ (reader.after runs).tokens = reader.tokens := by
  induction runs generalizing reader with
  | zero => exact ⟨h, rfl⟩
  | succ runs ih =>
    obtain ⟨hs, ht⟩ := ih h.program
    exact ⟨hs, ht.trans h.continues.keeps⟩

end Reader

namespace Grammar

-- A call as a statement, from its name on.
def namedCall (tokens : List Token) : Outcome Tree tokens.length :=
  (expect .identifier "as function name" tokens).andThen fun name rest _ =>
  (expect (.mark .leftParen) "after function name" rest).andThen fun _ rest _ =>
  callStatement name.text name.place rest

-- An assignment, from its name on.
def namedAssignment (tokens : List Token) : Outcome Tree tokens.length :=
  (expect .identifier "as assignment target" tokens).andThen fun name rest _ =>
  assignment name.text name.place rest

-- A token that is expected is only taken away.
theorem result_expect_andThen {β : Type} {kind : TokenKind} {role text : String}
    {place : Location} {rest : List Token}
    {next : (token : Token) → (tokens : List Token) →
      tokens.length < (⟨kind, text, place⟩ :: rest : List Token).length → Outcome β tokens.length} :
    ((expect kind role (⟨kind, text, place⟩ :: rest)).andThen next).result =
      (next ⟨kind, text, place⟩ rest (length_lt_length_add_one rest)).result := by
  simp only [expect, if_pos, Outcome.done, Outcome.andThen, Outcome.andMaybe,
    Outcome.result_within, Outcome.result_loosen]

section statement

variable {name text : String} {place other : Location} {behind : List Token}

theorem statement_result_call :
    (statement (⟨.identifier, name, place⟩ :: ⟨.mark .leftParen, text, other⟩ ::
      behind)).outcome.result =
      (namedCall (⟨.identifier, name, place⟩ :: ⟨.mark .leftParen, text, other⟩ ::
        behind)).result := by
  rw [statement, Traced.outcome_noting, Outcome.outcome_traced, namedCall, result_expect_andThen,
    result_expect_andThen, Outcome.result_loosen, Outcome.result_loosen]

theorem statement_result_assignment
    (hno : ∀ (text : String) (place : Location) (inner : List Token),
      behind = ⟨.mark .leftParen, text, place⟩ :: inner → False) :
    (statement (⟨.identifier, name, place⟩ :: behind)).outcome.result =
      (namedAssignment (⟨.identifier, name, place⟩ :: behind)).result := by
  rw [statement, Traced.outcome_noting, Outcome.outcome_traced, namedAssignment,
    result_expect_andThen, Outcome.result_loosen]
  exact hno

end statement

end Grammar

namespace Reader

-- Takes a name in order to see what is behind it, and reads on in front of the name.
def assignmentOrCall (reader : Reader) : Except SyntaxError Tree × Reader :=
  match reader.run (expect .identifier "at start of statement") with
  | (.error error, stopped) => (.error error, stopped)
  | (.ok _, behind) =>
    if behind.unread.head?.map Token.kind = some (.mark .leftParen) then reader.run namedCall
    else reader.run namedAssignment

theorem run_congr {α : Type} {bound other : List Token → Nat}
    {first : (tokens : List Token) → Outcome α (bound tokens)}
    {second : (tokens : List Token) → Outcome α (other tokens)} {reader : Reader}
    (h : (first reader.unread).result = (second reader.unread).result) :
    reader.run first = reader.run second := by
  rw [run, run]
  cases hf : first reader.unread <;> cases hs : second reader.unread <;> rw [hf, hs] at h <;>
    cases h <;> rfl

end Reader

end ScriptIR
