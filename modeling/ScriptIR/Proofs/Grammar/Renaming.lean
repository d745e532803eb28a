import ScriptIR.Proofs.Grammar.Phrase
import ScriptIR.Grammar.Program

namespace ScriptIR

open Grammar

-- A kind as the grammar goes by it. Literals are all alike to it, and so are
-- operators.
def TokenKind.role : TokenKind → TokenKind
  | .literal _ => .literal .int
  | .operator _ => .operator .plus
  | kind => kind

-- A kind that the grammar takes for no other one.
def TokenKind.Rigid (kind : TokenKind) : Prop :=
  ∀ other : TokenKind, other.role = kind.role → other = kind

theorem TokenKind.rigid_mark (sign : Mark) : (TokenKind.mark sign).Rigid := by
  intro other h
  cases other <;> simp_all [role]

theorem TokenKind.rigid_keyword (word : Keyword) : (TokenKind.keyword word).Rigid := by
  intro other h
  cases other <;> simp_all [role]

theorem TokenKind.rigid_identifier : TokenKind.identifier.Rigid := by
  intro other h
  cases other <;> simp_all [role]

-- New kinds, texts and places for the tokens of a list. The grammar cannot tell
-- a token from what becomes of it.
structure Renaming where
  kind : Token → TokenKind
  text : String → String
  place : Location → Location
  role_kind : ∀ token, (kind token).role = token.kind.role

def Renaming.token (change : Renaming) (old : Token) : Token :=
  ⟨change.kind old, change.text old.text, change.place old.place⟩

def Kind.rename (text : String → String) : Kind → Kind
  | .varDecl name => .varDecl (text name)
  | .array name => .array (name.map text)
  | .keyValue name => .keyValue (name.map text)
  | .literal value => .literal (text value)
  | .operator sign => .operator (text sign)
  | .identifier name => .identifier (text name)
  | kind => kind

namespace Tree

mutual

-- The tree of the same shape with new texts and places.
def rename (change : Renaming) : Tree → Tree
  | .node kind children place =>
    .node (kind.rename change.text) (renameAll change children) (change.place place)
  | .function name params children place =>
    .function (change.text name) (rename change params) (renameAll change children)
      (change.place place)
  | .loop counter first last children place =>
    .loop (change.text counter) (rename change first) (rename change last)
      (renameAll change children) (change.place place)
  | .giving value children place =>
    .giving (rename change value) (renameAll change children) (change.place place)

def renameAll (change : Renaming) : List Tree → List Tree
  | [] => []
  | tree :: rest => rename change tree :: renameAll change rest

end

theorem renameAll_eq_map (change : Renaming) (trees : List Tree) :
    renameAll change trees = trees.map (rename change) := by
  induction trees with
  | nil => rfl
  | cons tree rest ih => rw [renameAll, ih, List.map_cons]

theorem place_rename (change : Renaming) (tree : Tree) :
    (tree.rename change).place = change.place tree.place := by
  cases tree <;> rfl

end Tree

namespace Grammar

namespace Outcome

variable {change : Renaming} {α β γ δ : Type} {n k m : Nat}

-- The outcome of a rule on renamed tokens, seen from the outcome on the old ones.
def Renames (change : Renaming) (f : α → β) (outcome : Outcome α n) (other : Outcome β k) : Prop :=
  match outcome, other with
  | .parsed value rest _, .parsed value' rest' _ =>
    value' = f value ∧ rest' = rest.map change.token
  | .refused wanted rest, .refused wanted' rest' =>
    wanted' = wanted ∧ rest' = rest.map change.token
  | _, _ => False

@[simp] theorem renames_within {f : α → β} {outcome : Outcome α n} {other : Outcome β k}
    {h : n ≤ m} : (outcome.within h).Renames change f other ↔ outcome.Renames change f other := by
  cases outcome <;> cases other <;> rfl

@[simp] theorem renames_within_right {f : α → β} {outcome : Outcome α n} {other : Outcome β k}
    {h : k ≤ m} : outcome.Renames change f (other.within h) ↔ outcome.Renames change f other := by
  cases outcome <;> cases other <;> rfl

@[simp] theorem renames_loosen {f : α → β} {outcome : Outcome α n} {other : Outcome β k} :
    outcome.loosen.Renames change f other.loosen ↔ outcome.Renames change f other := by
  simp [loosen]

namespace Renames

variable {f : α → β} {outcome : Outcome α n} {other : Outcome β k}

theorem refused (wanted : Wanted) (rest : List Token) :
    (Outcome.refused wanted rest : Outcome α n).Renames change f
      (.refused wanted (rest.map change.token) : Outcome β k) := ⟨rfl, rfl⟩

theorem done {value : α} {value' : β} {rest : List Token} (h : value' = f value) :
    (Outcome.done value rest).Renames change f
      (Outcome.done value' (rest.map change.token)) := ⟨h, rfl⟩

-- What is made of the value may depend on there having been a token.
theorem map {g : α → γ} {g' : β → δ} {f' : γ → δ} (h : outcome.Renames change f other)
    (hg : ∀ value, 0 < n → g' (f value) = f' (g value)) :
    (outcome.map g).Renames change f' (other.map g') := by
  cases outcome with
  | parsed value rest shorter =>
    cases other with
    | parsed value' rest' shorter' =>
      obtain ⟨rfl, rfl⟩ := h
      exact ⟨hg value (Nat.zero_lt_of_lt shorter), rfl⟩
    | refused wanted rest => exact h.elim
  | refused wanted rest =>
    cases other with
    | parsed value' rest' shorter' => exact h.elim
    | refused wanted' rest' => exact h

theorem andMaybe {g : γ → δ}
    {next : (value : α) → (rest : List Token) → rest.length < n → Outcome γ (rest.length + 1)}
    {next' : (value : β) → (rest : List Token) → rest.length < k → Outcome δ (rest.length + 1)}
    (h : outcome.Renames change f other)
    (hnext : ∀ value rest shorter shorter', (next value rest shorter).Renames change g
      (next' (f value) (rest.map change.token) shorter')) :
    (outcome.andMaybe next).Renames change g (other.andMaybe next') := by
  cases outcome with
  | parsed value rest shorter =>
    cases other with
    | parsed value' rest' shorter' =>
      obtain ⟨rfl, rfl⟩ := h
      simpa [Outcome.andMaybe] using hnext value rest shorter shorter'
    | refused wanted rest => exact h.elim
  | refused wanted rest =>
    cases other with
    | parsed value' rest' shorter' => exact h.elim
    | refused wanted' rest' => exact h

theorem andThen {g : γ → δ}
    {next : (value : α) → (rest : List Token) → rest.length < n → Outcome γ rest.length}
    {next' : (value : β) → (rest : List Token) → rest.length < k → Outcome δ rest.length}
    (h : outcome.Renames change f other)
    (hnext : ∀ value rest shorter shorter', (next value rest shorter).Renames change g
      (next' (f value) (rest.map change.token) shorter')) :
    (outcome.andThen next).Renames change g (other.andThen next') :=
  h.andMaybe fun value rest shorter shorter' =>
    renames_loosen.mpr (hnext value rest shorter shorter')

end Renames

end Outcome

section tokens

variable {change : Renaming} {tokens : List Token}

theorem token_of_rigid {kind : TokenKind} (h : kind.Rigid) (text : String) (place : Location) :
    change.token ⟨kind, text, place⟩ = ⟨kind, change.text text, change.place place⟩ := by
  rw [Renaming.token, h _ (change.role_kind ⟨kind, text, place⟩)]

theorem token_identifier (name : String) (place : Location) :
    change.token ⟨.identifier, name, place⟩ =
      ⟨.identifier, change.text name, change.place place⟩ :=
  token_of_rigid TokenKind.rigid_identifier name place

theorem token_mark (sign : Mark) (text : String) (place : Location) :
    change.token ⟨.mark sign, text, place⟩ = ⟨.mark sign, change.text text, change.place place⟩ :=
  token_of_rigid (TokenKind.rigid_mark sign) text place

theorem token_keyword (word : Keyword) (text : String) (place : Location) :
    change.token ⟨.keyword word, text, place⟩ =
      ⟨.keyword word, change.text text, change.place place⟩ :=
  token_of_rigid (TokenKind.rigid_keyword word) text place

theorem exists_literal (change : Renaming) (form : Literal) (text : String) (place : Location) :
    ∃ form', change.token ⟨.literal form, text, place⟩ =
      ⟨.literal form', change.text text, change.place place⟩ := by
  have hr := change.role_kind ⟨.literal form, text, place⟩
  rw [Renaming.token]
  cases hk : change.kind ⟨.literal form, text, place⟩ <;> simp_all [TokenKind.role]

theorem exists_operator (change : Renaming) (sign : Operator) (text : String) (place : Location) :
    ∃ sign', change.token ⟨.operator sign, text, place⟩ =
      ⟨.operator sign', change.text text, change.place place⟩ := by
  have hr := change.role_kind ⟨.operator sign, text, place⟩
  rw [Renaming.token]
  cases hk : change.kind ⟨.operator sign, text, place⟩ <;> simp_all [TokenKind.role]

theorem exists_cons_of_map {kind : TokenKind} {text : String} {place : Location}
    {rest : List Token} (h : tokens.map change.token = ⟨kind, text, place⟩ :: rest) :
    ∃ old text' place' rest', tokens = ⟨old, text', place'⟩ :: rest' ∧ old.role = kind.role := by
  obtain ⟨⟨old, text', place'⟩, rest', rfl, hk, -⟩ := List.map_eq_cons_iff.mp h
  have hr := change.role_kind ⟨old, text', place'⟩
  rw [(Token.mk.inj hk).1] at hr
  exact ⟨old, text', place', rest', rfl, hr.symm⟩

-- A list that begins with no token of a kind does not come to begin with one.
theorem renamed_ne {kind : TokenKind} (h : kind.Rigid)
    (hno : ∀ (text : String) (place : Location) (rest : List Token),
      tokens = ⟨kind, text, place⟩ :: rest → False)
    (text : String) (place : Location) (rest : List Token) :
    tokens.map change.token = ⟨kind, text, place⟩ :: rest → False := by
  intro he
  obtain ⟨old, text', place', rest', rfl, hr⟩ := exists_cons_of_map he
  obtain rfl := h old hr
  exact hno _ _ _ rfl

theorem renamed_ne_literal (hno : ∀ (form : Literal) (text : String) (place : Location)
      (rest : List Token), tokens = ⟨.literal form, text, place⟩ :: rest → False)
    (form : Literal) (text : String) (place : Location) (rest : List Token) :
    tokens.map change.token = ⟨.literal form, text, place⟩ :: rest → False := by
  intro he
  obtain ⟨old, text', place', rest', rfl, hr⟩ := exists_cons_of_map he
  cases old with
  | literal form => exact hno form _ _ _ rfl
  | _ => cases hr

theorem renamed_ne_operator (hno : ∀ (sign : Operator) (text : String) (place : Location)
      (rest : List Token), tokens = ⟨.operator sign, text, place⟩ :: rest → False)
    (sign : Operator) (text : String) (place : Location) (rest : List Token) :
    tokens.map change.token = ⟨.operator sign, text, place⟩ :: rest → False := by
  intro he
  obtain ⟨old, text', place', rest', rfl, hr⟩ := exists_cons_of_map he
  cases old with
  | operator sign => exact hno sign _ _ _ rfl
  | _ => cases hr

theorem cons_or_ne (kind : TokenKind) (tokens : List Token) :
    (∃ text place rest, tokens = ⟨kind, text, place⟩ :: rest) ∨
      ∀ (text : String) (place : Location) (rest : List Token),
        tokens = ⟨kind, text, place⟩ :: rest → False := by
  by_cases h : ∃ text place rest, tokens = ⟨kind, text, place⟩ :: rest
  · exact .inl h
  · exact .inr fun text place rest he => h ⟨text, place, rest, he⟩

theorem nextPlace_map (h : 0 < tokens.length) :
    nextPlace (tokens.map change.token) = change.place (nextPlace tokens) := by
  cases tokens with
  | nil => cases h
  | cons token rest => rfl

theorem expect_renames {kind : TokenKind} (h : kind.Rigid) (role : String) (tokens : List Token) :
    (expect kind role tokens).Renames change change.token
      (expect kind role (tokens.map change.token)) := by
  cases tokens with
  | nil => exact .refused _ _
  | cons token rest =>
    have hk : (change.token token).kind = kind ↔ token.kind = kind := by
      have hr := change.role_kind token
      constructor
      · intro he
        exact h _ (by rw [← hr, ← he]; rfl)
      · intro he
        exact h _ (by rw [← he]; exact hr)
    rw [List.map_cons]
    simp only [expect]
    by_cases he : token.kind = kind
    · rw [if_pos he, if_pos (hk.mpr he)]
      exact .done rfl
    · rw [if_neg he, if_neg (mt hk.mp he)]
      exact .refused _ _

theorem Outcome.Renames.closedBy {α β : Type} {n k : Nat} {f : α → β} {outcome : Outcome α n}
    {other : Outcome β k} (h : outcome.Renames change f other) {kind : TokenKind}
    (hk : kind.Rigid) (role : String) :
    (outcome.closedBy kind role).Renames change f (other.closedBy kind role) :=
  h.andThen fun _ rest _ _ => (expect_renames hk role rest).map fun _ _ => rfl

abbrev RenamesTree (change : Renaming) {n k : Nat} (outcome : Outcome Tree n)
    (other : Outcome Tree k) : Prop :=
  outcome.Renames change (Tree.rename change) other

abbrev RenamesTrees (change : Renaming) {n k : Nat} (outcome : Outcome (List Tree) n)
    (other : Outcome (List Tree) k) : Prop :=
  outcome.Renames change (Tree.renameAll change) other

end tokens

end Grammar

end ScriptIR
