import Mathlib
import ScriptIR.Proofs.Grammar.Program
import ScriptIR.Proofs.Grammar.Renamed

namespace ScriptIR

open Grammar

-- All that the grammar goes by. Literals have one role, and operators have one.
def roles (tokens : List Token) : List TokenKind :=
  tokens.map fun token => token.kind.role

-- Tokens with the roles of a list that say nothing but their position in it. What is
-- made of them tells which token each text and each place of a tree comes from.
def numbered (tokens : List Token) : List Token :=
  (roles tokens).mapIdx fun index role => ⟨role, index.repr, ⟨index, 0⟩⟩

-- The token at a position. What comes from no position shows as the spare one.
def tokenAt (tokens : List Token) (spare : Token) (index : Nat) : Token :=
  tokens[index]?.getD spare

-- Every number becomes what the token of that number says, be it a text or a place.
def Renaming.filling (tokens : List Token) (spare : Token) : Renaming where
  kind token :=
    let filled := (tokenAt tokens spare token.place.line).kind
    if filled.role = token.kind.role then filled else token.kind
  text name := (tokenAt tokens spare (name.toNat?.getD tokens.length)).text
  place place := (tokenAt tokens spare place.line).place
  role_kind token := by
    dsimp only
    split
    · assumption
    · rfl

theorem TokenKind.role_role (kind : TokenKind) : kind.role.role = kind.role := by
  cases kind <;> rfl

theorem length_numbered (tokens : List Token) : (numbered tokens).length = tokens.length := by
  simp [numbered, roles]

-- Tokens of the same roles are numbered alike, and each list is got back from the
-- numbers.
theorem numbered_filling {tokens others : List Token} (h : roles others = roles tokens)
    (spare : Token) : (numbered tokens).map (Renaming.filling others spare).token = others := by
  have hlength : others.length = tokens.length := by
    simpa [roles] using congrArg List.length h
  apply List.ext_getElem
  · rw [List.length_map, length_numbered, hlength]
  · intro index hi ho
    have hroles : index < (roles tokens).length := by
      rw [← h]
      simpa [roles] using ho
    have hrole : (roles tokens)[index] = others[index].kind.role := by
      simp only [← h]
      simp [roles]
    have hat : tokenAt others spare index = others[index] := by
      simp [tokenAt, List.getElem?_eq_getElem ho]
    simp only [numbered, List.getElem_map, List.getElem_mapIdx, Renaming.token, Renaming.filling,
      Nat.toNat?_repr, Option.getD_some, hat, hrole, TokenKind.role_role, if_true]

-- The tree or the error of a list of tokens is settled by their roles, up to the tokens
-- that it names. A tree can only name tokens of the list, as any token may be the
-- spare one.
theorem parse_by_roles (tokens : List Token) :
    (∃ skeleton, parse (numbered tokens) = .ok (.node .program skeleton .start) ∧
      ∀ others spare, roles others = roles tokens → parse others =
        .ok (.node .program (Tree.renameAll (.filling others spare) skeleton) .start)) ∨
    ∃ wanted index, index ≤ tokens.length ∧ ∀ others, roles others = roles tokens →
      parse others = .error ((Reader.ofTokens others).errorAt wanted (others.drop index)) := by
  obtain ⟨skeleton, -, hp⟩ | ⟨wanted, used, rest, ht, -, hp, -⟩ := program_cases (numbered tokens)
  · refine .inl ⟨skeleton, hp, fun others spare hr => ?_⟩
    have hm := (parse_map (.filling others spare) (numbered tokens)).1 skeleton hp
    rwa [numbered_filling hr] at hm
  · have hlength := congrArg List.length ht
    rw [length_numbered, List.length_append] at hlength
    refine .inr ⟨wanted, used.length, by omega, fun others hr => ?_⟩
    -- no token of the list is missing, so any will do for the spare one
    let change := Renaming.filling others ⟨.identifier, "", .start⟩
    have hfill : (numbered tokens).map change.token = others := numbered_filling hr _
    have hne : numbered tokens ≠ [] := by
      intro hnil
      rw [hnil, parse_nil] at hp
      cases hp
    have hrest : rest.map change.token = others.drop used.length := by
      rw [← hfill, ht, List.map_append, List.drop_left' (List.length_map _)]
    have hm := (parse_map change (numbered tokens)).2 _ hp
    rwa [← errorAt_map change hne, hfill, hrest] at hm

end ScriptIR
