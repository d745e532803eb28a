import ScriptIR.Grammar.Outcome

namespace ScriptIR.Grammar

-- A statement that begins with an identifier is a call or an assignment, and
-- only the token behind the identifier can tell. Every such choice is noted.
structure Choice where
  name : String
  line : Nat
  isCall : Bool
deriving DecidableEq

def Choice.message (choice : Choice) : String :=
  s!"rewound after '{choice.name}' at line {choice.line}: parsing as " ++
    if choice.isCall then "call" else "assignment"

-- An outcome together with the choices made on the way. A refusal keeps the
-- choices that came before it.
structure Traced (α : Type) (bound : Nat) where
  choices : List Choice
  outcome : Outcome α bound

namespace Traced

variable {α β : Type} {n : Nat}

def noting (choice : Choice) (traced : Traced α n) : Traced α n :=
  { traced with choices := choice :: traced.choices }

@[inline] def loosen (traced : Traced α n) : Traced α (n + 1) :=
  ⟨traced.choices, traced.outcome.loosen⟩

@[inline] def map (f : α → β) (traced : Traced α n) : Traced β n :=
  ⟨traced.choices, traced.outcome.map f⟩

@[inline] def andMaybe (traced : Traced α n)
    (next : (value : α) → (rest : List Token) → rest.length < n → Traced β (rest.length + 1)) :
    Traced β n :=
  match traced.outcome with
  | .parsed value rest shorter =>
    let behind := next value rest shorter
    ⟨traced.choices ++ behind.choices, behind.outcome.within shorter⟩
  | .refused wanted rest => ⟨traced.choices, .refused wanted rest⟩

@[inline] def andThen (traced : Traced α n)
    (next : (value : α) → (rest : List Token) → rest.length < n → Traced β rest.length) :
    Traced β n :=
  traced.andMaybe fun value rest shorter => (next value rest shorter).loosen

end Traced

-- Rules below the level of statements make no choices.
@[inline] def Outcome.traced {α : Type} {n : Nat} (outcome : Outcome α n) : Traced α n :=
  ⟨[], outcome⟩

end ScriptIR.Grammar
