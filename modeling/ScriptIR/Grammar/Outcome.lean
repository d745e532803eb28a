import ScriptIR.Token.Basic

namespace ScriptIR.Grammar

-- What the grammar needed at the place of a syntax error. The role of a token
-- says which of its places in the grammar was meant.
inductive Wanted where
  | token (kind : TokenKind) (role : String)
  | declaration
  | statement
  | expression
deriving DecidableEq

def Wanted.describe : Wanted → String
  | .token kind role => s!"{kind.describe} {role}"
  | .declaration => "'function', 'main' or a declaration"
  | .statement => "a statement"
  | .expression => "an expression"

-- What a rule of the grammar makes of a list of tokens. A rule that succeeds
-- leaves fewer tokens than the bound, which is what lets the rules call each
-- other. A rule that fails stops in front of the token that it cannot use.
inductive Outcome (α : Type) (bound : Nat) where
  | parsed (value : α) (rest : List Token) (shorter : rest.length < bound)
  | refused (wanted : Wanted) (rest : List Token)

-- The two facts about lengths that all promises are made of. The rules put
-- outcomes together and hold no proofs of their own.
theorem length_lt_length_add_one (rest : List Token) : rest.length < rest.length + 1 :=
  Nat.lt_succ_self _

theorem length_lt_of_lt_of_le {rest : List Token} {k n : Nat} (shorter : rest.length < k)
    (h : k ≤ n) : rest.length < n :=
  Nat.lt_of_lt_of_le shorter h

namespace Outcome

variable {α β : Type} {n k : Nat}

-- Ends a rule in front of the rest. Where the rule took a token first, this is
-- less than it began with.
@[inline] def done (value : α) (rest : List Token) : Outcome α (rest.length + 1) :=
  .parsed value rest (length_lt_length_add_one rest)

-- The same outcome under a weaker promise.
@[inline] def within (outcome : Outcome α k) (h : k ≤ n) : Outcome α n :=
  match outcome with
  | .parsed value rest shorter => .parsed value rest (length_lt_of_lt_of_le shorter h)
  | .refused wanted rest => .refused wanted rest

-- The outcome of a rule that is behind a token, as one of a rule that begins
-- with the token.
@[inline] def loosen (outcome : Outcome α n) : Outcome α (n + 1) :=
  outcome.within (Nat.le_succ n)

@[inline] def map (f : α → β) (outcome : Outcome α n) : Outcome β n :=
  match outcome with
  | .parsed value rest shorter => .parsed (f value) rest shorter
  | .refused wanted rest => .refused wanted rest

-- Goes on behind a success with what may use no token at all.
@[inline] def andMaybe (outcome : Outcome α n)
    (next : (value : α) → (rest : List Token) → rest.length < n → Outcome β (rest.length + 1)) :
    Outcome β n :=
  match outcome with
  | .parsed value rest shorter => (next value rest shorter).within shorter
  | .refused wanted rest => .refused wanted rest

-- Goes on behind a success with what uses some token.
@[inline] def andThen (outcome : Outcome α n)
    (next : (value : α) → (rest : List Token) → rest.length < n → Outcome β rest.length) :
    Outcome β n :=
  outcome.andMaybe fun value rest shorter => (next value rest shorter).loosen

-- The outcome without its promise.
def result : Outcome α n → Except (Wanted × List Token) (α × List Token)
  | .parsed value rest _ => .ok (value, rest)
  | .refused wanted rest => .error (wanted, rest)

end Outcome

-- Takes one token of a kind.
def expect (kind : TokenKind) (role : String) : (tokens : List Token) → Outcome Token tokens.length
  | token :: rest =>
    if token.kind = kind then .done token rest
    else .refused (.token kind role) (token :: rest)
  | [] => .refused (.token kind role) []

-- The same outcome with one token of a kind behind it.
@[inline] def Outcome.closedBy {α : Type} {n : Nat} (outcome : Outcome α n)
    (kind : TokenKind) (role : String) : Outcome α n :=
  outcome.andThen fun value rest _ => (expect kind role rest).map fun _ => value

-- Where the next token stands. Only lists that are not empty are asked.
def nextPlace (tokens : List Token) : Location :=
  match tokens with
  | token :: _ => token.place
  | [] => .start

end ScriptIR.Grammar
