import Mathlib
import ScriptIR.Proofs.Grammar.Rewinding

namespace ScriptIR.Grammar

-- The parser once more, as functions that call each other and share one cursor. Only what they
-- do to the cursor is kept here, and no trees are made.
namespace Descent

inductive Rule where
  | declaration
  | mainFunction
  | functionDeclaration
  -- without the parentheses
  | parameterList
  | valueDeclaration
  | arrayDeclaration
  | keyValueDeclaration
  | arrayLiteral
  | keyValueLiteral
  | items
  | item
  | pair
  -- statements up to a closing brace, without it
  | block
  | statement
  | compound
  | branch
  | assignmentOrCall
  | assignment
  | ifStatement
  | forLoop
  | returnStatement
  | expression
  | operand
  | call
  | arguments
  | literal
  | operator
deriving DecidableEq

-- The loops of the rules. That over declarations is a whole program.
inductive Loop where
  | declarations
  | parameters
  | items
  | pairs
  | statements
  | operations
  | arguments
deriving DecidableEq

inductive Task where
  | rule (rule : Rule)
  | loop (loop : Loop)
deriving DecidableEq

-- Why a rule gives up.
inductive Refusal where
  | wanted (wanted : Wanted)
  | noOperator
deriving DecidableEq

-- What a rule does, one act after the other.
inductive Act where
  -- the rule has read what it is for
  | leave
  | refuse (refusal : Refusal)
  -- one more turn of a loop
  | again
  -- takes the token at the cursor if it fits
  | take (fits : TokenKind → Bool) (taken left : Act)
  -- looks at a token, some tokens ahead of the cursor
  | look (ahead : Nat) (fits : TokenKind → Bool) (found other : Act)
  | enter (task : Task) (behind : Act)
  -- remembers the cursor, and goes back to where it was
  | save (behind : Act)
  | restore (behind : Act)

namespace Act

def need (kind : TokenKind) (role : String) (behind : Act) : Act :=
  .take (· = kind) behind (.refuse (.wanted (.token kind role)))

def enterRule (rule : Rule) (behind : Act) : Act := .enter (.rule rule) behind

def enterLoop (loop : Loop) (behind : Act) : Act := .enter (.loop loop) behind

end Act

open Act

def Rule.code : Rule → Act
  | declaration =>
    .look 0 (· = .keyword .functionWord) (enterRule functionDeclaration .leave)
      (.look 0 (· = .keyword .mainWord) (enterRule mainFunction .leave)
        (.look 0 (· = .identifier)
          (.look 2 (· = .mark .leftBracket) (enterRule arrayDeclaration .leave)
            (.look 2 (· = .mark .leftBrace) (enterRule keyValueDeclaration .leave)
              (enterRule valueDeclaration .leave)))
          (.refuse (.wanted .declaration))))
  | mainFunction =>
    need (.keyword .mainWord) "at start of main" <|
    need (.mark .leftParen) "after 'main'" <|
    need (.mark .rightParen) "after 'main('" <|
    need (.mark .leftBrace) "before main body" <|
    enterRule block <|
    need (.mark .rightBrace) "after main body" .leave
  | functionDeclaration =>
    need (.keyword .functionWord) "at start of function" <|
    need .identifier "as function name" <|
    need (.mark .leftParen) "after function name" <|
    enterRule parameterList <|
    need (.mark .rightParen) "after parameters" <|
    need (.mark .leftBrace) "before function body" <|
    enterRule block <|
    need (.mark .rightBrace) "after function body" .leave
  | parameterList =>
    .look 0 (· = .mark .rightParen) .leave (enterLoop .parameters .leave)
  | valueDeclaration =>
    need .identifier "in declaration" <|
    need (.mark .assign) "after variable name" <|
    enterRule expression <|
    need (.mark .semicolon) "after variable declaration" .leave
  | arrayDeclaration =>
    need .identifier "in array declaration" <|
    need (.mark .assign) "after array name" <|
    enterRule arrayLiteral <|
    need (.mark .semicolon) "after array declaration" .leave
  | keyValueDeclaration =>
    need .identifier "in key/value declaration" <|
    need (.mark .assign) "after key/value name" <|
    enterRule keyValueLiteral <|
    need (.mark .semicolon) "after key/value declaration" .leave
  | arrayLiteral =>
    need (.mark .leftBracket) "to open array" <|
    enterRule items <|
    need (.mark .rightBracket) "to close array" .leave
  | keyValueLiteral =>
    need (.mark .leftBrace) "to open key/value block" <|
    .look 0 (· = .mark .rightBrace)
      (need (.mark .rightBrace) "to close key/value block" .leave)
      (enterLoop .pairs <| need (.mark .rightBrace) "to close key/value block" .leave)
  | items => enterLoop .items .leave
  | item =>
    .look 0 (· = .mark .leftBracket) (enterRule arrayLiteral .leave)
      (.look 0 (· = .mark .leftBrace) (enterRule keyValueLiteral .leave)
        (enterRule expression .leave))
  | pair =>
    enterRule expression <|
    need (.mark .colon) "between key and value" <|
    enterRule item .leave
  | block => enterLoop .statements .leave
  | statement =>
    .look 0 (· = .identifier) (enterRule assignmentOrCall .leave)
      (.look 0 (· = .keyword .ifWord) (enterRule ifStatement .leave)
        (.look 0 (· = .keyword .forWord) (enterRule forLoop .leave)
          (.look 0 (· = .keyword .returnWord) (enterRule returnStatement .leave)
            (.look 0 (· = .mark .leftBrace) (enterRule compound .leave)
              (.refuse (.wanted .statement))))))
  | compound =>
    need (.mark .leftBrace) "to open block" <|
    enterRule block <|
    need (.mark .rightBrace) "after block" .leave
  | branch =>
    .look 0 (· = .mark .leftBrace) (enterRule compound .leave) (enterRule statement .leave)
  -- the name is taken in order to see what is behind it, and read again by the other rules
  | assignmentOrCall =>
    .save <|
    need .identifier "at start of statement" <|
    .look 0 (· = .mark .leftParen)
      (.restore <| enterRule call <| need (.mark .semicolon) "after function call" .leave)
      (.restore <| enterRule assignment .leave)
  | assignment =>
    need .identifier "as assignment target" <|
    .take (· = .mark .leftBracket)
      (enterRule expression <|
        need (.mark .rightBracket) "after index" <|
        need (.mark .assign) "in assignment" <|
        enterRule expression <|
        need (.mark .semicolon) "after assignment" .leave)
      (need (.mark .assign) "in assignment" <|
        enterRule expression <|
        need (.mark .semicolon) "after assignment" .leave)
  | ifStatement =>
    need (.keyword .ifWord) "at start of if" <|
    need (.mark .leftParen) "after 'if'" <|
    enterRule expression <|
    need (.mark .rightParen) "after if condition" <|
    enterRule branch <|
    .take (· = .keyword .elseWord) (enterRule branch .leave) .leave
  | forLoop =>
    need (.keyword .forWord) "at start of for" <|
    need (.mark .leftParen) "after 'for'" <|
    need .identifier "as loop variable" <|
    need (.mark .colon) "after loop variable" <|
    enterRule expression <|
    need (.mark .comma) "after loop start" <|
    enterRule expression <|
    need (.mark .rightParen) "after loop bounds" <|
    .take (· = .mark .leftBrace)
      (enterRule block <| need (.mark .rightBrace) "after loop body" .leave)
      (enterRule statement .leave)
  | returnStatement =>
    need (.keyword .returnWord) "at start of return" <|
    .look 0 (· = .mark .semicolon)
      (need (.mark .semicolon) "after return" .leave)
      (enterRule expression <| need (.mark .semicolon) "after return" .leave)
  | expression => enterRule operand <| enterLoop .operations .leave
  | operand =>
    .take (· = .mark .leftParen)
      (enterRule expression <|
        need (.mark .rightParen) "to close parenthesized expression" .leave)
      (.look 0 (· = .identifier)
        (.look 1 (· = .mark .leftParen) (enterRule call .leave)
          (need .identifier "in expression" <|
            .take (· = .mark .leftBracket)
              (enterRule expression <| need (.mark .rightBracket) "after index" .leave)
              .leave))
        (enterRule literal .leave))
  | call =>
    need .identifier "as function name" <|
    need (.mark .leftParen) "after function name" <|
    .look 0 (· = .mark .rightParen)
      (need (.mark .rightParen) "after arguments" .leave)
      (enterRule arguments <| need (.mark .rightParen) "after arguments" .leave)
  | arguments => enterLoop .arguments .leave
  | literal => .take TokenKind.isLiteral .leave (.refuse (.wanted .expression))
  | operator => .take TokenKind.isOperator .leave (.refuse .noOperator)

-- What a loop does in one turn.
def Loop.code : Loop → Act
  | declarations => .look 0 (fun _ => true) (enterRule .declaration .again) .leave
  | parameters =>
    need .identifier "in parameter list" <| .take (· = .mark .comma) .again .leave
  | items => enterRule .item <| .take (· = .mark .comma) .again .leave
  | pairs => enterRule .pair <| .take (· = .mark .comma) .again .leave
  | statements =>
    .look 0 (· = .mark .rightBrace) .leave
      (.look 0 (fun _ => true) (enterRule .statement .again) .leave)
  | operations =>
    .look 0 TokenKind.isOperator (enterRule .operator <| enterRule .operand .again) .leave
  | arguments => enterRule .expression <| .take (· = .mark .comma) .again .leave

def Task.code : Task → Act
  | .rule name => name.code
  | .loop name => name.code

-- A task that is not done. It has its own turns and its own saved place, and the cursor is
-- shared.
structure Frame where
  task : Task
  -- where the cursor was when the task was entered, and when its turn began
  entry : Nat
  start : Nat
  saved : Nat
  -- the turns that are done
  turns : Nat
  code : Act

def Frame.fresh (task : Task) (cursor : Nat) : Frame := ⟨task, cursor, cursor, cursor, 0, task.code⟩

-- The frame at work is in front, and behind each frame is the one that entered it.
structure State where
  cursor : Nat
  frames : List Frame
  failure : Option Refusal

namespace State

def start (task : Task) (entry : Nat) : State := ⟨entry, [.fresh task entry], none⟩

-- One act of the frame at work.
def act (tokens : List Token) (cursor : Nat) (frame : Frame) (waiting : List Frame) : State :=
  match frame.code with
  | .leave => ⟨cursor, waiting, none⟩
  | .refuse refusal => ⟨cursor, waiting, some refusal⟩
  | .again =>
    ⟨cursor,
      { Frame.fresh frame.task cursor with entry := frame.entry, turns := frame.turns + 1 } :: waiting,
      none⟩
  | .take fits taken left =>
    if tokens[cursor]?.any (fits ·.kind) then
      ⟨cursor + 1, { frame with code := taken } :: waiting, none⟩
    else ⟨cursor, { frame with code := left } :: waiting, none⟩
  | .look ahead fits found other =>
    if tokens[cursor + ahead]?.any (fits ·.kind) then
      ⟨cursor, { frame with code := found } :: waiting, none⟩
    else ⟨cursor, { frame with code := other } :: waiting, none⟩
  | .enter callee behind =>
    ⟨cursor, .fresh callee cursor :: { frame with code := behind } :: waiting, none⟩
  | .save behind => ⟨cursor, { frame with saved := cursor, code := behind } :: waiting, none⟩
  | .restore behind => ⟨frame.saved, { frame with code := behind } :: waiting, none⟩

-- A failure takes one frame away after the other.
def next (tokens : List Token) (state : State) : Option State :=
  match state.frames, state.failure with
  | [], _ => none
  | frame :: waiting, none => some (act tokens state.cursor frame waiting)
  | _ :: waiting, some refusal => some ⟨state.cursor, waiting, some refusal⟩

-- The states that a state comes to.
def Runs (tokens : List Token) : State → State → Prop :=
  Relation.ReflTransGen fun state later => state.next tokens = some later

end State

end Descent

end ScriptIR.Grammar
