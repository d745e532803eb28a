import ScriptIR.Grammar.Program
import ScriptIR.Journal
import ScriptIR.Lowering.Basic
import ScriptIR.Token.Scan

namespace ScriptIR

-- Whatever stops a compilation. Diagnostics do not.
inductive CompileError where
  | grammar (error : SyntaxError)
  | lowering (error : LoweringError)
deriving DecidableEq

def CompileError.describe : CompileError → String
  | .grammar error => error.describe
  | .lowering error => error.describe

-- What a stage has to say, with the records that it wrote on the way.
structure Told (α : Type) where
  records : List Record
  result : α

def Diagnostic.record (diagnostic : Diagnostic) : Record :=
  ⟨.warn, .lexer, diagnostic.describe⟩

def Grammar.Choice.record (choice : Choice) : Record :=
  ⟨.trace, .statements, choice.message⟩

-- A source cut into tokens. Each diagnostic is told.
def lex (source : String) : Told Lexed :=
  let lexed := Lexed.ofSource source
  ⟨lexed.diagnostics.map Diagnostic.record, lexed⟩

-- Tokens made into a tree. Each choice is told, and a success.
def parseTold (tokens : List Token) : Told (Except SyntaxError Tree) :=
  let reading := (Reader.ofTokens tokens).program.1
  let done :=
    match reading.result with
    | .ok tree =>
      [⟨.debug, .grammar,
        s!"parsed {tokens.length} tokens into {tree.children.length} top-level declarations"⟩]
    | .error _ => []
  ⟨reading.choices.map Grammar.Choice.record ++ done, reading.result⟩

-- A tree made into instructions. A success is told.
def lowerTold (mode : Mode) (tree : Tree) : Told Lowered :=
  let lowered := tree.lower mode
  match lowered with
  | .ok instructions =>
    ⟨[⟨.debug, .lowering,
      s!"emitted {instructions.length} instructions from {tree.count} nodes"⟩], lowered⟩
  | .error _ => ⟨[], lowered⟩

-- All that is known of a source that compiles.
structure Compiled where
  lexed : Lexed
  tree : Tree
  instructions : List Instruction

-- The whole way from a source to its instructions.
def compileTold (mode : Mode) (source : String) : Told (Except CompileError Compiled) :=
  let lexed := lex source
  let parsed := parseTold lexed.result.tokens
  match parsed.result with
  | .error error => ⟨lexed.records ++ parsed.records, .error (.grammar error)⟩
  | .ok tree =>
    let lowered := lowerTold mode tree
    let records := lexed.records ++ parsed.records ++ lowered.records
    match lowered.result with
    | .error error => ⟨records, .error (.lowering error)⟩
    | .ok instructions => ⟨records, .ok ⟨lexed.result, tree, instructions⟩⟩

def compile (mode : Mode) (source : String) : Except CompileError (List Instruction) :=
  (compileTold mode source).result.map Compiled.instructions

end ScriptIR
