import ScriptIR.Command.Arguments
import ScriptIR.Inspector.Session
import ScriptIR.Instruction.Statistics
import ScriptIR.Tree.Outline

namespace ScriptIR.Command

-- Why a file could not be read or written.
inductive FileError where
  | notFound
  | notADirectory
  | isADirectory
  | notText
  | other (message : String)
deriving DecidableEq

def FileError.message : FileError → String
  | .notFound => "No such file or directory (os error 2)"
  | .notADirectory => "Not a directory (os error 20)"
  | .isADirectory => "Is a directory (os error 21)"
  | .notText => "stream did not contain valid UTF-8"
  | .other message => message

-- All that a finished run has shown.
structure Transcript where
  stdout : String
  stderr : String
  status : Nat
deriving DecidableEq

-- What a run does once it has its input. At most one file is written, and the
-- run ends with knowing whether that worked.
inductive Reply where
  | done (transcript : Transcript)
  | save (path text : String) (after : Option FileError → Transcript)
  | inspect (session : Inspector.Session) (stderr : String)

-- The lines of a journal that a level lets through.
def told (level : Option Level) (records : List Record) : String :=
  match level with
  | none => ""
  | some level =>
    (records.filter (·.level.rank ≤ level.rank)).foldl
      (fun text record => text ++ record.describe ++ "\n") ""

namespace Invocation

-- The end of a run that failed. Nothing is left on standard output.
def failure (stderr message : String) : Transcript :=
  ⟨"", stderr ++ s!"Error: {message}\n", 1⟩

def fromStdin (invocation : Invocation) : Bool := invocation.file = "-"

def readFailure (invocation : Invocation) (error : FileError) : String :=
  if invocation.fromStdin then s!"cannot read standard input: {error.message}"
  else s!"cannot read '{invocation.file}': {error.message}"

-- A file that was read is told with its size. Standard input is not.
def opening (invocation : Invocation) (source : String) : List Record :=
  if invocation.fromStdin then []
  else [⟨.info, .command, s!"read {source.utf8ByteSize} bytes from {invocation.file}"⟩]

def tokenListing (tokens : List Token) : String :=
  tokens.foldl (fun text token => text ++ s!"{token.kind.tag}: {token.text}\n") ""

def diagnosticListing (diagnostics : List Diagnostic) : String :=
  diagnostics.foldl (fun text diagnostic => text ++ diagnostic.describe ++ "\n") ""

-- Prints the tokens. Diagnostics are shown however quiet the run is.
def replyTokens (invocation : Invocation) (source : String) : Reply :=
  let lexed := lex source
  let journal := told invocation.level (invocation.opening source ++ lexed.records)
  .done ⟨tokenListing lexed.result.tokens, journal ++ diagnosticListing lexed.result.diagnostics, 0⟩

-- Prints the outline of the tree.
def replyTree (invocation : Invocation) (source : String) : Reply :=
  let lexed := lex source
  let parsed := parseTold lexed.result.tokens
  let journal :=
    told invocation.level (invocation.opening source ++ lexed.records ++ parsed.records)
  match parsed.result with
  | .ok tree => .done ⟨tree.outline, journal, 0⟩
  | .error error => .done (failure journal error.describe)

-- Prints the instructions or saves them, and then shows the statistics if they
-- are wanted.
def replyInstructions (invocation : Invocation) (source : String) : Reply :=
  let compiled := compileTold invocation.mode source
  let journal := told invocation.level (invocation.opening source ++ compiled.records)
  match compiled.result with
  | .error error => .done (failure journal error.describe)
  | .ok { instructions, .. } =>
    let text := Instruction.listing instructions
    let statistics := if invocation.statistics then Instruction.statistics instructions else ""
    match invocation.output with
    | none => .done ⟨text, journal ++ statistics, 0⟩
    | some path =>
      let closing : Record :=
        ⟨.info, .command, s!"wrote {instructions.length} instructions to {path}"⟩
      .save path text fun
        | none => ⟨"", journal ++ told invocation.level [closing] ++ statistics, 0⟩
        | some error => failure journal s!"cannot write '{path}': {error.message}"

-- Opens the inspector, unless the source does not compile.
def replySession (invocation : Invocation) (source : String) : Reply :=
  let started := Inspector.Session.start invocation.mode source
  let journal := told invocation.level (invocation.opening source ++ started.records)
  match started.result with
  | .ok session => .inspect session journal
  | .error error => .done (failure journal error.describe)

def reply (invocation : Invocation) (input : Except FileError String) : Reply :=
  match input with
  | .error error => .done (failure "" (invocation.readFailure error))
  | .ok source =>
    match invocation.stage with
    | .tokens => invocation.replyTokens source
    | .ast => invocation.replyTree source
    | .ir => invocation.replyInstructions source
    | .view => invocation.replySession source

end Invocation

def versionText : String := "scriptc 0.1.0\n"

def helpText : String :=
  "Usage: scriptc [-v]... [-q] (tokens | ast | ir | view) FILE\n" ++
  "\n" ++
  "FILE is a source file, or - for standard input.\n" ++
  "\n" ++
  "  -v, --verbose         more log output: -v info, -vv debug, -vvv trace\n" ++
  "  -q, --quiet           no log output at all\n" ++
  "      --revisit-children  walk the children of lowered nodes again (ir, view)\n" ++
  "      --stats           count the instructions on standard error (ir)\n" ++
  "  -o, --output FILE     write the instructions to a file (ir)\n" ++
  "  -V, --version         print the version\n" ++
  "  -h, --help            print this text\n"

-- The end of a run that its arguments stop.
def Stop.transcript : Stop → Transcript
  | .refused => ⟨"", "Error: the arguments were not understood, try --help\n", 2⟩
  | .version => ⟨versionText, "", 0⟩
  | .help => ⟨helpText, "", 0⟩

end ScriptIR.Command
