import ScriptIR.Journal
import ScriptIR.Lowering.Basic

namespace ScriptIR.Command

-- The stage of the compiler that a run prints.
inductive Stage where
  | tokens
  | ast
  | ir
  | view
deriving DecidableEq

namespace Stage

def name : Stage → String
  | .tokens => "tokens"
  | .ast => "ast"
  | .ir => "ir"
  | .view => "view"

def all : List Stage := [.tokens, .ast, .ir, .view]

def ofName? (text : String) : Option Stage := all.find? (·.name = text)

end Stage

-- A request that the arguments make.
structure Invocation where
  stage : Stage
  -- a file, or a single hyphen for standard input
  file : String
  mode : Mode
  statistics : Bool
  output : Option String
  -- the most talkative level to be told, if any
  level : Option Level

-- Ways in which the arguments end the run before it begins.
inductive Stop where
  | refused
  | version
  | help
deriving DecidableEq

-- What one flag says. The value of an output flag may be attached to it.
inductive Switch where
  | verbose
  | quiet
  | version
  | help
  | revisit
  | statistics
  | output (attached : Option String)
  | unknown

namespace Switch

-- The flags in a cluster of letters behind one hyphen. The output flag takes
-- all that follows it, less one sign of equality.
def ofLetters : List Char → List Switch
  | [] => []
  | 'v' :: rest => .verbose :: ofLetters rest
  | 'q' :: rest => .quiet :: ofLetters rest
  | 'V' :: rest => .version :: ofLetters rest
  | 'h' :: rest => .help :: ofLetters rest
  | 'o' :: [] => [.output none]
  | 'o' :: '=' :: value => [.output (some (String.ofList value))]
  | 'o' :: value => [.output (some (String.ofList value))]
  | _ :: _ => [.unknown]

private def valueBehind (name : List Char) (word : List Char) : Option String :=
  if name.isPrefixOf word then some (String.ofList (word.drop name.length)) else none

-- The flag that a word behind two hyphens names. Names are never shortened.
def ofWord (word : List Char) : Switch :=
  match String.ofList word with
  | "verbose" => .verbose
  | "quiet" => .quiet
  | "version" => .version
  | "help" => .help
  | "revisit-children" => .revisit
  | "stats" => .statistics
  | "output" => .output none
  | _ =>
    match valueBehind "output=".toList word with
    | some value => .output (some value)
    | none => .unknown

end Switch

-- The flags that may stand on either side of the stage.
structure Volume where
  verbose : Nat
  quiet : Bool

-- The arguments read so far.
structure Reading where
  before : Volume
  stage : Option Stage
  behind : Volume
  file : Option String
  revisit : Bool
  statistics : Bool
  output : Option String
  -- the next argument is the value of the output flag
  awaiting : Bool
  -- all further arguments are no flags
  literal : Bool

namespace Reading

def empty : Reading :=
  { before := ⟨0, false⟩
    stage := none
    behind := ⟨0, false⟩
    file := none
    revisit := false
    statistics := false
    output := none
    awaiting := false
    literal := false }

-- The flags on the side of the stage that is being read.
def volume (reading : Reading) : Volume :=
  if reading.stage.isSome then reading.behind else reading.before

def withVolume (reading : Reading) (volume : Volume) : Reading :=
  if reading.stage.isSome then { reading with behind := volume }
  else { reading with before := volume }

def withOutput (reading : Reading) (path : String) : Except Stop Reading :=
  if path.isEmpty then .error .refused
  else .ok { reading with output := some path, awaiting := false }

-- Takes one flag. Only the repeated flag of verbosity adds up.
def flag (reading : Reading) : Switch → Except Stop Reading
  | .verbose => .ok (reading.withVolume ⟨reading.volume.verbose + 1, reading.volume.quiet⟩)
  | .quiet =>
    if reading.volume.quiet then .error .refused
    else .ok (reading.withVolume ⟨reading.volume.verbose, true⟩)
  | .version => .error (if reading.stage.isSome then .refused else .version)
  | .help => .error .help
  | .revisit =>
    if (reading.stage = some .ir || reading.stage = some .view) && !reading.revisit then
      .ok { reading with revisit := true }
    else .error .refused
  | .statistics =>
    if reading.stage = some .ir && !reading.statistics then
      .ok { reading with statistics := true }
    else .error .refused
  | .output attached =>
    if reading.stage = some .ir && reading.output.isNone then
      match attached with
      | some path => reading.withOutput path
      | none => .ok { reading with awaiting := true }
    else .error .refused
  | .unknown => .error .refused

-- Takes an argument that is no flag: the stage first, then one file.
def word (reading : Reading) (argument : String) : Except Stop Reading :=
  match reading.stage with
  | none =>
    match Stage.ofName? argument with
    | some stage => .ok { reading with stage := some stage }
    | none => .error (if argument = "help" then .help else .refused)
  | some _ =>
    if reading.file.isSome then .error .refused else .ok { reading with file := some argument }

-- The value of an output flag in an argument of its own looks like no flag.
def value (reading : Reading) (argument : String) : Except Stop Reading :=
  match argument.toList with
  | '-' :: _ :: _ => .error .refused
  | _ => reading.withOutput argument

def take (reading : Reading) (argument : String) : Except Stop Reading :=
  if reading.awaiting then reading.value argument
  else if reading.literal then reading.word argument
  else
    match argument.toList with
    | '-' :: '-' :: [] =>
      if reading.stage.isSome then .ok { reading with literal := true } else .error .refused
    | '-' :: '-' :: name => reading.flag (Switch.ofWord name)
    | '-' :: letter :: more => (Switch.ofLetters (letter :: more)).foldlM flag reading
    | _ => reading.word argument

-- The level to be told. The flags behind the stage win over those before it,
-- except that silence on either side is silence.
def level (reading : Reading) : Option Level :=
  let count := if 0 < reading.behind.verbose then reading.behind.verbose else reading.before.verbose
  if reading.before.quiet || reading.behind.quiet then none
  else
    match count with
    | 0 => some .warn
    | 1 => some .info
    | 2 => some .debug
    | _ => some .trace

private def contradicts (volume : Volume) : Bool := 0 < volume.verbose && volume.quiet

def finish (reading : Reading) : Except Stop Invocation :=
  if reading.awaiting || contradicts reading.before || contradicts reading.behind then
    .error .refused
  else
    match reading.stage, reading.file with
    | some stage, some file =>
      .ok
        { stage
          file
          mode := if reading.revisit then .revisit else .single
          statistics := reading.statistics
          output := reading.output
          level := reading.level }
    | _, _ => .error .refused

end Reading

-- The request in a list of arguments. The first argument that ends the run
-- decides how it ends.
def Invocation.ofArguments (arguments : List String) : Except Stop Invocation := do
  (← arguments.foldlM Reading.take .empty).finish

end ScriptIR.Command
