namespace ScriptIR

-- How much a record matters. Records are told from some level on.
inductive Level where
  | warn
  | info
  | debug
  | trace
deriving DecidableEq

namespace Level

def name : Level → String
  | .warn => "WARN"
  | .info => "INFO"
  | .debug => "DEBUG"
  | .trace => "TRACE"

-- Higher is more talkative.
def rank : Level → Nat
  | .warn => 1
  | .info => 2
  | .debug => 3
  | .trace => 4

end Level

-- The part of the compiler that a record comes from.
inductive Origin where
  | command
  | lexer
  | statements
  | grammar
  | lowering
deriving DecidableEq

-- The name of a part in records, which those who filter them rely on.
def Origin.target : Origin → String
  | .command => "scriptc"
  | .lexer => "scriptc::parser::lexer"
  | .statements => "scriptc::parser::statements"
  | .grammar => "scriptc::parser::parse"
  | .lowering => "scriptc::ir::emitter"

-- One entry of the journal that a run keeps.
structure Record where
  level : Level
  origin : Origin
  message : String
deriving DecidableEq

-- A record as a line without its end. Levels are padded to one width.
def Record.describe (record : Record) : String :=
  let level := record.level.name
  level ++ String.ofList (List.replicate (5 - level.length) ' ') ++
    s!" [{record.origin.target}] {record.message}"

end ScriptIR
