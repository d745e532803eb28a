import ScriptIR.Command.Directory
import ScriptIR.Inspector.View

open ScriptIR ScriptIR.Command

-- The reason that the operating system gives for a failure. Some of its calls
-- report their number negated.
private def reasonOf : IO.Error → FileError
  | .noFileOrDirectory _ _ _ => .notFound
  | .inappropriateType _ code details =>
    if code = 20 || code = 0 - 20 then .notADirectory
    else if code = 21 || code = 0 - 21 then .isADirectory
    else .other details
  | .permissionDenied _ _ _ => .other "Permission denied (os error 13)"
  | error => .other (toString error)

private def readInput (invocation : Invocation) : IO (Except FileError String) := do
  try
    if invocation.fromStdin then
      return decode (← (← IO.getStdin).readBinToEnd)
    return decode (← IO.FS.readBinFile invocation.file)
  catch error =>
    return .error (reasonOf error)

private def save (path text : String) : IO (Option FileError) := do
  try
    IO.FS.writeFile path text
    return none
  catch error =>
    return some (reasonOf error)

-- The inspector is shown as it opens, and is not kept open.
private def picture (grid : Screen.Grid) : String :=
  grid.foldl (fun text row => text ++ Screen.rowText row ++ "\n") ""

private def present (transcript : Transcript) : IO UInt32 := do
  IO.print transcript.stdout
  IO.eprint transcript.stderr
  return transcript.status.toUInt32

def main (arguments : List String) : IO UInt32 := do
  match Invocation.ofArguments arguments with
  | .error stop => present stop.transcript
  | .ok invocation =>
    match invocation.reply (← readInput invocation) with
    | .done transcript => present transcript
    | .save path text after => present (after (← save path text))
    | .inspect session stderr => present ⟨picture (session.draw 80 24), stderr, 0⟩
