import ScriptIR.Command.Reply

namespace ScriptIR.Command

-- Where a path leads, seen from a directory that holds plain files only.
inductive Destination where
  -- the directory itself or one above it
  | directory
  -- a name in the directory, which the path may insist to be a directory
  | entry (name : String) (asDirectory : Bool)
  -- something below a name in the directory
  | below (name : String)
  -- elsewhere
  | outside
deriving DecidableEq

-- Repeated slashes and single points mean nothing in a path.
def Destination.ofPath (path : String) : Destination :=
  let parts := (path.splitOn "/").filter fun part => part ≠ "" && part ≠ "."
  if path = "" then .outside
  else if parts.all (· = "..") then .directory
  else if path.startsWith "/" then .outside
  else
    match parts with
    | [] => .directory
    | ".." :: _ => .outside
    | [name] => .entry name (path.endsWith "/" || path.endsWith "/.")
    | name :: _ => .below name

-- A directory of plain files in which a run takes place. What is outside of it
-- counts as missing.
structure Directory where
  files : List (String × ByteArray)

namespace Directory

def find? (directory : Directory) (name : String) : Option ByteArray :=
  directory.files.lookup name

-- Replaces a file, or adds one.
def put (directory : Directory) (name : String) (content : ByteArray) : Directory :=
  match directory.find? name with
  | some _ =>
    ⟨directory.files.map fun (other, old) => (other, if other = name then content else old)⟩
  | none => ⟨directory.files ++ [(name, content)]⟩

def read (directory : Directory) (path : String) : Except FileError ByteArray :=
  match Destination.ofPath path with
  | .directory => .error .isADirectory
  | .outside => .error .notFound
  | .below name => .error (if (directory.find? name).isSome then .notADirectory else .notFound)
  | .entry name asDirectory =>
    match directory.find? name with
    | none => .error .notFound
    | some content => if asDirectory then .error .notADirectory else .ok content

-- Stores a whole file, or fails and leaves the directory as it is.
def write (directory : Directory) (path text : String) : Except FileError Directory :=
  match Destination.ofPath path with
  | .directory => .error .isADirectory
  | .outside => .error .notFound
  | .below name => .error (if (directory.find? name).isSome then .notADirectory else .notFound)
  | .entry name asDirectory =>
    if asDirectory then
      .error (if (directory.find? name).isSome then .notADirectory else .isADirectory)
    else .ok (directory.put name text.toUTF8)

end Directory

-- A source is text, whatever its bytes come from.
def decode (content : ByteArray) : Except FileError String :=
  match String.fromUTF8? content with
  | some text => .ok text
  | none => .error .notText

namespace Directory

-- The input of a run in a directory.
def input (directory : Directory) (stdin : ByteArray) (invocation : Invocation) :
    Except FileError String :=
  if invocation.fromStdin then decode stdin
  else (directory.read invocation.file).bind decode

-- A whole run in a directory: what it shows, and what the directory holds
-- afterwards. An inspector that opens shows nothing on the standard streams.
def run (directory : Directory) (stdin : ByteArray) (arguments : List String) :
    Transcript × Directory :=
  match Invocation.ofArguments arguments with
  | .error stop => (stop.transcript, directory)
  | .ok invocation =>
    match invocation.reply (directory.input stdin invocation) with
    | .done transcript => (transcript, directory)
    | .inspect _ stderr => (⟨"", stderr, 0⟩, directory)
    | .save path text after =>
      match directory.write path text with
      | .ok changed => (after none, changed)
      | .error error => (after (some error), directory)

end Directory

end ScriptIR.Command
