import ScriptIR.Compile
import ScriptIR.Instruction.Statistics
import ScriptIR.Inspector.Theme
import ScriptIR.Screen.Cell
import ScriptIR.Text.Blank
import ScriptIR.Text.Lines
import ScriptIR.Tree.Outline

namespace ScriptIR.Inspector

open Screen

-- Where a token stands, what it is, and its text.
def tokenLine (token : Token) : Line :=
  let line := (Nat.repr token.place.line).toList
  let column := (Nat.repr token.place.column).toList
  let tagStyle : Style :=
    if token.kind.isKeyword then .boldColour Theme.keyword else .colour Theme.keyword
  [⟨Text.padLeft 4 line ++ ':' :: Text.padRight 4 column, .colour Theme.comment⟩,
    ⟨Text.padRight 22 token.kind.tag.toList, tagStyle⟩,
    ⟨token.text.toList, .colour Theme.text⟩]

def diagnosticLine (diagnostic : Diagnostic) : Line :=
  [⟨diagnostic.describe.toList, .colour Theme.error⟩]

def tokenLines (lexed : Lexed) : List Line :=
  lexed.tokens.map tokenLine ++ lexed.diagnostics.map diagnosticLine

-- A line of an outline. What is behind the first colon has a colour of its own.
def outlineLine (text : List Char) : Line :=
  let (tag, value) := Text.cutAtColon (text.dropWhile Text.isBlank)
  ⟨text.takeWhile Text.isBlank, .none⟩ :: ⟨tag, .colour Theme.primary⟩ ::
    if value.isEmpty then [] else [⟨value, .colour Theme.text⟩]

def treeLines (tree : Tree) : List Line :=
  (Text.lines tree.outline.toList).map outlineLine

-- A line of the listing. Headers and labels stand to the left of the rest.
def instructionLine (instruction : Instruction) : Line :=
  let text := instruction.describe.toList
  match instruction.op with
  | .function => [⟨text, .boldColour Theme.function⟩]
  | .label => [⟨text, .colour Theme.label⟩]
  | op =>
    [⟨' ' :: ' ' :: op.name.toList, .colour Theme.opcode⟩,
      ⟨text.drop op.name.toList.length, .colour Theme.text⟩]

def statisticsLines (instructions : List Instruction) : List Line :=
  (Text.lines (Instruction.statistics instructions).toList).map
    fun text => [⟨text, .colour Theme.comment⟩]

-- The listing, and behind a blank line its statistics.
def instructionLines (instructions : List Instruction) : List Line :=
  if instructions.isEmpty then []
  else instructions.map instructionLine ++ [] :: statisticsLines instructions

-- The lines of the panes beside the source. They are made when what they show is made,
-- and kept from one drawing to the next.
structure Pages where
  tokens : List Line
  tree : List Line
  instructions : List Line

def Pages.ofCompiled (compiled : Compiled) : Pages where
  tokens := tokenLines compiled.lexed
  tree := treeLines compiled.tree
  instructions := instructionLines compiled.instructions

end ScriptIR.Inspector
