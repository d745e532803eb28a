import Mathlib
import ScriptIR.Proofs.Command.Outcome
import ScriptIR.Proofs.Inspector.Scrolling
import ScriptIR.Proofs.Instruction.Lines
import ScriptIR.Proofs.Text.Sliced

namespace ScriptIR.Inspector

open Screen

-- The line of an outline with its parts cut out by the bytes in front of them.
def slicedLine? (line : String) : Option Line :=
  let trimmed := String.ofList (line.toList.dropWhile Text.isBlank)
  (Text.cutAtByte? line (line.utf8ByteSize - trimmed.utf8ByteSize)).map fun (blanks, rest) =>
    match Text.aroundColon? rest.toList with
    | some (tag, value) =>
      [⟨blanks.toList, .none⟩, ⟨tag, .colour Theme.primary⟩,
        ⟨':' :: ' ' :: value, .colour Theme.text⟩]
    | none => [⟨blanks.toList, .none⟩, ⟨rest.toList, .colour Theme.primary⟩]

-- The line of an instruction, cut by the bytes of its opcode.
def slicedInstruction? (instruction : Instruction) : Option Line :=
  let text := instruction.describe
  match instruction.op with
  | .function => some [⟨text.toList, .boldColour Theme.function⟩]
  | .label => some [⟨text.toList, .colour Theme.label⟩]
  | op =>
    (Text.cutAtByte? text op.name.utf8ByteSize).map fun (_, operands) =>
      [⟨' ' :: ' ' :: op.name.toList, .colour Theme.opcode⟩, ⟨operands.toList, .colour Theme.text⟩]

-- The blanks at the beginning are whole characters, however many bytes each of them has.
theorem slicedLine?_eq (line : String) : slicedLine? line = some (outlineLine line.toList) := by
  have hparts : line.toList.takeWhile Text.isBlank ++ line.toList.dropWhile Text.isBlank =
      line.toList := List.takeWhile_append_dropWhile
  simp only [slicedLine?, outlineLine]
  generalize line.toList.takeWhile Text.isBlank = blanks at hparts ⊢
  generalize line.toList.dropWhile Text.isBlank = rest at hparts ⊢
  have hline : line = String.ofList blanks ++ String.ofList rest := by
    rw [← String.ofList_append, hparts, String.ofList_toList]
  have hcut := Text.cutAtByte?_append_sub (String.ofList blanks) (String.ofList rest)
  rw [← hline] at hcut
  rw [hcut, Text.cutAtColon_eq, Option.map_some, String.toList_ofList, String.toList_ofList]
  cases Text.aroundColon? rest <;> rfl

-- An opcode is what the line of an instruction begins with, whatever its operands are.
theorem slicedInstruction?_eq (instruction : Instruction) :
    slicedInstruction? instruction = some (instructionLine instruction) := by
  by_cases h : instruction.op = .function
  · simp only [slicedInstruction?, instructionLine, h]
  have htext : instruction.describe =
      instruction.op.name ++ String.ofList (' ' :: instruction.operands) := by
    rw [← String.toList_inj, Instruction.toList_describe h, String.toList_append,
      String.toList_ofList]
  have hcut := Text.cutAtByte?_append instruction.op.name
    (String.ofList (' ' :: instruction.operands))
  have hdrop : instruction.describe.toList.drop instruction.op.name.toList.length =
      ' ' :: instruction.operands := by
    rw [Instruction.toList_describe h, List.drop_left]
  rw [← htext] at hcut
  unfold slicedInstruction? instructionLine
  generalize instruction.op = op at h hcut hdrop
  cases op with
  | function => exact (h rfl).elim
  | label => rfl
  | _ => simp only [hcut, hdrop, Option.map_some, String.toList_ofList]

theorem text_nil : Line.text [] = [] := rfl

theorem text_cons (span : Span) (line : Line) :
    Line.text (span :: line) = span.text ++ Line.text line :=
  List.flatMap_cons

theorem text_outlineLine (text : List Char) : (outlineLine text).text = text := by
  have hparts := Text.cutAtColon_append (text.dropWhile Text.isBlank)
  unfold outlineLine
  generalize Text.cutAtColon (text.dropWhile Text.isBlank) = parts at hparts
  obtain ⟨tag, value⟩ := parts
  have hvalue :
      Line.text (if value.isEmpty then [] else [⟨value, .colour Theme.text⟩]) = value := by
    cases value with
    | nil => rfl
    | cons c rest => simp [text_cons, text_nil]
  simp only [text_cons, hvalue]
  rw [hparts, List.takeWhile_append_dropWhile]

-- All but headers and labels stand two cells to the right.
def margin (op : Opcode) : List Char := if op = .function ∨ op = .label then [] else [' ', ' ']

theorem text_instructionLine (instruction : Instruction) : (instructionLine instruction).text =
    margin instruction.op ++ instruction.describe.toList := by
  by_cases h : instruction.op = .function
  · simp [instructionLine, h, margin, text_cons, text_nil]
  have hdescribe := Instruction.toList_describe h
  unfold instructionLine
  generalize instruction.op = op at h hdescribe
  cases op with
  | function => exact (h rfl).elim
  | label => simp [margin, text_cons, text_nil]
  | _ => simp [margin, text_cons, text_nil, hdescribe]

theorem text_statisticsLines (instructions : List Instruction) :
    (statisticsLines instructions).map Line.text =
      Text.lines (Instruction.statistics instructions).toList := by
  rw [statisticsLines, List.map_map]
  refine (List.map_congr_left fun text _ => ?_).trans (List.map_id _)
  exact (text_cons _ _).trans (List.append_nil _)

-- A line to an instruction, and below a blank line those of the statistics.
theorem text_instructionLines (instructions : List Instruction) :
    (instructionLines instructions).map Line.text =
      (instructions.map fun instruction =>
        margin instruction.op ++ instruction.describe.toList) ++
      if instructions = [] then []
      else [] :: Text.lines (Instruction.statistics instructions).toList := by
  by_cases h : instructions = []
  · subst h
    rfl
  · rw [instructionLines, if_neg (by simpa using h), if_neg h, List.map_append, List.map_map,
      List.map_cons, text_statisticsLines]
    congr 1
    exact List.map_congr_left fun instruction _ => text_instructionLine instruction

theorem take_instructionLines (instructions : List Instruction) :
    (instructionLines instructions).take instructions.length =
      instructions.map instructionLine := by
  by_cases h : instructions = []
  · subst h
    rfl
  · rw [instructionLines, if_neg (by simpa using h)]
    exact List.take_left' (List.length_map _)

theorem text_treeLines (tree : Tree) :
    (treeLines tree).map Line.text = Text.lines tree.outline.toList := by
  rw [treeLines, List.map_map]
  exact (List.map_congr_left fun text _ => text_outlineLine text).trans (List.map_id _)

-- The words of a token: where it stands, what it is, and its text.
def tokenWords (token : Token) : List Char :=
  Text.padLeft 4 (toString token.place.line).toList ++
    ':' :: Text.padRight 4 (toString token.place.column).toList ++
    Text.padRight 22 token.kind.tag.toList ++ token.text.toList

theorem text_tokenLine (token : Token) : (tokenLine token).text = tokenWords token := by
  simp [tokenLine, tokenWords, text_cons, text_nil, toString]

theorem text_diagnosticLine (diagnostic : Diagnostic) :
    (diagnosticLine diagnostic).text = diagnostic.describe.toList :=
  (text_cons _ _).trans (List.append_nil _)

theorem text_tokenLines (lexed : Lexed) :
    (tokenLines lexed).map Line.text = lexed.tokens.map tokenWords ++
      lexed.diagnostics.map fun diagnostic => diagnostic.describe.toList := by
  have htokens : Line.text ∘ tokenLine = tokenWords := funext text_tokenLine
  have hdiagnostics : Line.text ∘ diagnosticLine = fun diagnostic => diagnostic.describe.toList :=
    funext text_diagnosticLine
  rw [tokenLines, List.map_append, List.map_map, List.map_map, htokens, hdiagnostics]

-- What the panes beside the source say of it.
structure Says (pages : Pages) (lexed : Lexed) (tree : Tree) (instructions : List Instruction) :
    Prop where
  outline : pages.tree.map Line.text = Text.lines tree.outline.toList
  listing : pages.instructions.map Line.text =
    (instructions.map fun instruction => margin instruction.op ++ instruction.describe.toList) ++
      if instructions = [] then []
      else [] :: Text.lines (Instruction.statistics instructions).toList
  tokens : pages.tokens.map Line.text = lexed.tokens.map tokenWords ++
    lexed.diagnostics.map fun diagnostic => diagnostic.describe.toList
  -- no text is cut but between two characters
  outlineCuts :
    (Text.lines tree.outline.toList).map (fun line => slicedLine? (String.ofList line)) =
      pages.tree.map some
  listingCuts : instructions.map slicedInstruction? =
    (pages.instructions.take instructions.length).map some

theorem says_ofCompiled (compiled : Compiled) :
    Says (.ofCompiled compiled) compiled.lexed compiled.tree compiled.instructions where
  outline := text_treeLines compiled.tree
  listing := text_instructionLines compiled.instructions
  tokens := text_tokenLines compiled.lexed
  outlineCuts := by
    rw [Pages.ofCompiled, treeLines, List.map_map]
    refine List.map_congr_left fun line _ => ?_
    rw [slicedLine?_eq, String.toList_ofList]
    rfl
  listingCuts := by
    rw [Pages.ofCompiled, take_instructionLines, List.map_map]
    exact List.map_congr_left fun instruction _ => slicedInstruction?_eq instruction

namespace Session

variable {first session : Session} {history : List Event}

theorem Follows.nil (hl : first.compiled.tree.lower first.mode = .ok first.compiled.instructions)
    (hp : first.pages.instructions = instructionLines first.compiled.instructions) :
    first.Follows [] first := by
  constructor
  case lowered => exact hl
  case listing => exact hp
  case focus => cases first.focus <;> rfl
  all_goals rfl

-- The pages are those of what is on show at any time.
theorem Follows.pages_eq (h : first.Follows history session)
    (hp : first.pages = .ofCompiled first.compiled) :
    session.pages = .ofCompiled session.compiled := by
  have htokens : session.pages.tokens = Inspector.tokenLines session.compiled.lexed := by
    rw [h.tokenLines, hp, h.lexed]
    rfl
  have htree : session.pages.tree = Inspector.treeLines session.compiled.tree := by
    rw [h.treeLines, hp, h.tree]
    rfl
  have hlisting := h.listing
  generalize session.pages = pages at htokens htree hlisting
  obtain ⟨tokens, tree, listing⟩ := pages
  cases htokens
  cases htree
  cases hlisting
  rfl

-- The panes of an inspector say what the commands print, line by line, whatever has been pressed
-- before: the outline of the program, its instructions in the mode of the session with their
-- statistics, and the tokens with the diagnostics behind them. No line is ever cut in the middle
-- of a character.
theorem start_run_lists (mode : Mode) {source : String} {tree : Tree}
    (h : parse (Lexed.ofSource source).tokens = .ok tree) :
    ∃ first, (start mode source).result = .ok first ∧ first.mode = mode ∧ ∀ history,
      ∃ instructions, compile (first.run history).mode source = .ok instructions ∧
        Says (first.run history).pages (Lexed.ofSource source) tree instructions ∧
        ∀ (invocation : Command.Invocation) (text : String), invocation.Prints source text →
          (invocation.stage = .ast →
            (first.run history).pages.tree.map Line.text = Text.lines text.toList) ∧
          (invocation.stage = .ir → invocation.mode = (first.run history).mode →
            text = Text.ended (instructions.map Instruction.describe)) := by
  have hlowers : ∀ mode, (tree.lower mode).Succeeds := (isProgram_of_parse h).lowers
  obtain ⟨first, instructions, hstart, hi, -, hcompiled, hpages, hmode, -, -⟩ := exists_start mode h
  have hlower : tree.lower mode = .ok instructions := by
    have hm := (compile_of_parse h).symm.trans hi
    obtain ⟨code, hcode⟩ := hlowers mode
    rw [hcode] at hm ⊢
    cases hm
    rfl
  have hfirst : first.Follows [] first := by
    refine .nil ?_ ?_
    · rw [hcompiled, hmode]
      exact hlower
    · rw [hpages]
      rfl
  refine ⟨first, hstart, hmode, fun history => ?_⟩
  have hrun : first.Follows history (first.run history) :=
    follows_run hfirst (by rw [hcompiled]; exact hlowers) history
  have hlexed : (first.run history).compiled.lexed = Lexed.ofSource source := by
    rw [hrun.lexed, hcompiled]
  have htree : (first.run history).compiled.tree = tree := by
    rw [hrun.tree, hcompiled]
  have hcompile : compile (first.run history).mode source =
      .ok (first.run history).compiled.instructions := by
    rw [compile_of_parse h, ← htree, hrun.lowered]
    rfl
  have hsays := says_ofCompiled (first.run history).compiled
  rw [← hrun.pages_eq hpages, hlexed, htree] at hsays
  refine ⟨_, hcompile, hsays, fun invocation text hp => ⟨fun hs => ?_, fun hs hm => ?_⟩⟩
  · simp only [Command.Invocation.Prints, hs] at hp
    obtain ⟨printed, hparse, rfl⟩ := hp
    cases h.symm.trans hparse
    exact hsays.outline
  · simp only [Command.Invocation.Prints, hs] at hp
    obtain ⟨code, hc, rfl⟩ := hp
    rw [hm, hcompile] at hc
    cases hc
    exact Instruction.listing_eq_ended _

-- A literal with a colon, characters of several bytes, and a line break with a wide blank behind.
theorem start_run_lists_literal :
    ∃ first, (start .single "a = \"é: ü\n\u3000b\";").result = .ok first ∧
      first.pages.tree.map Line.text = ["<program>", "    <var_decl>: a",
        "        <literal>: é: ü", "\u3000b"].map String.toList := by
  have hp : parse (Lexed.ofSource "a = \"é: ü\n\u3000b\";").tokens = .ok (.node .program
      [.node (.varDecl "a") [.node (.literal "é: ü\n\u3000b") [] ⟨1, 5⟩] ⟨1, 1⟩] .start) := by
    cbv
  obtain ⟨first, hstart, -, hrun⟩ := start_run_lists .single hp
  obtain ⟨instructions, -, hsays, -⟩ := hrun []
  refine ⟨first, hstart, hsays.outline.trans ?_⟩
  cbv

end Session

end ScriptIR.Inspector
