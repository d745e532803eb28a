import Mathlib
import ScriptIR.Command.Directory
import ScriptIR.Proofs.Command.Volume
import ScriptIR.Proofs.Compile.Joined
import ScriptIR.Proofs.Lowering.Total

namespace ScriptIR.Command

open Grammar

variable {Files : Type}

-- The end of a run that knows how to write a file. Writing stores a whole text or fails.
def Reply.settle (files : Files) (write : String → String → Except FileError Files) :
    Reply → Transcript × Files
  | .done transcript => (transcript, files)
  | .inspect _ stderr => (⟨"", stderr, 0⟩, files)
  | .save path text after =>
    match write path text with
    | .ok changed => (after none, changed)
    | .error error => (after (some error), files)

-- Two runs that differ in nothing but what they say on standard error.
structure Agrees (first second : Transcript × Files) : Prop where
  status : first.1.status = second.1.status
  stdout : first.1.stdout = second.1.stdout
  files : first.2 = second.2

namespace Invocation

-- A run with an input and with files of any kind.
def run (invocation : Invocation) (input : Except FileError String) (files : Files)
    (write : String → String → Except FileError Files) : Transcript × Files :=
  (invocation.reply input).settle files write

-- The text that a run is there to print.
def Prints (invocation : Invocation) (source text : String) : Prop :=
  match invocation.stage with
  | .tokens => text = tokenListing (Lexed.ofSource source).tokens
  | .ast => ∃ tree, parse (Lexed.ofSource source).tokens = .ok tree ∧ text = tree.outline
  | .ir => ∃ instructions, compile invocation.mode source = .ok instructions ∧
      text = Instruction.listing instructions
  | .view => False

-- The messages of a run that fails.
inductive Fails (invocation : Invocation) (input : Except FileError String)
    (write : String → String → Except FileError Files) : String → Prop
  | reading {error : FileError} : input = .error error →
      Fails invocation input write (invocation.readFailure error)
  | parsing {source : String} {error : SyntaxError} : input = .ok source →
      invocation.stage ≠ .tokens → parse (Lexed.ofSource source).tokens = .error error →
      Fails invocation input write error.describe
  | writing {source path text : String} {error : FileError} : input = .ok source →
      invocation.stage = .ir → invocation.output = some path → invocation.Prints source text →
      write path text = .error error →
      Fails invocation input write s!"cannot write '{path}': {error.message}"

-- All or nothing. A run that fails prints nothing, leaves all files alone and ends with its
-- message. One that does not fail has printed the whole text, or has saved it.
inductive Outcome (invocation : Invocation) (input : Except FileError String) (files : Files)
    (write : String → String → Except FileError Files) : Transcript × Files → Prop
  | failed {journal message : String} : invocation.Fails input write message →
      Outcome invocation input files write
        (⟨"", journal ++ "Error: " ++ message ++ "\n", 1⟩, files)
  | printed {source text stderr : String} : input = .ok source →
      (invocation.stage = .ir → invocation.output = none) → invocation.Prints source text →
      Outcome invocation input files write (⟨text, stderr, 0⟩, files)
  | saved {source path text stderr : String} {changed : Files} : input = .ok source →
      invocation.stage = .ir → invocation.output = some path → invocation.Prints source text →
      write path text = .ok changed →
      Outcome invocation input files write (⟨"", stderr, 0⟩, changed)

variable {invocation : Invocation} {input : Except FileError String} {files : Files}
  {write : String → String → Except FileError Files} {source : String}

theorem Fails.failed {message : String} (h : invocation.Fails input write message)
    (journal : String) :
    invocation.Outcome input files write (failure journal message, files) := by
  have htext : failure journal message = ⟨"", journal ++ "Error: " ++ message ++ "\n", 1⟩ := by
    simp [failure, String.append_assoc, toString]
  rw [htext]
  exact .failed h

theorem outcome_of_instructions (hs : invocation.stage = .ir) :
    invocation.Outcome (.ok source) files write
      ((invocation.replyInstructions source).settle files write) := by
  have hne : invocation.stage ≠ .tokens := by simp [hs]
  obtain ⟨tree, instructions, hp, hc⟩ | ⟨error, hp, hc⟩ :=
    compileTold_cases invocation.mode source
  · have hprints : invocation.Prints source (Instruction.listing instructions) := by
      simp [Prints, hs, compile, hc, Except.map]
    simp only [replyInstructions, hc]
    cases ho : invocation.output with
    | none => exact .printed rfl (fun _ => ho) hprints
    | some path =>
      simp only [Reply.settle]
      cases hw : write path (Instruction.listing instructions) with
      | ok changed => exact .saved rfl hs ho hprints hw
      | error error => exact Fails.failed (.writing rfl hs ho hprints hw) _
  · simp only [replyInstructions, hc]
    exact Fails.failed (.parsing rfl hne hp) _

theorem outcome_of_tree (hs : invocation.stage = .ast) :
    invocation.Outcome (.ok source) files write
      ((invocation.replyTree source).settle files write) := by
  have hne : invocation.stage ≠ .ir := by simp [hs]
  have hresult : (parseTold (lex source).result.tokens).result =
      parse (Lexed.ofSource source).tokens := rfl
  simp only [replyTree, hresult]
  cases hp : parse (Lexed.ofSource source).tokens with
  | ok tree =>
    refine .printed rfl (fun h => (hne h).elim) ?_
    simp [Prints, hs, hp]
  | error error => exact Fails.failed (.parsing rfl (by simp [hs]) hp) _

theorem outcome_of_run (hv : invocation.stage ≠ .view) :
    invocation.Outcome input files write (invocation.run input files write) := by
  cases input with
  | error error => exact Fails.failed (.reading rfl) _
  | ok source =>
    cases hs : invocation.stage with
    | tokens =>
      simp only [run, reply, hs]
      refine .printed rfl (fun h => ?_) ?_
      · rw [hs] at h
        cases h
      · simp only [Prints, hs]
        rfl
    | ast =>
      simp only [run, reply, hs]
      exact outcome_of_tree hs
    | ir =>
      simp only [run, reply, hs]
      exact outcome_of_instructions hs
    | view => exact (hv hs).elim

-- The level settles what is told, and nothing else.
theorem agrees_of_level (level : Option Level) :
    Agrees (run { invocation with level } input files write)
      (invocation.run input files write) := by
  cases input with
  | error error => exact ⟨rfl, rfl, rfl⟩
  | ok source =>
    cases hs : invocation.stage with
    | tokens =>
      simp only [run, reply, hs]
      exact ⟨rfl, rfl, rfl⟩
    | ast =>
      simp only [run, reply, hs, replyTree]
      cases (parseTold (lex source).result.tokens).result <;> exact ⟨rfl, rfl, rfl⟩
    | ir =>
      simp only [run, reply, hs, replyInstructions]
      cases (compileTold invocation.mode source).result with
      | error error => exact ⟨rfl, rfl, rfl⟩
      | ok compiled =>
        cases invocation.output with
        | none => exact ⟨rfl, rfl, rfl⟩
        | some path =>
          simp only [Reply.settle]
          cases write path (Instruction.listing compiled.instructions) <;> exact ⟨rfl, rfl, rfl⟩
    | view =>
      simp only [run, reply, hs, replySession]
      cases (Inspector.Session.start invocation.mode source).result <;> exact ⟨rfl, rfl, rfl⟩

-- The outline and the instructions are printed of the same sources.
theorem Prints.parses {text : String} (hs : invocation.stage = .ast ∨ invocation.stage = .ir)
    (h : invocation.Prints source text) : ∃ tree, parse (Lexed.ofSource source).tokens = .ok tree := by
  rcases hs with hs | hs
  · simp only [Prints, hs] at h
    obtain ⟨tree, hp, -⟩ := h
    exact ⟨tree, hp⟩
  · simp only [Prints, hs] at h
    obtain ⟨instructions, hc, -⟩ := h
    obtain ⟨trees, hp, -⟩ := exists_parse_of_compile hc
    exact ⟨_, hp⟩

theorem status_eq_zero_iff (hs : invocation.stage = .ast ∨ invocation.stage = .ir)
    (hw : invocation.stage = .ir →
      ∀ path ∈ invocation.output, ∀ text, ∃ changed, write path text = .ok changed) :
    (invocation.run input files write).1.status = 0 ↔
      ∃ source tree, input = .ok source ∧ parse (Lexed.ofSource source).tokens = .ok tree := by
  have hv : invocation.stage ≠ .view := by rcases hs with hs | hs <;> simp [hs]
  have h : invocation.Outcome input files write (invocation.run input files write) :=
    outcome_of_run hv
  generalize invocation.run input files write = result at h
  cases h with
  | failed hf =>
    refine ⟨nofun, fun ⟨source, tree, hi, hp⟩ => ?_⟩
    cases hf with
    | reading he => cases hi.symm.trans he
    | parsing hi' _ he =>
      cases hi.symm.trans hi'
      cases hp.symm.trans he
    | writing _ hir ho _ he =>
      obtain ⟨changed, hw⟩ := hw hir _ ho _
      cases hw.symm.trans he
  | printed hi _ hp =>
    obtain ⟨tree, hp⟩ := hp.parses hs
    exact ⟨fun _ => ⟨_, tree, hi, hp⟩, fun _ => rfl⟩
  | saved hi _ _ hp _ =>
    obtain ⟨tree, hp⟩ := hp.parses hs
    exact ⟨fun _ => ⟨_, tree, hi, hp⟩, fun _ => rfl⟩

theorem stderr_of_parse_error (files : Files)
    (write : String → String → Except FileError Files)
    (hs : invocation.stage = .ast ∨ invocation.stage = .ir) {error : SyntaxError}
    (he : parse (Lexed.ofSource source).tokens = .error error) :
    ∃ journal, (invocation.run (.ok source) files write).1.stderr =
      journal ++ "Error: " ++ error.describe ++ "\n" := by
  have hv : invocation.stage ≠ .view := by rcases hs with hs | hs <;> simp [hs]
  have h : invocation.Outcome (.ok source) files write
    (invocation.run (.ok source) files write) := outcome_of_run hv
  have hnever {text : String} (hp : invocation.Prints source text) : False := by
    obtain ⟨tree, hp⟩ := hp.parses hs
    cases hp.symm.trans he
  generalize invocation.run (.ok source) files write = result at h
  cases h with
  | @failed journal message hf =>
    refine ⟨journal, ?_⟩
    cases hf with
    | reading hi => cases hi
    | parsing hi _ hp =>
      cases hi
      cases hp.symm.trans he
      rfl
    | writing hi _ _ hp _ =>
      cases hi
      exact (hnever hp).elim
  | printed hi _ hp =>
    cases hi
    exact (hnever hp).elim
  | saved hi _ _ hp _ =>
    cases hi
    exact (hnever hp).elim

end Invocation

namespace Directory

theorem lookup_map (files : List (String × ByteArray)) (change : String → ByteArray → ByteArray)
    (name : String) :
    (files.map fun (other, old) => (other, change other old)).lookup name =
      (files.lookup name).map (change name) := by
  induction files with
  | nil => rfl
  | cons file rest ih =>
    obtain ⟨other, old⟩ := file
    rw [List.map_cons, List.lookup_cons, List.lookup_cons, ih]
    cases he : name == other with
    | true =>
      rw [beq_iff_eq.mp he]
      rfl
    | false => rfl

theorem find?_put (directory : Directory) (name other : String) (content : ByteArray) :
    (directory.put name content).find? other =
      if other = name then some content else directory.find? other := by
  unfold put
  split
  · next old h =>
    simp only [find?] at h ⊢
    rw [lookup_map directory.files fun other old => if other = name then content else old]
    by_cases he : other = name
    · rw [he, h, if_pos rfl, Option.map_some, if_pos rfl]
    · simp [he]
  · next h =>
    simp only [find?] at h ⊢
    rw [List.lookup_append]
    by_cases he : other = name
    · rw [he, h, if_pos rfl]
      simp
    · have hb : (other == name) = false := beq_false_of_ne he
      simp [he, List.lookup_cons, hb]

-- A file that is written has the whole text, and all other files stay as they are.
theorem find?_of_write {directory changed : Directory} {path text : String}
    (h : directory.write path text = .ok changed) :
    ∃ name, Destination.ofPath path = .entry name false ∧
      changed.find? name = some text.toUTF8 ∧
      ∀ other, other ≠ name → changed.find? other = directory.find? other := by
  unfold write at h
  split at h
  · cases h
  · cases h
  · cases h
  · next name asDirectory hd =>
    split at h
    · cases h
    · next hn =>
      cases h
      refine ⟨name, ?_, ?_, fun other ho => ?_⟩
      · simpa [hn] using hd
      · rw [find?_put, if_pos rfl]
      · rw [find?_put, if_neg ho]

theorem run_eq {arguments : List String} {invocation : Invocation}
    (h : Invocation.ofArguments arguments = .ok invocation) (directory : Directory)
    (stdin : ByteArray) : directory.run stdin arguments =
      invocation.run (directory.input stdin invocation) directory directory.write := by
  rw [run, h]
  simp only [Invocation.run]
  cases invocation.reply (directory.input stdin invocation) with
  | done transcript => rfl
  | inspect session stderr => rfl
  | save path text after =>
    simp only [Reply.settle]
    cases directory.write path text <;> rfl

end Directory

-- A run prints or saves the whole of what it is there for, or it fails and leaves nothing
-- but a message. How loud it is has no part in that, and the outline and the instructions are
-- there for the same sources.
theorem run_all_or_nothing {arguments : List String} {invocation : Invocation}
    (h : Invocation.ofArguments arguments = .ok invocation) (hv : invocation.stage ≠ .view) :
    (∀ (Files : Type) (input : Except FileError String) (files : Files)
      (write : String → String → Except FileError Files),
      invocation.Outcome input files write (invocation.run input files write)) ∧
    (∀ (directory : Directory) (stdin : ByteArray), directory.run stdin arguments =
      invocation.run (directory.input stdin invocation) directory directory.write) ∧
    (∀ (directory changed : Directory) (path text : String),
      directory.write path text = .ok changed →
      ∃ name, Destination.ofPath path = .entry name false ∧
        changed.find? name = some text.toUTF8 ∧
        ∀ other, other ≠ name → changed.find? other = directory.find? other) ∧
    (∀ plain, Louder plain arguments → ∃ level,
      Invocation.ofArguments plain = .ok { invocation with level } ∧
      ∀ (Files : Type) (input : Except FileError String) (files : Files)
        (write : String → String → Except FileError Files),
        Agrees (Invocation.run { invocation with level } input files write)
          (invocation.run input files write)) ∧
    (∀ code : Invocation, invocation.stage = .ast → code.stage = .ir →
      ∀ (Files : Type) (input : Except FileError String) (files : Files)
        (write : String → String → Except FileError Files),
        ((∀ path ∈ code.output, ∀ text, ∃ changed, write path text = .ok changed) →
          ((invocation.run input files write).1.status = 0 ↔
            (code.run input files write).1.status = 0)) ∧
        ∀ source error, input = .ok source → parse (Lexed.ofSource source).tokens = .error error →
          ∃ journal other,
            (invocation.run input files write).1.stderr =
              journal ++ "Error: " ++ error.describe ++ "\n" ∧
            (code.run input files write).1.stderr =
              other ++ "Error: " ++ error.describe ++ "\n") := by
  refine ⟨fun Files input files write => Invocation.outcome_of_run hv, Directory.run_eq h,
    fun directory changed path text => Directory.find?_of_write, fun plain hp => ?_,
    fun code htree hcode Files input files write => ⟨fun hw => ?_, ?_⟩⟩
  · obtain ⟨level, hl⟩ := ofArguments_of_louder hp h
    exact ⟨level, hl, fun Files input files write => Invocation.agrees_of_level level⟩
  · rw [Invocation.status_eq_zero_iff (.inl htree) (by simp [htree]),
      Invocation.status_eq_zero_iff (.inr hcode) fun _ => hw]
  · rintro source error rfl he
    obtain ⟨journal, ht⟩ := Invocation.stderr_of_parse_error files write (.inl htree) he
    obtain ⟨other, hc⟩ := Invocation.stderr_of_parse_error files write (.inr hcode) he
    exact ⟨journal, other, ht, hc⟩

-- The only file there is, which is the input as well, has the listing afterwards.
theorem run_of_saved_listing :
    ∃ invocation level, Invocation.ofArguments ["-v", "ir", "-o", "a", "a"] = .ok invocation ∧
      Invocation.ofArguments ["ir", "-o", "a", "a"] = .ok { invocation with level } ∧
      ∃ stderr, invocation.run (.ok "x = 1;") "x = 1;" (fun _ text => .ok text) =
        (⟨"", stderr, 0⟩, "alloc x  \nload_const 1  temp_literal\nstore temp_var  x\n") := by
  have h : Invocation.ofArguments ["-v", "ir", "-o", "a", "a"] =
      .ok ⟨.ir, "a", .single, false, some "a", some .info⟩ := by
    rfl
  have hp : parse (Lexed.ofSource "x = 1;").tokens = .ok (.node .program
      [.node (.varDecl "x") [.node (.literal "1") [] ⟨1, 5⟩] ⟨1, 1⟩] .start) := by
    cbv
  obtain ⟨hall, -, -, hlouder, -⟩ := run_all_or_nothing h (by decide)
  have hflag : IsVolumeFlag "-v" := .inr (.inr ⟨['v'], by simp, by simp [VolumeLetters], by decide⟩)
  obtain ⟨level, hplain, -⟩ := hlouder ["ir", "-o", "a", "a"] (.added hflag (.same _))
  refine ⟨_, level, h, hplain, ?_⟩
  have hrun := hall String (.ok "x = 1;") "x = 1;" fun _ text => .ok text
  generalize Invocation.run _ _ _ _ = result at hrun ⊢
  cases hrun with
  | failed hf =>
    cases hf with
    | reading hi => cases hi
    | parsing hi _ he =>
      cases hi
      cases hp.symm.trans he
    | writing _ _ _ _ he => cases he
  | printed _ ho _ => cases ho rfl
  | @saved _ _ _ stderr _ hi _ _ hs hw =>
    cases hi
    cases hw
    obtain ⟨instructions, hc, rfl⟩ := hs
    cases (compile_of_parse hp).symm.trans hc
    have hl : Instruction.listing [.alloc "x", .loadConst "1", .store "x"] =
        "alloc x  \nload_const 1  temp_literal\nstore temp_var  x\n" := by decide
    exact ⟨stderr, Prod.ext rfl hl⟩

end ScriptIR.Command
