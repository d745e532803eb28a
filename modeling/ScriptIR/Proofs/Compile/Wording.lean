import Mathlib
import ScriptIR.Proofs.Lowering.Order
import ScriptIR.Proofs.Lowering.Revisit
import ScriptIR.Proofs.Lowering.Wording
import ScriptIR.Proofs.Token.Written

namespace ScriptIR

open Grammar Lexical

-- A text that can be told from the blanks around it.
def IsField (text : String) : Prop := text ≠ "" ∧ ' ' ∉ text.toList ∧ '\n' ∉ text.toList

instance (text : String) : Decidable (IsField text) :=
  inferInstanceAs (Decidable (_ ∧ _ ∧ _))

theorem isField_of_forall {text : String} (hn : text.toList ≠ [])
    (h : ∀ c ∈ text.toList, c.isAlphanum = true ∨ c = '_') : IsField text := by
  refine ⟨?_, fun hm => ?_, fun hm => ?_⟩
  · rintro rfl
    exact hn rfl
  · exact absurd (h _ hm) (by decide)
  · exact absurd (h _ hm) (by decide)

theorem Lexical.IsWord.isField {word : String} (h : IsWord word.toList) : IsField word := by
  generalize hw : word.toList = text at h
  cases h with
  | word hf hr =>
    refine isField_of_forall (by simp [hw]) ?_
    rw [hw, List.forall_mem_cons]
    refine ⟨?_, hr⟩
    rcases hf with hf | hf
    · simp [Char.isAlphanum, hf]
    · exact .inr hf

theorem Operator.isField_spelling (sign : Operator) : IsField sign.spelling := by
  cases sign <;> decide

theorem Lexical.IsRun.newline_notMem {digits : List Char} (h : IsRun digits) : '\n' ∉ digits :=
  fun hm => absurd (h.2 _ hm) (by decide)

-- Names and signs are fields. Literals can be any text.
def Word.IsField : Word → Prop
  | .name text => ScriptIR.IsField text
  | .operator text => ScriptIR.IsField text
  | _ => True

namespace Token.WellFormed

variable {token : Token}

theorem isField_word (h : token.WellFormed) : token.word.IsField := by
  obtain ⟨kind, text, place⟩ := token
  rw [WellFormed] at h
  generalize hk : text.toList = kept at h
  generalize (Token.written _).toList = lexeme at h
  cases kind with
  | identifier =>
    cases h with
    | identifier hw _ =>
      rw [← hk] at hw
      exact hw.isField
  | operator sign =>
    cases h
    obtain rfl : text = sign.spelling := String.toList_injective hk
    exact sign.isField_spelling
  | _ => trivial

-- The only tokens with a line break in them are string literals.
theorem newline_notMem (h : token.WellFormed) {form : Literal} (hk : token.kind = .literal form)
    (hs : form ≠ .string) : '\n' ∉ token.text.toList := by
  obtain ⟨kind, text, place⟩ := token
  obtain rfl : kind = .literal form := hk
  rw [WellFormed] at h
  generalize (Token.written _).toList = lexeme at h
  generalize text.toList = kept at h ⊢
  cases form with
  | string => exact (hs rfl).elim
  | int =>
    cases h with
    | int hr => exact hr.newline_notMem
  | float =>
    cases h with
    | float hw hp =>
      simp [hw.newline_notMem, hp.newline_notMem]

end Token.WellFormed

-- A program has no string literal without an end, and nothing else is cut off.
theorem Accepted.wellFormed {source : String} (h : Accepted (Lexed.ofSource source).tokens) :
    ∀ token ∈ (Lexed.ofSource source).tokens, token.WellFormed := by
  intro token hm
  have hscan : Scan .start source.toList (Lexed.ofSource source).tokens
      (Lexed.ofSource source).diagnostics := scan_ofText .start source.toList
  obtain hw | ⟨hlast, hk, -⟩ := hscan.wellFormed token hm
  · exact hw
  · obtain ⟨trees, hs⟩ := accepted_iff.mp h
    have he := hs.getLast? hlast
    rw [hk] at he
    cases he

-- The words of a source.
def Sourced (source : String) (word : Word) : Prop :=
  ∃ token ∈ (Lexed.ofSource source).tokens, token.WellFormed ∧ token.word = word

theorem Node.loadConst_mem_evaluated {node : Node} {mention : Mention} {value : String}
    (hm : mention ∈ node.mentions) (hw : mention.word = .literal value) :
    Instruction.loadConst value ∈ node.evaluated := by
  obtain ⟨standing, tree⟩ := node
  cases tree with
  | node kind children place =>
    cases kind with
    | array name => cases name <;> simp_all [mentions, Kind.mention]
    | keyValue name => cases name <;> simp_all [mentions, Kind.mention]
    | _ => simp_all [mentions, Kind.mention]
  | _ => simp_all [mentions]

section compile

variable {mode : Mode} {source : String} {instructions : List Instruction}

theorem exists_reading_of_compile (h : compile mode source = .ok instructions) :
    ∃ tree, IsProgram tree ∧ tree.lower mode = .ok instructions ∧
      tree.reading.map Mention.word =
        ((Lexed.ofSource source).tokens.filter (·.kind.keepsText)).map Token.word := by
  obtain ⟨trees, hp, hl⟩ := exists_parse_of_compile h
  obtain ⟨_, he, hs⟩ := parse_eq_ok_iff.mp hp
  cases he
  exact ⟨_, isProgram_of_parse hp, hl, hs.reads.map_word⟩

-- Instructions have nothing to say but fixed names and words of the source.
theorem madeOf_of_compile (h : compile mode source = .ok instructions) :
    ∀ instruction ∈ instructions, instruction.MadeOf (Sourced source) := by
  obtain ⟨trees, hp, -⟩ := exists_parse_of_compile h
  have hwell := Accepted.wellFormed ⟨_, hp⟩
  obtain ⟨tree, -, hl, hreading⟩ := exists_reading_of_compile h
  have hwords : Words (Sourced source) tree.reading := by
    intro mention hm
    have hword : mention.word ∈
        ((Lexed.ofSource source).tokens.filter (·.kind.keepsText)).map Token.word := by
      rw [← hreading]
      exact List.mem_map_of_mem hm
    obtain ⟨token, ht, hw⟩ := List.mem_map.mp hword
    have hmem := (List.mem_filter.mp ht).1
    exact ⟨token, hmem, hwell token hmem, hw⟩
  exact Tree.lower_madeOf hwords instructions hl

theorem isField_of_compile (h : compile mode source = .ok instructions) :
    ∀ instruction ∈ instructions, instruction.MadeOf Word.IsField := by
  intro instruction hm
  refine (madeOf_of_compile h instruction hm).mono fun word hw => ?_
  obtain ⟨token, -, hwell, rfl⟩ := hw
  exact hwell.isField_word

-- No literal is left out, in either mode.
theorem loadConst_mem_of_compile (h : compile mode source = .ok instructions) {token : Token}
    (ht : token ∈ (Lexed.ofSource source).tokens) {form : Literal}
    (hk : token.kind = .literal form) : .loadConst token.text ∈ instructions := by
  obtain ⟨tree, hprogram, hl, hreading⟩ := exists_reading_of_compile h
  have hword : Word.literal token.text ∈ tree.reading.map Mention.word := by
    rw [hreading]
    refine List.mem_map.mpr ⟨token, List.mem_filter.mpr ⟨ht, ?_⟩, ?_⟩
    · rw [hk]
      rfl
    · exact Token.word_eq_literal.mpr ⟨⟨form, hk⟩, rfl⟩
  obtain ⟨mention, hm, hw⟩ := List.mem_map.mp hword
  rw [Tree.reading_eq_flatMap .value] at hm
  obtain ⟨node, hn, hm⟩ := List.mem_flatMap.mp hm
  have hcode : .loadConst token.text ∈ tree.code := by
    have hevaluated : .loadConst token.text ∈ tree.evaluated .value :=
      List.mem_flatMap.mpr ⟨node, hn, node.loadConst_mem_evaluated hm hw⟩
    rw [← hprogram.filter_code] at hevaluated
    exact (List.mem_filter.mp hevaluated).1
  cases mode with
  | single =>
    rw [Tree.code_of_lower hl] at hcode
    exact hcode
  | revisit =>
    obtain ⟨code, hsingle, hcount⟩ := tree.lower_within instructions hl
    rw [Tree.code_of_lower hsingle] at hcode
    exact List.count_pos_iff.mp (lt_of_lt_of_le (List.count_pos_iff.mpr hcode) (hcount _))

end compile

end ScriptIR
