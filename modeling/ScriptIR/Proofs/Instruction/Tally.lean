import Mathlib
import ScriptIR.Instruction.Statistics
import ScriptIR.Proofs.Lowering.Census
import ScriptIR.Proofs.Text.Ended
import ScriptIR.Text.Lines

namespace ScriptIR

-- The table of the opcodes has each of them once, in the order in which they are declared.
theorem Opcode.all_ordered : all.Pairwise fun op other => op.ctorIdx < other.ctorIdx := by
  decide

namespace Histogram

variable {seen others : Histogram}

-- How often an opcode was seen. Without an entry it was not.
def tally (seen : Histogram) (op : Opcode) : Nat := (seen.lookup op).getD 0

-- No opcode has two entries.
def Distinct (seen : Histogram) : Prop := (seen.map Prod.fst).Nodup

-- Seeing an opcode counts it, and leaves all others as they are.
theorem lookup_see (op other : Opcode) (seen : Histogram) :
    (see op seen).lookup other =
      if other = op then some (seen.tally op + 1) else seen.lookup other := by
  induction seen with
  | nil =>
    by_cases h : other = op
    · subst h
      simp [see, tally]
    · have hb : (other == op) = false := beq_eq_false_iff_ne.mpr h
      simp [see, List.lookup_cons, h, hb]
  | cons entry rest ih =>
    obtain ⟨first, count⟩ := entry
    by_cases hf : first = op
    · subst hf
      by_cases h : other = first
      · subst h
        simp [see, tally]
      · have hb : (other == first) = false := beq_eq_false_iff_ne.mpr h
        simp [see, List.lookup_cons, h, hb]
    · have hb : (op == first) = false := beq_eq_false_iff_ne.mpr (Ne.symm hf)
      have htally : tally ((first, count) :: rest) op = tally rest op := by
        simp [tally, List.lookup_cons, hb]
      rw [see, if_neg hf, List.lookup_cons, List.lookup_cons, ih, htally]
      by_cases h : other = first
      · have hn : other ≠ op := h ▸ hf
        simp [h, hf]
      · have hb : (other == first) = false := beq_eq_false_iff_ne.mpr h
        simp [hb]

theorem keys_see (op : Opcode) (seen : Histogram) :
    (see op seen).map Prod.fst =
      if op ∈ seen.map Prod.fst then seen.map Prod.fst else seen.map Prod.fst ++ [op] := by
  induction seen with
  | nil => rfl
  | cons entry rest ih =>
    obtain ⟨first, count⟩ := entry
    by_cases hf : first = op
    · subst hf
      simp [see]
    · rw [see, if_neg hf, List.map_cons, ih, List.map_cons]
      have hmem : op ∈ first :: rest.map Prod.fst ↔ op ∈ rest.map Prod.fst := by
        simp [Ne.symm hf]
      by_cases h : op ∈ rest.map Prod.fst
      · rw [if_pos h, if_pos (hmem.mpr h)]
      · rw [if_neg h, if_neg (mt hmem.mp h), List.cons_append]

theorem Distinct.see (h : seen.Distinct) (op : Opcode) : Distinct (see op seen) := by
  rw [Distinct, keys_see]
  split
  · exact h
  · rename_i hn
    exact List.nodup_append.mpr ⟨h, List.nodup_singleton op, by
      rintro first hf last hl rfl
      exact hn (List.mem_singleton.mp hl ▸ hf)⟩

-- With distinct entries it does not matter in which order they are looked through.
theorem Distinct.lookup_eq_some_iff (h : seen.Distinct) (op : Opcode) (count : Nat) :
    seen.lookup op = some count ↔ (op, count) ∈ seen := by
  induction seen with
  | nil => simp
  | cons entry rest ih =>
    obtain ⟨first, number⟩ := entry
    obtain ⟨hfirst, hrest⟩ := List.nodup_cons.mp h
    rw [List.lookup_cons, List.mem_cons]
    by_cases hf : op = first
    · subst hf
      have hn : (op, count) ∉ rest := fun hm => hfirst (List.mem_map.mpr ⟨_, hm, rfl⟩)
      simp only [beq_self_eq_true, Option.some.injEq, Prod.mk.injEq, true_and, hn, or_false]
      exact eq_comm
    · have hb : (op == first) = false := beq_eq_false_iff_ne.mpr hf
      simp only [hb, ih hrest, Prod.mk.injEq, hf, false_and, false_or]

theorem Distinct.perm (h : seen.Distinct) (hp : others.Perm seen) : others.Distinct :=
  (hp.map Prod.fst).nodup_iff.mpr h

theorem Distinct.lookup_perm (h : seen.Distinct) (hp : others.Perm seen) (op : Opcode) :
    others.lookup op = seen.lookup op := by
  refine Option.ext fun count => ?_
  rw [(h.perm hp).lookup_eq_some_iff, h.lookup_eq_some_iff]
  exact hp.mem_iff

-- A summary depends on what is found for each opcode, and on nothing else.
theorem summary_congr (h : ∀ op, seen.lookup op = others.lookup op) :
    seen.summary = others.summary :=
  List.filterMap_congr fun op _ => by rw [h op]

theorem mem_summary (seen : Histogram) (op : Opcode) (count : Nat) :
    (op, count) ∈ seen.summary ↔ seen.lookup op = some count := by
  rw [summary, List.mem_filterMap]
  constructor
  · rintro ⟨other, -, h⟩
    obtain ⟨number, hn, he⟩ := Option.map_eq_some_iff.mp h
    obtain ⟨rfl, rfl⟩ := Prod.mk.inj he
    exact hn
  · intro h
    exact ⟨op, op.mem_all, by rw [h, Option.map_some]⟩

theorem summary_ordered (seen : Histogram) :
    seen.summary.Pairwise fun row next => row.1.ctorIdx < next.1.ctorIdx := by
  rw [summary, List.pairwise_filterMap]
  refine Opcode.all_ordered.imp fun {op other} hlt row hrow next hnext => ?_
  obtain ⟨count, -, rfl⟩ := Option.map_eq_some_iff.mp hrow
  obtain ⟨number, -, rfl⟩ := Option.map_eq_some_iff.mp hnext
  exact hlt

theorem summary_distinct (seen : Histogram) : Distinct seen.summary := by
  rw [Distinct, List.Nodup, List.pairwise_map]
  refine seen.summary_ordered.imp fun {row next} hlt he => ?_
  rw [he] at hlt
  exact lt_irrefl _ hlt

theorem lookup_summary (seen : Histogram) (op : Opcode) :
    List.lookup op seen.summary = seen.lookup op := by
  refine Option.ext fun count => ?_
  rw [seen.summary_distinct.lookup_eq_some_iff, mem_summary]

-- The rows that are left out add nothing.
theorem sum_summary (seen : Histogram) :
    (seen.summary.map Prod.snd).sum = (Opcode.all.map seen.tally).sum := by
  rw [summary]
  induction Opcode.all with
  | nil => rfl
  | cons op rest ih =>
    cases h : seen.lookup op with
    | none => simp [tally, h, ih]
    | some count => simp [tally, h, ih]

end Histogram

namespace Instruction

theorem number_append (op : Opcode) (front back : List Instruction) :
    number op (front ++ back) = number op front + number op back :=
  List.countP_append

-- Each instruction has one opcode, and that is in the table once.
theorem sum_number (instructions : List Instruction) :
    (Opcode.all.map fun op => number op instructions).sum = instructions.length := by
  induction instructions with
  | nil => rfl
  | cons instruction rest ih =>
    have hstep (op : Opcode) : number op (instruction :: rest) =
        number op rest + if instruction.op = op then 1 else 0 := by
      rw [number, List.countP_cons, number]
      by_cases h : instruction.op = op <;> simp [h]
    have hone : (Opcode.all.map fun op => if instruction.op = op then 1 else 0).sum = 1 := by
      cases instruction.op <;> decide
    simp only [hstep, List.sum_map_add, ih, hone, List.length_cons]

end Instruction

namespace Histogram

open Instruction

variable {instructions : List Instruction} {seen : Histogram}

-- What a histogram has come to behind some instructions.
structure Counts (instructions : List Instruction) (seen : Histogram) : Prop where
  distinct : seen.Distinct
  lookup : ∀ op, seen.lookup op =
    if 0 < number op instructions then some (number op instructions) else none

theorem Counts.tally (h : Counts instructions seen) (op : Opcode) :
    seen.tally op = number op instructions := by
  rw [Histogram.tally, h.lookup]
  split
  · rfl
  · simp only [Option.getD_none]
    omega

theorem Counts.see (h : Counts instructions seen) (instruction : Instruction) :
    Counts (instructions ++ [instruction]) (see instruction.op seen) where
  distinct := h.distinct.see instruction.op
  lookup op := by
    have hlast : number op [instruction] = if op = instruction.op then 1 else 0 := by
      by_cases ho : op = instruction.op
      · simp [number, ho]
      · simp [number, ho, Ne.symm ho]
    rw [lookup_see, h.tally, number_append, hlast, h.lookup]
    by_cases ho : op = instruction.op
    · rw [if_pos ho, if_pos ho, if_pos (Nat.succ_pos _), ho]
    · rw [if_neg ho, if_neg ho, Nat.add_zero]

-- By induction on the instructions, from the last one.
theorem counts_ofInstructions (instructions : List Instruction) :
    Counts instructions (ofInstructions instructions) := by
  induction instructions using List.reverseRecOn with
  | nil => exact ⟨List.nodup_nil, fun op => rfl⟩
  | append_singleton instructions instruction ih =>
    have hstep : ofInstructions (instructions ++ [instruction]) =
        Histogram.see instruction.op (ofInstructions instructions) := by
      rw [ofInstructions, List.foldl_append]
      rfl
    rw [hstep]
    exact ih.see instruction

end Histogram

namespace Instruction

open Histogram

variable {instructions : List Instruction}

-- A row of the statistics without its end.
def countRow (title : String) (count : Nat) : String :=
  String.ofList (Text.padRight 16 title.toList) ++ toString count

theorem countRow_ended (title : String) (count : Nat) : countRow title count ++ "\n" =
    title ++ String.ofList (List.replicate (16 - title.length) ' ') ++ s!"{count}\n" := by
  have hfield : String.ofList (Text.padRight 16 title.toList) =
      title ++ String.ofList (List.replicate (16 - title.length) ' ') := by
    rw [Text.padRight, String.length_toList, String.ofList_append, String.ofList_toList]
  rw [countRow, hfield, String.append_assoc]
  rfl

-- One row to an opcode of the summary, and the total behind them.
theorem statistics_eq_ended (instructions : List Instruction) :
    statistics instructions = Text.ended
      ((summary instructions).map (fun row => countRow row.1.name row.2) ++
        [countRow "total" instructions.length]) := by
  have hfold : statistics instructions =
      (summary instructions).foldl (fun text row =>
        text ++ (countRow row.1.name row.2 ++ "\n")) "" ++
        (countRow "total" instructions.length ++ "\n") := by
    simp only [countRow_ended]
    rfl
  simp only [← String.append_assoc] at hfold
  rw [hfold, Text.foldl_ended, String.empty_append, Text.ended_append, String.append_assoc]
  rfl

-- Some rows that part instructions by their opcodes.
structure Partitions (instructions : List Instruction) (rows : List (Opcode × Nat)) : Prop where
  -- the opcodes that occur, and no others
  occurring : ∀ op, op ∈ rows.map Prod.fst ↔ op ∈ instructions.map Instruction.op
  row : ∀ op count, (op, count) ∈ rows ↔ 0 < count ∧ count = number op instructions
  -- each opcode once, in the order in which the opcodes are declared
  ordered : rows.Pairwise fun row next => row.1.ctorIdx < next.1.ctorIdx
  entry : ∀ op, rows.lookup op = (ofInstructions instructions).lookup op
  -- no instruction is left over
  total : (rows.map Prod.snd).sum = instructions.length

theorem mem_summary_iff {op : Opcode} {count : Nat} :
    (op, count) ∈ summary instructions ↔ 0 < count ∧ count = number op instructions := by
  rw [summary, Histogram.mem_summary, (counts_ofInstructions instructions).lookup]
  constructor
  · intro h
    split at h
    · cases h
      exact ⟨by assumption, rfl⟩
    · cases h
  · rintro ⟨hpos, rfl⟩
    exact if_pos hpos

theorem partitions_summary (instructions : List Instruction) :
    Partitions instructions (summary instructions) where
  occurring op := by
    have hnumber : 0 < number op instructions ↔ op ∈ instructions.map Instruction.op := by
      rw [number, List.countP_pos_iff, List.mem_map]
      simp only [decide_eq_true_eq]
    rw [← hnumber, List.mem_map]
    constructor
    · rintro ⟨⟨other, count⟩, hm, rfl⟩
      obtain ⟨hpos, rfl⟩ := mem_summary_iff.mp hm
      exact hpos
    · intro hpos
      exact ⟨(op, number op instructions), mem_summary_iff.mpr ⟨hpos, rfl⟩, rfl⟩
  row _ _ := mem_summary_iff
  ordered := Histogram.summary_ordered _
  entry op := Histogram.lookup_summary _ op
  total := by
    have htally : (ofInstructions instructions).tally = fun op => number op instructions :=
      funext fun op => (counts_ofInstructions instructions).tally op
    rw [summary, Histogram.sum_summary, htally, sum_number]

theorem tally_summary (op : Opcode) (instructions : List Instruction) :
    tally (summary instructions) op = number op instructions := by
  rw [← (counts_ofInstructions instructions).tally, tally, summary, Histogram.lookup_summary]
  rfl

-- Instructions in another order are counted the same.
theorem summary_perm {others : List Instruction} (h : others.Perm instructions) :
    summary others = summary instructions := by
  refine Histogram.summary_congr fun op => ?_
  rw [(counts_ofInstructions others).lookup, (counts_ofInstructions instructions).lookup, number,
    h.countP_eq]
  rfl

theorem statistics_perm {others : List Instruction} (h : others.Perm instructions) :
    statistics others = statistics instructions := by
  rw [statistics_eq_ended, statistics_eq_ended, summary_perm h, h.length_eq]

-- The summary parts the instructions by their opcodes, and its counts add up to the total in the
-- last row of the statistics. Opcode by opcode it is a sum over any two parts of a listing, so
-- neither the order of the instructions matters nor the order in which a table keeps what it
-- has counted.
theorem summary_partitions (instructions : List Instruction) :
    Partitions instructions (summary instructions) ∧
    statistics instructions = Text.ended
      ((summary instructions).map (fun row => countRow row.1.name row.2) ++
        [countRow "total" ((summary instructions).map Prod.snd).sum]) ∧
    (∀ more op, tally (summary (instructions ++ more)) op =
      tally (summary instructions) op + tally (summary more) op) ∧
    (∀ others, others.Perm instructions →
      summary others = summary instructions ∧ statistics others = statistics instructions) ∧
    ∀ entries : Histogram, entries.Perm (ofInstructions instructions) →
      entries.summary = summary instructions := by
  have hparts := partitions_summary instructions
  refine ⟨hparts, ?_, fun more op => ?_, fun others h => ⟨summary_perm h, statistics_perm h⟩,
    fun entries h => ?_⟩
  · rw [hparts.total]
    exact statistics_eq_ended instructions
  · rw [tally_summary, tally_summary, tally_summary, number_append]
  · exact Histogram.summary_congr fun op =>
      (counts_ofInstructions instructions).distinct.lookup_perm h op

-- Four instructions, counted from either end.
theorem summary_of_reversed :
    [alloc "b", store "a", loadConst "1", alloc "a"].Perm
        [alloc "a", loadConst "1", store "a", alloc "b"] ∧
      summary [alloc "b", store "a", loadConst "1", alloc "a"] =
        [(.alloc, 2), (.store, 1), (.loadConst, 1)] := by
  obtain ⟨-, -, -, hperm, -⟩ := summary_partitions [alloc "a", loadConst "1", store "a", alloc "b"]
  have h : [alloc "b", store "a", loadConst "1", alloc "a"].Perm
      [alloc "a", loadConst "1", store "a", alloc "b"] := by decide
  have hsummary : summary [alloc "a", loadConst "1", store "a", alloc "b"] =
      [(.alloc, 2), (.store, 1), (.loadConst, 1)] := by decide
  exact ⟨h, (hperm _ h).1.trans hsummary⟩

end Instruction

end ScriptIR
