import Mathlib
import ScriptIR.Proofs.Text.Ended
import ScriptIR.Text.Lines

namespace ScriptIR.Text

theorem lines_nil : lines [] = [] := by
  rw [lines]
  rfl

-- A line without an end is the last one, and it stays as it is.
theorem lines_of_notMem {text : List Char} (h : '\n' ∉ text) (hn : text ≠ []) :
    lines text = [text] := by
  have hd : text.dropWhile (· ≠ '\n') = [] :=
    List.dropWhile_eq_nil_iff.mpr (forall_ne_of_notMem h)
  rw [lines]
  split
  · rename_i hcut
    rw [hd] at hcut
    cases hcut
  · rw [if_neg (by simpa using hn)]

theorem lines_first {first : List Char} (h : '\n' ∉ first) (behind : List Char) :
    lines (first ++ '\n' :: behind) = chomp first :: lines behind := by
  obtain ⟨ht, hd⟩ := cut_at_first h behind
  rw [lines]
  split
  · rename_i hcut
    rw [hd] at hcut
    cases hcut
    rw [ht]
  · rename_i hcut
    rw [hd] at hcut
    cases hcut

-- The end of a line parts the lines of a text, by induction on its first line.
theorem lines_append (front behind : List Char) :
    lines (front ++ '\n' :: behind) = lines (front ++ ['\n']) ++ lines behind := by
  by_cases h : '\n' ∈ front
  · obtain ⟨first, more, rfl, hf⟩ := List.eq_append_cons_of_mem h
    have ih := lines_append more behind
    simp only [List.append_assoc, List.cons_append, lines_first hf, ih]
  · rw [lines_first h, lines_first h, lines_nil]
    rfl
termination_by front.length
decreasing_by
  subst_vars
  simp only [List.length_append, List.length_cons]
  omega

theorem length_lines_ended (front : List Char) :
    (lines (front ++ ['\n'])).length = front.count '\n' + 1 := by
  by_cases h : '\n' ∈ front
  · obtain ⟨first, more, rfl, hf⟩ := List.eq_append_cons_of_mem h
    have ih := length_lines_ended more
    rw [List.append_assoc, List.cons_append, lines_first hf, List.length_cons, ih,
      List.count_append, List.count_cons_self, List.count_eq_zero_of_not_mem hf, Nat.zero_add]
  · rw [lines_first h, lines_nil, List.count_eq_zero_of_not_mem h]
    rfl
termination_by front.length
decreasing_by
  subst_vars
  simp only [List.length_append, List.length_cons]
  omega

-- Where each line has its end there are no lines beside the whole ones.
theorem length_lines_toList_ended (rows : List String) :
    (lines (ended rows).toList).length = (wholeLines (ended rows)).length := by
  rw [length_wholeLines]
  induction rows with
  | nil => simp [lines_nil]
  | cons row rest ih =>
    rw [toList_ended_cons, lines_append, List.length_append, length_lines_ended, ih,
      List.count_append, List.count_cons_self]
    omega

-- Only a carriage return at the very end of a line is taken off.
theorem getElem?_chomp (front behind : List Char) {c : Char} (h : c ≠ '\r') :
    (chomp (front ++ c :: behind))[front.length]? = some c := by
  unfold chomp
  split
  · rename_i hlast
    cases behind with
    | nil =>
      rw [List.getLast?_concat, Option.some.injEq] at hlast
      exact (h hlast).elim
    | cons d behind => simp [List.dropLast_append_of_ne_nil]
  · simp

-- A character that ends no line is found where it stands in its own line.
theorem exists_first_line (front behind : List Char) {c : Char} (hf : '\n' ∉ front)
    (hn : c ≠ '\n') (hr : c ≠ '\r') :
    ∃ shown, (lines (front ++ c :: behind))[0]? = some shown ∧ shown[front.length]? = some c := by
  by_cases h : '\n' ∈ behind
  · obtain ⟨middle, more, rfl, hm⟩ := List.eq_append_cons_of_mem h
    have hfirst : '\n' ∉ front ++ c :: middle := by simp [hf, hm, hn.symm]
    have hlines := lines_first hfirst more
    rw [List.append_assoc, List.cons_append] at hlines
    exact ⟨_, by rw [hlines]; rfl, getElem?_chomp front middle hr⟩
  · have hlast : '\n' ∉ front ++ c :: behind := by simp [hf, h, hn.symm]
    exact ⟨_, by rw [lines_of_notMem hlast (by simp)]; rfl, by simp⟩

-- The number of its line is that of the line ends in front of a character, and its
-- position in the line is its distance from the last of them.
theorem exists_line (front behind : List Char) {c : Char} (hn : c ≠ '\n') (hr : c ≠ '\r') :
    ∃ shown, (lines (front ++ c :: behind))[front.count '\n']? = some shown ∧
      shown[(front.rtakeWhile (· ≠ '\n')).length]? = some c := by
  by_cases h : '\n' ∈ front
  · obtain ⟨last, before, hrev, hl⟩ := List.eq_append_cons_of_mem (List.mem_reverse.mpr h)
    obtain rfl : front = before.reverse ++ '\n' :: last.reverse := by
      rw [← List.reverse_reverse front, hrev]
      simp
    have hlast : '\n' ∉ last.reverse := mt List.mem_reverse.mp hl
    obtain ⟨shown, hshown, hc⟩ := exists_first_line last.reverse behind hlast hn hr
    have hlength := length_lines_ended before.reverse
    refine ⟨shown, ?_, ?_⟩
    · rw [List.append_assoc, List.cons_append, lines_append, List.count_append,
        List.count_cons_self, List.count_eq_zero_of_not_mem hlast, Nat.zero_add, ← hlength,
        List.getElem?_append_right (Nat.le_refl _), Nat.sub_self]
      exact hshown
    · rw [(cut_at_last before.reverse hlast).1]
      exact hc
  · have htake : front.rtakeWhile (· ≠ '\n') = front :=
      List.rtakeWhile_eq_self_iff.mpr (forall_ne_of_notMem h)
    rw [List.count_eq_zero_of_not_mem h, htake]
    exact exists_first_line front behind h hn hr

end ScriptIR.Text
