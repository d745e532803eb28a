import Mathlib

namespace ScriptIR.Text

-- Where a text is cut at the first character that is not of a class.
theorem cut_at_stop {p : Char → Bool} {front : List Char} {stop : Char}
    (hf : ∀ c ∈ front, p c = true) (hs : p stop = false) (behind : List Char) :
    (front ++ stop :: behind).takeWhile p = front ∧
      (front ++ stop :: behind).dropWhile p = stop :: behind := by
  have hn : ¬ p stop = true := by simp [hs]
  constructor
  · rw [List.takeWhile_append_of_pos hf, List.takeWhile_cons_of_neg hn, List.append_nil]
  · rw [List.dropWhile_append_of_pos hf, List.dropWhile_cons_of_neg hn]

theorem forall_ne_of_notMem {text : List Char} {stop : Char} (h : stop ∉ text) :
    ∀ c ∈ text, decide (c ≠ stop) = true := by
  intro c hc
  rw [decide_eq_true_iff]
  rintro rfl
  exact h hc

-- Where a text is cut at a character that is not in front of the cut.
theorem cut_at_first {front : List Char} {stop : Char} (h : stop ∉ front) (behind : List Char) :
    (front ++ stop :: behind).takeWhile (· ≠ stop) = front ∧
      (front ++ stop :: behind).dropWhile (· ≠ stop) = stop :: behind :=
  cut_at_stop (forall_ne_of_notMem h) (by simp) behind

-- The same from behind.
theorem cut_at_last (front : List Char) {stop : Char} {behind : List Char} (h : stop ∉ behind) :
    (front ++ stop :: behind).rtakeWhile (· ≠ stop) = behind ∧
      (front ++ stop :: behind).rdropWhile (· ≠ stop) = front ++ [stop] := by
  have hreverse : (front ++ stop :: behind).reverse =
      behind.reverse ++ stop :: front.reverse := by simp
  obtain ⟨ht, hd⟩ := cut_at_first (mt List.mem_reverse.mp h) front.reverse
  rw [List.rtakeWhile, List.rdropWhile, hreverse, ht, hd]
  simp

-- A text of whole lines, each with its end.
def ended (lines : List String) : String := String.join (lines.map (· ++ "\n"))

-- The lines of a text that have an end. What is behind the last end is left out.
def wholeLines (text : String) : List (List Char) := (text.toList.splitOn '\n').dropLast

@[simp] theorem ended_nil : ended [] = "" := rfl

theorem ended_cons (line : String) (rest : List String) :
    ended (line :: rest) = line ++ "\n" ++ ended rest := by
  rw [ended, List.map_cons, String.join_cons]
  rfl

theorem ended_append (front back : List String) : ended (front ++ back) = ended front ++ ended back := by
  rw [ended, List.map_append, String.join_append]
  rfl

theorem toList_ended_cons (line : String) (rest : List String) :
    (ended (line :: rest)).toList = line.toList ++ '\n' :: (ended rest).toList := by
  simp [ended_cons]

-- Lines that are written one behind the other.
theorem foldl_ended {α : Type} (line : α → String) (items : List α) (front : String) :
    items.foldl (fun text item => text ++ line item ++ "\n") front =
      front ++ ended (items.map line) := by
  induction items generalizing front with
  | nil => simp
  | cons item rest ih =>
    rw [List.foldl_cons, ih, List.map_cons, ended_cons]
    simp only [String.append_assoc]

theorem toList_ended (lines : List String) :
    (ended lines).toList = ['\n'].intercalate (lines.map String.toList ++ [[]]) := by
  induction lines with
  | nil => rfl
  | cons line rest ih =>
    rw [toList_ended_cons, ih]
    cases rest <;> simp [List.intercalate]

theorem wholeLines_ended {lines : List String} (h : ∀ line ∈ lines, '\n' ∉ line.toList) :
    wholeLines (ended lines) = lines.map String.toList := by
  have hsplit : (ended lines).toList.splitOn '\n' = lines.map String.toList ++ [[]] := by
    rw [toList_ended]
    apply List.splitOn_intercalate
    · intro text hm
      rcases List.mem_append.mp hm with hm | hm
      · obtain ⟨line, hin, rfl⟩ := List.mem_map.mp hm
        exact h line hin
      · cases List.mem_singleton.mp hm
        exact List.not_mem_nil
    · simp
  rw [wholeLines, hsplit, List.dropLast_concat]

theorem length_splitOn (stop : Char) (text : List Char) :
    (text.splitOn stop).length = text.count stop + 1 := by
  induction text with
  | nil => rfl
  | cons c rest ih =>
    rw [List.splitOn_cons_eq_if_modifyHead, List.count_cons]
    split
    · rw [List.length_cons, ih]
    · rw [List.length_modifyHead, ih, Nat.add_zero]

theorem length_wholeLines (text : String) : (wholeLines text).length = text.toList.count '\n' := by
  rw [wholeLines, List.length_dropLast, length_splitOn, Nat.add_sub_cancel]

-- Each line has its own end, and those that it brings along.
theorem length_wholeLines_ended (lines : List String) : (wholeLines (ended lines)).length =
    lines.length + (lines.map fun line => line.toList.count '\n').sum := by
  rw [length_wholeLines]
  induction lines with
  | nil => rfl
  | cons line rest ih =>
    rw [toList_ended_cons, List.count_append, List.count_cons_self, ih]
    simp only [List.length_cons, List.map_cons, List.sum_cons]
    omega

-- Lines of which one has several lines itself are never found again, and there are too
-- many of them.
theorem length_wholeLines_ended_iff (lines : List String) :
    (wholeLines (ended lines)).length = lines.length ↔ ∀ line ∈ lines, '\n' ∉ line.toList := by
  rw [length_wholeLines_ended, Nat.add_eq_left, List.sum_eq_zero_iff, List.forall_mem_map]
  simp only [List.count_eq_zero]

theorem wholeLines_ended_iff (lines : List String) :
    wholeLines (ended lines) = lines.map String.toList ↔ ∀ line ∈ lines, '\n' ∉ line.toList := by
  refine ⟨fun h => (length_wholeLines_ended_iff lines).mp ?_, wholeLines_ended⟩
  rw [h, List.length_map]

end ScriptIR.Text
