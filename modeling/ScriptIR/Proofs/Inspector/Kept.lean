import Mathlib
import ScriptIR.Inspector.Highlight

namespace ScriptIR.Inspector

open Screen

namespace Highlight

-- Where a line is coloured by positions, each character and each stretch of the line is
-- asked for by its position, and none may lie outside of the line.

-- The characters from a position up to a later one.
def stretch? (text : List Char) (first last : Nat) : Option (List Char) :=
  if first ≤ last ∧ last ≤ text.length then some ((text.take last).drop first) else none

-- The position of the quote that closes a string literal. Without such a quote it is
-- behind the end, and one further where the line ends in a backslash.
def closing (text : List Char) (position : Nat) : Nat :=
  if _h : position < text.length then
    if text[position] = '"' then position
    else if text[position] = '\\' then closing text (position + 2)
    else closing text (position + 1)
  else position
termination_by text.length - position

-- The line up to a position has become spans, but for the word that is being read.
inductive Stage where
  | reading (position : Nat) (word : List Char) (spans : Line)
  | finished (spans : Line)

namespace Stage

-- One turn of the loop.
def turn (text : List Char) : Stage → Option Stage
  | .finished spans => some (.finished spans)
  | .reading position word spans =>
    if position < text.length then do
      let c ← text[position]?
      if c = '#' then
        let comment ← stretch? text position text.length
        some (.finished (spans ++ flush word false ++ [⟨comment, .colour Theme.comment⟩]))
      else if c = '"' then
        let last := min (closing text (position + 1) + 1) text.length
        let literal ← stretch? text position last
        some (.reading last [] (spans ++ flush word false ++ [⟨literal, .colour Theme.string⟩]))
      else if continues word c then some (.reading (position + 1) (word ++ [c]) spans)
      else
        let signed := spans ++ flush word (c = '(') ++ [⟨[c], signStyle c⟩]
        some (.reading (position + 1) [] signed)
    else some (.finished (spans ++ flush word false))

def after (text : List Char) (stage : Stage) : Nat → Option Stage
  | 0 => some stage
  | turns + 1 => (stage.turn text).bind fun next => next.after text turns

def start : Stage := .reading 0 [] []

-- How many turns are left at the most.
def left (text : List Char) : Stage → Nat
  | .reading position _ _ => text.length - position + 1
  | .finished _ => 0

-- What is still to come completes the spans of the whole line.
def Follows (text : List Char) : Stage → Prop
  | .reading position word spans => spans ++ line word (text.drop position) = highlight text
  | .finished spans => spans = highlight text

end Stage

section positions

variable {text : List Char} {position last : Nat}

theorem le_closing (text : List Char) (position : Nat) : position ≤ closing text position := by
  fun_induction closing text position <;> omega

theorem drop_take_eq_cons (h : position < last) (hl : last ≤ text.length) :
    (text.take last).drop position =
      text[position] :: (text.take last).drop (position + 1) := by
  have hlength : position < (text.take last).length := by
    rw [List.length_take]
    omega
  rw [List.drop_eq_getElem_cons hlength, List.getElem_take]

-- Behind an opening quote, the quote that closes it is found by positions where it is
-- found from the left.
theorem cutString_drop (text : List Char) (position : Nat) :
    cutString (text.drop position) =
      ((text.take (min (closing text position + 1) text.length)).drop position,
        text.drop (min (closing text position + 1) text.length)) := by
  fun_induction closing text position with
  | case1 position h hq =>
    have hlast : min (position + 1) text.length = position + 1 := by omega
    rw [hlast, drop_take_eq_cons (Nat.lt_succ_self position) (by omega),
      List.drop_eq_getElem_cons h, hq, cutString]
    simp
  | case2 position h hq hb ih =>
    have hle := le_closing text (position + 2)
    have hlast : position < min (closing text (position + 2) + 1) text.length := by omega
    rw [drop_take_eq_cons hlast (by omega), List.drop_eq_getElem_cons h, hb]
    by_cases hp : position + 1 < text.length
    · rw [drop_take_eq_cons (by omega) (by omega), List.drop_eq_getElem_cons hp, cutString, ih]
    · -- the line ends in the backslash
      have hend : text.drop (position + 1) = [] := List.drop_eq_nil_of_le (by omega)
      have hlast : min (closing text (position + 2) + 1) text.length = text.length := by omega
      rw [hlast, List.take_length, List.drop_length, hend]
      rfl
  | case3 position h hq hb ih =>
    have hle := le_closing text (position + 1)
    have hlast : position < min (closing text (position + 1) + 1) text.length := by omega
    rw [drop_take_eq_cons hlast (by omega), List.drop_eq_getElem_cons h, cutString, ih]
    · exact hq
    · intro c rest hc
      exact absurd hc hb
  | case4 position h =>
    have hlast : min (position + 1) text.length = text.length := by omega
    have hend : text.drop position = [] := List.drop_eq_nil_of_le (by omega)
    rw [hlast, List.take_length, List.drop_length, hend]
    rfl

end positions

namespace Stage

variable {text : List Char} {stage : Stage}

-- A turn stays within the line and takes at least one character of it.
theorem Follows.turn (h : stage.Follows text) : ∃ next, stage.turn text = some next ∧
    next.Follows text ∧ next.left text ≤ stage.left text - 1 := by
  cases stage with
  | finished spans => exact ⟨_, rfl, h, Nat.zero_le _⟩
  | reading position word spans =>
    have hline : spans ++ line word (text.drop position) = highlight text := h
    by_cases hp : position < text.length
    · have hget : text[position]? = some text[position] := List.getElem?_eq_getElem hp
      have hcons := List.drop_eq_getElem_cons hp
      have hcut := cutString_drop text (position + 1)
      have hle := le_closing text (position + 1)
      rw [hcons, line] at hline
      simp only [Stage.turn, if_pos hp, hget, Option.bind_eq_bind, Option.bind_some]
      split
      · rename_i hc
        have hs : stretch? text position text.length = some (text.drop position) := by
          simp [stretch?, hp.le]
        rw [if_pos hc, ← hcons] at hline
        rw [hs]
        refine ⟨_, rfl, ?_, Nat.zero_le _⟩
        rw [Follows, ← hline, List.append_assoc]
      split
      · rename_i hc hq
        generalize hlast : min (closing text (position + 1) + 1) text.length = last at hcut
        have hs : stretch? text position last = some ((text.take last).drop position) := by
          rw [stretch?, if_pos (by omega)]
        rw [if_neg hc, if_pos hq, hcut] at hline
        rw [hs, drop_take_eq_cons (by omega) (by omega)]
        refine ⟨_, rfl, ?_, by simp only [left]; omega⟩
        simp only [Follows, ← hline, List.append_assoc, List.singleton_append]
      split
      · rename_i hc hq hw
        rw [if_neg hc, if_neg hq, if_pos hw] at hline
        exact ⟨_, rfl, hline, by simp only [left]; omega⟩
      · rename_i hc hq hw
        rw [if_neg hc, if_neg hq, if_neg hw] at hline
        refine ⟨_, rfl, ?_, by simp only [left]; omega⟩
        simp only [Follows, ← hline, List.append_assoc, List.singleton_append]
    · have hend : text.drop position = [] := List.drop_eq_nil_of_le (by omega)
      rw [hend, line] at hline
      exact ⟨.finished _, if_neg hp, hline, Nat.zero_le _⟩

-- By the number of the turns.
theorem Follows.after (h : stage.Follows text) (turns : Nat) :
    ∃ next, stage.after text turns = some next ∧ next.Follows text ∧
      next.left text ≤ stage.left text - turns := by
  induction turns generalizing stage with
  | zero => exact ⟨stage, rfl, h, le_rfl⟩
  | succ turns ih =>
    obtain ⟨middle, hm, hf, hl⟩ := h.turn
    obtain ⟨next, hn, hf', hl'⟩ := ih hf
    refine ⟨next, ?_, hf', by omega⟩
    rw [Stage.after, hm, Option.bind_some, hn]

theorem follows_start (text : List Char) : start.Follows text := rfl

end Stage

theorem text_append (front back : Line) : (front ++ back).text = front.text ++ back.text :=
  List.flatMap_append

theorem text_flush (word : List Char) (called : Bool) : Line.text (flush word called) = word := by
  unfold flush
  split
  · rename_i h
    rw [List.isEmpty_iff.mp h]
    rfl
  · simp [Line.text]

theorem text_line (word text : List Char) : (line word text).text = word ++ text := by
  fun_induction line word text with
  | case1 word => rw [text_flush, List.append_nil]
  | case2 word rest => rw [text_append, text_flush]; simp [Line.text]
  | case3 word rest hc ih =>
    have hs := cutString_append rest
    rw [text_append, text_flush, Line.text, List.flatMap_cons, ← Line.text, ih]
    simp [hs]
  | case4 word c rest hc hq hw ih => rw [ih, List.append_assoc, List.singleton_append]
  | case5 word c rest hc hq hw ih =>
    rw [text_append, text_flush, Line.text, List.flatMap_cons, ← Line.text, ih]
    simp

-- A word that is not there leaves no span.
theorem ne_nil_of_mem_flush {word : List Char} {called : Bool} {span : Span}
    (h : span ∈ flush word called) : span.text ≠ [] := by
  unfold flush at h
  split at h
  · cases h
  · rename_i hw
    rw [List.mem_singleton.mp h]
    simpa using hw

theorem ne_nil_of_mem_line {word text : List Char} {span : Span} (h : span ∈ line word text) :
    span.text ≠ [] := by
  fun_induction line word text with
  | case1 word => exact ne_nil_of_mem_flush h
  | case2 word rest =>
    rcases List.mem_append.mp h with h | h
    · exact ne_nil_of_mem_flush h
    · rw [List.mem_singleton.mp h]
      nofun
  | case3 word rest hc ih =>
    rcases List.mem_append.mp h with h | h
    · exact ne_nil_of_mem_flush h
    · rcases List.mem_cons.mp h with rfl | h
      · nofun
      · exact ih h
  | case4 word c rest hc hq hw ih => exact ih h
  | case5 word c rest hc hq hw ih =>
    rcases List.mem_append.mp h with h | h
    · exact ne_nil_of_mem_flush h
    · rcases List.mem_cons.mp h with rfl | h
      · nofun
      · exact ih h

end Highlight

open Highlight

-- Whatever a line consists of, it is shown as it is: its spans put together are the line,
-- and none of them is empty. By positions no turn of the loop asks for anything outside of
-- the line, and one turn more than there are characters is always enough.
theorem highlight_keeps_text (text : List Char) :
    (∀ turns, ∃ stage, Stage.start.after text turns = some stage ∧
      (text.length < turns → stage = .finished (highlight text))) ∧
    (highlight text).text = text ∧ ∀ span ∈ highlight text, span.text ≠ [] := by
  refine ⟨fun turns => ?_, text_line [] text, fun span => ne_nil_of_mem_line⟩
  obtain ⟨stage, hs, hf, hl⟩ := (Stage.follows_start text).after turns
  refine ⟨stage, hs, fun hlt => ?_⟩
  cases stage with
  | finished spans => exact congrArg Stage.finished hf
  | reading position word spans =>
    simp only [Stage.start, Stage.left] at hl
    omega

end ScriptIR.Inspector
