import Mathlib
import ScriptIR.Proofs.Text.Ended
import ScriptIR.Proofs.Token.Joined

namespace ScriptIR

open Lexical Piece

-- Places are in the order of reading, by lines and then by columns.
instance : LinearOrder Location :=
  LinearOrder.lift' (fun place : Location => toLex (place.line, place.column)) <| by
    rintro ⟨line, column⟩ ⟨line', column'⟩ h
    cases h
    rfl

namespace Location

theorem lt_iff {place other : Location} : place < other ↔
    place.line < other.line ∨ place.line = other.line ∧ place.column < other.column :=
  Prod.Lex.toLex_lt_toLex

theorem lt_after (place : Location) (c : Char) : place < place.after c := by
  rw [lt_iff, after]
  split
  · exact .inl (Nat.lt_succ_self _)
  · exact .inr ⟨rfl, Nat.lt_succ_self _⟩

theorem le_afterAll (place : Location) (text : List Char) : place ≤ place.afterAll text := by
  induction text generalizing place with
  | nil => exact le_rfl
  | cons c rest ih => exact (lt_after place c).le.trans (ih _)

theorem lt_afterAll (place : Location) {text : List Char} (h : text ≠ []) :
    place < place.afterAll text := by
  obtain ⟨c, rest, rfl⟩ := List.exists_cons_of_ne_nil h
  exact (lt_after place c).trans_le (le_afterAll _ rest)

-- The place of an offset in a text, counted from the beginning of the text each time:
-- the ends of lines in front of it, and the characters behind the last of these.
def ofOffset (text : List Char) (offset : Nat) : Location :=
  ⟨1 + (text.take offset).count '\n', 1 + ((text.take offset).rtakeWhile (· ≠ '\n')).length⟩

theorem afterAll_start (text : List Char) : start.afterAll text =
    ⟨1 + text.count '\n', 1 + (text.rtakeWhile (· ≠ '\n')).length⟩ := by
  induction text using List.reverseRecOn with
  | nil => rfl
  | append_singleton front c ih =>
    rw [afterAll_append, ih, afterAll_cons, afterAll_nil, after, List.count_append,
      List.rtakeWhile_concat]
    by_cases hc : c = '\n'
    · simp [hc, Nat.add_assoc]
    · simp [hc, Nat.add_assoc]

theorem ofOffset_append (front behind : List Char) :
    ofOffset (front ++ behind) front.length = start.afterAll front := by
  rw [ofOffset, List.take_left, afterAll_start]

end Location

namespace Piece

-- Pieces beside the offsets where they begin.
def offsets (offset : Nat) : List Piece → List (Nat × Piece)
  | [] => []
  | piece :: rest => (offset, piece) :: offsets (offset + piece.source.length) rest

-- Whether a piece is a token, or is complained about.
def Noted (piece : Piece) : Prop :=
  ∃ place, (token? (place, piece)).isSome ∨ (diagnostic? (place, piece)).isSome

theorem locate_eq_map {text : List Char} (front : List Char) {pieces : List Piece}
    (h : text = front ++ pieces.flatMap source) : locate (Location.start.afterAll front) pieces =
      (offsets front.length pieces).map fun begun =>
        (Location.ofOffset text begun.1, begun.2) := by
  induction pieces generalizing front with
  | nil => rfl
  | cons piece rest ih =>
    have htext : text = (front ++ piece.source) ++ rest.flatMap source := by
      rw [h, List.flatMap_cons, List.append_assoc]
    have hplace := Location.ofOffset_append front ((piece :: rest).flatMap source)
    rw [← h] at hplace
    rw [locate, offsets, List.map_cons, hplace, ← Location.afterAll_append, ih _ htext,
      List.length_append]

theorem exists_front_of_mem_offsets {offset : Nat} {piece : Piece} {text : List Char}
    (front : List Char) {pieces : List Piece} (h : text = front ++ pieces.flatMap source)
    (hm : (offset, piece) ∈ offsets front.length pieces) :
    piece ∈ pieces ∧ ∃ before behind, text = before ++ (piece.source ++ behind) ∧
      offset = before.length := by
  induction pieces generalizing front with
  | nil => cases hm
  | cons first rest ih =>
    rw [offsets, List.mem_cons] at hm
    obtain he | hm := hm
    · cases he
      exact ⟨List.mem_cons_self, front, rest.flatMap source, by rw [h, List.flatMap_cons], rfl⟩
    · have htext : text = (front ++ first.source) ++ rest.flatMap source := by
        rw [h, List.flatMap_cons, List.append_assoc]
      obtain ⟨hin, hsplit⟩ := ih _ htext (by rwa [List.length_append])
      exact ⟨List.mem_cons_of_mem first hin, hsplit⟩

-- A piece of a text is what some cut has taken.
theorem exists_cut_of_mem {piece : Piece} {text : List Char} (h : piece ∈ ofText text) :
    ∃ c rest, (cut c rest).1 = piece := by
  induction text using ofText.induct with
  | case1 =>
    rw [ofText_nil] at h
    cases h
  | case2 c rest ih =>
    rw [ofText_cons, List.mem_cons] at h
    obtain rfl | h := h
    · exact ⟨c, rest, rfl⟩
    · exact ih h

theorem source_ne_nil {piece : Piece} {text : List Char} (h : piece ∈ ofText text) :
    piece.source ≠ [] := by
  obtain ⟨c, rest, rfl⟩ := exists_cut_of_mem h
  exact cut_source_ne_nil c rest

-- White space begins only pieces that nobody hears of.
theorem Noted.exists_head {piece : Piece} {text : List Char} (h : piece.Noted)
    (hm : piece ∈ ofText text) : ∃ c tail, piece.source = c :: tail ∧ ¬ IsBlank c := by
  obtain ⟨c, rest, rfl⟩ := exists_cut_of_mem hm
  obtain ⟨d, tail, he⟩ := List.exists_cons_of_ne_nil (cut_source_ne_nil c rest)
  have hs := cut_source c rest
  rw [he] at hs
  obtain ⟨rfl, -⟩ := List.cons.inj hs
  refine ⟨d, tail, he, fun hb => ?_⟩
  obtain ⟨place, h⟩ := h
  rw [cut, if_pos (isBlank_iff.mp hb)] at h
  simp [token?, diagnostic?] at h

-- Pieces begin further on from one to the next.
theorem le_of_mem_locate {place other : Location} {piece : Piece} {pieces : List Piece}
    (h : (other, piece) ∈ locate place pieces) : place ≤ other := by
  induction pieces generalizing place with
  | nil => cases h
  | cons first rest ih =>
    rw [locate, List.mem_cons] at h
    obtain he | h := h
    · cases he
      exact le_rfl
    · exact (place.le_afterAll first.source).trans (ih h)

theorem pairwise_locate {pieces : List Piece} (h : ∀ piece ∈ pieces, piece.source ≠ [])
    (place : Location) : (locate place pieces).Pairwise fun one next => one.1 < next.1 := by
  induction pieces generalizing place with
  | nil => exact .nil
  | cons first rest ih =>
    obtain ⟨hfirst, hrest⟩ := List.forall_mem_cons.mp h
    refine .cons (fun next hm => ?_) (ih hrest _)
    exact (place.lt_afterAll hfirst).trans_le (le_of_mem_locate hm)

theorem place_of_token? {located : Location × Piece} {token : Token}
    (h : token? located = some token) : token.place = located.1 := by
  obtain ⟨place, piece⟩ := located
  cases piece <;> cases h <;> rfl

theorem place_of_diagnostic? {located : Location × Piece} {diagnostic : Diagnostic}
    (h : diagnostic? located = some diagnostic) : diagnostic.place = located.1 := by
  obtain ⟨place, piece⟩ := located
  cases piece with
  | stray c =>
    cases h
    rfl
  | quoted body closed =>
    cases closed <;> cases h
    rfl
  | _ => cases h

end Piece

section order

variable (place : Location) (text : List Char)

theorem le_place_of_mem_diagnosticsFrom {diagnostic : Diagnostic}
    (h : diagnostic ∈ diagnosticsFrom place text) : place ≤ diagnostic.place := by
  obtain ⟨located, hm, hd⟩ := List.mem_filterMap.mp h
  rw [place_of_diagnostic? hd]
  exact le_of_mem_locate hm

theorem le_place_of_mem_tokensFrom {token : Token} (h : token ∈ tokensFrom place text) :
    place ≤ token.place := by
  obtain ⟨located, hm, ht⟩ := List.mem_filterMap.mp h
  rw [place_of_token? ht]
  exact le_of_mem_locate hm

theorem pairwise_tokensFrom : (tokensFrom place text).Pairwise fun one next =>
    one.place < next.place := by
  rw [tokensFrom, List.pairwise_filterMap]
  refine (pairwise_locate (fun _ => source_ne_nil) place).imp fun h one h1 next h2 => ?_
  rwa [place_of_token? h1, place_of_token? h2]

theorem pairwise_diagnosticsFrom : (diagnosticsFrom place text).Pairwise fun one next =>
    one.place < next.place := by
  rw [diagnosticsFrom, List.pairwise_filterMap]
  refine (pairwise_locate (fun _ => source_ne_nil) place).imp fun h one h1 next h2 => ?_
  rwa [place_of_diagnostic? h1, place_of_diagnostic? h2]

end order

end ScriptIR
