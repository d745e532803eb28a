import Mathlib
import ScriptIR.Inspector.SourcePane
import ScriptIR.Proofs.Text.Lines
import ScriptIR.Proofs.Token.Places

namespace ScriptIR

open Lexical Piece

-- The place of a character, counted from one, finds it among the lines of its text.
theorem Location.exists_line_ofOffset (front behind : List Char) {c : Char} (hn : c ≠ '\n')
    (hr : c ≠ '\r') :
    let place := ofOffset (front ++ c :: behind) front.length
    ∃ shown, (Text.lines (front ++ c :: behind))[place.line - 1]? = some shown ∧
      shown[place.column - 1]? = some c := by
  intro place
  obtain ⟨shown, hshown, hc⟩ := Text.exists_line front behind hn hr
  have hline : place.line - 1 = front.count '\n' := by
    simp [place, ofOffset]
  have hcolumn : place.column - 1 = (front.rtakeWhile (· ≠ '\n')).length := by
    simp [place, ofOffset]
  rw [hline, hcolumn]
  exact ⟨shown, hshown, hc⟩

theorem Lexical.ne_of_not_isBlank {c : Char} (h : ¬ IsBlank c) : c ≠ '\n' ∧ c ≠ '\r' := by
  constructor <;> rintro rfl <;> exact h (by simp [IsBlank])

-- A token or a complaint has the place of the offset where its piece begins, and there
-- the piece begins with a character that the line of that number shows in that column.
theorem Piece.Noted.exists_shown {text : List Char} {offset : Nat} {piece : Piece}
    (h : piece.Noted) (hm : (offset, piece) ∈ offsets 0 (ofText text)) :
    let place := Location.ofOffset text offset
    ∃ c shown, piece.source.head? = some c ∧ (Text.lines text)[place.line - 1]? = some shown ∧
      shown[place.column - 1]? = some c := by
  obtain ⟨hin, front, behind, htext, rfl⟩ :=
    exists_front_of_mem_offsets [] (source_ofText text).symm hm
  obtain ⟨c, tail, hs, hb⟩ := h.exists_head hin
  obtain ⟨hn, hr⟩ := ne_of_not_isBlank hb
  rw [hs, List.cons_append] at htext
  obtain ⟨shown, hshown, hc⟩ := Location.exists_line_ofOffset front (tail ++ behind) hn hr
  rw [← htext] at hshown hc
  exact ⟨c, shown, by rw [hs]; rfl, hshown, hc⟩

namespace Inspector

-- Every token and every diagnostic is where its first character is: behind as many ends
-- of lines and in as many columns as the text in front of it has, and in that column of
-- that line as the source pane shows it. So the pane marks lines that exist, and the
-- places go up from one token to the next and from one diagnostic to the next.
theorem places_exact (source : String) (focused : Bool) :
    let text := source.toList
    let lexed := Lexed.ofSource source
    let pane : SourcePane := ⟨source, lexed.diagnostics.map (·.place.line), focused⟩
    let begun := offsets 0 (ofText text)
    let place := Location.ofOffset text
    lexed.tokens = begun.filterMap (fun one => token? (place one.1, one.2)) ∧
    lexed.diagnostics = begun.filterMap (fun one => diagnostic? (place one.1, one.2)) ∧
    (∀ offset piece, (offset, piece) ∈ begun → piece.source <+: text.drop offset) ∧
    (∀ offset piece, (offset, piece) ∈ begun → piece.Noted → ∃ c shown,
      piece.source.head? = some c ∧ pane.sourceLines[(place offset).line - 1]? = some shown ∧
      shown[(place offset).column - 1]? = some c) ∧
    (∀ number ∈ pane.marked, ∃ shown, (shown, number) ∈ pane.sourceLines.zipIdx 1) ∧
    (lexed.tokens.map Token.place).Pairwise (· < ·) ∧
    (lexed.diagnostics.map Diagnostic.place).Pairwise (· < ·) := by
  intro text lexed pane begun place
  have hlocate : locate .start (ofText text) = begun.map fun one => (place one.1, one.2) :=
    locate_eq_map [] (source_ofText text).symm
  have htokens : lexed.tokens = begun.filterMap fun one => token? (place one.1, one.2) := by
    have hl : lexed.tokens = (locate .start (ofText text)).filterMap token? := rfl
    rw [hl, hlocate, List.filterMap_map]
    rfl
  have hdiagnostics : lexed.diagnostics =
      begun.filterMap fun one => diagnostic? (place one.1, one.2) := by
    have hl : lexed.diagnostics = (locate .start (ofText text)).filterMap diagnostic? := rfl
    rw [hl, hlocate, List.filterMap_map]
    rfl
  refine ⟨htokens, hdiagnostics, ?_, fun offset piece hm hn => hn.exists_shown hm, ?_, ?_, ?_⟩
  · intro offset piece hm
    obtain ⟨-, front, behind, htext, rfl⟩ :=
      exists_front_of_mem_offsets [] (source_ofText text).symm hm
    rw [htext, List.drop_left]
    exact List.prefix_append _ _
  · intro number hm
    obtain ⟨diagnostic, hd, rfl⟩ := List.mem_map.mp hm
    rw [hdiagnostics] at hd
    obtain ⟨⟨offset, piece⟩, hbegun, hpiece⟩ := List.mem_filterMap.mp hd
    have hnoted : piece.Noted := ⟨place offset, .inr (by rw [hpiece]; rfl)⟩
    obtain ⟨c, shown, -, hshown, -⟩ := hnoted.exists_shown hbegun
    have hone : 1 ≤ (place offset).line := by simp [place, Location.ofOffset]
    rw [place_of_diagnostic? hpiece]
    refine ⟨shown, List.mk_mem_zipIdx_iff_le_and_getElem?_sub.mpr ⟨hone, hshown⟩⟩
  · exact List.pairwise_map.mpr (pairwise_tokensFrom .start text)
  · exact List.pairwise_map.mpr (pairwise_diagnosticsFrom .start text)

end Inspector

end ScriptIR
