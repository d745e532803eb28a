import Mathlib
import ScriptIR.Text.Lines

namespace ScriptIR.Text

-- A text cut in front of one of its bytes. There is no cut where the text is too short, nor in
-- the middle of a character.
def cutAtByte? (text : String) (byte : Nat) : Option (String × String) :=
  if h : String.Pos.Raw.IsValid text ⟨byte⟩ then
    let pos : text.Pos := ⟨⟨byte⟩, h⟩
    some ((text.sliceTo pos).copy, (text.sliceFrom pos).copy)
  else none

theorem cutAtByte?_append (front back : String) :
    cutAtByte? (front ++ back) front.utf8ByteSize = some (front, back) := by
  have hvalid : String.Pos.Raw.IsValid (front ++ back) ⟨front.utf8ByteSize⟩ :=
    String.Pos.Raw.isValid_iff_exists_append.mpr ⟨front, back, rfl, rfl⟩
  let pos : (front ++ back).Pos := ⟨⟨front.utf8ByteSize⟩, hvalid⟩
  have hsplits : pos.Splits front back := ⟨rfl, rfl⟩
  obtain ⟨hfront, hback⟩ := pos.splits.eq hsplits
  rw [cutAtByte?, dif_pos hvalid]
  exact congrArg some (Prod.ext hfront hback)

-- The same with the number of bytes behind the cut.
theorem cutAtByte?_append_sub (front back : String) :
    cutAtByte? (front ++ back) ((front ++ back).utf8ByteSize - back.utf8ByteSize) =
      some (front, back) := by
  have hsize : (front ++ back).utf8ByteSize - back.utf8ByteSize = front.utf8ByteSize := by
    rw [String.utf8ByteSize_append, Nat.add_sub_cancel]
  rw [hsize, cutAtByte?_append]

-- What is in front of the first colon with a space behind it, and what is behind the two.
def aroundColon? (text : List Char) : Option (List Char × List Char) :=
  (text.tails.findIdx? [':', ' '].isPrefixOf).map fun position =>
    (text.take position, text.drop (position + 2))

theorem aroundColon?_cons (c : Char) (rest : List Char) :
    aroundColon? (c :: rest) =
      if [':', ' '].isPrefixOf (c :: rest) then some ([], rest.drop 1)
      else (aroundColon? rest).map fun (front, back) => (c :: front, back) := by
  unfold aroundColon?
  rw [List.tails_cons, List.findIdx?_cons]
  split
  · rfl
  · simp only [Option.map_map]
    rfl

-- By induction along the cut, which stops at the same colon.
theorem cutAtColon_eq (text : List Char) :
    cutAtColon text = match aroundColon? text with
      | some (front, back) => (front, ':' :: ' ' :: back)
      | none => (text, []) := by
  fun_induction cutAtColon text with
  | case1 => rfl
  | case2 rest => rfl
  | case3 c rest hn front back hcut ih =>
    have hprefix : [':', ' '].isPrefixOf (c :: rest) = false := by
      cases rest with
      | nil => simp [List.isPrefixOf]
      | cons d rest =>
        simp only [List.isPrefixOf, Bool.and_true, Bool.and_eq_false_iff, beq_eq_false_iff_ne]
        by_cases hc : ':' = c
        · exact .inr fun hd => hn rest hc.symm (hd ▸ rfl)
        · exact .inl hc
    rw [hcut] at ih
    rw [aroundColon?_cons, hprefix]
    cases h : aroundColon? rest with
    | none =>
      rw [h] at ih
      cases ih
      rfl
    | some parts =>
      rw [h] at ih
      cases ih
      rfl

theorem cutAtColon_append (text : List Char) :
    (cutAtColon text).1 ++ (cutAtColon text).2 = text := by
  fun_induction cutAtColon text with
  | case1 => rfl
  | case2 rest => rfl
  | case3 c rest _ front back hcut ih => simpa [hcut] using ih

end ScriptIR.Text
