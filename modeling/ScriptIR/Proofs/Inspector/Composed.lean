import Mathlib
import ScriptIR.Inspector.View
import ScriptIR.Proofs.Inspector.Scrolling
import ScriptIR.Proofs.Screen.Area

namespace ScriptIR.Inspector

open Screen

-- What the border of a pane looks like.
def borderLook (focused : Bool) : Look := (Theme.border focused).laidOver .plain

-- A grid that is some lines with a border around them. Below there may be a colour for the lines,
-- which the border does not show.
def Framed (title : List Char) (focused : Bool) (grid : Grid) (width height : Nat) : Prop :=
  ∃ (below : Style) (inside : Nat → Nat → Grid), below.bg = none ∧ below.bold = false ∧
    (∀ width height, Sized (inside width height) width height) ∧
    grid = Border.around ⟨title, Theme.border focused⟩ below inside width height

namespace Framed

variable {title : List Char} {focused : Bool} {grid : Grid} {width height : Nat}

theorem sized (h : Framed title focused grid width height) : Sized grid width height := by
  obtain ⟨below, inside, -, -, hinside, rfl⟩ := h
  exact Border.sized_around (hinside _ _)

theorem look {x y : Nat} {cell : Cell} (h : Framed title focused grid width height)
    (ht : ∀ c ∈ title, Text.isWide c = false) (hcell : cell? grid x y = some cell)
    (hring : x = 0 ∨ x + 1 = width ∨ y = 0 ∨ y + 1 = height) : cell.look = borderLook focused := by
  obtain ⟨below, inside, hbg, hbold, hinside, rfl⟩ := h
  have hlook := Border.look_around (hinside _ _) ht hcell hring
  have hbelow : Border.look ⟨title, Theme.border focused⟩ below = borderLook focused := by
    cases focused <;> simp [Border.look, borderLook, Theme.border, Style.laidOver, Style.colour,
      Style.boldColour, hbg, hbold]
  rw [hlook, hbelow]

end Framed

theorem SourcePane.framed_draw (pane : SourcePane) (scroll width height : Nat) :
    Framed " Source ".toList pane.focused (pane.draw scroll width height) width height :=
  ⟨.none, _, rfl, rfl, sized_lines length_writeLeft .none _, rfl⟩

theorem ListingPane.framed_draw (pane : ListingPane) (scroll width height : Nat) :
    Framed pane.title pane.focused (pane.draw scroll width height) width height := by
  unfold draw
  split
  · exact ⟨.colour Theme.comment, _, rfl, rfl, sized_lines length_writeLeft _ _, rfl⟩
  · refine ⟨.none, _, rfl, rfl, sized_lines (fun line row => ?_) .none _, rfl⟩
    rw [List.length_append, length_writeFit, ← List.length_append, List.take_append_drop]

theorem StatusBar.sized_draw (bar : StatusBar) (width height : Nat) :
    Sized (bar.draw width height) width height :=
  sized_beside (share_le (show 50 ≤ 100 by decide) width)
    (sized_lines length_writeLeft _ [bar.counts] _ _)
    (sized_lines length_writeRight _ [bar.keys] _ _)

-- An offset that has been brought back to what there is to see stays there.
theorem SourcePane.settle_settle (pane : SourcePane) (height scroll : Nat) :
    pane.settle height (pane.settle height scroll) = pane.settle height scroll :=
  clamp_clamp _ _ _

theorem ListingPane.settle_settle (pane : ListingPane) (height scroll : Nat) :
    pane.settle height (pane.settle height scroll) = pane.settle height scroll := by
  simp only [settle]
  split
  · rfl
  · exact clamp_clamp _ _ _

-- All that a drawing takes from an offset is where it is brought back to.
theorem SourcePane.draw_congr {pane : SourcePane} {height scroll other : Nat}
    (h : pane.settle height scroll = pane.settle height other) (width : Nat) :
    pane.draw scroll width height = pane.draw other width height := by
  simp only [draw, shown, h]

theorem ListingPane.draw_congr {pane : ListingPane} {height scroll other : Nat}
    (h : pane.settle height scroll = pane.settle height other) (width : Nat) :
    pane.draw scroll width height = pane.draw other width height := by
  simp only [draw, shown, h]

-- The five parts of a screen.
inductive Part where
  | pane (focus : Focus)
  | bar
deriving DecidableEq

namespace Part

-- In the order in which they are drawn.
def all : List Part := [.pane .source, .pane .tokens, .pane .tree, .pane .listing, .bar]

theorem mem_all (part : Part) : part ∈ all := by
  cases part with
  | pane focus => cases focus <;> decide
  | bar => decide

-- The bar has the last row, and above it are two columns of two panes each.
def area (part : Part) (width height : Nat) : Area :=
  let (panes, last) := (Area.whole width height).lastRow
  let (left, right) := panes.columns 50
  match part with
  | .pane .source => (left.rows 60).1
  | .pane .tokens => (left.rows 60).2
  | .pane .tree => (right.rows 50).1
  | .pane .listing => (right.rows 50).2
  | .bar => last

-- The parts come from four splits, and each of them leaves nothing out.
theorem tiles_area (width height : Nat) :
    (Area.whole width height).Tiles (area · width height) all := by
  let panes := (Area.whole width height).lastRow.1
  have hpart := Area.tiles_singleton (area · width height)
  have hleft := (Area.splits_rows (show 60 ≤ 100 by decide) (panes.columns 50).1).tiles
    (hpart (.pane .source)) (hpart (.pane .tokens))
  have hright := (Area.splits_rows (show 50 ≤ 100 by decide) (panes.columns 50).2).tiles
    (hpart (.pane .tree)) (hpart (.pane .listing))
  have hpanes := (Area.splits_columns (show 50 ≤ 100 by decide) panes).tiles hleft hright
  exact (Area.splits_lastRow _).tiles hpanes (hpart .bar)

-- Odd lengths leave the larger half to the first part.
example : all.map (area · 5 4) =
    [⟨0, 0, 3, 2⟩, ⟨0, 2, 3, 1⟩, ⟨3, 0, 2, 2⟩, ⟨3, 2, 2, 1⟩, ⟨0, 3, 5, 1⟩] := by
  decide

theorem holds_area {width height x y : Nat} {part : Part} (h : (part.area width height).Holds x y) :
    x < width ∧ y < height := by
  obtain ⟨-, hx, -, hy⟩ := (tiles_area width height).holds part.mem_all h
  exact ⟨Nat.zero_add width ▸ hx, Nat.zero_add height ▸ hy⟩

theorem area_le (part : Part) (width height : Nat) :
    (part.area width height).left + (part.area width height).width ≤ width ∧
      (part.area width height).top + (part.area width height).height ≤ height := by
  have hwidth := share_le (show 50 ≤ 100 by decide) width
  have hupper := share_le (show 60 ≤ 100 by decide) (height - min height 1)
  have hhalf := share_le (show 50 ≤ 100 by decide) (height - min height 1)
  cases part with
  | bar =>
    simp only [area, Area.whole, Area.lastRow]
    omega
  | pane pane =>
    cases pane <;> simp only [area, Area.whole, Area.lastRow, Area.columns, Area.rows] <;> omega

end Part

namespace Session

variable {session : Session} {width height : Nat}

-- One part of a session on a screen of its own.
def alone (session : Session) (scrolls : Scrolls) (width height : Nat) : Part → Grid
  | .pane .source => session.sourcePane.draw scrolls.source width height
  | .pane .tokens => session.tokenPane.draw scrolls.tokens width height
  | .pane .tree => session.treePane.draw scrolls.tree width height
  | .pane .listing => session.listingPane.draw scrolls.listing width height
  | .bar => session.statusBar.draw width height

-- What becomes of the offset of a pane there.
def settleAlone (session : Session) (height scroll : Nat) : Focus → Nat
  | .source => session.sourcePane.settle height scroll
  | .tokens => session.tokenPane.settle height scroll
  | .tree => session.treePane.settle height scroll
  | .listing => session.listingPane.settle height scroll

-- Whether a pane is told to be the one with the focus, and its title.
def focused (session : Session) : Focus → Bool
  | .source => session.sourcePane.focused
  | .tokens => session.tokenPane.focused
  | .tree => session.treePane.focused
  | .listing => session.listingPane.focused

def title (session : Session) : Focus → List Char
  | .source => " Source ".toList
  | .tokens => session.tokenPane.title
  | .tree => session.treePane.title
  | .listing => session.listingPane.title

theorem focused_eq (session : Session) (pane : Focus) :
    session.focused pane = decide (session.focus = pane) := by
  cases pane <;> rfl

theorem framed_alone (session : Session) (scrolls : Scrolls) (width height : Nat) (pane : Focus) :
    Framed (session.title pane) (session.focused pane)
      (session.alone scrolls width height (.pane pane)) width height := by
  cases pane with
  | source => exact SourcePane.framed_draw _ _ _ _
  | tokens | tree | listing => exact ListingPane.framed_draw _ _ _ _

theorem sized_alone (session : Session) (scrolls : Scrolls) (width height : Nat) (part : Part) :
    Sized (session.alone scrolls width height part) width height := by
  cases part with
  | pane pane => exact (session.framed_alone scrolls width height pane).sized
  | bar => exact StatusBar.sized_draw _ _ _

theorem settleAlone_settleAlone (session : Session) (height scroll : Nat) (pane : Focus) :
    session.settleAlone height (session.settleAlone height scroll pane) pane =
      session.settleAlone height scroll pane := by
  cases pane with
  | source => exact SourcePane.settle_settle _ _ _
  | tokens | tree | listing => exact ListingPane.settle_settle _ _ _

-- Offsets that come to the same on a screen give the same drawing there.
theorem alone_congr {scrolls others : Scrolls} {part : Part}
    (h : ∀ pane, part = .pane pane → session.settleAlone height (scrolls.get pane) pane =
      session.settleAlone height (others.get pane) pane) :
    session.alone scrolls width height part = session.alone others width height part := by
  cases part with
  | bar => rfl
  | pane pane =>
    have hpane := h pane rfl
    cases pane with
    | source => exact SourcePane.draw_congr hpane width
    | tokens | tree | listing => exact ListingPane.draw_congr hpane width

section columns

variable (session : Session) (width height : Nat)

-- A part of a session on a screen of the size of its area.
def inArea (part : Part) : Grid :=
  session.alone session.scrolls (part.area width height).width (part.area width height).height part

theorem sized_inArea (part : Part) : Sized (session.inArea width height part)
    (part.area width height).width (part.area width height).height :=
  session.sized_alone _ _ _ part

theorem sized_leftColumn : Sized
    (above (session.inArea width height (.pane .source))
      (session.inArea width height (.pane .tokens)))
    (share 50 width) (height - min height 1) :=
  sized_above (share_le (by decide) _) (session.sized_inArea width height (.pane .source))
    (session.sized_inArea width height (.pane .tokens))

theorem sized_rightColumn : Sized
    (above (session.inArea width height (.pane .tree))
      (session.inArea width height (.pane .listing)))
    (width - share 50 width) (height - min height 1) :=
  sized_above (share_le (by decide) _) (session.sized_inArea width height (.pane .tree))
    (session.sized_inArea width height (.pane .listing))

theorem sized_columns : Sized
    (beside
      (above (session.inArea width height (.pane .source))
        (session.inArea width height (.pane .tokens)))
      (above (session.inArea width height (.pane .tree))
        (session.inArea width height (.pane .listing))))
    width (height - min height 1) :=
  sized_beside (share_le (by decide) width) (session.sized_leftColumn width height)
    (session.sized_rightColumn width height)

theorem sized_draw : Sized (session.draw width height) width height := by
  have hbar : height - (height - min height 1) = min height 1 := by omega
  refine sized_above (Nat.sub_le height (min height 1)) (session.sized_columns width height) ?_
  rw [hbar]
  exact session.sized_inArea width height .bar

end columns

-- What a screen shows in each of its parts.
theorem cell?_draw {part : Part} {x y : Nat} (h : (part.area width height).Holds x y) :
    cell? (session.draw width height) x y = cell? (session.inArea width height part)
      (x - (part.area width height).left) (y - (part.area width height).top) := by
  have hdraw := cell?_above (session.sized_columns width height)
    (session.inArea width height .bar) x y
  rw [cell?_beside (session.sized_leftColumn width height) (session.sized_rightColumn width height),
    cell?_above (session.sized_inArea width height (.pane .source)),
    cell?_above (session.sized_inArea width height (.pane .tree))] at hdraw
  refine Eq.trans hdraw ?_
  -- the bounds of the part decide which way each of the splits goes
  cases part with
  | bar =>
    simp only [Part.area, Area.Holds, Area.whole, Area.lastRow, Nat.zero_add, Nat.sub_zero] at h ⊢
    rw [if_neg (by omega)]
  | pane pane =>
    have hupper := share_le (show 60 ≤ 100 by decide) (height - min height 1)
    have hhalf := share_le (show 50 ≤ 100 by decide) (height - min height 1)
    cases pane <;>
      simp only [Part.area, Area.Holds, Area.whole, Area.lastRow, Area.columns, Area.rows,
        Nat.zero_add, Nat.sub_zero] at h ⊢
    case source => rw [if_pos (by omega), if_pos (by omega), if_pos (by omega)]
    case tokens => rw [if_pos (by omega), if_pos (by omega), if_neg (by omega)]
    case tree => rw [if_pos (by omega), if_neg (by omega), if_pos (by omega)]
    case listing => rw [if_pos (by omega), if_neg (by omega), if_neg (by omega)]

-- So a part of the screen is what it is alone.
theorem crop_draw (session : Session) (width height : Nat) (part : Part) :
    (part.area width height).crop (session.draw width height) =
      session.inArea width height part := by
  obtain ⟨hwidth, hheight⟩ := part.area_le width height
  have hcrop := Area.sized_crop (session.sized_draw width height) hwidth hheight
  refine hcrop.ext (session.sized_inArea width height part) fun x y hx hy => ?_
  have hholds : (part.area width height).Holds ((part.area width height).left + x)
      ((part.area width height).top + y) := by
    unfold Area.Holds
    omega
  rw [Area.cell?_crop hx hy, cell?_draw hholds, Nat.add_sub_cancel_left, Nat.add_sub_cancel_left]

-- A screen that is being drawn on, with the offsets that the panes drawn so far have left.
structure Canvas where
  screen : Grid
  scrolls : Scrolls

-- Draws one of the parts, which brings back the offset of its own pane.
def paint (session : Session) (width height : Nat) (canvas : Canvas) (part : Part) : Canvas :=
  let area := part.area width height
  { screen := area.stamp (session.alone canvas.scrolls area.width area.height part) canvas.screen
    scrolls :=
      match part with
      | .pane pane => canvas.scrolls.set pane
          (session.settleAlone area.height (canvas.scrolls.get pane) pane)
      | .bar => canvas.scrolls }

-- What a canvas has come to with some of the parts drawn on it.
structure Painted (session : Session) (width height : Nat) (parts : List Part) (canvas : Canvas) :
    Prop where
  sized : Sized canvas.screen width height
  cells : ∀ part ∈ parts, ∀ x y, (part.area width height).Holds x y →
    cell? canvas.screen x y = cell? (session.draw width height) x y
  offsets : ∀ pane, canvas.scrolls.get pane =
    if .pane pane ∈ parts then (session.settle width height).scrolls.get pane
    else session.scrolls.get pane

theorem get_settle (session : Session) (width height : Nat) (pane : Focus) :
    (session.settle width height).scrolls.get pane = session.settleAlone
      ((Part.pane pane).area width height).height (session.scrolls.get pane) pane := by
  cases pane <;> rfl

-- Wherever an offset has got to meanwhile, it comes to the same in its area.
theorem Painted.settleAlone_eq {parts : List Part} {canvas : Canvas}
    (h : session.Painted width height parts canvas) (pane : Focus) :
    session.settleAlone ((Part.pane pane).area width height).height (canvas.scrolls.get pane) pane =
      (session.settle width height).scrolls.get pane := by
  rw [h.offsets, get_settle]
  split
  · exact settleAlone_settleAlone _ _ _ _
  · rfl

theorem Painted.alone_eq {parts : List Part} {canvas : Canvas}
    (h : session.Painted width height parts canvas) (part : Part) :
    session.alone canvas.scrolls (part.area width height).width (part.area width height).height
      part = session.inArea width height part := by
  refine alone_congr fun pane hp => ?_
  subst hp
  rw [h.settleAlone_eq, get_settle]

theorem painted_nil {screen : Grid} (h : Sized screen width height) :
    session.Painted width height [] ⟨screen, session.scrolls⟩ where
  sized := h
  cells _ hm := absurd hm List.not_mem_nil
  offsets _ := (if_neg List.not_mem_nil).symm

-- One more part, which leaves all others as they are.
theorem Painted.paint {parts : List Part} {canvas : Canvas}
    (h : session.Painted width height parts canvas) (part : Part) :
    session.Painted width height (part :: parts) (session.paint width height canvas part) where
  sized := Area.sized_stamp h.sized _ _
  cells other hm x y hholds := by
    obtain ⟨hx, hy⟩ := Part.holds_area hholds
    simp only [Session.paint, h.alone_eq]
    by_cases hpart : (part.area width height).Holds x y
    · rw [Area.cell?_stamp_of_holds hpart (session.sized_inArea width height part) h.sized hx hy,
        cell?_draw hpart]
    · have hparts : other ∈ parts := by
        obtain rfl | hparts := List.mem_cons.mp hm
        · exact absurd hholds hpart
        · exact hparts
      rw [Area.cell?_stamp_of_not_holds hpart, h.cells other hparts x y hholds]
  offsets pane := by
    have hoffset := h.offsets pane
    cases part with
    | bar => simpa only [Session.paint, List.mem_cons, reduceCtorEq, false_or] using hoffset
    | pane drawn =>
      simp only [Session.paint, Scrolls.get_set, List.mem_cons, Part.pane.injEq]
      by_cases hp : pane = drawn
      · subst hp
        rw [if_pos rfl, if_pos (.inl rfl), h.settleAlone_eq]
      · simpa only [hp, if_false, false_or] using hoffset

theorem Painted.foldl {parts : List Part} {canvas : Canvas}
    (h : session.Painted width height parts canvas) (order : List Part) :
    session.Painted width height (order.reverse ++ parts)
      (order.foldl (session.paint width height) canvas) := by
  induction order generalizing parts canvas with
  | nil => exact h
  | cons part rest ih =>
    rw [List.reverse_cons, List.append_assoc]
    exact ih (h.paint part)

theorem existsUnique_part {x y : Nat} (hx : x < width) (hy : y < height) :
    ∃! part : Part, (part.area width height).Holds x y :=
  (Part.tiles_area width height).existsUnique Part.mem_all
    ⟨Nat.zero_le x, (Nat.zero_add width).symm ▸ hx, Nat.zero_le y, (Nat.zero_add height).symm ▸ hy⟩

-- With all parts drawn there is nothing left of what has been on the screen before.
theorem Painted.eq_of_all {parts : List Part} {canvas : Canvas}
    (h : session.Painted width height parts canvas) (hall : ∀ part, part ∈ parts) :
    canvas = ⟨session.draw width height, (session.settle width height).scrolls⟩ := by
  have hscreen : canvas.screen = session.draw width height := by
    refine h.sized.ext (session.sized_draw width height) fun x y hx hy => ?_
    obtain ⟨part, hpart, -⟩ := existsUnique_part hx hy
    exact h.cells part (hall part) x y hpart
  have hscrolls : canvas.scrolls = (session.settle width height).scrolls :=
    Scrolls.eq_of_get fun pane => (h.offsets pane).trans (if_pos (hall (.pane pane)))
  obtain ⟨screen, scrolls⟩ := canvas
  cases hscreen
  cases hscrolls
  rfl

theorem paint_all {screen : Grid} (h : Sized screen width height) {order : List Part}
    (hall : ∀ part, part ∈ order) :
    order.foldl (session.paint width height) ⟨screen, session.scrolls⟩ =
      ⟨session.draw width height, (session.settle width height).scrolls⟩ := by
  refine ((painted_nil h).foldl order).eq_of_all fun part => ?_
  rw [List.append_nil, List.mem_reverse]
  exact hall part

theorem ascii_digits (number : Nat) : ∀ c ∈ (toString number).toList, c.toNat < 128 := by
  intro c hc
  have hdigit : c.isDigit = true := Nat.isDigit_of_mem_toDigits (by decide) (by decide)
    (Nat.toList_repr ▸ hc)
  have hlast : c.toNat ≤ 57 := by
    simp only [Char.isDigit, Bool.and_eq_true, decide_eq_true_eq] at hdigit
    exact hdigit.2
  omega

theorem ascii_title (session : Session) (pane : Focus) :
    ∀ c ∈ session.title pane, c.toNat < 128 := by
  have hcounted (front back : String) (number : Nat) (hfront : ∀ c ∈ front.toList, c.toNat < 128)
      (hback : ∀ c ∈ back.toList, c.toNat < 128) :
      ∀ c ∈ (front ++ toString number ++ back).toList, c.toNat < 128 := by
    simp only [String.toList_append, List.forall_mem_append]
    exact ⟨⟨hfront, ascii_digits number⟩, hback⟩
  cases pane with
  | source => exact show ∀ c ∈ " Source ".toList, c.toNat < 128 by simp
  | tree => exact show ∀ c ∈ " Syntax Tree ".toList, c.toNat < 128 by simp
  | tokens => exact hcounted " Tokens (" ") " _ (by simp) (by simp)
  | listing => exact hcounted " IR (" " instructions) " _ (by simp) (by simp)

-- No title has a character of two cells.
theorem narrow_title (session : Session) (pane : Focus) :
    ∀ c ∈ session.title pane, Text.isWide c = false := by
  intro c hc
  have hascii := session.ascii_title pane c hc
  exact Text.isWide_of_lt (by omega)

theorem look_edge {pane : Focus} {x y : Nat} {cell : Cell}
    (h : ((Part.pane pane).area width height).Edges x y)
    (hcell : cell? (session.draw width height) x y = some cell) :
    cell.look = borderLook (session.focused pane) := by
  obtain ⟨hholds, hedge⟩ := h
  rw [cell?_draw hholds] at hcell
  refine (session.framed_alone _ _ _ pane).look (session.narrow_title pane) hcell ?_
  unfold Area.Holds at hholds
  omega

theorem borderLook_ne : borderLook true ≠ borderLook false := by
  decide

-- A pane with the border of the one that has the focus, all around.
def StandsOut (session : Session) (width height : Nat) (pane : Focus) : Prop :=
  ∀ x y cell, ((Part.pane pane).area width height).Edges x y →
    cell? (session.draw width height) x y = some cell → cell.look = borderLook true

-- A pane that has any cells has an upper left corner.
theorem standsOut_iff {pane : Focus} (hw : 0 < ((Part.pane pane).area width height).width)
    (hh : 0 < ((Part.pane pane).area width height).height) :
    session.StandsOut width height pane ↔ session.focused pane = true := by
  constructor
  · intro h
    have hcorner : ((Part.pane pane).area width height).Edges
        ((Part.pane pane).area width height).left ((Part.pane pane).area width height).top := by
      refine ⟨?_, .inl rfl⟩
      unfold Area.Holds
      omega
    obtain ⟨hx, hy⟩ := Part.holds_area hcorner.1
    obtain ⟨cell, hcell⟩ := (session.sized_draw width height).exists_cell hx hy
    by_contra hn
    have hlook := look_edge hcorner hcell
    rw [h _ _ cell hcorner hcell, Bool.eq_false_of_not_eq_true hn] at hlook
    exact borderLook_ne hlook
  · intro hf x y cell hedge hcell
    rw [look_edge hedge hcell, hf]

-- A screen that is put together from its parts.
structure Composed (session : Session) (width height : Nat) : Prop where
  -- no two parts are in each other's way, and together they leave nothing out
  parted : ∀ x y, x < width → y < height → ∃! part : Part, (part.area width height).Holds x y
  within : ∀ (part : Part) x y, (part.area width height).Holds x y → x < width ∧ y < height
  sized : Sized (session.draw width height) width height
  shown : ∀ part : Part, (part.area width height).crop (session.draw width height) =
    session.alone session.scrolls (part.area width height).width (part.area width height).height
      part
  -- drawn one after the other onto one screen, in any order
  painted : ∀ (screen : Grid) (order : List Part), Sized screen width height →
    (∀ part, part ∈ order) → order.foldl (session.paint width height) ⟨screen, session.scrolls⟩ =
      ⟨session.draw width height, (session.settle width height).scrolls⟩
  offset : ∀ pane, (session.settle width height).scrolls.get pane = session.settleAlone
    ((Part.pane pane).area width height).height (session.scrolls.get pane) pane
  kept : session.settle width height =
    { session with scrolls := (session.settle width height).scrolls }
  focused : ∃! pane, session.focused pane = true
  border : ∀ pane x y cell, ((Part.pane pane).area width height).Edges x y →
    cell? (session.draw width height) x y = some cell →
      cell.look = borderLook (session.focused pane)
  standsOut : ∀ pane, 0 < ((Part.pane pane).area width height).width →
    0 < ((Part.pane pane).area width height).height →
    (session.StandsOut width height pane ↔ pane = session.focus)

-- On a screen of any size, down to none at all.
theorem draw_composed (session : Session) (width height : Nat) :
    session.Composed width height where
  parted _ _ hx hy := existsUnique_part hx hy
  within _ _ _ h := Part.holds_area h
  sized := session.sized_draw width height
  shown := session.crop_draw width height
  painted _ _ hs hall := paint_all hs hall
  offset := session.get_settle width height
  kept := rfl
  focused := by
    simp only [focused_eq, decide_eq_true_eq]
    exact existsUnique_eq'
  border _ _ _ _ hedge hcell := look_edge hedge hcell
  standsOut pane hw hh := by
    rw [standsOut_iff hw hh, focused_eq, decide_eq_true_eq, eq_comm]

end Session

end ScriptIR.Inspector
