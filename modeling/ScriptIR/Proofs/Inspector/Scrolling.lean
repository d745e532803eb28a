import Mathlib
import ScriptIR.Proofs.Inspector.History
import ScriptIR.Proofs.Inspector.Pane

namespace ScriptIR.Inspector

open Screen

namespace Session

def Layout.height (parts : Layout) : Focus → Nat
  | .source => parts.sourceHeight
  | .tokens => parts.tokenHeight
  | .tree => parts.treeHeight
  | .listing => parts.listingHeight

-- All lines of a pane, and those of them that a pane of some height shows.
def lines (session : Session) : Focus → List Line
  | .source =>
    (session.sourcePane.sourceLines.zipIdx 1).map
      fun (text, number) => session.sourcePane.numbered number text
  | .tokens => session.pages.tokens
  | .tree => session.pages.tree
  | .listing => session.pages.instructions

def window (session : Session) (pane : Focus) (height : Nat) : List Line :=
  match pane with
  | .source => session.sourcePane.shown height session.scrolls.source
  | .tokens => session.tokenPane.shown height session.scrolls.tokens
  | .tree => session.treePane.shown height session.scrolls.tree
  | .listing => session.listingPane.shown height session.scrolls.listing

-- One pane of a session by itself. Only the source goes back to its top without any lines.
def pane (session : Session) (focus : Focus) : Pane :=
  ⟨(session.lines focus).length, focus ≠ .source, session.scrolls.get focus⟩

end Session

open Session

theorem Scrolls.eq_of_get {scrolls others : Scrolls}
    (h : ∀ focus, scrolls.get focus = others.get focus) : scrolls = others := by
  obtain ⟨source, tokens, tree, listing⟩ := scrolls
  obtain rfl : source = others.source := h .source
  obtain rfl : tokens = others.tokens := h .tokens
  obtain rfl : tree = others.tree := h .tree
  obtain rfl : listing = others.listing := h .listing
  rfl

namespace Event

-- What an event is to one of the panes. A key that scrolls is meant for the pane that has the
-- focus, and the listing is relisted by each toggle.
def inputs (event : Event) (pane focus : Focus) (relisted : Nat) : List Pane.Input :=
  match event with
  | .draw width height => [.draw (visibleLines ((layout width height).height pane))]
  | .ignored => []
  | .press key =>
    match key.move? with
    | some move => if pane = focus then [.move move] else []
    | none => if (Event.press key).toggles ∧ pane = .listing then [.relist relisted] else []

def refocus (focus : Focus) : Event → Focus
  | .press .tab => focus.next
  | .press .backTab => focus.previous
  | _ => focus

def remode (mode : Mode) (event : Event) : Mode := if event.toggles then mode.other else mode

end Event

-- What a whole history is to one of the panes, with the focus and the mode that it begins with.
-- In either mode the listing has some number of lines.
def inputs (pane : Focus) (totals : Mode → Nat) : Focus → Mode → List Event → List Pane.Input
  | _, _, [] => []
  | focus, mode, event :: rest =>
    event.inputs pane focus (totals mode.other) ++
      inputs pane totals (event.refocus focus) (event.remode mode) rest

namespace Session

variable {session : Session} {instructions : List Instruction}

theorem pane_scroll (session : Session) (move : Move) (pane : Focus) :
    (session.scroll move.apply).pane pane =
      (session.pane pane).run (if pane = session.focus then [.move move] else []) := by
  have hlines : (session.scroll move.apply).lines pane = session.lines pane := by
    cases pane <;> rfl
  have hoffset : (session.scroll move.apply).scrolls.get pane =
      if pane = session.focus then move.apply (session.scrolls.get session.focus)
      else session.scrolls.get pane := Scrolls.get_set _ _ _ _
  unfold Session.pane
  rw [hlines, hoffset]
  by_cases hp : pane = session.focus
  · rw [if_pos hp, if_pos hp, hp]
    rfl
  · rw [if_neg hp, if_neg hp]
    rfl

theorem press_of_move {key : Key} {move : Move} (h : key.move? = some move) :
    session.press key = session.scroll move.apply := by
  cases key <;> cases h <;> rfl

-- All that an event can make of a session.
inductive Becomes (session : Session) : Event → Session → Prop
  | ignored : Becomes session .ignored session
  | draw (width height : Nat) : Becomes session (.draw width height) (session.settle width height)
  | scroll {key : Key} {move : Move} : key.move? = some move →
      Becomes session (.press key) (session.scroll move.apply)
  | next : Becomes session (.press .tab) { session with focus := session.focus.next }
  | previous : Becomes session (.press .backTab) { session with focus := session.focus.previous }
  | toggle {c : Char} : (Event.press (.char c)).toggles = true →
      Becomes session (.press (.char c)) session.toggle
  | letter {c : Char} (leaving : Bool) : (Event.press (.char c)).toggles = false →
      Becomes session (.press (.char c)) { session with leaving }

theorem becomes_step (session : Session) (event : Event) :
    session.Becomes event (session.step event) := by
  cases event with
  | ignored => exact .ignored
  | draw width height => exact .draw width height
  | press key =>
    rw [Session.step]
    cases key with
    | tab => exact .next
    | backTab => exact .previous
    | char c =>
      obtain ⟨hp, ht⟩ | ⟨hp, ht⟩ | ⟨hp, ht⟩ := Follows.press_char session c
      · exact hp ▸ .letter true ht
      · exact hp ▸ .toggle ht
      · rw [hp]
        exact .letter session.leaving ht
    | _ =>
      rw [press_of_move rfl]
      exact .scroll rfl

theorem length_source_lines (session : Session) :
    (session.lines .source).length = session.sourcePane.sourceLines.length := by
  rw [lines, List.length_map, List.length_zipIdx]

theorem settle_eq_settled (pane : ListingPane) (height scroll : Nat) :
    pane.settle height scroll =
      Pane.settled ⟨pane.lines.length, true, scroll⟩ (visibleLines height) := by
  unfold ListingPane.settle Pane.settled
  cases pane.lines with
  | nil => rfl
  | cons line rest => rfl

theorem pane_settle (session : Session) (width height : Nat) (pane : Focus) :
    (session.settle width height).pane pane =
      (session.pane pane).step (.draw (visibleLines ((layout width height).height pane))) := by
  have hlines : (session.settle width height).lines pane = session.lines pane := by
    cases pane <;> rfl
  have hoffset : (session.settle width height).scrolls.get pane =
      (session.pane pane).settled (visibleLines ((layout width height).height pane)) := by
    cases pane with
    | source =>
      simp only [Session.pane, Pane.settled, length_source_lines]
      rfl
    | tokens | tree | listing => exact settle_eq_settled _ _ _
  unfold Session.pane at hoffset ⊢
  rw [hlines, hoffset]
  rfl

theorem pane_toggle (h : session.compiled.tree.lower session.mode.other = .ok instructions)
    (pane : Focus) : session.toggle.pane pane = (session.pane pane).run
      (if pane = .listing then [.relist (instructionLines instructions).length] else []) := by
  simp only [toggle, h]
  cases pane <;> rfl

-- One event, as each pane sees it.
theorem pane_step (h : session.compiled.tree.lower session.mode.other = .ok instructions)
    (event : Event) (pane : Focus) :
    (session.step event).pane pane = (session.pane pane).run
      (event.inputs pane session.focus (instructionLines instructions).length) := by
  have hb := session.becomes_step event
  generalize session.step event = next at hb ⊢
  cases hb with
  | ignored | next | previous => rfl
  | draw width height => exact session.pane_settle width height pane
  | scroll hm =>
    rw [Event.inputs, hm]
    exact session.pane_scroll _ pane
  | toggle ht =>
    simp only [Event.inputs, Key.move?, ht, true_and]
    exact pane_toggle h pane
  | letter leaving ht =>
    simp only [Event.inputs, Key.move?, ht]
    rfl

theorem focus_step (session : Session) (event : Event) :
    (session.step event).focus = event.refocus session.focus := by
  have hb := session.becomes_step event
  generalize session.step event = next at hb ⊢
  cases hb with
  | @scroll key _ hm => cases key <;> cases hm <;> rfl
  | toggle =>
    rw [toggle]
    split <;> rfl
  | _ => rfl

theorem mode_step (h : session.compiled.tree.lower session.mode.other = .ok instructions)
    (event : Event) : (session.step event).mode = event.remode session.mode := by
  have hb := session.becomes_step event
  generalize session.step event = next at hb ⊢
  cases hb with
  | @scroll key _ hm => cases key <;> cases hm <;> rfl
  | toggle ht => simp only [Event.remode, ht, toggle, h, if_true]
  | letter leaving ht => simp only [Event.remode, ht, Bool.false_eq_true, if_false]
  | _ => rfl

theorem tree_step (session : Session) (event : Event) :
    (session.step event).compiled.tree = session.compiled.tree := by
  have hb := session.becomes_step event
  generalize session.step event = next at hb ⊢
  cases hb with
  | toggle =>
    rw [toggle]
    split <;> rfl
  | _ => rfl

-- A whole history, as each pane sees it.
theorem pane_run {codes : Mode → List Instruction}
    (h : ∀ mode, session.compiled.tree.lower mode = .ok (codes mode)) (history : List Event)
    (pane : Focus) :
    (session.run history).pane pane = (session.pane pane).run
      (inputs pane (fun mode => (instructionLines (codes mode)).length) session.focus session.mode
        history) := by
  induction history generalizing session with
  | nil => rfl
  | cons event rest ih =>
    have hnext : ∀ mode, (session.step event).compiled.tree.lower mode = .ok (codes mode) := by
      intro mode
      rw [tree_step]
      exact h mode
    have hrest := ih hnext
    rw [focus_step, mode_step (h _), pane_step (h _)] at hrest
    rw [inputs, Pane.run_append]
    exact hrest

-- A pane with a full page in it, or with all lines that there are.
structure FullPage (session : Session) (pane : Focus) (height : Nat) : Prop where
  long : visibleLines height < (session.lines pane).length →
    session.scrolls.get pane ≤ (session.lines pane).length - visibleLines height
  short : (session.lines pane).length ≤ visibleLines height → session.scrolls.get pane = 0
  window : session.window pane height =
    ((session.lines pane).drop (session.scrolls.get pane)).take (visibleLines height)
  length : (session.window pane height).length =
    min (session.lines pane).length (visibleLines height)

theorem window_eq (session : Session) (pane : Focus) (height : Nat) :
    session.window pane height = ((session.lines pane).drop
      ((session.pane pane).settled (visibleLines height))).take (visibleLines height) := by
  cases pane with
  | source =>
    simp only [window, SourcePane.shown, lines, Session.pane, Pane.settled, List.map_take,
      List.map_drop, List.length_map, List.length_zipIdx]
    rfl
  | tokens | tree | listing =>
    simp only [window, ListingPane.shown, settle_eq_settled]
    rfl

theorem lines_settle (session : Session) (width height : Nat) (pane : Focus) :
    (session.settle width height).lines pane = session.lines pane := by
  cases pane <;> rfl

theorem offset_settle (session : Session) (width height : Nat) (pane : Focus) :
    (session.settle width height).scrolls.get pane =
      (session.pane pane).settled (visibleLines ((layout width height).height pane)) :=
  congrArg Pane.offset (session.pane_settle width height pane)

-- Drawing twice is drawing once.
theorem settle_settle (session : Session) (width height : Nat) :
    (session.settle width height).settle width height = session.settle width height := by
  have hscrolls : ((session.settle width height).settle width height).scrolls =
      (session.settle width height).scrolls := by
    refine Scrolls.eq_of_get fun pane => ?_
    have htwice : ((session.settle width height).settle width height).pane pane =
        (session.settle width height).pane pane := by
      rw [pane_settle, pane_settle, Pane.step_draw_draw]
    exact congrArg Pane.offset htwice
  exact congrArg (fun scrolls => { session.settle width height with scrolls }) hscrolls

theorem fullPage_settle (session : Session) (width height : Nat) {pane : Focus}
    (h : session.lines pane ≠ []) :
    (session.settle width height).FullPage pane ((layout width height).height pane) := by
  have hoffset : (session.settle width height).scrolls.get pane =
      clamp (session.scrolls.get pane) (session.lines pane).length
        (visibleLines ((layout width height).height pane)) := by
    rw [offset_settle, Pane.settled_of_pos (List.length_pos_iff.mpr h)]
    rfl
  have hwindow := (session.settle width height).window_eq pane ((layout width height).height pane)
  rw [← offset_settle, settle_settle] at hwindow
  have hlast : (session.settle width height).scrolls.get pane ≤
      (session.lines pane).length - visibleLines ((layout width height).height pane) := by
    rw [hoffset]
    exact clamp_le_last _ _ _
  constructor
  case window => exact hwindow
  case long => exact fun _ => lines_settle session width height pane ▸ hlast
  case short =>
    rw [lines_settle]
    omega
  case length =>
    rw [hwindow, lines_settle, List.length_take, List.length_drop]
    omega

-- From the end one comes to the last page, and from the top to the first.
theorem offset_toEnd (session : Session) (width height : Nat)
    (hl : session.lines session.focus ≠ []) :
    ((session.press .toEnd).settle width height).scrolls.get session.focus =
      min farthest ((session.lines session.focus).length -
        visibleLines ((layout width height).height session.focus)) := by
  have hpane : (session.press .toEnd).pane session.focus =
      ⟨(session.lines session.focus).length, session.focus ≠ .source, farthest⟩ := by
    rw [press_of_move (show Key.toEnd.move? = some .bottom from rfl), pane_scroll, if_pos rfl]
    rfl
  rw [offset_settle, hpane, Pane.settled_of_pos (List.length_pos_iff.mpr hl)]
  exact clamp_farthest _ _

theorem offset_home (session : Session) (width height : Nat) :
    ((session.press .home).settle width height).scrolls.get session.focus = 0 := by
  have hpane : (session.press .home).pane session.focus =
      ⟨(session.lines session.focus).length, session.focus ≠ .source, 0⟩ := by
    rw [press_of_move (show Key.home.move? = some .top from rfl), pane_scroll, if_pos rfl]
    rfl
  rw [offset_settle, hpane]
  exact Nat.le_zero.mp (Pane.settled_le _ _)

-- What drawing makes of a session, on a screen of some size, and what it would have made of it
-- behind a key that leads to the end or to the top.
structure DrawsWell (session : Session) (width height : Nat) : Prop where
  full : ∀ pane, session.lines pane ≠ [] →
    (session.step (.draw width height)).FullPage pane ((layout width height).height pane)
  again : (session.step (.draw width height)).step (.draw width height) =
    session.step (.draw width height)
  -- the last page, as no pane has more lines than can be counted
  toEnd : session.lines session.focus ≠ [] →
    ((session.press .toEnd).step (.draw width height)).scrolls.get session.focus =
      min farthest ((session.lines session.focus).length -
        visibleLines ((layout width height).height session.focus))
  home : ((session.press .home).step (.draw width height)).scrolls.get session.focus = 0

theorem drawsWell (session : Session) (width height : Nat) : session.DrawsWell width height where
  full _ h := session.fullPage_settle width height h
  again := session.settle_settle width height
  toEnd h := session.offset_toEnd width height h
  home := session.offset_home width height

-- A session on a source that is accepted.
theorem exists_start (mode : Mode) {source : String} {tree : Tree}
    (h : parse (Lexed.ofSource source).tokens = .ok tree) :
    ∃ first instructions, (start mode source).result = .ok first ∧
      compile mode source = .ok instructions ∧ first.source = source ∧
      first.compiled = ⟨Lexed.ofSource source, tree, instructions⟩ ∧
      first.pages = .ofCompiled first.compiled ∧ first.mode = mode ∧ first.focus = .source ∧
      first.scrolls = .top := by
  obtain ⟨found, instructions, hp, hc⟩ | ⟨error, hp, -⟩ := compileTold_cases mode source
  · cases h.symm.trans hp
    rw [start, compile, hc]
    exact ⟨_, _, rfl, rfl, rfl, rfl, rfl, rfl, rfl, rfl⟩
  · cases h.symm.trans hp

-- Moving up or down never ends on the other side, whatever the offset.
structure NeverWraps (session : Session) : Prop where
  bounded : ∀ pane, session.scrolls.get pane ≤ farthest
  up : ∀ key, key = .up ∨ key = .pageUp →
    (session.press key).scrolls.get session.focus ≤ session.scrolls.get session.focus
  down : ∀ key, key = .down ∨ key = .pageDown →
    session.scrolls.get session.focus ≤ (session.press key).scrolls.get session.focus ∧
      (session.press key).scrolls.get session.focus ≤ farthest

theorem offset_press_move {key : Key} {move : Move} (h : key.move? = some move) :
    (session.press key).scrolls.get session.focus =
      move.apply (session.scrolls.get session.focus) := by
  rw [press_of_move h]
  exact (Scrolls.get_set _ _ _ _).trans (if_pos rfl)

theorem bounded_run {codes : Mode → List Instruction}
    (h : ∀ mode, session.compiled.tree.lower mode = .ok (codes mode))
    (hb : ∀ pane, session.scrolls.get pane ≤ farthest) (history : List Event) (pane : Focus) :
    (session.run history).scrolls.get pane ≤ farthest := by
  have hle : ((session.run history).pane pane).offset ≤ farthest := by
    rw [pane_run h]
    exact Pane.run_le_farthest (hb pane) _
  exact hle

theorem neverWraps_of_bounded (h : ∀ pane, session.scrolls.get pane ≤ farthest) :
    session.NeverWraps := by
  refine ⟨h, fun key hk => ?_, fun key hk => ?_⟩
  · obtain ⟨count, hm⟩ : ∃ count, key.move? = some (.back count) := by
      rcases hk with rfl | rfl <;> exact ⟨_, rfl⟩
    rw [offset_press_move hm]
    exact Nat.sub_le _ _
  · obtain ⟨count, hm⟩ : ∃ count, key.move? = some (.forth count) := by
      rcases hk with rfl | rfl <;> exact ⟨_, rfl⟩
    rw [offset_press_move hm]
    exact ⟨Nat.le_min.mpr ⟨Nat.le_add_right _ _, h session.focus⟩, Nat.min_le_right _ _⟩

-- A key does not move any pane but the one that has the focus, and a toggle none but the listing.
theorem offset_press {pane : Focus} (hf : pane ≠ session.focus) {key : Key}
    (ht : (Event.press key).toggles = true → pane ≠ .listing) :
    (session.press key).scrolls.get pane = session.scrolls.get pane := by
  have hb : session.Becomes (.press key) (session.press key) := session.becomes_step (.press key)
  generalize session.press key = next at hb ⊢
  cases hb with
  | scroll hm => exact (Scrolls.get_set _ _ _ _).trans (if_neg hf)
  | next | previous | letter => rfl
  | toggle htoggles =>
    rw [toggle]
    split
    · exact (Scrolls.get_set _ _ _ _).trans (if_neg (ht htoggles))
    · rfl

-- Scrolling is the same as with four panes that know nothing of each other, but for the keys
-- that are meant for them. Whatever has been pressed, a drawing leaves a full page, and a
-- second one changes nothing.
theorem start_run_scrolls (mode : Mode) {source : String} {tree : Tree}
    (h : parse (Lexed.ofSource source).tokens = .ok tree) :
    ∃ (first : Session) (codes : Mode → List Instruction),
      (start mode source).result = .ok first ∧ (∀ mode, compile mode source = .ok (codes mode)) ∧
      first.source = source ∧
      first.pages = .ofCompiled ⟨Lexed.ofSource source, tree, codes mode⟩ ∧
      (∀ pane, (first.pane pane).offset = 0) ∧
      ∀ history,
        (∀ pane, (first.run history).pane pane = (first.pane pane).run
          (inputs pane (fun mode => (instructionLines (codes mode)).length) .source mode history)) ∧
        (∀ key pane, pane ≠ (first.run history).focus →
          ((Event.press key).toggles = true → pane ≠ .listing) →
          ((first.run history).press key).scrolls.get pane =
            (first.run history).scrolls.get pane) ∧
        (first.run history).NeverWraps ∧
        ∀ width height, (first.run history).DrawsWell width height := by
  obtain ⟨first, instructions, hstart, hi, hsource, hcompiled, hpages, hmode, hfocus, hscrolls⟩ :=
    exists_start mode h
  have hlowers : ∀ mode, ∃ instructions, tree.lower mode = .ok instructions :=
    (isProgram_of_parse h).lowers
  choose codes hcodes using hlowers
  have hcompile (mode : Mode) : compile mode source = .ok (codes mode) := by
    rw [compile_of_parse h, hcodes]
    rfl
  obtain rfl : codes mode = instructions := Except.ok.inj ((hcompile mode).symm.trans hi)
  have htop (pane : Focus) : (first.pane pane).offset = 0 := by
    rw [Session.pane, hscrolls]
    cases pane <;> rfl
  refine ⟨first, codes, hstart, hcompile, hsource, hcompiled ▸ hpages, htop, fun history => ?_⟩
  have hlower (mode : Mode) : first.compiled.tree.lower mode = .ok (codes mode) := by
    rw [hcompiled]
    exact hcodes mode
  have hpanes (pane : Focus) : (first.run history).pane pane = (first.pane pane).run
      (inputs pane (fun mode => (instructionLines (codes mode)).length) .source mode history) := by
    rw [← hfocus, ← hmode]
    exact pane_run hlower history pane
  have hbounded (pane : Focus) : (first.run history).scrolls.get pane ≤ farthest :=
    bounded_run hlower (fun pane => (htop pane).trans_le (Nat.zero_le _)) history pane
  exact ⟨hpanes, fun key pane hf ht => offset_press hf ht, neverWraps_of_bounded hbounded,
    drawsWell _⟩

-- The listing is scrolled while it has the focus, is put back to its top once on the way, and
-- stays where it is while the source is scrolled.
theorem start_run_scrolls_listing :
    ∃ first, (start .single "a = 1;").result = .ok first ∧
      let session := first.run [.press .backTab, .press .toEnd, .press (.char 'R'),
        .press .pageDown, .press .down, .press .tab, .press .toEnd, .press .up]
      session.scrolls.get .listing = 11 ∧ session.scrolls.get .source = farthest - 1 ∧
        session.NeverWraps := by
  have hp : parse (Lexed.ofSource "a = 1;").tokens = .ok (.node .program
      [.node (.varDecl "a") [.node (.literal "1") [] ⟨1, 5⟩] ⟨1, 1⟩] .start) := by
    cbv
  obtain ⟨first, codes, hstart, -, -, -, htop, hrun⟩ := start_run_scrolls .single hp
  obtain ⟨hpanes, -, hwraps, -⟩ := hrun [.press .backTab, .press .toEnd, .press (.char 'R'),
    .press .pageDown, .press .down, .press .tab, .press .toEnd, .press .up]
  refine ⟨first, hstart, ?_, ?_, hwraps⟩
  · exact congrArg Pane.offset (hpanes .listing)
  · exact congrArg Pane.offset (hpanes .source)

end Session

end ScriptIR.Inspector
