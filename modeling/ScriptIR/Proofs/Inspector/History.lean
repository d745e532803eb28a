import Mathlib
import ScriptIR.Inspector.View
import ScriptIR.Proofs.Compile.Joined

namespace ScriptIR.Inspector

-- What can happen to an inspector.
inductive Event where
  | press (key : Key)
  -- a key without a meaning, or one that is let go
  | ignored
  | draw (width height : Nat)
deriving DecidableEq

def Event.toggles : Event → Bool
  | .press (.char c) => c = 'r' || c = 'R'
  | _ => false

def Event.focusMove : Event → Int
  | .press .tab => 1
  | .press .backTab => -1
  | _ => 0

-- How often a history lowers the program again, and how far it moves the focus. The
-- focus goes around, so only the difference of the two directions matters.
def toggleCount (history : List Event) : Nat := history.countP Event.toggles

def focusMoves (history : List Event) : Int :=
  (history.count (.press .tab) : Int) - history.count (.press .backTab)

theorem toggleCount_concat (history : List Event) (event : Event) :
    toggleCount (history ++ [event]) = toggleCount history + event.toggles.toNat := by
  cases h : event.toggles <;> simp [toggleCount, h]

theorem focusMoves_concat (history : List Event) (event : Event) :
    focusMoves (history ++ [event]) = focusMoves history + event.focusMove := by
  unfold focusMoves Event.focusMove
  split
  · simp
    omega
  · simp
    omega
  · rename_i htab hback
    have h1 : [event].count (.press .tab) = 0 :=
      List.count_eq_zero.2 fun hm => htab (List.mem_singleton.1 hm).symm
    have h2 : [event].count (.press .backTab) = 0 :=
      List.count_eq_zero.2 fun hm => hback (List.mem_singleton.1 hm).symm
    simp [h1, h2]

-- The number of a pane in the order of the focus.
def Focus.position : Focus → Int
  | .source => 0
  | .tokens => 1
  | .tree => 2
  | .listing => 3

theorem Focus.position_next (focus : Focus) : focus.next.position = (focus.position + 1) % 4 := by
  cases focus <;> rfl

theorem Focus.position_previous (focus : Focus) :
    focus.previous.position = (focus.position - 1) % 4 := by
  cases focus <;> rfl

namespace Session

def step (session : Session) : Event → Session
  | .press key => session.press key
  | .ignored => session
  | .draw width height => session.settle width height

def run (session : Session) (history : List Event) : Session := history.foldl step session

theorem run_concat (session : Session) (history : List Event) (event : Event) :
    session.run (history ++ [event]) = (session.run history).step event := by
  rw [run, run, List.foldl_append]
  rfl

-- What a session has come to behind a history that began with another one. The offsets
-- of the panes and the wish to leave are left open.
structure Follows (first : Session) (history : List Event) (session : Session) : Prop where
  source : session.source = first.source
  lexed : session.compiled.lexed = first.compiled.lexed
  tree : session.compiled.tree = first.compiled.tree
  tokenLines : session.pages.tokens = first.pages.tokens
  treeLines : session.pages.tree = first.pages.tree
  mode : session.mode = Mode.other^[toggleCount history] first.mode
  lowered : session.compiled.tree.lower session.mode = .ok session.compiled.instructions
  listing : session.pages.instructions = instructionLines session.compiled.instructions
  focus : session.focus.position = (first.focus.position + focusMoves history) % 4
  status : session.status =
    if toggleCount history = 0 then first.status else loweredAgain session.mode

namespace Follows

variable {first session : Session} {history : List Event}

-- Most events move offsets only, or ask to leave.
theorem unmoved (h : first.Follows history session) (event : Event) (ht : event.toggles = false)
    (hm : event.focusMove = 0) (scrolls : Scrolls) (leaving : Bool) :
    first.Follows (history ++ [event]) { session with scrolls, leaving } := by
  have hcount : toggleCount (history ++ [event]) = toggleCount history := by
    simp [toggleCount_concat, ht]
  have hmoves : focusMoves (history ++ [event]) = focusMoves history := by
    rw [focusMoves_concat, hm, add_zero]
  constructor
  case mode => rw [hcount]; exact h.mode
  case focus => rw [hmoves]; exact h.focus
  case status => rw [hcount]; exact h.status
  all_goals cases h; assumption

-- The two keys that move the focus do nothing else.
theorem refocused (h : first.Follows history session) (event : Event) (ht : event.toggles = false)
    {focus : Focus} (hf : focus.position = (session.focus.position + event.focusMove) % 4) :
    first.Follows (history ++ [event]) { session with focus } := by
  have hcount : toggleCount (history ++ [event]) = toggleCount history := by
    simp [toggleCount_concat, ht]
  have hposition : focus.position =
      (first.focus.position + focusMoves (history ++ [event])) % 4 := by
    have hold := h.focus
    rw [focusMoves_concat]
    omega
  constructor
  case mode => rw [hcount]; exact h.mode
  case focus => exact hposition
  case status => rw [hcount]; exact h.status
  all_goals cases h; assumption

-- The mode, the instructions, their lines and the message move together.
theorem toggled (h : first.Follows history session) (event : Event) (ht : event.toggles = true)
    (hm : event.focusMove = 0)
    (hl : (session.compiled.tree.lower session.mode.other).Succeeds) :
    first.Follows (history ++ [event]) session.toggle := by
  obtain ⟨instructions, hl⟩ := hl
  have hcount : toggleCount (history ++ [event]) = toggleCount history + 1 := by
    simp [toggleCount_concat, ht]
  have hmoves : focusMoves (history ++ [event]) = focusMoves history := by
    rw [focusMoves_concat, hm, add_zero]
  unfold toggle
  simp only [hl]
  constructor
  case mode => rw [hcount, Function.iterate_succ_apply', ← h.mode]
  case lowered => exact hl
  case listing => rfl
  case focus => rw [hmoves]; exact h.focus
  case status => rw [hcount, if_neg (by omega)]
  all_goals cases h; assumption

-- A letter is one of two that mean something, in either case, or it does nothing.
theorem press_char (session : Session) (c : Char) :
    (session.press (.char c) = { session with leaving := true } ∧
      (Event.press (.char c)).toggles = false) ∨
    (session.press (.char c) = session.toggle ∧ (Event.press (.char c)).toggles = true) ∨
    (session.press (.char c) = session ∧ (Event.press (.char c)).toggles = false) := by
  by_cases hq : c = 'q' ∨ c = 'Q'
  · have ht : (Event.press (.char c)).toggles = false := by
      rcases hq with rfl | rfl <;> rfl
    exact .inl ⟨by simp [press, hq], ht⟩
  · by_cases hr : c = 'r' ∨ c = 'R'
    · exact .inr (.inl ⟨by simp [press, hq, hr], by simpa [Event.toggles] using hr⟩)
    · exact .inr (.inr ⟨by simp [press, hq, hr], by simpa [Event.toggles] using hr⟩)

-- What one event leaves to the next.
theorem step (h : first.Follows history session)
    (hl : ∀ mode, (first.compiled.tree.lower mode).Succeeds) (event : Event) :
    first.Follows (history ++ [event]) (session.step event) := by
  cases event with
  | ignored => exact h.unmoved .ignored rfl rfl session.scrolls session.leaving
  | draw width height => exact h.unmoved (.draw width height) rfl rfl _ session.leaving
  | press key =>
    cases key with
    | tab => exact h.refocused (.press .tab) rfl (Focus.position_next session.focus)
    | backTab => exact h.refocused (.press .backTab) rfl (Focus.position_previous session.focus)
    | char c =>
      rw [Session.step]
      obtain ⟨hp, ht⟩ | ⟨hp, ht⟩ | ⟨hp, ht⟩ := press_char session c
      · rw [hp]
        exact h.unmoved _ ht rfl session.scrolls true
      · rw [hp]
        apply h.toggled _ ht rfl
        rw [h.tree]
        exact hl session.mode.other
      · rw [hp]
        exact h.unmoved _ ht rfl session.scrolls session.leaving
    | up => exact h.unmoved (.press .up) rfl rfl _ session.leaving
    | down => exact h.unmoved (.press .down) rfl rfl _ session.leaving
    | pageUp => exact h.unmoved (.press .pageUp) rfl rfl _ session.leaving
    | pageDown => exact h.unmoved (.press .pageDown) rfl rfl _ session.leaving
    | home => exact h.unmoved (.press .home) rfl rfl _ session.leaving
    | toEnd => exact h.unmoved (.press .toEnd) rfl rfl _ session.leaving

end Follows

theorem follows_run {first : Session} (h : first.Follows [] first)
    (hl : ∀ mode, (first.compiled.tree.lower mode).Succeeds) (history : List Event) :
    first.Follows history (first.run history) := by
  induction history using List.reverseRecOn with
  | nil => exact h
  | append_singleton history event ih =>
    rw [run_concat]
    exact ih.step hl event

theorem follows_start {mode : Mode} {source : String} {compiled : Compiled}
    (hc : (compileTold mode source).result = .ok compiled)
    (hl : compiled.tree.lower mode = .ok compiled.instructions) :
    ∃ first, (start mode source).result = .ok first ∧ first.source = source ∧
      first.compiled = compiled ∧ first.pages = .ofCompiled compiled ∧ first.mode = mode ∧
      first.focus = .source ∧ first.status = "Ready!" ∧ first.Follows [] first := by
  let first : Session :=
    ⟨source, compiled, mode, .source, .top, "Ready!", false, .ofCompiled compiled⟩
  refine ⟨first, ?_, rfl, rfl, rfl, rfl, rfl, rfl, ?_⟩
  · rw [start, hc]
    rfl
  · constructor
    case lowered => exact hl
    all_goals rfl

end Session

end ScriptIR.Inspector
