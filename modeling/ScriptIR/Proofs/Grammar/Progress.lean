import Mathlib
import ScriptIR.Proofs.Grammar.Ending

namespace ScriptIR.Grammar

namespace Descent

-- The order of the tasks. In front of its first token a task may only enter a lower one.
def Task.rank : Task → Nat
  | .rule .items => 5
  | .rule .arguments | .rule .block | .loop .items | .loop .pairs => 4
  | .rule .item | .rule .pair | .rule .branch | .loop .arguments | .loop .statements => 3
  | .rule .expression | .rule .statement | .loop .declarations => 2
  | .rule .operand | .rule .assignmentOrCall | .rule .declaration | .rule .parameterList
  | .loop .operations => 1
  | _ => 0

-- Whether a task that succeeds has taken some token. The others may be there for nothing.
def Task.strict : Task → Bool
  | .rule .parameterList | .rule .block
  | .loop .declarations | .loop .statements | .loop .operations => false
  | _ => true

-- Whether an act keeps to the order, as it is read off the code alone, for all tokens: what is
-- known is whether the saved place and the cursor are behind the start of the turn.
def Act.orderly (task : Task) (saved moved : Bool) : Act → Bool
  | .leave => moved || !task.strict
  | .refuse _ => true
  | .again => moved
  | .take _ taken left => taken.orderly task saved true && left.orderly task saved moved
  | .look _ _ found other => found.orderly task saved moved && other.orderly task saved moved
  | .enter callee behind =>
    (moved || callee.rank < task.rank) && behind.orderly task saved (moved || callee.strict)
  | .save behind => behind.orderly task moved moved
  | .restore behind => behind.orderly task saved saved

theorem Act.orderly_mono {task : Task} {act : Act} {saved moved saved' moved' : Bool}
    (hs : saved → saved') (hm : moved → moved') (h : act.orderly task saved moved) :
    act.orderly task saved' moved' := by
  induction act generalizing saved moved saved' moved' with
  | leave =>
    simp only [orderly, Bool.or_eq_true] at h ⊢
    exact h.imp_left hm
  | refuse refusal => rfl
  | again => exact hm h
  | take fits taken left iht ihl =>
    simp only [orderly, Bool.and_eq_true] at h ⊢
    exact ⟨iht hs id h.1, ihl hs hm h.2⟩
  | look ahead fits found other ihf iho =>
    simp only [orderly, Bool.and_eq_true] at h ⊢
    exact ⟨ihf hs hm h.1, iho hs hm h.2⟩
  | enter callee behind ih =>
    simp only [orderly, Bool.and_eq_true, Bool.or_eq_true] at h ⊢
    exact ⟨h.1.imp_left hm, ih hs (by simpa only [Bool.or_eq_true] using Or.imp_left hm) h.2⟩
  | save behind ih => exact ih hm hm h
  | restore behind ih => exact ih hs hs h

-- The whole code keeps to the order.
theorem Task.orderly_code (task : Task) : task.code.orderly task false false := by
  cases task with
  | rule rule => cases rule <;> rfl
  | loop loop => cases loop <;> rfl

-- A frame that has come as far as the cursor, or that waits for what it entered there.
structure Frame.Kept (tokens : List Token) (cursor : Nat) (moved : Bool) (frame : Frame) :
    Prop where
  turns_le : frame.entry + frame.turns ≤ frame.start
  start_le : frame.start ≤ cursor
  start_le_saved : frame.start ≤ frame.saved
  saved_le : frame.saved ≤ tokens.length
  orderly : frame.code.orderly frame.task (frame.start < frame.saved) moved

-- The frames behind one that does a task from some place on. The outermost task is not waited for.
inductive Stacked (tokens : List Token) (outer : Task) (entry : Nat) :
    Task → Nat → List Frame → Prop where
  | outermost : Stacked tokens outer entry outer entry []
  | waiting {callee : Task} {origin : Nat} {frame : Frame} {frames : List Frame}
      (kept : frame.Kept tokens origin (frame.start < origin || callee.strict))
      (lower : frame.start < origin ∨ callee.rank < frame.task.rank)
      (stacked : Stacked tokens outer entry frame.task frame.entry frames) :
      Stacked tokens outer entry callee origin (frame :: frames)

namespace State

-- What holds from the start of a task to its end.
inductive Kept (tokens : List Token) (outer : Task) (entry : Nat) : State → Prop where
  | working {cursor : Nat} {frame : Frame} {frames : List Frame} (le : cursor ≤ tokens.length)
      (kept : frame.Kept tokens cursor (frame.start < cursor))
      (stacked : Stacked tokens outer entry frame.task frame.entry frames) :
      Kept tokens outer entry ⟨cursor, frame :: frames, none⟩
  | done {cursor : Nat} (le : cursor ≤ tokens.length) (entry_le : entry ≤ cursor)
      (entry_lt : outer.strict → entry < cursor) : Kept tokens outer entry ⟨cursor, [], none⟩
  | failed {cursor origin : Nat} {callee : Task} {frames : List Frame} {refusal : Refusal}
      (le : cursor ≤ tokens.length) (origin_le : origin ≤ cursor)
      (stacked : Stacked tokens outer entry callee origin frames) :
      Kept tokens outer entry ⟨cursor, frames, some refusal⟩

end State

section steps

variable {tokens : List Token} {outer callee : Task} {entry origin cursor : Nat} {frame : Frame}
variable {frames : List Frame} {state later last : State}

theorem Frame.fresh_kept (task : Task) (h : cursor ≤ tokens.length) :
    (Frame.fresh task cursor).Kept tokens cursor (cursor < cursor) where
  turns_le := le_rfl
  start_le := le_rfl
  start_le_saved := le_rfl
  saved_le := h
  orderly := by simpa [Frame.fresh] using task.orderly_code

theorem Frame.Kept.entry_le {moved : Bool} (h : frame.Kept tokens cursor moved) :
    frame.entry ≤ cursor :=
  (Nat.le_of_add_right_le h.turns_le).trans h.start_le

-- A frame goes on behind a success.
theorem Stacked.resume (h : Stacked tokens outer entry callee origin frames)
    (hlen : cursor ≤ tokens.length) (hle : origin ≤ cursor)
    (hlt : callee.strict → origin < cursor) :
    State.Kept tokens outer entry ⟨cursor, frames, none⟩ := by
  cases h with
  | outermost => exact .done hlen hle hlt
  | @waiting _ _ frame frames kept lower stacked =>
    refine .working hlen { kept with start_le := kept.start_le.trans hle, orderly := ?_ } stacked
    refine Act.orderly_mono id (fun h => ?_) kept.orderly
    simp only [Bool.or_eq_true, decide_eq_true_eq] at h ⊢
    exact h.elim (fun h => h.trans_le hle) fun h => kept.start_le.trans_lt (hlt h)

theorem Frame.Kept.act (h : frame.Kept tokens cursor (frame.start < cursor))
    (hlen : cursor ≤ tokens.length)
    (hs : Stacked tokens outer entry frame.task frame.entry frames) :
    (State.act tokens cursor frame frames).Kept tokens outer entry := by
  obtain ⟨task, origin, start, saved, turns, code⟩ := frame
  obtain ⟨hturns, hstart, hsaved, hlen', horder⟩ := h
  dsimp only at hturns hstart hsaved hlen' horder hs
  cases code with
  | leave =>
    simp only [Act.orderly, Bool.or_eq_true, decide_eq_true_eq, Bool.not_eq_true'] at horder
    refine hs.resume hlen (by omega) fun hstrict => ?_
    obtain h | h := horder
    · omega
    · rw [h] at hstrict
      cases hstrict
  | refuse refusal => exact .failed hlen (by omega) hs
  | again =>
    rw [Act.orderly, decide_eq_true_eq] at horder
    exact .working hlen { Frame.fresh_kept task hlen with
      turns_le := show origin + (turns + 1) ≤ cursor by omega } hs
  | take fits taken left =>
    simp only [Act.orderly, Bool.and_eq_true] at horder
    dsimp only [State.act]
    split
    · rename_i hfits
      have hlt : cursor < tokens.length := by
        by_contra hge
        rw [List.getElem?_eq_none (Nat.le_of_not_lt hge)] at hfits
        cases hfits
      refine .working hlt ⟨hturns, Nat.le_succ_of_le hstart, hsaved, hlen', ?_⟩ hs
      rw [decide_eq_true (Nat.lt_succ_of_le hstart)]
      exact horder.1
    · exact .working hlen ⟨hturns, hstart, hsaved, hlen', horder.2⟩ hs
  | look ahead fits found other =>
    simp only [Act.orderly, Bool.and_eq_true] at horder
    dsimp only [State.act]
    split
    · exact .working hlen ⟨hturns, hstart, hsaved, hlen', horder.1⟩ hs
    · exact .working hlen ⟨hturns, hstart, hsaved, hlen', horder.2⟩ hs
  | enter callee behind =>
    simp only [Act.orderly, Bool.and_eq_true, Bool.or_eq_true, decide_eq_true_eq] at horder
    refine .working hlen (Frame.fresh_kept callee hlen) (.waiting ?_ horder.1 hs)
    exact ⟨hturns, hstart, hsaved, hlen', horder.2⟩
  | save behind => exact .working hlen ⟨hturns, hstart, hstart, hlen, horder⟩ hs
  | restore behind => exact .working hlen' ⟨hturns, hsaved, hsaved, hlen', horder⟩ hs

namespace State

theorem Kept.next (h : state.Kept tokens outer entry) (hn : state.next tokens = some later) :
    later.Kept tokens outer entry := by
  cases h with
  | working le kept stacked =>
    cases hn
    exact kept.act le stacked
  | done => cases hn
  | failed le origin_le stacked =>
    cases stacked with
    | outermost => cases hn
    | waiting kept lower stacked =>
      cases hn
      exact .failed le (kept.entry_le.trans origin_le) stacked

theorem Kept.runs (h : state.Kept tokens outer entry) (hr : state.Runs tokens later) :
    later.Kept tokens outer entry := by
  induction hr with
  | refl => exact h
  | tail _ hn ih => exact ih.next hn

theorem start_kept (task : Task) (h : entry ≤ tokens.length) :
    (start task entry).Kept tokens task entry :=
  .working h (Frame.fresh_kept task h) .outermost

end State

-- How an outcome ends

-- What comes of the frames that wait for an ending.
def resume (tokens : List Token) (ending : Ending) : List Frame → Ending
  | [] => ending
  | frame :: frames =>
    resume tokens (ending.andThen fun rest =>
      frame.code.follow frame.task (tokens.drop frame.saved) rest) frames

def State.ending (tokens : List Token) (state : State) : Ending :=
  resume tokens ⟨state.failure, tokens.drop state.cursor⟩ state.frames

theorem State.ending_act : (State.act tokens cursor frame frames).ending tokens =
    resume tokens (frame.code.follow frame.task (tokens.drop frame.saved) (tokens.drop cursor))
      frames := by
  obtain ⟨task, origin, start, saved, turns, code⟩ := frame
  cases code with
  | leave => rfl
  | refuse refusal => rfl
  | again =>
    dsimp only [State.act, State.ending, resume, Act.follow, Frame.fresh]
    rw [Task.ending_eq]
    rfl
  | take fits taken left =>
    simp only [State.act, Act.follow, List.getElem?_drop, List.tail_drop, Nat.add_zero]
    split <;> rfl
  | look ahead fits found other =>
    simp only [State.act, Act.follow, List.getElem?_drop]
    split <;> rfl
  | enter callee behind =>
    dsimp only [State.act, State.ending, resume, Act.follow, Frame.fresh]
    rw [Task.ending_eq]
    rfl
  | save behind => rfl
  | restore behind => rfl

theorem State.ending_next (h : state.next tokens = some later) :
    later.ending tokens = state.ending tokens := by
  obtain ⟨cursor, frames, failure⟩ := state
  cases frames with
  | nil => cases h
  | cons frame frames =>
    cases failure with
    | none =>
      cases h
      exact State.ending_act
    | some refusal =>
      cases h
      rfl

theorem State.ending_runs (h : state.Runs tokens later) :
    later.ending tokens = state.ending tokens := by
  induction h with
  | refl => rfl
  | tail _ hn ih => exact (State.ending_next hn).trans ih

theorem State.ending_start (task : Task) :
    (State.start task entry).ending tokens = task.ending (tokens.drop entry) :=
  (Task.ending_eq task _).symm

-- That there is an end

-- The acts that are written down behind an act.
def Act.size : Act → Nat
  | .leave | .refuse _ | .again => 0
  | .take _ taken left => taken.size + left.size + 1
  | .look _ _ found other => found.size + other.size + 1
  | .enter _ behind | .save behind | .restore behind => behind.size + 1

-- What a frame has before it. A later turn has less than any task of an earlier one.
def Frame.weight (tokens : List Token) (frame : Frame) : ℕ ×ₗ ℕ ×ₗ ℕ :=
  toLex (tokens.length - frame.start, toLex (frame.task.rank, frame.code.size))

def State.load (tokens : List Token) (state : State) : Multiset (ℕ ×ₗ ℕ ×ₗ ℕ) :=
  state.frames.map (Frame.weight tokens)

theorem Frame.weight_lt {other : Frame}
    (h : tokens.length - other.start < tokens.length - frame.start ∨
      other.start = frame.start ∧ (other.task.rank < frame.task.rank ∨
        other.task = frame.task ∧ other.code.size < frame.code.size)) :
    other.weight tokens < frame.weight tokens := by
  rw [weight, weight, Prod.Lex.toLex_lt_toLex, Prod.Lex.toLex_lt_toLex]
  obtain h | ⟨hs, h | ⟨ht, h⟩⟩ := h
  · exact .inl h
  · exact .inr ⟨by rw [hs], .inl h⟩
  · exact .inr ⟨by rw [hs], .inr ⟨by rw [ht], h⟩⟩

-- A step puts frames of less weight in the place of the one in front.
theorem State.cutExpand_load {cursor' : Nat} {before : List Frame}
    {failure failure' : Option Refusal}
    (h : ∀ other ∈ before, other.weight tokens < frame.weight tokens) :
    Relation.CutExpand (· < ·) (State.load tokens ⟨cursor', before ++ frames, failure'⟩)
      (State.load tokens ⟨cursor, frame :: frames, failure⟩) := by
  refine ⟨before.map (Frame.weight tokens), frame.weight tokens, ?_, ?_⟩
  · simpa using h
  · simp only [load, List.map_append, List.map_cons, ← Multiset.coe_add, ← Multiset.cons_coe,
      ← Multiset.singleton_add]
    abel

theorem State.cutExpand_behind {cursor' : Nat} {other : Frame} {failure failure' : Option Refusal}
    (hs : other.start = frame.start) (ht : other.task = frame.task)
    (hc : other.code.size < frame.code.size) :
    Relation.CutExpand (· < ·) (State.load tokens ⟨cursor', other :: frames, failure'⟩)
      (State.load tokens ⟨cursor, frame :: frames, failure⟩) :=
  cutExpand_load (List.forall_mem_singleton.mpr (Frame.weight_lt (.inr ⟨hs, .inr ⟨ht, hc⟩⟩)))

theorem State.cutExpand_act (h : frame.Kept tokens cursor (frame.start < cursor))
    (hlen : cursor ≤ tokens.length) :
    Relation.CutExpand (· < ·) ((State.act tokens cursor frame frames).load tokens)
      (State.load tokens ⟨cursor, frame :: frames, none⟩) := by
  obtain ⟨task, origin, start, saved, turns, code⟩ := frame
  obtain ⟨-, hstart, -, -, horder⟩ := h
  dsimp only at hstart horder
  cases code with
  | leave => exact State.cutExpand_load (List.forall_mem_nil _)
  | refuse refusal => exact State.cutExpand_load (List.forall_mem_nil _)
  | again =>
    rw [Act.orderly, decide_eq_true_eq] at horder
    refine State.cutExpand_load (List.forall_mem_singleton.mpr (Frame.weight_lt (.inl ?_)))
    exact Nat.sub_lt_sub_left (horder.trans_le hlen) horder
  | take fits taken left =>
    dsimp only [State.act]
    split
    · exact cutExpand_behind rfl rfl (show taken.size < taken.size + left.size + 1 by omega)
    · exact cutExpand_behind rfl rfl (show left.size < taken.size + left.size + 1 by omega)
  | look ahead fits found other =>
    dsimp only [State.act]
    split
    · exact cutExpand_behind rfl rfl (show found.size < found.size + other.size + 1 by omega)
    · exact cutExpand_behind rfl rfl (show other.size < found.size + other.size + 1 by omega)
  | enter callee behind =>
    simp only [Act.orderly, Bool.and_eq_true, Bool.or_eq_true, decide_eq_true_eq] at horder
    obtain ⟨hlower, -⟩ := horder
    refine cutExpand_load (List.forall_mem_cons.mpr ⟨?_, List.forall_mem_singleton.mpr ?_⟩)
    · refine Frame.weight_lt ?_
      obtain hlt | heq := hstart.lt_or_eq
      · exact .inl (Nat.sub_lt_sub_left (hlt.trans_le hlen) hlt)
      · exact .inr ⟨heq.symm, .inl (hlower.resolve_left (by omega))⟩
    · exact Frame.weight_lt (.inr ⟨rfl, .inr ⟨rfl, Nat.lt_succ_self _⟩⟩)
  | save behind => exact cutExpand_behind rfl rfl (Nat.lt_succ_self _)
  | restore behind => exact cutExpand_behind rfl rfl (Nat.lt_succ_self _)

theorem State.Kept.cutExpand_next (h : state.Kept tokens outer entry)
    (hn : state.next tokens = some later) :
    Relation.CutExpand (· < ·) (later.load tokens) (state.load tokens) := by
  cases h with
  | working le kept stacked =>
    cases hn
    exact cutExpand_act kept le
  | done => cases hn
  | @failed _ _ _ frames _ le origin_le stacked =>
    cases frames with
    | nil => cases hn
    | cons frame frames =>
      cases hn
      exact cutExpand_load (List.forall_mem_nil _)

-- By the load of what is left.
theorem State.Kept.ends (h : state.Kept tokens outer entry) :
    ∃ last, state.Runs tokens last ∧ last.next tokens = none := by
  have hwf : WellFounded (Relation.CutExpand fun a b : ℕ ×ₗ ℕ ×ₗ ℕ => a < b) :=
    wellFounded_lt.cutExpand
  induction hload : state.load tokens using hwf.induction generalizing state with
  | _ load ih =>
    cases hn : state.next tokens with
    | none => exact ⟨state, .refl, hn⟩
    | some later =>
      obtain ⟨last, hr, hl⟩ := ih _ (hload ▸ h.cutExpand_next hn) (h.next hn) rfl
      exact ⟨last, .head hn hr, hl⟩

-- What the frames say about the way so far

-- A task is entered behind the place where the one that waits for it was entered, or at the
-- same place if it is lower.
def Frame.Above (callee : Task) (origin : Nat) (caller : Frame) : Prop :=
  caller.entry < origin ∨ caller.entry = origin ∧ callee.rank < caller.task.rank

-- The turns of a task are counted by the tokens that were left when it was entered. Only a turn
-- that begins behind the last token is not, and nothing comes of that.
structure Frame.Counted (tokens : List Token) (frame : Frame) : Prop where
  turns_le : frame.turns ≤ tokens.length - frame.entry
  begun_le : frame.start < tokens.length → frame.turns + 1 ≤ tokens.length - frame.entry

theorem Frame.Kept.counted {moved : Bool} (h : frame.Kept tokens cursor moved) :
    frame.Counted tokens := by
  obtain ⟨hturns, -, hsaved, hlen, -⟩ := h
  exact ⟨by omega, by omega⟩

theorem Stacked.entry_le (h : Stacked tokens outer entry callee origin frames) :
    entry ≤ origin := by
  induction h with
  | outermost => exact le_rfl
  | waiting kept lower stacked ih => exact ih.trans kept.entry_le

theorem Stacked.above (h : Stacked tokens outer entry callee origin frames) :
    ∀ frame ∈ frames, frame.Above callee origin := by
  induction h with
  | outermost => exact List.forall_mem_nil _
  | @waiting callee origin frame frames kept lower stacked ih =>
    have hfirst : frame.Above callee origin := by
      have hturns := kept.turns_le
      have hstart := kept.start_le
      rw [Frame.Above]
      omega
    refine List.forall_mem_cons.mpr ⟨hfirst, fun other hother => ?_⟩
    have hrest := ih other hother
    rw [Frame.Above] at hfirst hrest ⊢
    omega

theorem Stacked.pairwise (h : Stacked tokens outer entry callee origin frames) :
    frames.Pairwise fun callee caller => caller.Above callee.task callee.entry := by
  induction h with
  | outermost => exact .nil
  | waiting kept lower stacked ih => exact .cons stacked.above ih

theorem Stacked.counted (h : Stacked tokens outer entry callee origin frames) :
    ∀ frame ∈ frames, frame.Counted tokens := by
  induction h with
  | outermost => exact List.forall_mem_nil _
  | waiting kept lower stacked ih => exact List.forall_mem_cons.mpr ⟨kept.counted, ih⟩

theorem Stacked.entry_mem (h : Stacked tokens outer entry callee origin frames)
    (hle : origin ≤ cursor) : ∀ frame ∈ frames, frame.entry ≤ cursor := by
  intro frame hframe
  have habove := h.above frame hframe
  rw [Frame.Above] at habove
  omega

-- What the state says about the way so far.
structure State.Ordered (tokens : List Token) (entry : Nat) (state : State) : Prop where
  cursor_mem : state.cursor ∈ Set.Icc entry tokens.length
  -- the calls that are not done, and none of them behind the cursor
  descends : state.frames.Pairwise fun callee caller => caller.Above callee.task callee.entry
  entered : ∀ frame ∈ state.frames, frame.entry ≤ state.cursor
  counted : ∀ frame ∈ state.frames, frame.Counted tokens
  -- a task about to leave has moved on, and its last turn is counted with the others
  leaves : ∀ frame waiting, state.frames = frame :: waiting → state.failure = none →
    frame.code = .leave → frame.task.strict →
    frame.entry < state.cursor ∧ frame.turns + 1 ≤ tokens.length - frame.entry

namespace State

theorem Kept.ordered (h : state.Kept tokens outer entry) : state.Ordered tokens entry := by
  cases h with
  | @working cursor frame frames le kept stacked =>
    refine ⟨⟨stacked.entry_le.trans kept.entry_le, le⟩, .cons stacked.above stacked.pairwise,
      List.forall_mem_cons.mpr ⟨kept.entry_le, stacked.entry_mem kept.entry_le⟩,
      List.forall_mem_cons.mpr ⟨kept.counted, stacked.counted⟩, ?_⟩
    rintro _ _ ⟨⟩ - hcode hstrict
    have horder := kept.orderly
    rw [hcode, Act.orderly, hstrict] at horder
    have hlt : frame.start < cursor := by simpa using horder
    exact ⟨(Nat.le_of_add_right_le kept.turns_le).trans_lt hlt,
      kept.counted.begun_le (hlt.trans_le le)⟩
  | done le entry_le =>
    exact ⟨⟨entry_le, le⟩, .nil, List.forall_mem_nil _, List.forall_mem_nil _, nofun⟩
  | failed le origin_le stacked =>
    exact ⟨⟨stacked.entry_le.trans origin_le, le⟩, stacked.pairwise, stacked.entry_mem origin_le,
      stacked.counted, nofun⟩

theorem frames_of_next (h : last.next tokens = none) : last.frames = [] := by
  obtain ⟨cursor, frames, failure⟩ := last
  cases frames with
  | nil => rfl
  | cons frame frames => cases failure <;> cases h

theorem Kept.entry_lt (h : last.Kept tokens outer entry) (hl : last.frames = [])
    (hf : last.failure = none) (hs : outer.strict) : entry < last.cursor := by
  cases h with
  | working => cases hl
  | done le entry_le entry_lt => exact entry_lt hs
  | failed => cases hf

end State

end steps

-- What comes of a task that is entered at some place among the tokens or behind them, however
-- they go on.
structure Progress (tokens : List Token) (task : Task) (entry : Nat) (last : State) : Prop where
  -- every way ends in the same state, which is where the rules of the grammar leave off
  halts : last.next tokens = none
  reached : ∀ state, (State.start task entry).Runs tokens state → state.Runs tokens last
  ending : task.ending (tokens.drop entry) = ⟨last.failure, tokens.drop last.cursor⟩
  advances : last.failure = none → task.strict → entry < last.cursor
  -- a whole program is read to the end of the tokens, and it is what a reader reads
  exhausts : task = .loop .declarations → last.failure = none → last.cursor = tokens.length
  reads : task = .loop .declarations →
    (Reader.mk tokens (tokens.drop entry)).program.2.unread = tokens.drop last.cursor ∧
      (last.failure = none ↔
        ∃ tree, (Reader.mk tokens (tokens.drop entry)).program.1.result = .ok tree)
  -- on the way, and at its end
  ordered : ∀ state, (State.start task entry).Runs tokens state → state.Ordered tokens entry

end Descent

open Descent

-- Behind a program there are no tokens.
theorem rest_of_declarations_ending {tokens rest : List Token}
    (h : Loop.ending .declarations tokens = ⟨none, rest⟩) : rest = [] := by
  have hexhausts := declarations_exhausts tokens
  rw [Loop.ending] at h
  cases ho : (declarations tokens).outcome with
  | parsed trees behind shorter =>
    rw [ho] at h
    cases h
    exact hexhausts trees rest shorter ho
  | refused wanted behind =>
    rw [ho] at h
    cases h

theorem program_of_declarations_ending {tokens unread rest : List Token} {failure : Option Refusal}
    (h : Loop.ending .declarations unread = ⟨failure, rest⟩) :
    (Reader.mk tokens unread).program.2.unread = rest ∧
      (failure = none ↔ ∃ tree, (Reader.mk tokens unread).program.1.result = .ok tree) := by
  rw [Loop.ending] at h
  rw [Reader.program]
  cases ho : (declarations unread).outcome with
  | parsed trees behind shorter =>
    rw [ho] at h
    cases h
    exact ⟨rfl, fun _ => ⟨_, rfl⟩, fun _ => rfl⟩
  | refused wanted behind =>
    rw [ho] at h
    cases h
    refine ⟨rfl, fun hf => ?_, fun hr => ?_⟩
    · cases hf
    · obtain ⟨tree, hr⟩ := hr
      cases hr

theorem descent_progress (tokens : List Token) (task : Task) (entry : Nat)
    (h : entry ≤ tokens.length) : ∃ last, Progress tokens task entry last := by
  have hkept := State.start_kept task h
  obtain ⟨last, hruns, hhalts⟩ := hkept.ends
  have hframes := State.frames_of_next hhalts
  have hlast := hkept.runs hruns
  have hending : task.ending (tokens.drop entry) = ⟨last.failure, tokens.drop last.cursor⟩ := by
    rw [← State.ending_start, ← State.ending_runs hruns, State.ending, hframes, resume]
  exact ⟨last, {
    halts := hhalts
    reached := fun state hstate => runs_to_last hruns hhalts hstate
    ending := hending
    advances := hlast.entry_lt hframes
    exhausts := by
      rintro rfl hf
      rw [hf] at hending
      have hrest := List.drop_eq_nil_iff.mp (rest_of_declarations_ending hending)
      exact le_antisymm hlast.ordered.cursor_mem.2 hrest
    reads := by
      rintro rfl
      exact program_of_declarations_ending hending
    ordered := fun state hstate => (hkept.runs hstate).ordered }⟩

-- x = f ( a ,
def cutShort : List Token :=
  [⟨.identifier, "x", ⟨1, 1⟩⟩, ⟨.mark .assign, "=", ⟨1, 3⟩⟩, ⟨.identifier, "f", ⟨1, 5⟩⟩,
    ⟨.mark .leftParen, "(", ⟨1, 7⟩⟩, ⟨.identifier, "a", ⟨1, 9⟩⟩, ⟨.mark .comma, ",", ⟨1, 11⟩⟩]

-- The second argument is begun behind the last token.
theorem descent_progress_cutShort : 0 ≤ cutShort.length ∧
    Progress cutShort (.loop .declarations) 0 ⟨6, [], some (.wanted .expression)⟩ := by
  obtain ⟨last, h⟩ := descent_progress cutShort (.loop .declarations) 0 (Nat.zero_le _)
  have hend : Loop.ending .declarations cutShort = ⟨some (.wanted .expression), []⟩ := by cbv
  obtain ⟨hfailure, hrest⟩ := Ending.mk.inj (hend.symm.trans h.ending)
  have hruns := h.reached _ .refl
  have hmem := (h.ordered _ hruns).cursor_mem
  have hcursor : last.cursor = 6 := le_antisymm hmem.2 (List.drop_eq_nil_iff.mp hrest.symm)
  have hframes := State.frames_of_next h.halts
  obtain ⟨cursor, frames, failure⟩ := last
  obtain rfl : cursor = 6 := hcursor
  obtain rfl : frames = [] := hframes
  obtain rfl : some (.wanted .expression) = failure := hfailure
  exact ⟨Nat.zero_le _, h⟩

end ScriptIR.Grammar
