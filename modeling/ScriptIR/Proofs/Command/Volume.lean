import Mathlib
import ScriptIR.Command.Arguments

namespace ScriptIR.Command

-- Letters of flags that ask for more of the journal or for nothing of it.
def VolumeLetters (letters : List Char) : Prop := ∀ letter ∈ letters, letter = 'v' ∨ letter = 'q'

theorem VolumeLetters.ne_hyphen {letters : List Char} (h : VolumeLetters letters) {letter : Char}
    (hm : letter ∈ letters) : letter ≠ '-' := by
  rcases h letter hm with rfl | rfl <;> decide

theorem VolumeLetters.exists_first {letters : List Char} (h : VolumeLetters letters)
    {letter : Char} (hd : letter ≠ '-') (rest : List Char) :
    ∃ first others, first ≠ '-' ∧ letters ++ letter :: rest = first :: others := by
  cases letters with
  | nil => exact ⟨letter, rest, hd, rfl⟩
  | cons first letters =>
    exact ⟨first, letters ++ letter :: rest, h.ne_hyphen List.mem_cons_self, rfl⟩

theorem ne_end_of_letter {argument : String} {letter : Char} {rest : List Char}
    (he : argument.toList = '-' :: letter :: rest) (hd : letter ≠ '-') : argument ≠ "--" := by
  rintro rfl
  exact hd (List.cons.inj (List.cons.inj he).2).1.symm

-- An argument that says nothing but how much of the journal is wanted.
def IsVolumeFlag (argument : String) : Prop :=
  argument = "--verbose" ∨ argument = "--quiet" ∨
    ∃ letters, letters ≠ [] ∧ VolumeLetters letters ∧ argument.toList = '-' :: letters

theorem IsVolumeFlag.ne_end {argument : String} (h : IsVolumeFlag argument) :
    argument ≠ "--" := by
  rcases h with rfl | rfl | ⟨letters, hne, hv, he⟩
  · decide
  · decide
  · obtain ⟨letter, rest, rfl⟩ := List.exists_cons_of_ne_nil hne
    exact ne_end_of_letter he (hv.ne_hyphen List.mem_cons_self)

-- Arguments with flags of volume put in between. The letters of such flags can be put in front
-- of other letters as well. What is behind two hyphens alone is no flag.
inductive Louder : List String → List String → Prop
  | same (arguments : List String) : Louder arguments arguments
  | kept {argument : String} {plain loud : List String} : argument ≠ "--" → Louder plain loud →
      Louder (argument :: plain) (argument :: loud)
  | added {argument : String} {plain loud : List String} : IsVolumeFlag argument →
      Louder plain loud → Louder plain (argument :: loud)
  | joined {argument cluster : String} {letters rest : List Char} {letter : Char}
      {plain loud : List String} : VolumeLetters letters → letter ≠ '-' →
      argument.toList = '-' :: letter :: rest → cluster.toList = '-' :: (letters ++ letter :: rest) →
      Louder plain loud → Louder (argument :: plain) (cluster :: loud)

-- A flag that is there is not there less often.
structure Volume.Within (volume other : Volume) : Prop where
  verbose : volume.verbose ≤ other.verbose
  quiet : volume.quiet = true → other.quiet = true

theorem Volume.Within.refl (volume : Volume) : volume.Within volume :=
  ⟨Nat.le_refl _, id⟩

theorem Volume.Within.trans {volume other third : Volume} (h : volume.Within other)
    (ht : other.Within third) : volume.Within third :=
  ⟨h.verbose.trans ht.verbose, ht.quiet ∘ h.quiet⟩

section foldlM

variable {α σ ε : Type} {R : σ → σ → Prop} {step : σ → α → Except ε σ} {items : List α}

theorem foldlM_cons_eq_ok {item : α} {first last : σ} :
    (item :: items).foldlM step first = .ok last ↔
      ∃ next, step first item = .ok next ∧ items.foldlM step next = .ok last := by
  rw [List.foldlM_cons]
  cases hs : step first item with
  | error stop =>
    constructor
    · nofun
    · rintro ⟨_, ⟨⟩, _⟩
  | ok next =>
    constructor
    · exact fun h => ⟨next, rfl, h⟩
    · rintro ⟨_, ⟨⟩, h⟩
      exact h

-- A run that is followed step by step.
theorem exists_foldlM
    (hstep : ∀ {soft loud loud' : σ} {item : α}, R soft loud → step loud item = .ok loud' →
      ∃ soft', step soft item = .ok soft' ∧ R soft' loud')
    {soft loud loud' : σ} (h : R soft loud) (hl : items.foldlM step loud = .ok loud') :
    ∃ soft', items.foldlM step soft = .ok soft' ∧ R soft' loud' := by
  induction items generalizing soft loud with
  | nil =>
    cases hl
    exact ⟨soft, rfl, h⟩
  | cons item rest ih =>
    obtain ⟨next, hi, hrest⟩ := foldlM_cons_eq_ok.mp hl
    obtain ⟨soft', hs, hr⟩ := hstep h hi
    obtain ⟨last, hlast, hr⟩ := ih hr hrest
    exact ⟨last, foldlM_cons_eq_ok.mpr ⟨soft', hs, hlast⟩, hr⟩

end foldlM

namespace Reading

def tuned (reading : Reading) (before behind : Volume) : Reading := { reading with before, behind }

-- The other reading is the same with volume added.
inductive Softer : Reading → Reading → Prop
  | softer {reading : Reading} {before behind : Volume} : reading.before.Within before →
      reading.behind.Within behind → Softer reading (reading.tuned before behind)

-- What takes no notice of the volume.
def Deaf (step : Reading → Except Stop Reading) : Prop :=
  ∀ reading before behind,
    step (reading.tuned before behind) = (step reading).map (·.tuned before behind)

variable {soft loud loud' reading : Reading} {switch : Switch} {argument : String}

theorem Softer.refl (reading : Reading) : Softer reading reading :=
  .softer (.refl _) (.refl _)

theorem Softer.volume (h : Softer soft loud) : soft.volume.Within loud.volume := by
  obtain ⟨hbefore, hbehind⟩ := h
  cases hs : soft.stage.isSome with
  | true => simpa only [Reading.volume, tuned, hs, if_true] using hbehind
  | false => simpa only [Reading.volume, tuned, hs, Bool.false_eq_true, if_false] using hbefore

theorem Softer.withVolume {volume other : Volume} (h : Softer soft loud)
    (hv : volume.Within other) : Softer (soft.withVolume volume) (loud.withVolume other) := by
  obtain ⟨hbefore, hbehind⟩ := h
  cases hs : soft.stage.isSome with
  | true =>
    simp only [Reading.withVolume, tuned, hs, if_true]
    exact .softer hbefore hv
  | false =>
    simp only [Reading.withVolume, tuned, hs, Bool.false_eq_true, if_false]
    exact .softer hv hbehind

theorem Softer.deaf {step : Reading → Except Stop Reading} (h : Softer soft loud)
    (hd : Deaf step) (hl : step loud = .ok loud') :
    ∃ soft', step soft = .ok soft' ∧ Softer soft' loud' := by
  obtain ⟨hbefore, hbehind⟩ := h
  rw [hd] at hl
  cases hs : step soft with
  | error stop =>
    rw [hs] at hl
    cases hl
  | ok soft' =>
    have hown : step soft = (step soft).map (·.tuned soft.before soft.behind) :=
      hd soft soft.before soft.behind
    rw [hs] at hl hown
    cases hl
    have he : soft' = soft'.tuned soft.before soft.behind := Except.ok.inj hown
    refine ⟨soft', rfl, .softer ?_ ?_⟩
    · rw [he]
      exact hbefore
    · rw [he]
      exact hbehind

theorem deaf_withOutput (path : String) : Deaf (withOutput · path) := by
  intro reading before behind
  simp only [withOutput, tuned]
  split <;> rfl

theorem deaf_value (argument : String) : Deaf (value · argument) := by
  intro reading before behind
  simp only [value]
  split
  · rfl
  · exact deaf_withOutput argument reading before behind

theorem deaf_word (argument : String) : Deaf (word · argument) := by
  intro reading before behind
  obtain ⟨_, stage, _, file, _, _, _, _, _⟩ := reading
  cases stage with
  | none =>
    simp only [word, tuned]
    split <;> rfl
  | some stage => cases file <;> rfl

theorem deaf_flag (hv : switch ≠ .verbose) (hq : switch ≠ .quiet) : Deaf (flag · switch) := by
  intro reading before behind
  cases switch with
  | verbose => exact (hv rfl).elim
  | quiet => exact (hq rfl).elim
  | version | help | unknown => rfl
  | revisit | statistics =>
    simp only [flag, apply_ite (Except.map (tuned · before behind))]
    rfl
  | output attached =>
    simp only [flag]
    have hsame : (reading.tuned before behind).stage = reading.stage ∧
        (reading.tuned before behind).output = reading.output := ⟨rfl, rfl⟩
    rw [hsame.1, hsame.2]
    split
    · cases attached with
      | none => rfl
      | some path => exact deaf_withOutput path reading before behind
    · rfl

-- With less volume no flag is refused that is taken with more.
theorem Softer.flag (h : Softer soft loud) (hl : loud.flag switch = .ok loud') :
    ∃ soft', soft.flag switch = .ok soft' ∧ Softer soft' loud' := by
  have hvolume := h.volume
  by_cases hv : switch = .verbose
  · subst hv
    cases hl
    exact ⟨_, rfl, h.withVolume ⟨Nat.succ_le_succ hvolume.verbose, hvolume.quiet⟩⟩
  by_cases hq : switch = .quiet
  · subst hq
    simp only [Reading.flag] at hl ⊢
    split at hl
    · cases hl
    · next hloud =>
      cases hl
      exact ⟨_, if_neg (mt hvolume.quiet hloud), h.withVolume ⟨hvolume.verbose, id⟩⟩
  · exact h.deaf (deaf_flag hv hq) hl

-- With less volume no argument is refused that is taken with more.
theorem Softer.take (h : Softer soft loud) (hl : loud.take argument = .ok loud') :
    ∃ soft', soft.take argument = .ok soft' ∧ Softer soft' loud' := by
  have hsame : loud.awaiting = soft.awaiting ∧ loud.literal = soft.literal ∧
      loud.stage = soft.stage := by
    obtain ⟨-, -⟩ := h
    exact ⟨rfl, rfl, rfl⟩
  obtain ⟨hawaiting, hliteral, hstage⟩ := hsame
  unfold Reading.take at hl ⊢
  rw [hawaiting, hliteral] at hl
  split at hl
  · next ha =>
    rw [if_pos ha]
    exact h.deaf (deaf_value argument) hl
  · next ha =>
    rw [if_neg ha]
    split at hl
    · next hlit =>
      rw [if_pos hlit]
      exact h.deaf (deaf_word argument) hl
    · next hlit =>
      rw [if_neg hlit]
      split at hl
      · rw [hstage] at hl
        split at hl
        · next hs =>
          cases hl
          obtain ⟨hbefore, hbehind⟩ := h
          exact ⟨_, if_pos hs, .softer hbefore hbehind⟩
        · cases hl
      · exact h.flag hl
      · exact exists_foldlM Softer.flag h hl
      · exact h.deaf (deaf_word argument) hl

section literal

variable {next : Reading}

theorem literal_withVolume (volume : Volume) :
    (reading.withVolume volume).literal = reading.literal := by
  unfold withVolume
  split <;> rfl

theorem literal_of_withOutput {path : String} (h : reading.withOutput path = .ok next) :
    next.literal = reading.literal := by
  unfold withOutput at h
  split at h <;> cases h
  rfl

theorem literal_of_word (h : reading.word argument = .ok next) :
    next.literal = reading.literal := by
  unfold word at h
  split at h <;> split at h <;> cases h <;> rfl

theorem literal_of_flag (h : reading.flag switch = .ok next) : next.literal = reading.literal := by
  cases switch with
  | verbose =>
    cases h
    exact literal_withVolume _
  | quiet =>
    simp only [flag] at h
    split at h <;> cases h
    exact literal_withVolume _
  | version | help | unknown => cases h
  | revisit | statistics =>
    simp only [flag] at h
    split at h <;> cases h
    rfl
  | output attached =>
    simp only [flag] at h
    split at h
    · cases attached with
      | none =>
        cases h
        rfl
      | some path => exact literal_of_withOutput h
    · cases h

theorem literal_of_flags {switches : List Switch} (h : switches.foldlM flag reading = .ok next) :
    next.literal = reading.literal := by
  induction switches generalizing reading with
  | nil =>
    cases h
    rfl
  | cons switch rest ih =>
    obtain ⟨middle, hs, hr⟩ := foldlM_cons_eq_ok.mp h
    rw [ih hr, literal_of_flag hs]

-- Only two hyphens alone end the flags.
theorem literal_of_take (hd : argument ≠ "--") (h : reading.take argument = .ok next) :
    next.literal = reading.literal := by
  unfold take at h
  split at h
  · unfold value at h
    split at h
    · cases h
    · exact literal_of_withOutput h
  · split at h
    · exact literal_of_word h
    · split at h
      · next he => exact (hd (String.toList_injective he)).elim
      · exact literal_of_flag h
      · exact literal_of_flags h
      · exact literal_of_word h

end literal

-- A cluster of letters is taken letter by letter.
theorem take_cluster {letters : List Char} {letter : Char} (ha : reading.awaiting = false)
    (hl : reading.literal = false) (hd : letter ≠ '-')
    (he : argument.toList = '-' :: letter :: letters) :
    reading.take argument = (Switch.ofLetters (letter :: letters)).foldlM flag reading := by
  unfold take
  rw [ha, hl, he]
  simp only [Bool.false_eq_true, if_false]
  split <;> simp_all

end Reading

namespace Reading

variable {soft loud loud' reading : Reading} {argument : String} {letters rest : List Char}

theorem withVolume_volume (reading : Reading) : reading.withVolume reading.volume = reading := by
  simp only [withVolume, volume]
  split <;> rfl

theorem Softer.raised {other : Volume} (h : Softer soft loud) (hv : loud.volume.Within other) :
    Softer soft (loud.withVolume other) := by
  rw [← withVolume_volume soft]
  exact h.withVolume (h.volume.trans hv)

theorem Softer.verbose (h : Softer soft loud) (hl : loud.flag .verbose = .ok loud') :
    Softer soft loud' := by
  cases hl
  exact h.raised ⟨Nat.le_succ _, id⟩

theorem Softer.quiet (h : Softer soft loud) (hl : loud.flag .quiet = .ok loud') :
    Softer soft loud' := by
  simp only [Reading.flag] at hl
  split at hl <;> cases hl
  exact h.raised ⟨Nat.le_refl _, fun _ => rfl⟩

-- Letters for the volume in front of other letters.
theorem Softer.cluster (h : Softer soft loud) (hv : VolumeLetters letters)
    (hl : (Switch.ofLetters (letters ++ rest)).foldlM Reading.flag loud = .ok loud') :
    ∃ soft', (Switch.ofLetters rest).foldlM Reading.flag soft = .ok soft' ∧ Softer soft' loud' := by
  induction letters generalizing loud with
  | nil => exact exists_foldlM Softer.flag h hl
  | cons letter letters ih =>
    obtain ⟨hfirst, hrest⟩ := List.forall_mem_cons.mp hv
    rcases hfirst with rfl | rfl
    · obtain ⟨next, hs, hr⟩ := foldlM_cons_eq_ok.mp hl
      exact ih (h.verbose hs) hrest hr
    · obtain ⟨next, hs, hr⟩ := foldlM_cons_eq_ok.mp hl
      exact ih (h.quiet hs) hrest hr

-- A flag is no value of another flag.
theorem awaiting_of_take {letter : Char} (he : argument.toList = '-' :: letter :: rest)
    (hl : loud.take argument = .ok loud') : loud.awaiting = false := by
  rw [← Bool.not_eq_true]
  intro ha
  rw [take, if_pos ha, value, he] at hl
  cases hl

theorem take_word {name : List Char} (ha : reading.awaiting = false)
    (hl : reading.literal = false) (hn : name ≠ []) (he : argument.toList = '-' :: '-' :: name) :
    reading.take argument = reading.flag (Switch.ofWord name) := by
  obtain ⟨first, rest, rfl⟩ := List.exists_cons_of_ne_nil hn
  rw [take, ha, hl, he]
  rfl

theorem Softer.added (h : Softer soft loud) (hliteral : loud.literal = false)
    (hf : IsVolumeFlag argument) (hl : loud.take argument = .ok loud') : Softer soft loud' := by
  rcases hf with rfl | rfl | ⟨letters, hne, hv, he⟩
  · have he : "--verbose".toList = '-' :: '-' :: "verbose".toList := by decide
    have ha := awaiting_of_take he hl
    rw [take_word ha hliteral (by decide) he] at hl
    exact h.verbose hl
  · have he : "--quiet".toList = '-' :: '-' :: "quiet".toList := by decide
    have ha := awaiting_of_take he hl
    rw [take_word ha hliteral (by decide) he] at hl
    exact h.quiet hl
  · obtain ⟨letter, rest, rfl⟩ := List.exists_cons_of_ne_nil hne
    have hd : letter ≠ '-' := hv.ne_hyphen List.mem_cons_self
    have ha := awaiting_of_take he hl
    rw [take_cluster ha hliteral hd he, ← List.append_nil (letter :: rest)] at hl
    obtain ⟨_, ⟨⟩, hs⟩ := h.cluster hv hl
    exact hs

theorem Softer.joined {cluster : String} {letter : Char} (h : Softer soft loud)
    (hliteral : loud.literal = false) (hv : VolumeLetters letters) (hd : letter ≠ '-')
    (he : argument.toList = '-' :: letter :: rest)
    (hc : cluster.toList = '-' :: (letters ++ letter :: rest))
    (hl : loud.take cluster = .ok loud') :
    ∃ soft', soft.take argument = .ok soft' ∧ Softer soft' loud' := by
  obtain ⟨first, others, hfirst, hsplit⟩ := hv.exists_first hd rest
  have hsame : soft.awaiting = loud.awaiting ∧ soft.literal = loud.literal := by
    obtain ⟨-, -⟩ := h
    exact ⟨rfl, rfl⟩
  rw [hsplit] at hc
  have ha := awaiting_of_take hc hl
  rw [take_cluster ha hliteral hfirst hc, ← hsplit] at hl
  rw [take_cluster (hsame.1.trans ha) (hsame.2.trans hliteral) hd he]
  exact h.cluster hv hl

-- The whole of the arguments.
theorem Softer.takeAll {plain loud : List String} (h : Louder plain loud) {soft first last : Reading}
    (hs : Softer soft first) (hliteral : first.literal = false)
    (hl : loud.foldlM Reading.take first = .ok last) :
    ∃ soft', plain.foldlM Reading.take soft = .ok soft' ∧ Softer soft' last := by
  induction h generalizing soft first with
  | same arguments => exact exists_foldlM Softer.take hs hl
  | kept hd _ ih =>
    obtain ⟨next, ht, hrest⟩ := foldlM_cons_eq_ok.mp hl
    obtain ⟨soft', hs', hr⟩ := hs.take ht
    obtain ⟨end', hend, hr⟩ := ih hr ((literal_of_take hd ht).trans hliteral) hrest
    exact ⟨end', foldlM_cons_eq_ok.mpr ⟨soft', hs', hend⟩, hr⟩
  | added hf _ ih =>
    obtain ⟨next, ht, hrest⟩ := foldlM_cons_eq_ok.mp hl
    exact ih (hs.added hliteral hf ht) ((literal_of_take hf.ne_end ht).trans hliteral) hrest
  | @joined _ _ _ rest _ _ _ hv hd he hc _ ih =>
    obtain ⟨next, ht, hrest⟩ := foldlM_cons_eq_ok.mp hl
    obtain ⟨soft', hs', hr⟩ := hs.joined hliteral hv hd he hc ht
    obtain ⟨first, others, hfirst, hsplit⟩ := hv.exists_first hd rest
    rw [hsplit] at hc
    obtain ⟨end', hend, hr⟩ :=
      ih hr ((literal_of_take (ne_end_of_letter hc hfirst) ht).trans hliteral) hrest
    exact ⟨end', foldlM_cons_eq_ok.mpr ⟨soft', hs', hend⟩, hr⟩

-- What has been read says the same, however loud. Flags that contradict each other are not
-- there without one of them.
theorem Softer.finish {invocation : Invocation} (h : Softer soft loud)
    (hl : loud.finish = .ok invocation) :
    ∃ level, soft.finish = .ok { invocation with level } := by
  have hboth {volume other : Volume} (hv : volume.Within other)
      (hc : (decide (0 < volume.verbose) && volume.quiet) = true) :
      (decide (0 < other.verbose) && other.quiet) = true := by
    simp only [Bool.and_eq_true, decide_eq_true_eq] at hc ⊢
    exact ⟨hc.1.trans_le hv.verbose, hv.quiet hc.2⟩
  obtain ⟨hbefore, hbehind⟩ := h
  unfold Reading.finish at hl ⊢
  split at hl
  · cases hl
  · next hloud =>
    rw [if_neg]
    · obtain ⟨_, stage, _, file, _, _, _, _, _⟩ := soft
      cases stage with
      | none => cases hl
      | some stage =>
        cases file with
        | none => cases hl
        | some file =>
          cases hl
          exact ⟨_, rfl⟩
    · refine mt (fun hsoft => ?_) hloud
      rw [Bool.or_eq_true, Bool.or_eq_true] at hsoft ⊢
      exact hsoft.imp (Or.imp id (hboth hbefore)) (hboth hbehind)

end Reading

theorem ofArguments_eq_ok {arguments : List String} {invocation : Invocation} :
    Invocation.ofArguments arguments = .ok invocation ↔
      ∃ reading, arguments.foldlM Reading.take .empty = .ok reading ∧
        reading.finish = .ok invocation := by
  rw [Invocation.ofArguments]
  cases hr : arguments.foldlM Reading.take .empty with
  | error stop =>
    constructor
    · nofun
    · rintro ⟨_, ⟨⟩, _⟩
  | ok reading =>
    constructor
    · exact fun h => ⟨reading, rfl, h⟩
    · rintro ⟨_, ⟨⟩, h⟩
      exact h

-- Without its flags of volume a command line is accepted as well, and asks for the same thing.
theorem ofArguments_of_louder {plain loud : List String} {invocation : Invocation}
    (h : Louder plain loud) (hl : Invocation.ofArguments loud = .ok invocation) :
    ∃ level, Invocation.ofArguments plain = .ok { invocation with level } := by
  obtain ⟨last, hread, hfinish⟩ := ofArguments_eq_ok.mp hl
  obtain ⟨soft, hsoft, hs⟩ := (Reading.Softer.refl .empty).takeAll h rfl hread
  obtain ⟨level, hlevel⟩ := hs.finish hfinish
  exact ⟨level, ofArguments_eq_ok.mpr ⟨soft, hsoft, hlevel⟩⟩

end ScriptIR.Command
