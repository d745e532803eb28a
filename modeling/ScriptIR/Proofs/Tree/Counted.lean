import Mathlib
import ScriptIR.Proofs.Text.Lines
import ScriptIR.Proofs.Tree.ReadBack

namespace ScriptIR

-- The way from a node to a sub-tree right below it.
inductive Branch where
  | owned (index : Nat)
  | child (index : Nat)
deriving DecidableEq

def Branch.isOwned : Branch → Bool
  | owned _ => true
  | child _ => false

-- The way from the root of a tree to a node. Two nodes that are equal differ by it.
abbrev Address := List Branch

-- Whether a node lies in a sub-tree that another node owns.
def Address.isHidden (address : Address) : Bool := address.any Branch.isOwned

section isHidden

variable (index : Nat) (rest : Address)

@[simp] theorem Address.isHidden_nil : Address.isHidden [] = false := rfl

@[simp] theorem Address.isHidden_owned : Address.isHidden (.owned index :: rest) = true := rfl

@[simp] theorem Address.isHidden_child :
    Address.isHidden (.child index :: rest) = Address.isHidden rest := rfl

end isHidden

namespace Tree

def branch? (tree : Tree) : Branch → Option Tree
  | .owned index => tree.owned[index]?
  | .child index => tree.children[index]?

def at? (tree : Tree) : Address → Option Tree
  | [] => some tree
  | branch :: rest => (tree.branch? branch).bind (·.at? rest)

-- The sub-trees right below a node, each with the way to it.
def branches (tree : Tree) : List (Branch × Tree) :=
  (tree.owned.mapIdx fun index part => (.owned index, part)) ++
    tree.children.mapIdx fun index part => (.child index, part)

theorem map_snd_branches (tree : Tree) :
    tree.branches.map Prod.snd = tree.owned ++ tree.children := by
  have hparts (way : Nat → Branch) (parts : List Tree) :
      (parts.mapIdx fun index part => (way index, part)).map Prod.snd = parts :=
    List.ext_getElem (by simp) (by simp)
  rw [branches, List.map_append, hparts, hparts]

theorem mem_branches {tree part : Tree} {branch : Branch} :
    (branch, part) ∈ tree.branches ↔ tree.branch? branch = some part := by
  cases branch with
  | owned index => simp [branches, branch?, List.mem_mapIdx, List.getElem?_eq_some_iff]
  | child index => simp [branches, branch?, List.mem_mapIdx, List.getElem?_eq_some_iff]

theorem pairwise_branches (tree : Tree) :
    tree.branches.Pairwise fun one other => one.1 ≠ other.1 := by
  rw [branches, List.pairwise_append]
  simp only [List.pairwise_iff_getElem]
  refine ⟨?_, ?_, ?_⟩
  · simp
    omega
  · simp
    omega
  · simp only [List.mem_mapIdx]
    rintro _ ⟨i, hi, rfl⟩ _ ⟨j, hj, rfl⟩
    exact nofun

theorem sizeAll_eq_sum (trees : List Tree) : sizeAll trees = (trees.map size).sum := by
  induction trees with
  | nil => rfl
  | cons tree rest ih => rw [sizeAll, ih, List.map_cons, List.sum_cons]

theorem size_eq_sum_branches (tree : Tree) :
    tree.size = 1 + (tree.branches.map fun entry => entry.2.size).sum := by
  rw [size_eq, ← sizeAll_append, ← map_snd_branches, sizeAll_eq_sum, List.map_map]
  rfl

theorem size_lt_of_mem_branches {tree : Tree} {entry : Branch × Tree}
    (h : entry ∈ tree.branches) : entry.2.size < tree.size := by
  have hm := List.le_sum_of_mem
    (List.mem_map_of_mem (f := fun entry : Branch × Tree => entry.2.size) h)
  rw [size_eq_sum_branches tree]
  omega

-- What every node has from all that is right below it, every tree has.
theorem of_branches {motive : Tree → Prop}
    (h : ∀ tree, (∀ entry ∈ tree.branches, motive entry.2) → motive tree) (tree : Tree) :
    motive tree :=
  h tree fun entry _ => of_branches h entry.2
termination_by tree.size
decreasing_by exact size_lt_of_mem_branches ‹_›

-- The addresses of all nodes, each node in front of what is below it.
def addresses (tree : Tree) : List Address :=
  [] :: tree.branches.attach.flatMap fun ⟨(branch, part), _⟩ => part.addresses.map (branch :: ·)
termination_by tree.size
decreasing_by exact size_lt_of_mem_branches ‹_›

theorem addresses_eq (tree : Tree) : tree.addresses =
    [] :: tree.branches.flatMap fun entry => entry.2.addresses.map (entry.1 :: ·) := by
  rw [addresses]
  refine congrArg _ (Eq.trans ?_ (congrArg _ (List.unattach_attach (l := tree.branches))))
  exact List.flatMap_subtype fun _ _ => rfl

theorem mem_addresses {tree : Tree} {address : Address} :
    address ∈ tree.addresses ↔ (tree.at? address).isSome := by
  induction address generalizing tree with
  | nil => simp [addresses_eq tree, at?]
  | cons branch rest ih =>
    rw [addresses_eq, at?]
    constructor
    · intro h
      obtain ⟨⟨_, part⟩, hm, ha⟩ := List.mem_flatMap.mp ((List.mem_cons.mp h).resolve_left
        (List.cons_ne_nil branch rest))
      obtain ⟨_, hr, he⟩ := List.mem_map.mp ha
      cases he
      rw [mem_branches.mp hm]
      exact ih.mp hr
    · intro h
      obtain ⟨part, hb⟩ := Option.isSome_iff_exists.mp (Option.isSome_of_isSome_bind h)
      rw [hb] at h
      have hm := List.mem_map_of_mem (f := (branch :: ·)) (ih.mpr h)
      exact List.mem_cons_of_mem _ (List.mem_flatMap_of_mem (mem_branches.mpr hb) hm)

theorem nodup_addresses (tree : Tree) : tree.addresses.Nodup := by
  induction tree using of_branches with
  | h tree ih =>
    rw [addresses_eq, List.nodup_cons, List.nodup_flatMap]
    refine ⟨by simp, fun entry hm => (ih entry hm).map List.cons_injective, ?_⟩
    refine tree.pairwise_branches.imp fun {one other} hne address ho hr => ?_
    obtain ⟨_, -, rfl⟩ := List.mem_map.mp ho
    obtain ⟨_, -, he⟩ := List.mem_map.mp hr
    exact hne (List.cons.inj he).1.symm

theorem length_addresses (tree : Tree) : tree.addresses.length = tree.size := by
  induction tree using of_branches with
  | h tree ih =>
    have hbranches : (tree.branches.map fun entry =>
        (entry.2.addresses.map (entry.1 :: ·)).length) =
        tree.branches.map fun entry => entry.2.size :=
      List.map_congr_left fun entry hm => by rw [List.length_map, ih entry hm]
    rw [addresses_eq, List.length_cons, List.length_flatMap, hbranches, size_eq_sum_branches,
      Nat.add_comm]

theorem countP_addresses (tree : Tree) : tree.addresses.countP Address.isHidden =
    (tree.owned.map size).sum +
      (tree.children.map fun child => child.addresses.countP Address.isHidden).sum := by
  have howned : ((tree.owned.mapIdx fun index part => (Branch.owned index, part)).map
      fun entry => (entry.2.addresses.map (entry.1 :: ·)).countP Address.isHidden) =
        tree.owned.map size := by
    refine List.ext_getElem (by simp) fun index _ _ => ?_
    simp [List.countP_map, Function.comp_def, length_addresses]
  have hchildren : ((tree.children.mapIdx fun index part => (Branch.child index, part)).map
      fun entry => (entry.2.addresses.map (entry.1 :: ·)).countP Address.isHidden) =
        tree.children.map fun child => child.addresses.countP Address.isHidden := by
    refine List.ext_getElem (by simp) fun index _ _ => ?_
    simp [List.countP_map, Function.comp_def]
  rw [addresses_eq, List.countP_cons_of_neg (by simp), List.countP_flatMap, branches,
    Function.comp_def, List.map_append, howned, hchildren, List.sum_append]

-- An outline comes across the nodes that lie in no owned sub-tree.
theorem length_reached (tree : Tree) (depth : Nat) :
    (tree.reached depth).length + tree.addresses.countP Address.isHidden = tree.size := by
  induction tree using of_children generalizing depth with
  | h tree ih =>
    have hchildren : (tree.children.map size).sum =
        (tree.children.map fun child => (child.reached (depth + 1)).length).sum +
          (tree.children.map fun child => child.addresses.countP Address.isHidden).sum := by
      rw [← List.sum_map_add]
      exact congrArg List.sum (List.map_congr_left fun child hm => (ih child hm (depth + 1)).symm)
    rw [reached_eq, List.length_cons, List.length_flatMap, countP_addresses, size_eq,
      sizeAll_eq_sum, sizeAll_eq_sum, hchildren]
    omega

end Tree

-- A count on its way: the nodes that are counted, and the trees that are still to be counted.
structure Worklist where
  counted : List Address
  pending : List (Address × Tree)

namespace Worklist

open ScriptIR.Tree

variable {work later : Worklist}

def start (tree : Tree) : Worklist := ⟨[], [([], tree)]⟩

def entries (entry : Address × Tree) : List (Address × Tree) :=
  entry.2.branches.map fun (branch, part) => (entry.1 ++ [branch], part)

-- One step. It counts a node, whichever of those that are pending, and what is right below it
-- is pending from then on, wherever it is put.
inductive Step : Worklist → Worklist → Prop
  | count {counted : List Address} {pending others left : List (Address × Tree)}
      {entry : Address × Tree} (taken : pending.Perm (entry :: others))
      (put : left.Perm (others ++ entries entry)) :
      Step ⟨counted, pending⟩ ⟨entry.1 :: counted, left⟩

def Runs : Worklist → Worklist → Prop := Relation.ReflTransGen Step

-- The step of a stack. The last of what is pending is counted, and what is right below it is
-- put to the end.
def next (work : Worklist) : Option Worklist :=
  work.pending.getLast?.map fun entry =>
    ⟨entry.1 :: work.counted, work.pending.dropLast ++ entries entry⟩

def steps : Nat → Worklist → Option Worklist
  | 0, work => some work
  | count + 1, work => work.next.bind (steps count)

-- All nodes of a pending tree.
def reach (entry : Address × Tree) : List Address := entry.2.addresses.map (entry.1 ++ ·)

-- The nodes that are still to be counted.
def ahead (work : Worklist) : List Address := work.pending.flatMap reach

theorem reach_eq (entry : Address × Tree) :
    reach entry = entry.1 :: (entries entry).flatMap reach := by
  rw [reach, addresses_eq, entries, List.map_cons, List.append_nil, List.map_flatMap,
    List.flatMap_map]
  simp [reach, Function.comp_def]

theorem ahead_start (tree : Tree) : (start tree).ahead = tree.addresses := by
  simp [ahead, start, reach]

theorem length_ahead (work : Worklist) :
    work.ahead.length = (work.pending.map fun entry => entry.2.count).sum := by
  simp only [ahead, List.length_flatMap, reach, List.length_map, length_addresses, count_eq_size]

-- What is counted and what is still to be counted are the same nodes behind each step.
theorem Step.perm (h : work.Step later) :
    (later.counted ++ later.ahead).Perm (work.counted ++ work.ahead) := by
  obtain @⟨counted, pending, others, left, entry, taken, put⟩ := h
  have hbefore := taken.flatMap_right reach
  have hbehind := put.flatMap_right reach
  rw [List.flatMap_cons, reach_eq, List.cons_append] at hbefore
  rw [List.flatMap_append] at hbehind
  have hmiddle : (counted ++ entry.1 :: ((entries entry).flatMap reach ++
      others.flatMap reach)).Perm (entry.1 :: counted ++ (others.flatMap reach ++
        (entries entry).flatMap reach)) :=
    List.perm_middle.trans (List.perm_append_comm.append_left (entry.1 :: counted))
  exact (hbehind.append_left _).trans (hmiddle.symm.trans (hbefore.symm.append_left _))

theorem Runs.perm (h : work.Runs later) :
    (later.counted ++ later.ahead).Perm (work.counted ++ work.ahead) := by
  induction h with
  | refl => exact .rfl
  | tail _ hs ih => exact hs.perm.trans ih

-- Each step leaves one node less.
theorem Step.length_ahead (h : work.Step later) : work.ahead.length = later.ahead.length + 1 := by
  have hl := h.perm.length_eq
  obtain ⟨taken, put⟩ := h
  simp only [List.length_append, List.length_cons] at hl
  omega

theorem exists_step (h : work.pending ≠ []) : ∃ later, work.Step later := by
  obtain ⟨counted, pending⟩ := work
  obtain ⟨entry, others, rfl⟩ := List.exists_cons_of_ne_nil h
  exact ⟨_, .count .rfl .rfl⟩

theorem step_of_next (h : work.next = some later) : work.Step later := by
  obtain ⟨counted, pending⟩ := work
  obtain ⟨entry, hlast, rfl⟩ := Option.map_eq_some_iff.mp h
  have htaken : pending.dropLast ++ [entry] = pending :=
    List.dropLast_append_getLast? entry hlast
  refine .count ?_ .rfl
  have hperm := List.perm_append_singleton entry pending.dropLast
  rwa [htaken] at hperm

theorem pending_of_next (h : work.next = none) : work.pending = [] :=
  List.getLast?_eq_none_iff.mp (Option.map_eq_none_iff.mp h)

-- The stack is empty behind as many steps as there are nodes still to be counted.
theorem exists_steps (work : Worklist) :
    ∃ counted, work.steps work.ahead.length = some ⟨counted, []⟩ := by
  cases hn : work.next with
  | none =>
    obtain ⟨counted, pending⟩ := work
    obtain rfl : pending = [] := pending_of_next hn
    exact ⟨counted, rfl⟩
  | some later =>
    have hs := (step_of_next hn).length_ahead
    obtain ⟨counted, hc⟩ := exists_steps later
    refine ⟨counted, ?_⟩
    rw [hs, steps, hn, Option.bind_some, hc]
termination_by work.ahead.length
decreasing_by exact (step_of_next hn).length_ahead ▸ Nat.lt_succ_self _

theorem runs_of_steps {count : Nat} (h : work.steps count = some later) : work.Runs later := by
  induction count generalizing work with
  | zero =>
    cases h
    exact .refl
  | succ count ih =>
    obtain ⟨middle, hn, hs⟩ := Option.bind_eq_some_iff.mp h
    exact .head (step_of_next hn) (ih hs)

theorem wellFounded_step : WellFounded fun later work : Worklist => work.Step later :=
  Subrelation.wf (fun hs => Nat.lt_of_succ_le (Nat.le_of_eq hs.length_ahead.symm))
    (measure fun work : Worklist => work.ahead.length).wf

theorem Runs.counted_perm {tree : Tree} (h : (start tree).Runs work) (hp : work.pending = []) :
    work.counted.Perm tree.addresses := by
  have hperm := h.perm
  rwa [ahead_start, ahead, hp, List.flatMap_nil, List.append_nil] at hperm

end Worklist

namespace Tree

variable {tree : Tree}

theorem count_eq (tree : Tree) :
    tree.count = 1 + ((tree.owned.map count).sum + (tree.children.map count).sum) := by
  have hcount : count = size := funext count_eq_size
  rw [hcount, size_eq, sizeAll_eq_sum, sizeAll_eq_sum]

theorem length_lines_outline (h : tree.OneLined) : (Text.lines tree.outline.toList).length =
    (tree.reached 0).length + (tree.reached 0).countP (·.2.isNamedAggregate) := by
  have hlines : ∀ line ∈ (tree.headings 0).map Heading.line, '\n' ∉ line.toList :=
    List.forall_mem_map.mpr fun heading hm => (h.plain hm).2
  rw [outline, outlineAt_eq_writeAll, Heading.writeAll_eq_ended, Text.length_lines_toList_ended,
    (Text.length_wholeLines_ended_iff _).mpr hlines, List.length_map, length_headings]

end Tree

-- What the count of a tree is, and how a worklist comes to it.
structure CountedOnce (tree : Tree) : Prop where
  sum : tree.count = 1 + ((tree.owned.map Tree.count).sum + (tree.children.map Tree.count).sum)
  -- a tree has as many addresses as its count, and they are those that lead to a node
  distinct : tree.addresses.Nodup
  length : tree.addresses.length = tree.count
  lead : ∀ address, address ∈ tree.addresses ↔ (tree.at? address).isSome
  -- a stack is empty behind that many steps, with all nodes counted
  stack : ∃ counted, (Worklist.start tree).steps tree.count = some ⟨counted, []⟩ ∧
    counted.Perm tree.addresses
  -- in whatever order the pending trees are taken, the steps come to an end, not before
  -- nothing is pending, and with each node counted once
  ends : WellFounded fun later work : Worklist => work.Step later
  goesOn : ∀ work : Worklist, work.pending ≠ [] → ∃ later, work.Step later
  remaining : ∀ work, (Worklist.start tree).Runs work →
    work.counted.length + (work.pending.map fun entry => entry.2.count).sum = tree.count
  once : ∀ work, (Worklist.start tree).Runs work → work.pending = [] →
    work.counted.Perm tree.addresses
  -- an outline has a line for each node that is in no owned sub-tree, as long as it has no
  -- lines beside these
  lines : tree.OneLined → (∀ entry ∈ tree.reached 0, entry.2.isNamedAggregate = false) →
    (Text.lines tree.outline.toList).length + tree.addresses.countP Address.isHidden = tree.count

theorem count_once (tree : Tree) : CountedOnce tree where
  sum := tree.count_eq
  distinct := tree.nodup_addresses
  length := by rw [Tree.length_addresses, Tree.count_eq_size]
  lead := fun _ => Tree.mem_addresses
  stack := by
    obtain ⟨counted, hsteps⟩ := Worklist.exists_steps (.start tree)
    rw [Worklist.ahead_start, Tree.length_addresses, ← Tree.count_eq_size] at hsteps
    exact ⟨counted, hsteps, (Worklist.runs_of_steps hsteps).counted_perm rfl⟩
  ends := Worklist.wellFounded_step
  goesOn := fun _ => Worklist.exists_step
  remaining := by
    intro work hr
    have hl := hr.perm.length_eq
    rwa [Worklist.ahead_start, List.length_append, List.length_append, Worklist.length_ahead,
      Tree.length_addresses, ← Tree.count_eq_size, Worklist.start, List.length_nil,
      Nat.zero_add] at hl
  once := fun _ => Worklist.Runs.counted_perm
  lines := by
    intro hlined hunnamed
    have hnone : (tree.reached 0).countP (·.2.isNamedAggregate) = 0 :=
      List.countP_eq_zero.mpr fun entry hm => by simp [hunnamed entry hm]
    rw [Tree.length_lines_outline hlined, hnone, Nat.add_zero, Tree.length_reached,
      Tree.count_eq_size]

-- The bounds of a loop and the value of a return have no lines.
theorem count_once_loop :
    let tree : Tree := .loop "i" (.node (.literal "0") [] ⟨1, 10⟩)
      (.node .call [Grammar.identifierNode "f" ⟨1, 13⟩] ⟨1, 13⟩)
      [.giving (Grammar.identifierNode "i" ⟨1, 26⟩) [] ⟨1, 19⟩] ⟨1, 1⟩
    tree.OneLined ∧ (∀ entry ∈ tree.reached 0, entry.2.isNamedAggregate = false) ∧
      tree.count = 6 ∧
      (Text.lines tree.outline.toList).length + tree.addresses.countP Address.isHidden = 6 := by
  intro tree
  have hlined : tree.OneLined := by decide
  have hunnamed : ∀ entry ∈ tree.reached 0, entry.2.isNamedAggregate = false := by decide
  have hcount : tree.count = 6 := tree.count_eq_size.trans rfl
  exact ⟨hlined, hunnamed, hcount, ((count_once tree).lines hlined hunnamed).trans hcount⟩

end ScriptIR
