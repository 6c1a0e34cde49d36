import Mathlib.Data.List.MinMax
import Mathlib.Logic.Relation
import PlacementTree.Aggregate

/-!
# The wait of a fan-in, turn by turn

A fan-in waits for one answer after the other. A turn takes an answer that is there no later than any other still out, if that is
before the deadline (`FanIn.Turn`); of several that are there at one instant it may take any. The wait ends when nobody is out any
more, or at the deadline (`FanIn.Ends`).

Every wait comes to its end (`Dispatch.wait_comes_to_end`), and whatever the order of the answers it ends when `Dispatch.finishedAt` says,
with what `Dispatch.collected` holds (`Dispatch.wait_ends`). What a wait has done so far is described by `FanIn.Follows`.
-/

namespace PlacementTree

/-- A fan-in under way: the answers that are still out, those taken in so far, and the time. -/
structure FanIn where
  pending : List Arrival
  collected : List Arrival
  now : Int

namespace FanIn

/-- One turn of the wait takes in an answer that is there next, before the deadline. -/
inductive Turn (deadline : Int) (w : FanIn) : FanIn → Prop where
  | take {a : Arrival} :
      a ∈ w.pending → (∀ b ∈ w.pending, a.time ≤ b.time) → a.time < deadline →
        Turn deadline w { pending := w.pending.erase a, collected := w.collected ++ [a], now := max w.now a.time }

/-- The wait ends, at a time and with a number of answers still out. -/
inductive Ends (deadline : Int) (w : FanIn) : Int → Nat → Prop where
  | nobodyOut : w.pending = [] → Ends deadline w w.now 0
  | deadline : w.pending ≠ [] → (∀ a ∈ w.pending, deadline ≤ a.time) → Ends deadline w deadline w.pending.length

/-- What a wait that started at `start` has done of a dispatch so far. -/
structure Follows (d : Dispatch) (start : Int) (w : FanIn) : Prop where
  split : (w.collected ++ w.pending).Perm d.arrivals
  inTime : ∀ a ∈ w.collected, d.inTime a = true
  sorted : w.collected.Pairwise fun a b => a.time ≤ b.time
  ahead : ∀ a ∈ w.collected, ∀ b ∈ w.pending, a.time ≤ b.time
  latest : w.now = w.collected.foldl (fun latest a => max latest a.time) start

variable {d : Dispatch} {start : Int} {w w' : FanIn}

/-- A turn does no more of the dispatch than there is. -/
theorem Follows.turn (h : w.Follows d start) (ht : w.Turn d.deadline w') : w'.Follows d start := by
  obtain @⟨a, ha, hfirst, hdue⟩ := ht
  constructor
  · calc (w.collected ++ [a] ++ w.pending.erase a).Perm (w.collected ++ (a :: w.pending.erase a)) := by simp
      _ |>.Perm (w.collected ++ w.pending) := (List.perm_cons_erase ha).symm.append_left _
      _ |>.Perm d.arrivals := h.split
  · intro b hb
    rcases List.mem_append.mp hb with hb | hb
    · exact h.inTime b hb
    · obtain rfl := List.mem_singleton.mp hb
      rw [Dispatch.inTime, decide_eq_true_eq]
      exact hdue
  · rw [List.pairwise_append]
    refine ⟨h.sorted, List.pairwise_singleton _ _, ?_⟩
    intro b hb c hc
    obtain rfl := List.mem_singleton.mp hc
    exact h.ahead b hb c ha
  · intro b hb c hc
    have hout : c ∈ w.pending := List.mem_of_mem_erase hc
    rcases List.mem_append.mp hb with hb | hb
    · exact h.ahead b hb c hout
    · obtain rfl := List.mem_singleton.mp hb
      exact hfirst c hout
  · rw [List.foldl_append, ← h.latest]
    rfl

/-- No run of turns does more than there is. -/
theorem Follows.turns (h : w.Follows d start) (hrun : Relation.ReflTransGen (Turn d.deadline) w w') : w'.Follows d start := by
  induction hrun with
  | refl => exact h
  | tail _ ht ih => exact ih.turn ht

/-- A wait that has not ended takes another turn. -/
theorem ends_or_turn (deadline : Int) (w : FanIn) : (∃ time late, w.Ends deadline time late) ∨ ∃ w', w.Turn deadline w' := by
  by_cases hp : w.pending = []
  · exact Or.inl ⟨_, _, Ends.nobodyOut hp⟩
  · obtain ⟨a, ha⟩ := Option.ne_none_iff_exists'.mp (mt List.argmin_eq_none.mp hp : w.pending.argmin Arrival.time ≠ none)
    have hfirst : ∀ b ∈ w.pending, a.time ≤ b.time := fun b hb => List.le_of_mem_argmin hb ha
    by_cases hdue : a.time < deadline
    · exact Or.inr ⟨_, Turn.take (List.argmin_mem ha) hfirst hdue⟩
    · refine Or.inl ⟨_, _, Ends.deadline hp ?_⟩
      intro b hb
      have := hfirst b hb
      omega

/-- Every wait ends: each turn leaves one answer less out. -/
theorem exists_ends (w : FanIn) (deadline : Int) :
    ∃ w' time late, Relation.ReflTransGen (Turn deadline) w w' ∧ w'.Ends deadline time late := by
  generalize hn : w.pending.length = n
  induction n generalizing w with
  | zero => exact ⟨w, _, _, Relation.ReflTransGen.refl, Ends.nobodyOut (List.length_eq_zero_iff.mp hn)⟩
  | succ n ih =>
    rcases ends_or_turn deadline w with ⟨time, late, hend⟩ | ⟨w', ht⟩
    · exact ⟨w, time, late, Relation.ReflTransGen.refl, hend⟩
    · have hn' : w'.pending.length = n := by
        obtain @⟨a, ha, -, -⟩ := ht
        rw [List.length_erase_of_mem ha, hn]
        rfl
      obtain ⟨w'', time, late, hrun, hend⟩ := ih w' hn'
      exact ⟨w'', time, late, hrun.head ht, hend⟩

end FanIn

namespace Dispatch

/-- The wait for a dispatch as it starts. -/
def wait (d : Dispatch) (start : Int) : FanIn := { pending := d.arrivals, collected := [], now := start }

variable (d : Dispatch) (start : Int)

/-- A wait that starts has done nothing. -/
theorem wait_follows : (d.wait start).Follows d start where
  split := List.Perm.refl _
  inTime := by simp [wait]
  sorted := List.Pairwise.nil
  ahead := by simp [wait]
  latest := rfl

/-- The latest of some answers does not depend on their order. -/
theorem latest_perm {l l' : List Arrival} (h : l.Perm l') (start : Int) :
    l.foldl (fun latest a => max latest a.time) start = l'.foldl (fun latest a => max latest a.time) start :=
  h.foldl_eq' (fun a _ b _ latest => by omega) start

variable {d start}

/-- Whatever the order in which the answers come, a wait that has ended did so at the time of the fan-in, with the answers that were in
time, one after the other, and with as many still out as are late. -/
theorem wait_ends {w : FanIn} {time : Int} {late : Nat}
    (hrun : Relation.ReflTransGen (FanIn.Turn d.deadline) (d.wait start) w) (hend : w.Ends d.deadline time late) :
    time = d.finishedAt start ∧ late = d.aggregate.late ∧ w.collected.Perm d.collected ∧
      w.collected.Pairwise fun a b => a.time ≤ b.time := by
  have hw : w.Follows d start := (d.wait_follows start).turns hrun
  have hcollected : w.collected.filter d.inTime = w.collected := List.filter_eq_self.mpr hw.inTime
  have hnone : w.collected.countP (fun a => !d.inTime a) = 0 := by
    rw [List.countP_eq_zero]
    intro a ha
    simp [hw.inTime a ha]
  have hlate : d.aggregate.late = w.pending.countP fun a => !d.inTime a := by
    rw [aggregate, ← hw.split.countP_eq, List.countP_append, hnone, Nat.zero_add]
  have hmerge : d.collected.Perm (w.collected ++ w.pending.filter d.inTime) := by
    calc d.collected.Perm (d.arrivals.filter d.inTime) := List.mergeSort_perm _ _
      _ |>.Perm ((w.collected ++ w.pending).filter d.inTime) := (hw.split.filter _).symm
      _ |>.Perm (w.collected ++ w.pending.filter d.inTime) := by rw [List.filter_append, hcollected]
  cases hend with
  | nobodyOut hp =>
    rw [hp] at hlate hmerge
    have hall : d.arrivals.all d.inTime = true := by
      rw [List.all_eq_true]
      intro a ha
      have ha := hw.split.mem_iff.mpr ha
      rw [hp, List.append_nil] at ha
      exact hw.inTime a ha
    have hsplit := hw.split
    rw [hp, List.append_nil] at hsplit
    refine ⟨?_, ?_, ?_, hw.sorted⟩
    · rw [finishedAt, if_pos hall, hw.latest, latest_perm hsplit]
    · rw [hlate]
      rfl
    · simpa using hmerge.symm
  | deadline hp hdue =>
    have hout : ∀ a ∈ w.pending, d.inTime a = false := by
      intro a ha
      rw [inTime, decide_eq_false_iff_not]
      exact Int.not_lt.mpr (hdue a ha)
    have hall : d.arrivals.all d.inTime ≠ true := by
      obtain ⟨a, ha⟩ := List.exists_mem_of_ne_nil _ hp
      intro hall
      have hin := List.all_eq_true.mp hall a (hw.split.mem_iff.mp (List.mem_append_right _ ha))
      rw [hout a ha] at hin
      cases hin
    refine ⟨?_, ?_, ?_, hw.sorted⟩
    · rw [finishedAt, if_neg hall]
    · rw [hlate, eq_comm, List.countP_eq_length]
      intro a ha
      simp [hout a ha]
    · have hnil : w.pending.filter d.inTime = [] := by
        rw [List.filter_eq_nil_iff]
        intro a ha
        simp [hout a ha]
      rw [hnil, List.append_nil] at hmerge
      exact hmerge.symm

/-- A wait takes no more turns than there are answers, and however far it has got it comes to its end. -/
theorem wait_comes_to_end {w : FanIn} (hrun : Relation.ReflTransGen (FanIn.Turn d.deadline) (d.wait start) w) :
    w.collected.length ≤ d.arrivals.length ∧
      ∃ w' time late, Relation.ReflTransGen (FanIn.Turn d.deadline) w w' ∧ w'.Ends d.deadline time late := by
  have hw : w.Follows d start := (d.wait_follows start).turns hrun
  have hlength := hw.split.length_eq
  rw [List.length_append] at hlength
  exact ⟨by omega, w.exists_ends d.deadline⟩

end Dispatch

end PlacementTree
