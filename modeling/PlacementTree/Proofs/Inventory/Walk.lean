import Mathlib.Data.List.Nodup
import Mathlib.Data.List.Perm.Basic
import PlacementTree.Inventory.Validate

/-!
# The walk comes to an end, and when it finds nothing

`Inventory.Walks` describes the walk of `Inventory.walk` without a bound on its rounds. The bound of the check is large enough
for every inventory, circles included (`walks_walk`): a round takes an id off the stack and puts on it the list of a scheduler
that was not met before, so the ids on the stack and the entries ahead (`entriesAhead`) become fewer together.

A walk that finds nothing takes every id off the stack once. So it finds nothing exactly when the ids it takes off, the stack and
the lists of all of them together, are distinct (`walks_none_iff`).
-/

namespace PlacementTree

namespace Inventory

/-- The walk without a bound, from the ids met so far and the stack to what it reports. A derivation is a walk that ends. -/
inductive Walks (inv : Inventory) : List String → List String → Option InventoryFault → Prop where
  | done (seen : List String) : Walks inv seen [] none
  | again {seen stack : List String} {id : String} :
      id ∈ seen → Walks inv seen (id :: stack) (some (.reachedTwice id))
  | down {seen stack : List String} {id : String} {outcome : Option InventoryFault} :
      id ∉ seen → Walks inv (id :: seen) ((inv.below id).reverse ++ stack) outcome → Walks inv seen (id :: stack) outcome

/-- How many entries the lists of the schedulers that were not met have together. -/
def entriesAhead (seen : List String) : List SchedulerEntry → Nat
  | [] => 0
  | s :: rest => if s.id ∈ seen then entriesAhead seen rest else s.below.length + entriesAhead seen rest

/-- Before the walk every entry is ahead. -/
theorem entriesAhead_nil (inv : Inventory) : entriesAhead [] inv.schedulers = inv.edgeCount := by
  unfold edgeCount
  induction inv.schedulers with
  | nil => rfl
  | cons s rest ih => simp [entriesAhead, ih]

/-- Meeting one more id puts no entry ahead. -/
theorem entriesAhead_cons_le (id : String) (seen : List String) (schedulers : List SchedulerEntry) :
    entriesAhead (id :: seen) schedulers ≤ entriesAhead seen schedulers := by
  induction schedulers with
  | nil => exact Nat.le_refl _
  | cons s rest ih =>
    simp only [entriesAhead, List.mem_cons]
    by_cases hs : s.id ∈ seen
    · simpa [hs] using ih
    · by_cases hid : s.id = id
      · simp only [hid, true_or, if_true]
        split <;> omega
      · simp only [hid, hs, or_self, if_false]
        omega

/-- What stands below an id that was not met before was ahead and is no longer. -/
theorem below_length_add_entriesAhead_le (inv : Inventory) {id : String} {seen : List String} (h : id ∉ seen) :
    (inv.below id).length + entriesAhead (id :: seen) inv.schedulers ≤ entriesAhead seen inv.schedulers := by
  unfold below scheduler?
  induction inv.schedulers with
  | nil => simp [entriesAhead]
  | cons s rest ih =>
    by_cases hid : s.id = id
    · have hle := entriesAhead_cons_le id seen rest
      simp only [List.find?_cons, hid, beq_self_eq_true, entriesAhead, List.mem_cons, true_or, if_true, h, if_false]
      omega
    · have hne : (s.id == id) = false := beq_false_of_ne hid
      simp only [List.find?_cons, hne, entriesAhead, List.mem_cons, hid, false_or]
      by_cases hs : s.id ∈ seen
      · simpa only [hs, if_true] using ih
      · simp only [hs, if_false]
        omega

/-- A bound above the ids on the stack and the entries ahead is no bound: the walk ends before it. -/
theorem walks_of_fuel (inv : Inventory) (fuel : Nat) (seen stack : List String)
    (h : stack.length + entriesAhead seen inv.schedulers < fuel) : inv.Walks seen stack (inv.walk fuel seen stack) := by
  induction fuel generalizing seen stack with
  | zero => exact absurd h (Nat.not_lt_zero _)
  | succ fuel ih =>
    cases stack with
    | nil => exact Walks.done seen
    | cons id stack =>
      unfold walk
      by_cases hid : id ∈ seen
      · rw [if_pos (List.contains_iff_mem.mpr hid)]
        exact Walks.again hid
      · rw [if_neg (fun hc => hid (List.contains_iff_mem.mp hc))]
        have hle := inv.below_length_add_entriesAhead_le hid
        apply Walks.down hid
        apply ih
        simp only [List.length_cons, List.length_append, List.length_reverse] at h ⊢
        omega

/-- The walk of the check ends, whatever the inventory, and reports what the walk without a bound does. -/
theorem walks_walk (inv : Inventory) :
    inv.Walks [] [inv.root] (inv.walk (inv.edgeCount + 2) [] [inv.root]) := by
  apply walks_of_fuel
  rw [entriesAhead_nil, List.length_singleton]
  omega

/-- What the walk reports is settled by where it starts. -/
theorem Walks.unique {inv : Inventory} {seen stack : List String} {o o' : Option InventoryFault}
    (h : inv.Walks seen stack o) (h' : inv.Walks seen stack o') : o = o' := by
  induction h with
  | done => cases h'; rfl
  | again hid =>
    cases h' with
    | again => rfl
    | down hn => exact absurd hid hn
  | down hid _ ih =>
    cases h' with
    | again hm => exact absurd hm hid
    | down _ h' => exact ih h'

/-! ## When the walk finds nothing -/

/-- The ids that a walk takes off its stack when it finds nothing: those on the stack and those below the ids taken off, all of
them distinct and none of them met before. -/
structure TakenOff (inv : Inventory) (seen stack taken : List String) : Prop where
  perm : taken.Perm (stack ++ taken.flatMap inv.below)
  nodup : taken.Nodup
  fresh : ∀ id ∈ taken, id ∉ seen

theorem Walks.exists_takenOff {inv : Inventory} {seen stack : List String} {o : Option InventoryFault}
    (h : inv.Walks seen stack o) (ho : o = none) : ∃ taken, inv.TakenOff seen stack taken := by
  induction h with
  | done seen => exact ⟨[], List.Perm.refl _, List.nodup_nil, by simp⟩
  | again => cases ho
  | @down seen stack id _ hid _ ih =>
    obtain ⟨taken, hperm, hnd, hfresh⟩ := ih ho
    have hnot : id ∉ taken := fun hm => hfresh id hm (List.mem_cons_self ..)
    refine ⟨id :: taken, ?_, List.nodup_cons.mpr ⟨hnot, hnd⟩, ?_⟩
    · rw [List.cons_append, List.flatMap_cons]
      apply List.Perm.cons
      calc taken.Perm ((inv.below id).reverse ++ stack ++ taken.flatMap inv.below) := hperm
        _ |>.Perm (inv.below id ++ stack ++ taken.flatMap inv.below) :=
          ((List.reverse_perm _).append_right _).append_right _
        _ |>.Perm (stack ++ (inv.below id ++ taken.flatMap inv.below)) := by
          rw [← List.append_assoc]
          exact List.perm_append_comm.append_right _
    · rintro x (_ | ⟨_, hx⟩)
      · exact hid
      · exact fun hs => hfresh x hx (List.mem_cons_of_mem _ hs)

/-- Distinct ids that are closed downwards are taken off without a find. -/
theorem TakenOff.walks {inv : Inventory} {seen stack taken : List String} (h : inv.TakenOff seen stack taken) :
    inv.Walks seen stack none := by
  induction hn : taken.length generalizing seen stack taken with
  | zero =>
    obtain ⟨hperm, -, -⟩ := h
    rw [List.length_eq_zero_iff.mp hn] at hperm
    obtain ⟨rfl, -⟩ := List.append_eq_nil_iff.mp hperm.nil_eq.symm
    exact Walks.done seen
  | succ n ih =>
    obtain ⟨hperm, hnd, hfresh⟩ := h
    cases stack with
    | nil => exact Walks.done seen
    | cons id stack =>
      have hid : id ∈ taken := hperm.mem_iff.mpr (by simp)
      have hrest := List.perm_cons_erase hid
      have hnd' := List.nodup_cons.mp (hrest.nodup_iff.mp hnd)
      have hflat : (taken.flatMap inv.below).Perm (inv.below id ++ (taken.erase id).flatMap inv.below) :=
        hrest.flatMap_right _
      have htaken : inv.TakenOff (id :: seen) ((inv.below id).reverse ++ stack) (taken.erase id) := by
        refine ⟨?_, hnd'.2, ?_⟩
        · calc (taken.erase id).Perm (stack ++ taken.flatMap inv.below) := (hrest.symm.trans hperm).cons_inv
            _ |>.Perm (stack ++ (inv.below id ++ (taken.erase id).flatMap inv.below)) := hflat.append_left _
            _ |>.Perm ((inv.below id).reverse ++ stack ++ (taken.erase id).flatMap inv.below) := by
              rw [← List.append_assoc]
              exact (List.perm_append_comm.trans ((List.reverse_perm _).symm.append_right _)).append_right _
        · intro x hx hs
          rcases List.mem_cons.mp hs with rfl | hs
          · exact hnd'.1 hx
          · exact hfresh x (List.mem_of_mem_erase hx) hs
      apply Walks.down (hfresh id hid)
      apply ih htaken
      rw [List.length_erase_of_mem hid, hn]
      rfl

/-- The walk finds nothing exactly when the ids it has to take off are distinct and not met before. -/
theorem walks_none_iff {inv : Inventory} {seen stack : List String} :
    inv.Walks seen stack none ↔ ∃ taken, inv.TakenOff seen stack taken :=
  ⟨fun h => h.exists_takenOff rfl, fun ⟨_, h⟩ => h.walks⟩

end Inventory

end PlacementTree
