import PlacementTree.Proofs.Inventory.Tree

/-!
# Ways down an inventory

A way down (`Inventory.Descends`) has the ids on it and a number of hops: a step to a child is a hop, a step to a host that the
scheduler ranks itself is none. Below the root of a tree there is one way to every reachable id (`IsTree.descends_unique`), it
meets no id twice (`IsTree.descends_nodup`), and what stands below two entries of one list is apart (`IsTree.descends_apart`).
-/

namespace PlacementTree

namespace Inventory

/-- A way down from an id to another: the ids on it, both ends included, and how many of its steps go to a child. -/
inductive Descends (inv : Inventory) : String → List String → Nat → String → Prop where
  | here (id : String) : Descends inv id [id] 0 id
  | child {id c id' : String} {s : SchedulerEntry} {path : List String} {hops : Nat} :
      inv.scheduler? id = some s → c ∈ s.children → Descends inv c path hops id' →
        Descends inv id (id :: path) (hops + 1) id'
  | host {id h id' : String} {s : SchedulerEntry} {path : List String} {hops : Nat} :
      inv.scheduler? id = some s → h ∈ s.hosts → Descends inv h path hops id' → Descends inv id (id :: path) hops id'

/-- What a scheduler lists stands below its id. -/
theorem below_of_scheduler? {inv : Inventory} {id : String} {s : SchedulerEntry} (h : inv.scheduler? id = some s) :
    inv.below id = s.below := by
  rw [below, h]

theorem mem_below_of_children {inv : Inventory} {id c : String} {s : SchedulerEntry} (h : inv.scheduler? id = some s)
    (hc : c ∈ s.children) : c ∈ inv.below id := by
  rw [below_of_scheduler? h]
  exact List.mem_append_left _ hc

theorem mem_below_of_hosts {inv : Inventory} {id c : String} {s : SchedulerEntry} (h : inv.scheduler? id = some s)
    (hc : c ∈ s.hosts) : c ∈ inv.below id := by
  rw [below_of_scheduler? h]
  exact List.mem_append_right _ hc

/-- What stands below an id is a child or a host of the scheduler of that id. -/
theorem exists_scheduler?_of_mem_below {inv : Inventory} {id id' : String} (h : id' ∈ inv.below id) :
    ∃ s, inv.scheduler? id = some s ∧ (id' ∈ s.children ∨ id' ∈ s.hosts) := by
  unfold below at h
  cases hs : inv.scheduler? id with
  | none => simp [hs] at h
  | some s => exact ⟨s, rfl, by simpa [hs, SchedulerEntry.below] using h⟩

/-- A scheduler that is found by an id is listed under it. -/
theorem mem_of_scheduler? {inv : Inventory} {id : String} {s : SchedulerEntry} (h : inv.scheduler? id = some s) :
    s ∈ inv.schedulers ∧ s.id = id :=
  ⟨List.mem_of_find?_eq_some h, by simpa using List.find?_some h⟩

namespace Descends

variable {inv : Inventory} {a b c : String} {path : List String} {hops : Nat}

/-- Below an id that is no scheduler there is no way on. -/
theorem of_scheduler?_eq_none (hs : inv.scheduler? a = none) (h : inv.Descends a path hops b) :
    path = [a] ∧ hops = 0 ∧ b = a := by
  cases h with
  | here => exact ⟨rfl, rfl, rfl⟩
  | child hs' | host hs' => exact absurd (hs.symm.trans hs') (by simp)

/-- From a scheduler a way ends at once, or goes on to a child by a hop, or to a host of its own. -/
theorem of_scheduler?_eq_some {s : SchedulerEntry} (hs : inv.scheduler? a = some s) (h : inv.Descends a path hops b) :
    (path = [a] ∧ hops = 0 ∧ b = a) ∨
      (∃ c' ∈ s.children, ∃ path' hops', path = a :: path' ∧ hops = hops' + 1 ∧ inv.Descends c' path' hops' b) ∨
      ∃ c' ∈ s.hosts, ∃ path', path = a :: path' ∧ inv.Descends c' path' hops b := by
  cases h with
  | here => exact Or.inl ⟨rfl, rfl, rfl⟩
  | child hs' hc hd =>
    obtain rfl := Option.some.inj (hs.symm.trans hs')
    exact Or.inr (Or.inl ⟨_, hc, _, _, rfl, rfl, hd⟩)
  | host hs' hc hd =>
    obtain rfl := Option.some.inj (hs.symm.trans hs')
    exact Or.inr (Or.inr ⟨_, hc, _, rfl, hd⟩)

/-- A way starts where it says. -/
theorem head?_eq (h : inv.Descends a path hops b) : path.head? = some a := by
  cases h <;> rfl

/-- A way ends where it says. -/
theorem getLast?_eq (h : inv.Descends a path hops b) : path.getLast? = some b := by
  induction h with
  | here => rfl
  | child _ _ hd ih | host _ _ hd ih =>
    rw [List.getLast?_cons, ih]
    rfl

/-- A way to what is reachable from the root leads on to what is reachable. -/
theorem reached (h : inv.Descends a path hops b) (ha : inv.Reached a) : inv.Reached b := by
  induction h with
  | here => exact ha
  | child hs hc _ ih => exact ih (Reached.down ha (mem_below_of_children hs hc))
  | host hs hc _ ih => exact ih (Reached.down ha (mem_below_of_hosts hs hc))

/-- Two ways, one from the end of the other, are one way. -/
theorem trans {path' : List String} {hops' : Nat} (h : inv.Descends a path hops b) (h' : inv.Descends b path' hops' c) :
    inv.Descends a (path ++ path'.tail) (hops + hops') c := by
  induction h with
  | here id =>
    have hp : path' = id :: path'.tail := by
      cases h' <;> rfl
    rw [Nat.zero_add, List.singleton_append, ← hp]
    exact h'
  | child hs hc _ ih =>
    rw [Nat.add_right_comm]
    exact Descends.child hs hc (ih h')
  | host hs hc _ ih => exact Descends.host hs hc (ih h')

/-- A way goes on below its end. -/
theorem append_of_mem_below {x : String} {path' : List String} {hops' : Nat} (h : inv.Descends a path hops b)
    (hc : c ∈ inv.below b) (h' : inv.Descends c path' hops' x) : ∃ k, inv.Descends a (path ++ path') k x := by
  obtain ⟨s, hs, hc | hc⟩ := exists_scheduler?_of_mem_below hc
  · exact ⟨_, h.trans (Descends.child hs hc h')⟩
  · exact ⟨_, h.trans (Descends.host hs hc h')⟩

/-- The last step of a way: there is none, or it goes to a child, or to a host that is ranked there. -/
theorem last_step (h : inv.Descends a path hops b) :
    (path = [a] ∧ hops = 0 ∧ b = a) ∨
      ∃ path' hops' y s, inv.Descends a path' hops' y ∧ inv.scheduler? y = some s ∧ path = path' ++ [b] ∧
        ((b ∈ s.children ∧ hops = hops' + 1) ∨ (b ∈ s.hosts ∧ hops = hops')) := by
  induction h with
  | here id => exact Or.inl ⟨rfl, rfl, rfl⟩
  | @child id _ _ s _ _ hs hc hd ih =>
    right
    rcases ih with ⟨rfl, rfl, rfl⟩ | ⟨path', hops', y, s', hd', hs', rfl, hb⟩
    · exact ⟨[id], 0, id, s, Descends.here id, hs, rfl, Or.inl ⟨hc, rfl⟩⟩
    · refine ⟨id :: path', hops' + 1, y, s', Descends.child hs hc hd', hs', rfl, ?_⟩
      rcases hb with ⟨hb, rfl⟩ | ⟨hb, rfl⟩
      · exact Or.inl ⟨hb, rfl⟩
      · exact Or.inr ⟨hb, rfl⟩
  | @host id _ _ s _ _ hs hc hd ih =>
    right
    rcases ih with ⟨rfl, rfl, rfl⟩ | ⟨path', hops', y, s', hd', hs', rfl, hb⟩
    · exact ⟨[id], 0, id, s, Descends.here id, hs, rfl, Or.inr ⟨hc, rfl⟩⟩
    · exact ⟨id :: path', hops', y, s', Descends.host hs hc hd', hs', rfl, hb⟩

/-- Up to each id on a way there is a way that is no longer. -/
theorem exists_prefix (h : inv.Descends a path hops b) {x : String} (hx : x ∈ path) :
    ∃ path' hops', inv.Descends a path' hops' x ∧ path'.length ≤ path.length := by
  induction h with
  | here id =>
    obtain rfl := List.mem_singleton.mp hx
    exact ⟨_, _, Descends.here x, Nat.le_refl _⟩
  | @child id _ _ _ path _ hs hc _ ih =>
    rcases List.mem_cons.mp hx with rfl | hx
    · exact ⟨_, _, Descends.here x, by simp⟩
    · obtain ⟨path', hops', hd, hle⟩ := ih hx
      exact ⟨_, _, Descends.child hs hc hd, Nat.succ_le_succ hle⟩
  | @host id _ _ _ path _ hs hc _ ih =>
    rcases List.mem_cons.mp hx with rfl | hx
    · exact ⟨_, _, Descends.here x, by simp⟩
    · obtain ⟨path', hops', hd, hle⟩ := ih hx
      exact ⟨_, _, Descends.host hs hc hd, Nat.succ_le_succ hle⟩

/-- All ids on a way but the last are those of schedulers. -/
theorem mem_schedulerIds (h : inv.Descends a path hops b) {x : String} (hx : x ∈ path) :
    x = b ∨ x ∈ inv.schedulerIds := by
  have hmem : ∀ {id : String} {s : SchedulerEntry}, inv.scheduler? id = some s → id ∈ inv.schedulerIds := by
    intro id s hs
    obtain ⟨hin, rfl⟩ := mem_of_scheduler? hs
    exact List.mem_map_of_mem hin
  induction h with
  | here => exact Or.inl (List.mem_singleton.mp hx)
  | child hs _ _ ih | host hs _ _ ih =>
    rcases List.mem_cons.mp hx with rfl | hx
    · exact Or.inr (hmem hs)
    · exact ih hx

end Descends

/-- Every reachable id has a way from the root. -/
theorem Reached.exists_descends {inv : Inventory} {id : String} (h : inv.Reached id) :
    ∃ path hops, inv.Descends inv.root path hops id := by
  induction h with
  | root => exact ⟨_, _, Descends.here _⟩
  | @down id id' _ hb ih =>
    obtain ⟨path, hops, hd⟩ := ih
    exact ⟨_, hd.append_of_mem_below hb (Descends.here id')⟩

/-! ## Ways below the root of a tree -/

/-- What is listed by a reachable scheduler is an edge. -/
theorem exists_edge {inv : Inventory} {id id' : String} {s : SchedulerEntry} (hr : inv.Reached id) (hs : inv.scheduler? id = some s)
    (h : id' ∈ s.below) : ∃ i, inv.Edge s i id' := by
  obtain ⟨hin, rfl⟩ := mem_of_scheduler? hs
  obtain ⟨i, hi⟩ := List.getElem?_of_mem h
  exact ⟨i, hin, hr, hi⟩

namespace IsTree

variable {inv : Inventory} (ht : inv.IsTree)
include ht

/-- What is reachable and no scheduler is a host. -/
theorem scheduler?_eq_none_iff {id : String} (hr : inv.Reached id) : inv.scheduler? id = none ↔ id ∈ inv.hostIds := by
  constructor
  · intro hnone
    rcases List.mem_append.mp (hr.mem_ids ht.rootDefined ht.resolves) with hs | hh
    · obtain ⟨s, hin, rfl⟩ := List.mem_map.mp hs
      rw [scheduler?_of_mem ht.nodup hin] at hnone
      cases hnone
    · exact hh
  · exact scheduler?_eq_none_of_mem_hostIds ht.nodup

/-- An id stands below one id at most. -/
theorem parent_unique {y y' id : String} {s s' : SchedulerEntry} (hy : inv.Reached y) (hy' : inv.Reached y')
    (hs : inv.scheduler? y = some s) (hs' : inv.scheduler? y' = some s') (h : id ∈ s.below) (h' : id ∈ s'.below) :
    y = y' ∧ s = s' := by
  obtain ⟨i, e⟩ := exists_edge hy hs h
  obtain ⟨i', e'⟩ := exists_edge hy' hs' h'
  have hsame := (ht.oneEdge e e').1
  exact ⟨by rw [← (mem_of_scheduler? hs).2, ← (mem_of_scheduler? hs').2, hsame], hsame⟩

/-- A scheduler that lists children lists no hosts. -/
theorem not_children_and_hosts {y id id' : String} {s : SchedulerEntry} (hs : inv.scheduler? y = some s)
    (hc : id ∈ s.children) (hh : id' ∈ s.hosts) : False := by
  rcases (ht.resolves s (mem_of_scheduler? hs).1).oneKind with h | h
  · simp [h] at hc
  · simp [h] at hh

/-- There is one way from the root to an id. -/
theorem descends_unique {id : String} {path path' : List String} {hops hops' : Nat}
    (h : inv.Descends inv.root path hops id) (h' : inv.Descends inv.root path' hops' id) : path = path' ∧ hops = hops' := by
  induction hn : path.length generalizing id path path' hops hops' with
  | zero =>
    have hhead := h.head?_eq
    simp [List.length_eq_zero_iff.mp hn] at hhead
  | succ n ih =>
    have hnoroot : ∀ {path hops y s}, inv.Descends inv.root path hops y → inv.scheduler? y = some s →
        inv.root ∉ s.below := by
      intro path hops y s hd hs hb
      obtain ⟨i, e⟩ := exists_edge (hd.reached Reached.root) hs hb
      exact ht.rootFree e
    have hbelow : ∀ {s : SchedulerEntry} {k k' : Nat},
        (id ∈ s.children ∧ k = k' + 1) ∨ (id ∈ s.hosts ∧ k = k') → id ∈ s.below := by
      rintro s k k' (⟨hb, -⟩ | ⟨hb, -⟩)
      · exact List.mem_append_left _ hb
      · exact List.mem_append_right _ hb
    rcases h.last_step with ⟨rfl, rfl, hid⟩ | ⟨p, k, y, s, hd, hs, rfl, hb⟩ <;>
      rcases h'.last_step with ⟨rfl, rfl, hid'⟩ | ⟨p', k', y', s', hd', hs', rfl, hb'⟩
    · exact ⟨rfl, rfl⟩
    · exact absurd (hid ▸ hbelow hb') (hnoroot hd' hs')
    · exact absurd (hid' ▸ hbelow hb) (hnoroot hd hs)
    · obtain ⟨rfl, rfl⟩ := ht.parent_unique (hd.reached Reached.root) (hd'.reached Reached.root) hs hs' (hbelow hb)
        (hbelow hb')
      obtain ⟨rfl, rfl⟩ := ih hd hd' (by simpa using hn)
      refine ⟨rfl, ?_⟩
      rcases hb with ⟨hb, rfl⟩ | ⟨hb, rfl⟩ <;> rcases hb' with ⟨hb', rfl⟩ | ⟨hb', rfl⟩
      · rfl
      · exact (ht.not_children_and_hosts hs hb hb').elim
      · exact (ht.not_children_and_hosts hs hb' hb).elim
      · rfl

/-- A way from the root meets no id twice. -/
theorem descends_nodup {id : String} {path : List String} {hops : Nat} (h : inv.Descends inv.root path hops id) :
    path.Nodup := by
  induction hn : path.length generalizing id path hops with
  | zero =>
    rw [List.length_eq_zero_iff.mp hn]
    exact List.nodup_nil
  | succ n ih =>
    rcases h.last_step with ⟨rfl, -, -⟩ | ⟨p, k, y, s, hd, -, rfl, -⟩
    · exact List.nodup_singleton _
    · have hlen : p.length = n := by simpa using hn
      refine List.nodup_append.mpr ⟨ih hd hlen, List.nodup_singleton _, ?_⟩
      rintro x hx x' hx' rfl
      obtain rfl := List.mem_singleton.mp hx'
      obtain ⟨p', k', hd', hle⟩ := hd.exists_prefix hx
      have hsame := congrArg List.length (ht.descends_unique h hd').1
      rw [List.length_append, List.length_singleton] at hsame
      omega

/-- A way from the root to a scheduler is no longer than there are schedulers. -/
theorem descends_length_le {id : String} {path : List String} {hops : Nat} (h : inv.Descends inv.root path hops id)
    (hid : id ∈ inv.schedulerIds) : path.length ≤ inv.schedulers.length := by
  have hsub : path ⊆ inv.schedulerIds := by
    intro x hx
    rcases h.mem_schedulerIds hx with rfl | hx
    · exact hid
    · exact hx
  have hle := (ht.descends_nodup h).length_le_of_subset hsub
  rwa [schedulerIds, List.length_map] at hle

/-- What stands below two different entries of a list is apart. -/
theorem descends_apart {id c c' x : String} {path path' : List String} {hops hops' : Nat} (hr : inv.Reached id)
    (hc : c ∈ inv.below id) (hc' : c' ∈ inv.below id) (hne : c ≠ c') (h : inv.Descends c path hops x)
    (h' : inv.Descends c' path' hops' x) : False := by
  obtain ⟨p, k, hd⟩ := hr.exists_descends
  obtain ⟨k₁, h₁⟩ := hd.append_of_mem_below hc h
  obtain ⟨k₂, h₂⟩ := hd.append_of_mem_below hc' h'
  have hsame := List.append_cancel_left (ht.descends_unique h₁ h₂).1
  have hhead := h.head?_eq
  rw [hsame, h'.head?_eq] at hhead
  exact hne (Option.some.inj hhead).symm

/-- Nothing stands below itself. -/
theorem not_descends_self {id c : String} {path : List String} {hops : Nat} (hr : inv.Reached id) (hc : c ∈ inv.below id)
    (h : inv.Descends c path hops id) : False := by
  obtain ⟨p, k, hd⟩ := hr.exists_descends
  obtain ⟨k', hd'⟩ := hd.append_of_mem_below hc h
  have hsame := congrArg List.length (ht.descends_unique hd hd').1
  have hhead := h.head?_eq
  rw [List.length_append] at hsame
  simp [List.length_eq_zero_iff.mp (by omega : path.length = 0)] at hhead

/-- The list of a reachable scheduler repeats nothing. -/
theorem below_nodup {id : String} (hr : inv.Reached id) : (inv.below id).Nodup :=
  (List.nodup_flatMap.mp ht.takenOff.nodup_entries.2).1 id (ht.takenOff.mem_of_reached hr)

end IsTree

end Inventory

end PlacementTree
