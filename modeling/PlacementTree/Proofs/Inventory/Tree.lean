import Mathlib.Data.List.Lattice
import Mathlib.Data.List.Nodup
import Mathlib.Data.List.Pairwise
import PlacementTree.Proofs.Inventory.Walk

/-!
# What an accepted inventory is

`Inventory.IsTree` says without a walk what `Inventory.validate` checks: distinct ids, a root that is a scheduler, lists that
resolve, and below the root one edge at most into every node and none into the root. An edge is one occurrence in the list of a
scheduler that is reachable from the root (`Inventory.Edge`), so a repeated entry is two edges.

The reachable ids of such an inventory are the ids that its walk takes off the stack, and the other way round
(`TakenOff.mem_of_reached`, `IsTree.takenOff`).
-/

namespace PlacementTree

namespace Inventory

/-- The ids that are reachable from the root by going down the lists. -/
inductive Reached (inv : Inventory) : String → Prop where
  | root : Reached inv inv.root
  | down {id id' : String} : Reached inv id → id' ∈ inv.below id → Reached inv id'

/-- An occurrence of an id in the list of a scheduler that is reachable from the root. -/
structure Edge (inv : Inventory) (s : SchedulerEntry) (i : Nat) (id : String) : Prop where
  listed : s ∈ inv.schedulers
  reached : inv.Reached s.id
  occurs : s.below[i]? = some id

/-- An entry that lists only children or only hosts, all of them defined. -/
structure Resolves (inv : Inventory) (s : SchedulerEntry) : Prop where
  oneKind : s.children = [] ∨ s.hosts = []
  children : ∀ id ∈ s.children, id ∈ inv.ids
  hosts : ∀ id ∈ s.hosts, id ∈ inv.hostIds

/-- An inventory whose part below the root is a tree. What is not reachable only has to resolve. -/
structure IsTree (inv : Inventory) : Prop where
  nodup : inv.ids.Nodup
  rootDefined : inv.root ∈ inv.schedulerIds
  resolves : ∀ s ∈ inv.schedulers, inv.Resolves s
  rootFree : ∀ {s : SchedulerEntry} {i : Nat}, ¬inv.Edge s i inv.root
  oneEdge : ∀ {s s' : SchedulerEntry} {i i' : Nat} {id : String},
    inv.Edge s i id → inv.Edge s' i' id → s = s' ∧ i = i'

/-! ## The checks before the walk -/

/-- Nothing is repeated exactly when all is distinct. -/
theorem firstRepeated_eq_none_iff {seen ids : List String} :
    firstRepeated seen ids = none ↔ ids.Nodup ∧ ∀ id ∈ ids, id ∉ seen := by
  induction ids generalizing seen with
  | nil => simp [firstRepeated]
  | cons id rest ih =>
    by_cases hid : id ∈ seen
    · simp [firstRepeated, hid]
    · simp only [firstRepeated, List.contains_iff_mem, hid, if_false, ih, List.nodup_cons, List.mem_cons]
      constructor
      · rintro ⟨hnd, hfresh⟩
        refine ⟨⟨fun hm => hfresh id hm (Or.inl rfl), hnd⟩, ?_⟩
        rintro x (rfl | hx)
        · exact hid
        · exact fun hs => hfresh x hx (Or.inr hs)
      · rintro ⟨⟨hnot, hnd⟩, hfresh⟩
        refine ⟨hnd, ?_⟩
        rintro x hx (rfl | hs)
        · exact hnot hx
        · exact hfresh x (Or.inr hx) hs

/-- An entry has no fault exactly when it resolves. -/
theorem entryFault?_eq_none_iff {inv : Inventory} {s : SchedulerEntry} :
    entryFault? inv.ids inv.hostIds s = none ↔ inv.Resolves s := by
  unfold entryFault?
  by_cases hboth : s.children = [] ∨ s.hosts = []
  · have hone : (!s.children.isEmpty && !s.hosts.isEmpty) = false := by
      rcases hboth with h | h <;> simp [h]
    rw [hone, if_neg Bool.false_ne_true]
    cases hc : s.children.find? (!inv.ids.contains ·) with
    | some child =>
      have hno : ¬inv.Resolves s := by
        intro hr
        have hmem := hr.children child (List.mem_of_find?_eq_some hc)
        simpa [hmem] using List.find?_some hc
      simp [hno]
    | none =>
      rw [List.find?_eq_none] at hc
      simp only [Option.map_eq_none_iff, List.find?_eq_none]
      constructor
      · intro hh
        exact ⟨hboth, fun id hid => by simpa using hc id hid, fun id hid => by simpa using hh id hid⟩
      · intro hr id hid
        simpa using hr.hosts id hid
  · have hno : ¬inv.Resolves s := fun hr => hboth hr.oneKind
    rw [not_or] at hboth
    simp [hboth, hno]

/-! ## What stands below an id -/

/-- What stands below an id is the list of a scheduler of that id. -/
theorem exists_of_mem_below {inv : Inventory} {id id' : String} (h : id' ∈ inv.below id) :
    ∃ s ∈ inv.schedulers, s.id = id ∧ inv.below id = s.below := by
  unfold below scheduler? at h ⊢
  cases hf : inv.schedulers.find? (·.id == id) with
  | none => simp [hf] at h
  | some s => exact ⟨s, List.mem_of_find?_eq_some hf, by simpa using List.find?_some hf, rfl⟩

section Distinct

variable {inv : Inventory} (hnd : inv.ids.Nodup)
include hnd

/-- With distinct ids a scheduler is found by its id. -/
theorem scheduler?_of_mem {s : SchedulerEntry} (hs : s ∈ inv.schedulers) : inv.scheduler? s.id = some s := by
  have hids : inv.schedulerIds.Nodup := (List.nodup_append.mp hnd).1
  unfold scheduler?
  cases hf : inv.schedulers.find? (·.id == s.id) with
  | none => exact absurd (beq_self_eq_true s.id) (List.find?_eq_none.mp hf s hs)
  | some s' =>
    have hid : s'.id = s.id := by simpa using List.find?_some hf
    rw [List.inj_on_of_nodup_map hids (List.mem_of_find?_eq_some hf) hs hid]

/-- With distinct ids what stands below a scheduler is its own list. -/
theorem below_of_mem {s : SchedulerEntry} (hs : s ∈ inv.schedulers) : inv.below s.id = s.below := by
  rw [below, scheduler?_of_mem hnd hs]

/-- With distinct ids no host is a scheduler. -/
theorem scheduler?_eq_none_of_mem_hostIds {id : String} (hid : id ∈ inv.hostIds) : inv.scheduler? id = none := by
  have hdisj := (List.nodup_append.mp hnd).2.2
  apply List.find?_eq_none.mpr
  intro s hs heq
  exact hdisj s.id (List.mem_map_of_mem hs) id hid (by simpa using heq)

end Distinct

/-- Every reachable id of an inventory that resolves is defined. -/
theorem Reached.mem_ids {inv : Inventory} (hroot : inv.root ∈ inv.schedulerIds)
    (hres : ∀ s ∈ inv.schedulers, inv.Resolves s) {id : String} (h : inv.Reached id) : id ∈ inv.ids := by
  induction h with
  | root => exact List.mem_append_left _ hroot
  | down _ hbelow _ =>
    obtain ⟨s, hs, -, hb⟩ := exists_of_mem_below hbelow
    rw [hb, SchedulerEntry.below, List.mem_append] at hbelow
    rcases hbelow with hc | hh
    · exact (hres s hs).children _ hc
    · exact List.mem_append_right _ ((hres s hs).hosts _ hh)

/-! ## The walk and the edges -/

/-- What the walk from the root takes off its stack is what is reachable. -/
theorem TakenOff.mem_of_reached {inv : Inventory} {taken : List String} (h : inv.TakenOff [] [inv.root] taken) {id : String}
    (hid : inv.Reached id) : id ∈ taken := by
  induction hid with
  | root => exact h.perm.mem_iff.mpr (by simp)
  | down _ hb ih =>
    apply h.perm.mem_iff.mpr
    exact List.mem_append_right _ (List.mem_flatMap.mpr ⟨_, ih, hb⟩)

/-- The root and the lists of all ids that the walk takes off are distinct. -/
theorem TakenOff.nodup_entries {inv : Inventory} {taken : List String} (h : inv.TakenOff [] [inv.root] taken) :
    inv.root ∉ taken.flatMap inv.below ∧ (taken.flatMap inv.below).Nodup := by
  have hnd := h.perm.nodup_iff.mp h.nodup
  rwa [List.singleton_append, List.nodup_cons] at hnd

/-- A walk that takes every id off once leaves no edge into the root and none beside another. -/
theorem TakenOff.edges {inv : Inventory} (hids : inv.ids.Nodup) {taken : List String}
    (h : inv.TakenOff [] [inv.root] taken) :
    (∀ {s : SchedulerEntry} {i : Nat}, ¬inv.Edge s i inv.root) ∧
      ∀ {s s' : SchedulerEntry} {i i' : Nat} {id : String}, inv.Edge s i id → inv.Edge s' i' id → s = s' ∧ i = i' := by
  obtain ⟨hroot, hflat⟩ := h.nodup_entries
  obtain ⟨heach, hapart⟩ := List.nodup_flatMap.mp hflat
  have hmem : ∀ {s i id}, inv.Edge s i id → id ∈ inv.below s.id := by
    intro s i id e
    rw [below_of_mem hids e.listed]
    exact List.mem_of_getElem? e.occurs
  refine ⟨fun e => hroot (List.mem_flatMap.mpr ⟨_, h.mem_of_reached e.reached, hmem e⟩), ?_⟩
  intro s s' i i' id e e'
  have hid : s.id = s'.id := by
    by_contra hne
    have : Std.Symm (Function.onFun List.Disjoint inv.below) := ⟨fun _ _ hd => List.Disjoint.symm hd⟩
    exact hapart.forall (h.mem_of_reached e.reached) (h.mem_of_reached e'.reached) hne (hmem e) (hmem e')
  obtain rfl : s = s' := by
    apply Option.some.inj
    rw [← scheduler?_of_mem hids e.listed, ← scheduler?_of_mem hids e'.listed, hid]
  refine ⟨rfl, ?_⟩
  have hown : s.below.Nodup := below_of_mem hids e.listed ▸ heach s.id (h.mem_of_reached e.reached)
  exact (List.getElem?_inj (List.getElem?_eq_some_iff.mp e.occurs).1 hown).mp (e.occurs.trans e'.occurs.symm)

open Classical in
/-- The reachable ids of a tree are what its walk takes off the stack. -/
theorem IsTree.takenOff {inv : Inventory} (h : inv.IsTree) :
    inv.TakenOff [] [inv.root] (inv.ids.filter fun id => decide (inv.Reached id)) := by
  have hmem : ∀ id, id ∈ inv.ids.filter (fun id => decide (inv.Reached id)) ↔ inv.Reached id := by
    intro id
    rw [List.mem_filter, decide_eq_true_iff]
    exact ⟨And.right, fun hr => ⟨hr.mem_ids h.rootDefined h.resolves, hr⟩⟩
  have hnd := h.nodup.filter fun id => decide (inv.Reached id)
  have hedge : ∀ {id id' i}, inv.Reached id → (inv.below id)[i]? = some id' →
      ∃ s, s.id = id ∧ inv.below id = s.below ∧ inv.Edge s i id' := by
    intro id id' i hr hi
    obtain ⟨s, hs, hid, hb⟩ := exists_of_mem_below (List.mem_of_getElem? hi)
    exact ⟨s, hid, hb, hs, hid ▸ hr, hb ▸ hi⟩
  refine ⟨?_, hnd, fun _ _ => List.not_mem_nil⟩
  rw [List.perm_ext_iff_of_nodup hnd, List.singleton_append]
  · intro id
    rw [hmem, List.mem_cons, List.mem_flatMap]
    constructor
    · rintro (_ | ⟨hr, hb⟩)
      · exact Or.inl rfl
      · exact Or.inr ⟨_, (hmem _).mpr hr, hb⟩
    · rintro (rfl | ⟨id', hid', hb⟩)
      · exact Reached.root
      · exact Reached.down ((hmem _).mp hid') hb
  · rw [List.singleton_append, List.nodup_cons, List.nodup_flatMap]
    refine ⟨?_, ?_, ?_⟩
    · intro hroot
      obtain ⟨id, hid, hb⟩ := List.mem_flatMap.mp hroot
      obtain ⟨i, hi⟩ := List.getElem?_of_mem hb
      obtain ⟨s, -, -, e⟩ := hedge ((hmem _).mp hid) hi
      exact h.rootFree e
    · intro id hid
      rw [List.nodup_iff_getElem?_ne_getElem?]
      intro i j hij hj heq
      obtain ⟨s, -, -, e⟩ := hedge ((hmem _).mp hid) (List.getElem?_eq_getElem hj)
      obtain ⟨s', -, -, e'⟩ := hedge ((hmem _).mp hid) (heq.trans (List.getElem?_eq_getElem hj))
      exact absurd (h.oneEdge e' e).2 (Nat.ne_of_lt hij)
    · refine hnd.imp_of_mem ?_
      intro id id' hid hid' hne x hx hx'
      obtain ⟨i, hi⟩ := List.getElem?_of_mem hx
      obtain ⟨j, hj⟩ := List.getElem?_of_mem hx'
      obtain ⟨s, hs, -, e⟩ := hedge ((hmem _).mp hid) hi
      obtain ⟨s', hs', -, e'⟩ := hedge ((hmem _).mp hid') hj
      exact hne (by rw [← hs, ← hs', (h.oneEdge e e').1])

/-- Below the root of an accepted inventory stands a tree. -/
theorem isTree_of_validate {inv : Inventory} (h : inv.validate = .ok ()) : inv.IsTree := by
  have hf : inv.fault? = none := by
    unfold validate at h
    cases hf : inv.fault? with
    | none => rfl
    | some fault => simp [hf] at h
  unfold fault? at hf
  cases hdup : firstRepeated [] inv.ids with
  | some id => simp [hdup] at hf
  | none =>
    have hids := (firstRepeated_eq_none_iff.mp hdup).1
    simp only [hdup] at hf
    by_cases hroot : inv.root ∈ inv.schedulerIds
    · rw [List.contains_iff_mem.mpr hroot, Bool.not_true, if_neg Bool.false_ne_true] at hf
      cases hentry : inv.schedulers.findSome? (entryFault? inv.ids inv.hostIds) with
      | some fault => simp [hentry] at hf
      | none =>
        simp only [hentry] at hf
        have hwalk := hf ▸ inv.walks_walk
        obtain ⟨taken, ht⟩ := walks_none_iff.mp hwalk
        have hres : ∀ s ∈ inv.schedulers, inv.Resolves s := fun s hs =>
          entryFault?_eq_none_iff.mp (List.findSome?_eq_none_iff.mp hentry s hs)
        exact ⟨hids, hroot, hres, (ht.edges hids).1, (ht.edges hids).2⟩
    · simp [hroot] at hf

/-- An inventory whose part below the root is a tree is accepted. -/
theorem IsTree.validate {inv : Inventory} (h : inv.IsTree) : inv.validate = .ok () := by
  have hdup : firstRepeated [] inv.ids = none := firstRepeated_eq_none_iff.mpr ⟨h.nodup, fun _ _ => List.not_mem_nil⟩
  have hentry : inv.schedulers.findSome? (entryFault? inv.ids inv.hostIds) = none :=
    List.findSome?_eq_none_iff.mpr fun s hs => entryFault?_eq_none_iff.mpr (h.resolves s hs)
  have hwalk : inv.walk (inv.edgeCount + 2) [] [inv.root] = none := inv.walks_walk.unique h.takenOff.walks
  have hf : inv.fault? = none := by
    simp [fault?, hdup, h.rootDefined, hentry, hwalk]
  simp [Inventory.validate, hf]

/-! ## What is not reachable -/

/-- The second inventory has the ids of the first and every scheduler that is reachable in it. -/
structure KeepsReached (inv inv' : Inventory) : Prop where
  root : inv'.root = inv.root
  hostIds : inv'.hostIds = inv.hostIds
  schedulerIds : inv'.schedulerIds = inv.schedulerIds
  kept : ∀ s ∈ inv.schedulers, inv.Reached s.id → s ∈ inv'.schedulers

/-- What stands below a reachable id is kept. -/
theorem KeepsReached.below_eq {inv inv' : Inventory} (hk : inv.KeepsReached inv') (hnd : inv.ids.Nodup)
    (hnd' : inv'.ids.Nodup) {id : String} (hr : inv.Reached id) : inv'.below id = inv.below id := by
  by_cases hid : id ∈ inv.schedulerIds
  · obtain ⟨s, hs, rfl⟩ := List.mem_map.mp hid
    rw [below_of_mem hnd hs, below_of_mem hnd' (hk.kept s hs hr)]
  · have hnone : ∀ inv'' : Inventory, inv''.schedulerIds = inv.schedulerIds → inv''.below id = [] := by
      intro inv'' hsame
      rw [List.eq_nil_iff_forall_not_mem]
      intro x hx
      obtain ⟨s, hs, rfl, -⟩ := exists_of_mem_below hx
      exact hid (hsame ▸ List.mem_map_of_mem hs)
    rw [hnone inv' hk.schedulerIds, hnone inv rfl]

/-- Nothing else becomes reachable. -/
theorem KeepsReached.reached {inv inv' : Inventory} (hk : inv.KeepsReached inv') (hnd : inv.ids.Nodup)
    (hnd' : inv'.ids.Nodup) {id : String} (h : inv'.Reached id) : inv.Reached id := by
  induction h with
  | root => exact hk.root ▸ Reached.root
  | down _ hb ih => exact Reached.down ih (hk.below_eq hnd hnd' ih ▸ hb)

/-- A tree stays one whatever the schedulers list that are not reachable, as long as their lists resolve. -/
theorem IsTree.of_keepsReached {inv inv' : Inventory} (h : inv.IsTree) (hk : inv.KeepsReached inv')
    (hres : ∀ s ∈ inv'.schedulers, inv'.Resolves s) : inv'.IsTree := by
  have hnd' : inv'.ids.Nodup := by
    rw [ids, hk.schedulerIds, hk.hostIds]
    exact h.nodup
  have hedge : ∀ {s i id}, inv'.Edge s i id → inv.Edge s i id := by
    intro s i id e
    have hr := hk.reached h.nodup hnd' e.reached
    have hmem : s.id ∈ inv'.schedulerIds := List.mem_map_of_mem e.listed
    rw [hk.schedulerIds] at hmem
    obtain ⟨s', hs', hid⟩ := List.mem_map.mp hmem
    have hsame : s' = s := by
      apply Option.some.inj
      rw [← scheduler?_of_mem hnd' (hk.kept s' hs' (hid.symm ▸ hr)), ← scheduler?_of_mem hnd' e.listed, hid]
    exact ⟨hsame ▸ hs', hr, e.occurs⟩
  refine ⟨hnd', ?_, hres, ?_, fun e e' => h.oneEdge (hedge e) (hedge e')⟩
  · rw [hk.root, hk.schedulerIds]
    exact h.rootDefined
  · intro s i e
    rw [hk.root] at e
    exact h.rootFree (hedge e)

/-- The check of an inventory ends, its walk reporting what the walk without a bound reports, and accepts exactly the
inventories whose part below the root is a tree. What the schedulers list that are not reachable makes no difference, circles
and shared nodes included, as long as it resolves. -/
theorem validate_accepts_trees (inv : Inventory) :
    (∀ outcome, inv.Walks [] [inv.root] outcome ↔ outcome = inv.walk (inv.edgeCount + 2) [] [inv.root]) ∧
      (inv.validate = .ok () ↔ inv.IsTree) ∧
      ∀ inv' : Inventory, inv.validate = .ok () → inv.KeepsReached inv' → (∀ s ∈ inv'.schedulers, inv'.Resolves s) →
        inv'.validate = .ok () := by
  refine ⟨fun outcome => ⟨fun hw => hw.unique inv.walks_walk, fun ho => ho ▸ inv.walks_walk⟩,
    ⟨isTree_of_validate, IsTree.validate⟩, ?_⟩
  intro inv' hv hk hres
  exact ((isTree_of_validate hv).of_keepsReached hk hres).validate

/-- Two schedulers beside the tree that list nothing, and the same two in a circle with a repeated entry. -/
theorem validate_accepts_circle_aside :
    let host : HostEntry := { id := "h", cpuCount := 1, memoryMb := 1 }
    let aside : Inventory := { root := "r", schedulers := [⟨"r", [], ["h"]⟩, ⟨"a", [], []⟩, ⟨"b", [], []⟩], hosts := [host] }
    let circle : Inventory :=
      { root := "r", schedulers := [⟨"r", [], ["h"]⟩, ⟨"a", ["b"], []⟩, ⟨"b", ["a", "a"], []⟩], hosts := [host] }
    aside.validate = .ok () ∧ circle.validate = .ok () := by
  intro host aside circle
  have haside : aside.validate = .ok () := by decide
  have hreach : ∀ id, aside.Reached id → id = "r" ∨ id = "h" := by
    intro id h
    induction h with
    | root => exact Or.inl rfl
    | down _ hb ih =>
      rcases ih with rfl | rfl
      · exact Or.inr (List.mem_singleton.mp hb)
      · exact absurd hb List.not_mem_nil
  refine ⟨haside, (validate_accepts_trees aside).2.2 circle haside ⟨rfl, rfl, rfl, ?_⟩ ?_⟩
  · intro s hs hr
    simp only [aside, List.mem_cons, List.not_mem_nil, or_false] at hs
    rcases hs with rfl | rfl | rfl
    · exact List.mem_cons_self
    · exact absurd (hreach _ hr) (by decide)
    · exact absurd (hreach _ hr) (by decide)
  · intro s hs
    rw [← entryFault?_eq_none_iff]
    revert s
    decide

end Inventory

end PlacementTree
