import Mathlib.Data.List.Basic
import PlacementTree.HostAgent

/-!
# What the listeners of an agent hear

An agent takes the reports of its own host and refuses all others. Its listeners are told of a report exactly if it changes the inventory,
that is if some name is among the datastores, or among the networks, of only one of the report and the snapshot held just before
(`HostAgent.heard_reportAll`). So a listener that knows the inventory in the beginning and remembers the last notice always knows the
current one (`HostAgent.known_reportAll`): what it is not told of are reports of the inventory it knows, and refused ones.
-/

namespace PlacementTree

/-- Sets of names are equal if they have the same members. -/
theorem NameSet.eq_of_contains {s t : NameSet} (h : ∀ name, s.contains name = t.contains name) : s = t := by
  have hmem (name : String) : name ∈ s.toList ↔ name ∈ t.toList := by
    have hname := h name
    rwa [contains, contains, Bool.eq_iff_iff, List.contains_iff_mem, List.contains_iff_mem] at hname
  have hnodup {u : NameSet} : u.toList.Nodup := u.increasing.imp fun {x y} (hlt : x < y) (heq : x = y) => String.lt_irrefl y (heq ▸ hlt)
  have hperm : s.toList.Perm t.toList := (List.perm_ext_iff_of_nodup hnodup hnodup).mpr hmem
  have hlist : s.toList = t.toList :=
    hperm.eq_of_pairwise (fun _ _ _ _ hlt hgt => absurd hgt (String.lt_asymm hlt)) s.increasing t.increasing
  obtain ⟨names, hnames⟩ := s
  obtain rfl : names = t.toList := hlist
  rfl

theorem NameSet.ne_iff {s t : NameSet} : s ≠ t ↔ ∃ name, s.contains name ≠ t.contains name := by
  constructor
  · intro hne
    by_contra hsame
    exact hne (NameSet.eq_of_contains fun name => not_not.mp fun hname => hsame ⟨name, hname⟩)
  · rintro ⟨name, hname⟩ rfl
    exact hname rfl

namespace ResourceSnapshot

/-- Some name is among the datastores, or among the networks, of only one of two snapshots. -/
def OtherInventory (held next : ResourceSnapshot) : Prop :=
  (∃ name, held.datastores.contains name ≠ next.datastores.contains name) ∨
    ∃ name, held.networks.contains name ≠ next.networks.contains name

theorem inventoryDiffers_iff {held next : ResourceSnapshot} : held.inventoryDiffers next = true ↔ held.OtherInventory next := by
  rw [inventoryDiffers, OtherInventory, Bool.or_eq_true, bne_iff_ne, bne_iff_ne, NameSet.ne_iff, NameSet.ne_iff]

instance (held next : ResourceSnapshot) : Decidable (held.OtherInventory next) := decidable_of_iff _ inventoryDiffers_iff

/-- The datastores and networks of a snapshot. -/
def inventory (s : ResourceSnapshot) : NameSet × NameSet := (s.datastores, s.networks)

theorem inventory_eq_of_not_otherInventory {held next : ResourceSnapshot} (h : ¬held.OtherInventory next) :
    held.inventory = next.inventory := by
  rw [OtherInventory, ← NameSet.ne_iff, ← NameSet.ne_iff, not_or, not_not, not_not] at h
  exact Prod.ext h.1 h.2

/-- The notice of a snapshot for one listener. -/
def notice (s : ResourceSnapshot) (hostId listener : String) : InventoryNotice :=
  { listener, hostId, datastores := s.datastores, networks := s.networks }

/-- The reports of a host that change its inventory, each compared with the one of the host just before it. -/
def changes (hostId : String) : ResourceSnapshot → List ResourceSnapshot → List ResourceSnapshot
  | _, [] => []
  | held, next :: reports =>
    if next.hostId = hostId then (if held.OtherInventory next then [next] else []) ++ changes hostId next reports
    else changes hostId held reports

end ResourceSnapshot

/-- The notices that one listener gets. -/
def InventoryNotice.heard (listener : String) (notices : List InventoryNotice) : List InventoryNotice :=
  notices.filter (·.listener == listener)

/-- What a listener knows that remembers the last notice it got, and the inventory in the beginning. -/
def InventoryNotice.known (first : NameSet × NameSet) (heard : List InventoryNotice) : NameSet × NameSet :=
  (heard.getLast?.map fun notice => (notice.datastores, notice.networks)).getD first

namespace HostAgent

open InventoryNotice

/-- A report comes in: the agent after it, and all that was told so far. One that is refused does nothing. -/
def report (state : HostAgent × List InventoryNotice) (next : ResourceSnapshot) : HostAgent × List InventoryNotice :=
  match state.1.updateSnapshot next with
  | .ok (a, notices) => (a, state.2 ++ notices)
  | .error _ => state

/-- An agent after a row of reports, and all that its listeners were told. -/
def reportAll (a : HostAgent) (reports : List ResourceSnapshot) : HostAgent × List InventoryNotice := reports.foldl report (a, [])

variable {a : HostAgent} {log : List InventoryNotice} {next : ResourceSnapshot}

/-! ## One report -/

theorem notices_eq (a : HostAgent) (next : ResourceSnapshot) :
    a.notices next = if a.snapshot.OtherInventory next then a.listeners.map (next.notice a.id) else [] := by
  simp only [notices, ResourceSnapshot.inventoryDiffers_iff]
  rfl

theorem updateSnapshot_of_own (h : next.hostId = a.id) :
    a.updateSnapshot next =
      .ok ({ a with snapshot := next }, if a.snapshot.OtherInventory next then a.listeners.map (next.notice a.id) else []) := by
  rw [updateSnapshot, if_pos h, notices_eq]

theorem updateSnapshot_of_other (h : next.hostId ≠ a.id) : a.updateSnapshot next = .error (.snapshotMismatch a.id next.hostId) := by
  rw [updateSnapshot, if_neg h]

theorem report_of_own (h : next.hostId = a.id) :
    report (a, log) next =
      ({ a with snapshot := next }, log ++ if a.snapshot.OtherInventory next then a.listeners.map (next.notice a.id) else []) := by
  rw [report, updateSnapshot_of_own h]

theorem report_of_other (h : next.hostId ≠ a.id) : report (a, log) next = (a, log) := by
  rw [report, updateSnapshot_of_other h]

/-- Of the notices of a report a listener gets one for each time it is registered. -/
theorem heard_map_notice (hostId listener : String) (listeners : List String) (next : ResourceSnapshot) :
    heard listener (listeners.map (next.notice hostId)) =
      List.replicate (listeners.count listener) (next.notice hostId listener) := by
  have hlistener : (fun notice : InventoryNotice => notice.listener == listener) ∘ next.notice hostId = (· == listener) := rfl
  rw [heard, List.filter_map, hlistener, List.filter_beq, List.map_replicate]

/-! ## A row of reports -/

/-- An agent holds the last report of its own host. -/
theorem foldl_report_fst (a : HostAgent) (log : List InventoryNotice) (reports : List ResourceSnapshot) :
    (reports.foldl report (a, log)).1 = { a with snapshot := (reports.filter (·.hostId == a.id)).getLastD a.snapshot } := by
  induction reports generalizing a log with
  | nil => rfl
  | cons next reports ih =>
    by_cases hown : next.hostId = a.id
    · have htaken : (next :: reports).filter (·.hostId == a.id) = next :: reports.filter (·.hostId == a.id) :=
        List.filter_cons_of_pos (beq_iff_eq.mpr hown)
      rw [List.foldl_cons, report_of_own hown, ih, htaken, List.getLastD_cons]
    · have hrefused : (next :: reports).filter (·.hostId == a.id) = reports.filter (·.hostId == a.id) :=
        List.filter_cons_of_neg fun heq => hown (eq_of_beq heq)
      rw [List.foldl_cons, report_of_other hown, ih, hrefused]

/-- A listener hears of the reports that change the inventory and of nothing else. -/
theorem heard_foldl_report (listener : String) (a : HostAgent) (log : List InventoryNotice) (reports : List ResourceSnapshot) :
    heard listener (reports.foldl report (a, log)).2 =
      heard listener log ++ (ResourceSnapshot.changes a.id a.snapshot reports).flatMap fun next =>
        List.replicate (a.listeners.count listener) (next.notice a.id listener) := by
  induction reports generalizing a log with
  | nil => rw [ResourceSnapshot.changes, List.flatMap_nil, List.append_nil, List.foldl_nil]
  | cons next reports ih =>
    by_cases hown : next.hostId = a.id
    · rw [List.foldl_cons, report_of_own hown, ih, ResourceSnapshot.changes, if_pos hown, List.flatMap_append, ← List.append_assoc]
      congr 1
      rw [heard, List.filter_append]
      by_cases hother : a.snapshot.OtherInventory next
      · rw [if_pos hother, if_pos hother, List.flatMap_singleton, ← heard_map_notice]
        rfl
      · rw [if_neg hother, if_neg hother]
        rfl
    · rw [List.foldl_cons, report_of_other hown, ih, ResourceSnapshot.changes, if_neg hown]

/-- A report leaves a listener that knows the inventory with the knowledge of it. -/
theorem known_report {listener : String} {first : NameSet × NameSet} (hlistener : listener ∈ a.listeners)
    (hknown : known first (heard listener log) = a.snapshot.inventory) (next : ResourceSnapshot) :
    known first (heard listener (report (a, log) next).2) = (report (a, log) next).1.snapshot.inventory := by
  by_cases hown : next.hostId = a.id
  · rw [report_of_own hown]
    by_cases hother : a.snapshot.OtherInventory next
    · have hcount : a.listeners.count listener ≠ 0 := Nat.ne_of_gt (List.count_pos_iff.mpr hlistener)
      have hheard : heard listener (log ++ a.listeners.map (next.notice a.id)) =
          heard listener log ++ List.replicate (a.listeners.count listener) (next.notice a.id listener) := by
        rw [← heard_map_notice]
        exact List.filter_append ..
      rw [if_pos hother, hheard, known, List.getLast?_append, List.getLast?_replicate, if_neg hcount]
      rfl
    · rw [if_neg hother, List.append_nil, hknown]
      exact ResourceSnapshot.inventory_eq_of_not_otherInventory hother
  · rw [report_of_other hown]
    exact hknown

/-- So does a row of them. -/
theorem known_foldl_report {listener : String} {first : NameSet × NameSet} (hlistener : listener ∈ a.listeners)
    (hknown : known first (heard listener log) = a.snapshot.inventory) (reports : List ResourceSnapshot) :
    known first (heard listener (reports.foldl report (a, log)).2) = (reports.foldl report (a, log)).1.snapshot.inventory := by
  induction reports generalizing a log with
  | nil => exact hknown
  | cons next reports ih =>
    have hsame : (report (a, log) next).1.listeners = a.listeners := by
      by_cases hown : next.hostId = a.id
      · rw [report_of_own hown]
      · rw [report_of_other hown]
    exact ih (hsame ▸ hlistener) (known_report hlistener hknown next)

/-- After any row of reports, of its own host or of others: each listener got one notice, for each time it is registered, of every report
that changed the inventory, and no other; the notice says the host and the new inventory. So what a listener knows from the last one is the
current inventory. The agent holds the last report of its host, takes another one of it and tells all its listeners if the inventory
changed, and refuses a report of another host, by which nothing changes and nobody is told anything. -/
theorem listeners_hear_every_change (a : HostAgent) (reports : List ResourceSnapshot) :
    let b := (a.reportAll reports).1
    let log := (a.reportAll reports).2
    (∀ listener, heard listener log = (ResourceSnapshot.changes a.id a.snapshot reports).flatMap fun next =>
        List.replicate (a.listeners.count listener)
          { listener, hostId := a.id, datastores := next.datastores, networks := next.networks }) ∧
      (∀ listener ∈ a.listeners,
        known (a.snapshot.datastores, a.snapshot.networks) (heard listener log) = (b.snapshot.datastores, b.snapshot.networks)) ∧
      b = { a with snapshot := (reports.filter (·.hostId == a.id)).getLastD a.snapshot } ∧
      (∀ next : ResourceSnapshot, next.hostId = a.id →
        b.updateSnapshot next =
          .ok ({ b with snapshot := next }, if b.snapshot.OtherInventory next then a.listeners.map (next.notice a.id) else [])) ∧
      ∀ next : ResourceSnapshot, next.hostId ≠ a.id →
        b.updateSnapshot next = .error (.snapshotMismatch a.id next.hostId) ∧ a.reportAll (reports ++ [next]) = (b, log) := by
  intro b log
  have hb : b = { a with snapshot := (reports.filter (·.hostId == a.id)).getLastD a.snapshot } := foldl_report_fst a [] reports
  have hid : b.id = a.id := by rw [hb]
  have hlisteners : b.listeners = a.listeners := by rw [hb]
  refine ⟨fun listener => heard_foldl_report listener a [] reports, fun listener hlistener => ?_, hb, fun next hown => ?_,
    fun next hother => ⟨?_, ?_⟩⟩
  · have hfirst : known a.snapshot.inventory (heard listener []) = a.snapshot.inventory := rfl
    exact known_foldl_report hlistener hfirst reports
  · rw [← hid, ← hlisteners]
    exact updateSnapshot_of_own (hown.trans hid.symm)
  · rw [← hid]
    exact updateSnapshot_of_other (hid.symm ▸ hother)
  · rw [reportAll, List.foldl_concat]
    exact report_of_other (hid.symm ▸ hother)

end HostAgent

end PlacementTree
