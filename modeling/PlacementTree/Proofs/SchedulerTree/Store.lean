import PlacementTree.Proofs.Placement.Sound
import PlacementTree.Proofs.SchedulerTree.Delivery

/-!
# Snapshots are kept by host

A tree in use is a store of snapshots with the reachable hosts as its keys (`SchedulerTree.stores_last_delivered`): each holds the
last snapshot delivered for it, an accepted delivery replaces one of them, and one for anybody else is refused and does nothing.

What is stored is what is scored. The nodes of a tree hold references to the same agents that deliveries reach, so a tree after any
deliveries is the one that would be built afresh if the inventory had listed the stored figures (`Inventory.reporting`), and decides
alike from then on. For this, building is shown to look at the figures of a host only to copy them (`TreePlan.buildScheduler_reporting`).
-/

namespace PlacementTree

/-- The last snapshots of hosts, as far as there are any. -/
abbrev Reports := String → Option ResourceSnapshot

/-- The entry of a host with the figures of a snapshot. -/
def HostEntry.ofReport (h : HostEntry) (s : ResourceSnapshot) : HostEntry :=
  { id := h.id, cpuCount := s.rawCpu, memoryMb := s.rawMemoryMb, usedCpu := s.usedCpu, usedMemoryMb := s.usedMemoryMb,
    freeDiskGb := s.freeDiskGb, datastores := s.datastores, networks := s.networks, hostType := s.hostType, tags := s.tags }

/-- The entry of a host with the figures of its last snapshot. -/
def HostEntry.reporting (latest : Reports) (h : HostEntry) : HostEntry := ((latest h.id).map h.ofReport).getD h

/-- The inventory with the figures of the last snapshots. -/
def Inventory.reporting (inv : Inventory) (latest : Reports) : Inventory :=
  { inv with hosts := inv.hosts.map (·.reporting latest) }

/-- An agent with the last snapshot of its host. -/
def HostAgent.reporting (latest : Reports) (a : HostAgent) : HostAgent := { a with snapshot := (latest a.id).getD a.snapshot }

/-- A draft whose agents have the last snapshots of their hosts. -/
def TreeDraft.reporting (latest : Reports) (d : TreeDraft) : TreeDraft := { d with agents := d.agents.map (·.reporting latest) }

/-- A plan for the inventory with the figures of the last snapshots. -/
def TreePlan.reporting (p : TreePlan) (latest : Reports) : TreePlan := { p with inventory := p.inventory.reporting latest }

/-- What was built, beside a draft whose agents have the last snapshots of their hosts. -/
def TreeDraft.andReporting {α : Type} (latest : Reports) (built : α × TreeDraft) : α × TreeDraft :=
  (built.1, built.2.reporting latest)

/-- Snapshots are kept under the ids of their hosts. -/
def Reports.Keyed (latest : Reports) : Prop := ∀ host s, latest host = some s → s.hostId = host

/-! ## Building from other figures -/

theorem HostEntry.id_reporting (latest : Reports) (h : HostEntry) : (h.reporting latest).id = h.id := by
  rw [reporting]
  cases latest h.id <;> rfl

/-- The figures of an entry are those of its last snapshot. -/
theorem HostEntry.snapshot_reporting {latest : Reports} (hkeyed : latest.Keyed) (h : HostEntry) :
    (h.reporting latest).snapshot = (latest h.id).getD h.snapshot := by
  rw [reporting]
  cases hs : latest h.id with
  | none => rfl
  | some s =>
    have hid := hkeyed h.id s hs
    cases s
    simp_all [HostEntry.snapshot, HostEntry.ofReport]

namespace Inventory

variable (inv : Inventory) (latest : Reports)

theorem hostIds_reporting : (inv.reporting latest).hostIds = inv.hostIds := by
  rw [hostIds, hostIds, reporting, List.map_map]
  exact List.map_congr_left fun h _ => h.id_reporting latest

/-- A host has the entry that reports. -/
theorem host?_reporting (host : String) : (inv.reporting latest).host? host = (inv.host? host).map (·.reporting latest) := by
  have hsame : (fun h : HostEntry => h.id == host) ∘ HostEntry.reporting latest = fun h => h.id == host :=
    funext fun h => congrArg (· == host) (h.id_reporting latest)
  rw [host?, host?, reporting, List.find?_map, hsame]

/-- Other figures make no difference to whether an inventory is accepted. -/
theorem validate_reporting (hv : inv.validate = .ok ()) : (inv.reporting latest).validate = .ok () := by
  have ht := isTree_of_validate hv
  have hkeeps : inv.KeepsReached (inv.reporting latest) := ⟨rfl, inv.hostIds_reporting latest, rfl, fun _ hs _ => hs⟩
  refine (ht.of_keepsReached hkeeps fun s hs => ?_).validate
  have hres := ht.resolves s hs
  have hids : (inv.reporting latest).ids = inv.ids := congrArg (inv.schedulerIds ++ ·) (inv.hostIds_reporting latest)
  exact ⟨hres.oneKind, hids.symm ▸ hres.children, (inv.hostIds_reporting latest).symm ▸ hres.hosts⟩

end Inventory

namespace TreePlan

variable (p : TreePlan) {latest : Reports}

/-- The agent that is built for an entry has its figures. -/
theorem agentOf_reporting (hkeyed : latest.Keyed) (entry : HostEntry) :
    (p.reporting latest).agentOf (entry.reporting latest) = (p.agentOf entry).reporting latest := by
  have hid : entry.snapshot.hostId = entry.id := rfl
  simp only [agentOf, HostAgent.ofSnapshot, HostAgent.reporting, entry.snapshot_reporting hkeyed, hid, reporting]
  cases hs : latest entry.id with
  | none => rfl
  | some s => rw [Option.getD_some, hkeyed entry.id s hs]

/-- Building the agent of a host copies its figures. -/
theorem buildHost_reporting (hkeyed : latest.Keyed) (host : String) (d : TreeDraft) :
    (p.reporting latest).buildHost host (d.reporting latest) = (p.buildHost host d).map (TreeDraft.andReporting latest) := by
  have hhost : (p.reporting latest).inventory.host? host = (p.inventory.host? host).map (·.reporting latest) :=
    p.inventory.host?_reporting latest host
  rw [buildHost, buildHost, hhost]
  cases p.inventory.host? host with
  | none => rfl
  | some entry =>
    have hagent : HostAgent.make? (entry.reporting latest).snapshot p.slots p.listeners =
        (HostAgent.make? entry.snapshot p.slots p.listeners).map (·.reporting latest) := by
      simp only [HostAgent.make?, apply_ite (Option.map (HostAgent.reporting latest)), Option.map_some, Option.map_none]
      exact congrArg (ite _ · none) (congrArg some (p.agentOf_reporting hkeyed entry))
    simp only [Option.map_some, reporting, hagent]
    cases HostAgent.make? entry.snapshot p.slots p.listeners with
    | none => rfl
    | some a => simp [TreeDraft.addAgent, TreeDraft.reporting, TreeDraft.andReporting, Except.map]

theorem buildHosts_reporting (hkeyed : latest.Keyed) (hosts : List String) (d : TreeDraft) :
    (p.reporting latest).buildHosts hosts (d.reporting latest) =
      (p.buildHosts hosts d).map (TreeDraft.andReporting latest) := by
  induction hosts generalizing d with
  | nil => rfl
  | cons host hosts ih =>
    rw [buildHosts, buildHosts, p.buildHost_reporting hkeyed]
    cases p.buildHost host d with
    | error => rfl
    | ok first =>
      simp only [Except.map, bind, Except.bind, TreeDraft.andReporting, ih]
      cases p.buildHosts hosts first.2 <;> rfl

/-- If building one node copies the figures, so does building one after another. -/
theorem buildEach_reporting {build build' : String → TreeDraft → Except BuildFailure (Node × TreeDraft)}
    (hbuild : ∀ id d, build' id (d.reporting latest) = (build id d).map (TreeDraft.andReporting latest)) (ids : List String)
    (d : TreeDraft) : buildEach build' ids (d.reporting latest) = (buildEach build ids d).map (TreeDraft.andReporting latest) := by
  induction ids generalizing d with
  | nil => rfl
  | cons id ids ih =>
    rw [buildEach, buildEach, hbuild]
    cases build id d with
    | error => rfl
    | ok first =>
      simp only [Except.map, bind, Except.bind, TreeDraft.andReporting, ih]
      cases buildEach build ids first.2 <;> rfl

/-- Building what stands below a scheduler copies the figures of its hosts: the nodes and registrations are the same. -/
theorem buildScheduler_reporting (hkeyed : latest.Keyed) (depth : Nat) (id : String) (d : TreeDraft) :
    (p.reporting latest).buildScheduler depth id (d.reporting latest) =
      (p.buildScheduler depth id d).map (TreeDraft.andReporting latest) := by
  induction depth generalizing id d with
  | zero => rfl
  | succ depth ih =>
    have hchild : ∀ c d, (p.reporting latest).buildChild ((p.reporting latest).buildScheduler depth) c (d.reporting latest) =
        (p.buildChild (p.buildScheduler depth) c d).map (TreeDraft.andReporting latest) := by
      intro c d
      have hscheduler : (p.reporting latest).inventory.scheduler? c = p.inventory.scheduler? c := rfl
      unfold buildChild
      rw [hscheduler]
      split
      · exact ih c d
      · rw [p.buildHost_reporting hkeyed]
        cases p.buildHost c d <;> rfl
    have hscheduler : (p.reporting latest).inventory.scheduler? id = p.inventory.scheduler? id := rfl
    rw [buildScheduler, buildScheduler, hscheduler]
    cases p.inventory.scheduler? id with
    | none => rfl
    | some entry =>
      simp only [p.buildHosts_reporting hkeyed, buildEach_reporting hchild]
      split
      · cases p.buildHosts entry.hosts d <;> rfl
      · cases buildEach (p.buildChild (p.buildScheduler depth)) entry.children d <;> rfl

end TreePlan

/-! ## Where a host is scored -/

/-- A node that mirrors the inventory scores exactly the hosts of the agents it consults. -/
theorem Node.Mirrors.exists_scoredAt_iff {inv : Inventory} {limits : FanoutLimits} {stands : String → AgentRef → Prop} {id : String}
    {node : Node} (h : node.Mirrors inv limits stands id) (ref : AgentRef) : (∃ p, node.ScoredAt p ref) ↔ ref ∈ node.refs := by
  induction h with
  | host =>
    constructor
    · rintro ⟨p, hp⟩
      cases hp
      exact List.mem_singleton_self _
    · intro href
      obtain rfl := List.mem_singleton.mp href
      exact ⟨[], Node.ScoredAt.host ref⟩
  | @ranks id entry refs _ _ _ _ =>
    have hrefs : (Node.scheduler id limits (refs.map .agent) []).refs = refs := by
      rw [Node.refs, Node.refsOfEach, List.append_nil, List.filterMap_map]
      exact List.filterMap_some
    rw [hrefs]
    constructor
    · rintro ⟨p, hp⟩
      cases hp with
      | ranked hin =>
        obtain ⟨ref', href', heq⟩ := List.mem_map.mp hin
        cases heq
        exact href'
      | down hi => cases hi
    · exact fun href => ⟨[], Node.ScoredAt.ranked (List.mem_map_of_mem href)⟩
  | @asks id entry nodes _ _ hlen _ ih =>
    rw [Node.refs, List.filterMap_nil, List.nil_append, Node.refsOfEach_eq, List.mem_flatMap]
    have hbelow : ∀ (i : Nat) (node : Node), nodes[i]? = some node → ((∃ p, node.ScoredAt p ref) ↔ ref ∈ node.refs) := by
      intro i node hi
      obtain ⟨hlt, -⟩ := List.getElem?_eq_some_iff.mp hi
      exact ih i _ node (List.getElem?_eq_getElem (hlen ▸ hlt)) hi
    constructor
    · rintro ⟨p, hp⟩
      cases hp with
      | ranked hin => cases hin
      | down hi hp => exact ⟨_, List.mem_of_getElem? hi, (hbelow _ _ hi).mp ⟨_, hp⟩⟩
    · rintro ⟨node, hnode, href⟩
      obtain ⟨i, hi⟩ := List.getElem?_of_mem hnode
      obtain ⟨p, hp⟩ := (hbelow i node hi).mpr href
      exact ⟨i :: p, Node.ScoredAt.down hi hp⟩

attribute [ext] Fleet SchedulerTree

namespace SchedulerTree

variable {inv : Inventory} {c : AgentConfig} {listeners : List String} {t : SchedulerTree}

/-- What the listeners are told of a delivery. A delivery that is refused is told to nobody. -/
def told (t : SchedulerTree) (snapshot : ResourceSnapshot) : List InventoryNotice :=
  match t.updateSnapshot snapshot with
  | .ok (_, notices) => notices
  | .error _ => []

/-- The tree keeps one snapshot for each reachable host of an inventory, the last one if there was any. -/
structure Stores (t : SchedulerTree) (inv : Inventory) (latest : Reports) : Prop where
  keys : ∀ host a, t.host? host = some a → a.id = host ∧ a.snapshot.hostId = host
  hosts : ∀ host, (∃ a, t.host? host = some a) ↔ inv.Reached host ∧ host ∈ inv.hostIds
  last : ∀ entry ∈ inv.hosts, ∀ a, t.host? entry.id = some a → a.snapshot = (latest entry.id).getD entry.snapshot

/-- The tree takes a snapshot of a host: its agent has it now, and nothing else is changed. -/
structure Takes (t : SchedulerTree) (snapshot : ResourceSnapshot) (a : HostAgent) (next : SchedulerTree) : Prop where
  ok : t.updateSnapshot snapshot = .ok (next, a.notices snapshot)
  host? : ∀ host, next.host? host = if host = snapshot.hostId then some { a with snapshot } else t.host? host
  ratios : next.fleet.ratios = t.fleet.ratios
  keeps : t.Keeps next

/-- The tree refuses a snapshot as one of a host that it does not know. -/
structure Refuses (t : SchedulerTree) (snapshot : ResourceSnapshot) : Prop where
  error : t.updateSnapshot snapshot = .error (.unknownHost snapshot.hostId)
  unchanged : t.step (.deliver snapshot) = t
  untold : t.told snapshot = []

/-- An accepted snapshot replaces that of its host. -/
theorem Mirrors.takes (hm : t.Mirrors inv c) {snapshot : ResourceSnapshot} {a : HostAgent}
    (ha : t.host? snapshot.hostId = some a) : t.Takes snapshot a (t.step (.deliver snapshot)) := by
  obtain ⟨hid, -⟩ := hm.host?_eq_some_iff.mp ha
  have hok : t.updateSnapshot snapshot = .ok (t.setHost snapshot.hostId { a with snapshot }, a.notices snapshot) := by
    simp [updateSnapshot, ha, HostAgent.updateSnapshot, hid, Except.map]
  have hstep : t.step (.deliver snapshot) = t.setHost snapshot.hostId { a with snapshot } := by rw [step, hok]
  rw [hstep]
  refine ⟨hok, ?_, ?_, hstep ▸ (t.step_outcome (.deliver snapshot)).keeps⟩
  · intro host
    have hmet : (t.step (.deliver snapshot)).host? host = (t.host? host).map (·.meet (.deliver snapshot)) :=
      hm.host?_after [.deliver snapshot] host
    rw [hstep] at hmet
    rw [hmet]
    by_cases heq : host = snapshot.hostId
    · rw [if_pos heq, heq, ha, Option.map_some, a.meet_deliver, if_pos hid.symm]
    · rw [if_neg heq]
      cases hb : t.host? host with
      | none => rfl
      | some b =>
        obtain ⟨hidb, -⟩ := hm.host?_eq_some_iff.mp hb
        rw [Option.map_some, b.meet_deliver, if_neg fun h => heq (hidb.symm.trans h.symm)]
  · unfold setHost
    split <;> rfl

/-- A snapshot of a host that is not found is refused. -/
theorem refuses_of_none {snapshot : ResourceSnapshot} (h : t.host? snapshot.hostId = none) : t.Refuses snapshot := by
  have herror : t.updateSnapshot snapshot = .error (.unknownHost snapshot.hostId) := by rw [updateSnapshot, h]
  exact ⟨herror, by rw [step, herror], by rw [told, herror]⟩

/-- A tree in use keeps the last snapshot of each host. -/
theorem stores_after (hbuilt : ofInventory inv c listeners = .ok t) (events : List TreeEvent) :
    (t.after events).Stores inv (TreeEvent.latest? events) := by
  obtain ⟨ht, hm, -⟩ := built_of_ofInventory hbuilt
  constructor
  · intro host a ha
    obtain ⟨hid, ref, -, hagent⟩ := (hm.after events).host?_eq_some_iff.mp ha
    have hown := own_snapshots (fun ref a ha => (agents_of_ofInventory hbuilt ha).1) events ref a hagent
    exact ⟨hid, hown.trans hid⟩
  · exact fun host => (hm.after events).exists_host?_iff
  · intro entry hin a ha
    have hr := ((hm.after events).exists_host?_iff.mp ⟨a, ha⟩).1
    rw [hm.host?_after, host?_of_ofInventory hbuilt hin hr, Option.map_some, Option.some.injEq] at ha
    rw [← ha, HostAgent.meetAll_eq]
    rfl

/-- After events that close nobody the agents are those that were built, with the last snapshots. -/
theorem Mirrors.agents_after (hm : t.Mirrors inv c) {events : List TreeEvent} (hopen : ∀ e ∈ events, e.closes = false) :
    (t.after events).fleet.agents = t.fleet.agents.map (·.reporting (TreeEvent.latest? events)) := by
  apply List.ext_getElem?
  intro i
  have hagent := hm.agent?_after events ⟨i⟩
  unfold Fleet.agent? at hagent
  rw [hagent, List.getElem?_map]
  apply Option.map_congr
  intro a _
  have hnone : events.any (TreeEvent.closesAgent a.id) = false := by
    rw [List.any_eq_false]
    intro e he hcloses
    have hfalse := hopen e he
    rw [TreeEvent.closes_of_closesAgent hcloses] at hfalse
    cases hfalse
  rw [HostAgent.meetAll_eq, hnone, Bool.or_false]
  rfl

/-- After events that close nobody the tree is the one that is built from an inventory with the last snapshots, under the ratios now
in force. -/
theorem exists_rebuilt (hbuilt : ofInventory inv c listeners = .ok t) {events : List TreeEvent}
    (hopen : ∀ e ∈ events, e.closes = false) :
    ∃ fresh, ofInventory (inv.reporting (TreeEvent.latest? events)) c listeners = .ok fresh ∧
      t.after events = fresh.setRatios (t.after events).fleet.ratios := by
  obtain ⟨hv, hc⟩ := validate_of_ofInventory hbuilt
  obtain ⟨-, hm, hb, -⟩ := built_of_ofInventory hbuilt
  obtain ⟨fresh, hfresh, hbfresh, -, hmfresh⟩ :=
    @ofInventory_of_validate _ c listeners (inv.validate_reporting (TreeEvent.latest? events) hv) hc
  have hkeyed : Reports.Keyed (TreeEvent.latest? events) := fun _ _ hs => TreeEvent.hostId_of_latest? hs
  have hsame := (TreePlan.ofConfig inv c listeners).buildScheduler_reporting hkeyed (inv.schedulers.length + 1) inv.root {}
  rw [hb] at hsame
  obtain ⟨hroom, hbuilds⟩ := TreePlan.grant_eq_ok_iff.mp (hbfresh.symm.trans hsame)
  simp only [TreeDraft.andReporting, TreeDraft.reporting, Prod.mk.injEq, TreeDraft.mk.injEq] at hbuilds
  obtain ⟨hroot, hregistry, hagents⟩ := hbuilds
  have hmused := hm.after events
  have hkeeps := t.keeps_after events
  have hused : (t.after events).fleet.agents = fresh.fleet.agents := (hm.agents_after hopen).trans hagents.symm
  refine ⟨fresh, hfresh.trans (TreePlan.grant_eq_ok_iff.mpr ⟨hroom, rfl⟩), SchedulerTree.ext ?_ ?_ ?_ ?_ ?_⟩
  · exact hmused.rootId.trans hmfresh.rootId.symm
  · exact hkeeps.root.trans hroot.symm
  · exact hkeeps.registry.trans hregistry.symm
  · exact Fleet.ext rfl (hmused.transfer.trans hmfresh.transfer.symm) hused
  · exact hmused.defaultTimeout.trans hmfresh.defaultTimeout.symm

/-- A tree in use keeps one snapshot for each reachable host, under the id that the agent and the snapshot have: the last one that
was delivered for it, or that of the inventory. A delivery for a reachable host replaces this snapshot and no other, any other is
refused as one for an unknown host, changes nothing and is told to nobody, and none is refused as one of another host.

The nodes score the very agents that deliveries reach, each of them at some place, be it a child or ranked by its scheduler. So, as
long as nobody is closed, the tree is the one built from an inventory that lists the snapshots it keeps, under the ratios in force:
it decides as that one does. -/
theorem stores_last_delivered (hbuilt : ofInventory inv c listeners = .ok t) (events : List TreeEvent) :
    (t.after events).Stores inv (TreeEvent.latest? events) ∧
      (∀ snapshot : ResourceSnapshot, inv.Reached snapshot.hostId ∧ snapshot.hostId ∈ inv.hostIds →
        ∃ a, (t.after events).host? snapshot.hostId = some a ∧
          (t.after events).Takes snapshot a (t.after (events ++ [.deliver snapshot]))) ∧
      (∀ snapshot : ResourceSnapshot, ¬ (inv.Reached snapshot.hostId ∧ snapshot.hostId ∈ inv.hostIds) →
        (t.after events).Refuses snapshot) ∧
      (∀ snapshot host got, (t.after events).updateSnapshot snapshot ≠ .error (.snapshotMismatch host got)) ∧
      (∀ ref, (∃ p, (t.after events).root.ScoredAt p ref) ↔
        ∃ host a, (t.after events).ref? host = some ref ∧ (t.after events).host? host = some a ∧
          (t.after events).fleet.agent? ref = some a) ∧
      ((∀ e ∈ events, e.closes = false) →
        ∃ fresh, ofInventory (inv.reporting (TreeEvent.latest? events)) c listeners = .ok fresh ∧
          t.after events = fresh.setRatios (t.after events).fleet.ratios) := by
  obtain ⟨-, hm₀, -⟩ := built_of_ofInventory hbuilt
  have hm := hm₀.after events
  have hconcat : ∀ e, t.after (events ++ [e]) = (t.after events).step e := fun e => List.foldl_concat ..
  have hnone : ∀ snapshot : ResourceSnapshot, ¬ (inv.Reached snapshot.hostId ∧ snapshot.hostId ∈ inv.hostIds) →
      (t.after events).host? snapshot.hostId = none := by
    intro snapshot hunknown
    rw [Option.eq_none_iff_forall_ne_some]
    exact fun a ha => hunknown (hm.exists_host?_iff.mp ⟨a, ha⟩)
  refine ⟨stores_after hbuilt events, ?_, fun snapshot hunknown => refuses_of_none (hnone snapshot hunknown), ?_, ?_,
    exists_rebuilt hbuilt⟩
  · intro snapshot hknown
    obtain ⟨a, ha⟩ := hm.exists_host?_iff.mpr hknown
    exact ⟨a, ha, (hconcat (.deliver snapshot)).symm ▸ hm.takes ha⟩
  · intro snapshot host got hmismatch
    cases ha : (t.after events).host? snapshot.hostId with
    | none =>
      rw [(refuses_of_none ha).error] at hmismatch
      cases hmismatch
    | some a =>
      rw [(hm.takes ha).ok] at hmismatch
      cases hmismatch
  · intro ref
    rw [hm.nodes.exists_scoredAt_iff, hm.refs]
    constructor
    · rintro ⟨host, href⟩
      obtain ⟨a, ha, hid⟩ := Option.map_eq_some_iff.mp ((hm.agents host ref).mpr href)
      exact ⟨host, a, href, hm.host?_eq_some_iff.mpr ⟨hid, ref, href, ha⟩, ha⟩
    · exact fun ⟨host, _, href, _⟩ => ⟨host, href⟩

/-- A host that is ranked by its scheduler takes a snapshot, the policy changes, and a host that nobody knows reports. -/
theorem stores_last_delivered_ranked :
    let g : HostEntry := { id := "g", cpuCount := 2, memoryMb := 512 }
    let inv : Inventory :=
      { root := "r", schedulers := [⟨"r", ["s", "g"], []⟩, ⟨"s", [], ["h"]⟩],
        hosts := [g, { id := "h", cpuCount := 4, memoryMb := 1024 }] }
    let later : HostEntry := { id := "h", cpuCount := 4, memoryMb := 1024, usedCpu := 3 }
    let events : List TreeEvent := [.deliver later.snapshot, .setCpu 2.0]
    ∃ t fresh, ofInventory inv {} ["l"] = .ok t ∧ ofInventory { inv with hosts := [g, later] } {} ["l"] = .ok fresh ∧
      t.after events = fresh.setRatios (t.after events).fleet.ratios ∧
      ((t.after events).host? "h").map (·.snapshot) = some later.snapshot ∧
      (t.after events).Refuses { later.snapshot with hostId := "s" } := by
  intro g inv later events
  have hvalid : inv.validate = .ok () := by decide
  obtain ⟨t, ht, -⟩ := @exists_ofInventory inv {} ["l"] hvalid rfl (by decide)
  obtain ⟨hstores, -, hrefuses, -, -, hrebuilt⟩ := stores_last_delivered ht events
  obtain ⟨fresh, hfresh, heq⟩ := hrebuilt (by simp [events, TreeEvent.closes])
  have hs : inv.Reached "s" := Inventory.Reached.down Inventory.Reached.root (by decide)
  have hh : inv.Reached "h" := Inventory.Reached.down hs (by decide)
  obtain ⟨a, ha⟩ := (hstores.hosts "h").mpr ⟨hh, by decide⟩
  have hsnapshot := hstores.last { id := "h", cpuCount := 4, memoryMb := 1024 } (by simp [inv]) a ha
  refine ⟨t, fresh, ht, hfresh, heq, ?_, hrefuses _ fun h => absurd h.2 (by decide)⟩
  rw [ha, Option.map_some, hsnapshot]
  rfl

end SchedulerTree

end PlacementTree
