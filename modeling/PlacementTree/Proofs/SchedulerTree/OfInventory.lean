import PlacementTree.Proofs.SchedulerTree.Build

/-!
# The tree of an inventory

`SchedulerTree.Mirrors` says what a tree has of the inventory and the configuration it was built from, however it was used since:
its nodes mirror the inventory below the root, its registry names each reachable host once, and the agent that is registered for a
host is the only one that the nodes consult for it.

Building is refused exactly if one of both checks fails. After them it dies if a host is reached and no agent can have the slots that
are configured, which the check of the configuration lets pass; otherwise there is a tree, it mirrors the inventory and its agents have
the snapshots of the inventory. The registrations are looked up by the last one of an id, so the argument needs that no id is registered
twice: the ids of the agents, in the order in which they were built, are the ids of the nodes that are no schedulers.
-/

namespace PlacementTree

/-- The id of an agent. -/
def Fleet.name? (f : Fleet) (ref : AgentRef) : Option String := (f.agent? ref).map (·.id)

/-- The limits of the schedulers under a configuration. -/
def AgentConfig.limits (c : AgentConfig) : FanoutLimits :=
  FanoutLimits.ofSettings c.scheduler.fanout.toNat c.scheduler.hopLatencyMs.toNat

/-- What the parts of the tree of an inventory have in common. -/
def TreePlan.ofConfig (inv : Inventory) (c : AgentConfig) (listeners : List String) : TreePlan :=
  { inventory := inv, limits := c.limits, slots := c.agent.hostServiceThreads.toNat, listeners }

namespace SchedulerTree

/-- The tree has the nodes of an inventory below its root, one agent for each reachable host, registered and consulted under its
id and no other, and the settings of a configuration that do not change. -/
structure Mirrors (t : SchedulerTree) (inv : Inventory) (c : AgentConfig) : Prop where
  rootId : t.rootId = inv.root
  nodes : t.root.Mirrors inv c.limits (fun id ref => t.ref? id = some ref) inv.root
  ids : ∀ id, id ∈ t.root.ids t.fleet.name? ↔ inv.Reached id
  idsNodup : (t.root.ids t.fleet.name?).Nodup
  hostIds : ∀ id, id ∈ t.hostIds ↔ inv.Reached id ∧ id ∈ inv.hostIds
  hostIdsNodup : t.hostIds.Nodup
  refs : ∀ ref, ref ∈ t.root.refs ↔ ∃ id, t.ref? id = some ref
  refsNodup : t.root.refs.Nodup
  agents : ∀ id ref, t.fleet.name? ref = some id ↔ t.ref? id = some ref
  transfer : t.fleet.transfer = { value := c.agent.utilizationTransferRatio }
  defaultTimeout : t.defaultTimeout = c.scheduler.defaultTimeoutMs.toNat

/-- Exactly the registered ids are found. -/
theorem mem_hostIds_iff {t : SchedulerTree} {id : String} : id ∈ t.hostIds ↔ ∃ ref, t.ref? id = some ref := by
  rw [ref?, ← Option.isSome_iff_exists, List.lookup_isSome_iff, hostIds, List.mem_map]
  constructor
  · rintro ⟨e, he, rfl⟩
    exact ⟨e, List.mem_reverse.mpr he, beq_self_eq_true _⟩
  · rintro ⟨e, he, heq⟩
    exact ⟨e, List.mem_reverse.mp he, (eq_of_beq heq).symm⟩

/-- Among the registrations of distinct ids each is found. -/
theorem ref?_eq_some_iff {t : SchedulerTree} (hnd : t.hostIds.Nodup) {id : String} {ref : AgentRef} :
    t.ref? id = some ref ↔ (id, ref) ∈ t.registry := by
  unfold ref?
  constructor
  · intro h
    obtain ⟨before, after, heq, -⟩ := List.lookup_eq_some_iff.mp h
    exact List.mem_reverse.mp (heq ▸ by simp)
  · intro h
    obtain ⟨before, after, heq⟩ := List.append_of_mem (List.mem_reverse.mpr h)
    refine List.lookup_eq_some_iff.mpr ⟨before, after, heq, ?_⟩
    have hrev : ((before ++ (id, ref) :: after).map (·.1)).Nodup := by
      rw [← heq, List.map_reverse]
      exact List.nodup_reverse.mpr hnd
    intro e he
    rw [List.map_append, List.map_cons, List.nodup_append] at hrev
    have hne := hrev.2.2 e.1 (List.mem_map_of_mem he) id List.mem_cons_self
    exact bne_iff_ne.mpr fun heq => hne heq.symm

end SchedulerTree

/-- A host that is found by an id has it. -/
theorem Inventory.id_of_host? {inv : Inventory} {id : String} {entry : HostEntry} (h : inv.host? id = some entry) :
    entry.id = id := by
  have hid := List.find?_some h
  exact eq_of_beq hid

namespace TreePlan

variable {p : TreePlan} {hosts : List String} {d : TreeDraft}

/-- Each agent of a draft is that of the host in its place. -/
theorem Holds.agent_iff (h : p.Holds hosts d) {ref : AgentRef} {a : HostAgent} :
    d.agents[ref.index]? = some a ↔
      ∃ id entry, Listed hosts id ref ∧ p.inventory.host? id = some entry ∧ a = p.agentOf entry := by
  have hat : (d.agents[ref.index]?).map some = (hosts[ref.index]?).map fun id => (p.inventory.host? id).map p.agentOf := by
    rw [← List.getElem?_map, ← List.getElem?_map, h.agents]
  constructor
  · intro ha
    rw [ha, Option.map_some, eq_comm, Option.map_eq_some_iff] at hat
    obtain ⟨id, hid, heq⟩ := hat
    obtain ⟨entry, hentry, heq⟩ := Option.map_eq_some_iff.mp heq
    exact ⟨id, entry, hid, hentry, heq.symm⟩
  · rintro ⟨id, entry, hid, hentry, rfl⟩
    rw [show hosts[ref.index]? = some id from hid, Option.map_some, hentry, Option.map_some, Option.map_eq_some_iff] at hat
    obtain ⟨a, ha, heq⟩ := hat
    rw [ha, Option.some.inj heq]

/-- The id of an agent of a draft is that of its host. -/
theorem Holds.id_iff (h : p.Holds hosts d) {ref : AgentRef} {id : String} :
    (d.agents[ref.index]?).map (·.id) = some id ↔ Listed hosts id ref := by
  constructor
  · intro ha
    obtain ⟨a, hat, rfl⟩ := Option.map_eq_some_iff.mp ha
    obtain ⟨id, entry, hl, he, rfl⟩ := h.agent_iff.mp hat
    rwa [agentOf, HostAgent.ofSnapshot, HostEntry.snapshot, Inventory.id_of_host? he]
  · intro hl
    obtain ⟨hlt, -⟩ := List.getElem?_eq_some_iff.mp hl
    obtain ⟨a, ha⟩ : ∃ a, d.agents[ref.index]? = some a :=
      ⟨_, List.getElem?_eq_getElem (h.length_agents.symm ▸ hlt)⟩
    obtain ⟨id', entry, hl', he, rfl⟩ := h.agent_iff.mp ha
    obtain rfl := Option.some.inj (hl.symm.trans hl')
    rw [ha, Option.map_some, agentOf, HostAgent.ofSnapshot, HostEntry.snapshot, Inventory.id_of_host? he]

/-- The registered ids of a draft are those of its hosts. -/
theorem Holds.registry_ids (h : p.Holds hosts d) : d.registry.map (·.1) = hosts := by
  rw [h.registry]
  apply List.ext_getElem?
  intro i
  rw [List.getElem?_map, List.getElem?_mapIdx, Option.map_map]
  exact congrFun Option.map_id_fun' hosts[i]?

/-- The registrations of a draft are those of its hosts, each with the agent in its place. -/
theorem Holds.mem_registry_iff (h : p.Holds hosts d) {id : String} {ref : AgentRef} :
    (id, ref) ∈ d.registry ↔ Listed hosts id ref := by
  simp only [h.registry, List.mem_mapIdx, Listed, Prod.mk.injEq]
  constructor
  · rintro ⟨i, hi, rfl, rfl⟩
    exact List.getElem?_eq_getElem hi
  · intro hl
    obtain ⟨hi, hid⟩ := List.getElem?_eq_some_iff.mp hl
    exact ⟨ref.index, hi, hid, rfl⟩

/-- The references of the agents in a row stand for the hosts. -/
theorem forall₂_listed (hosts : List String) : List.Forall₂ (Listed hosts) hosts (refsFrom 0 hosts.length) := by
  rw [List.forall₂_iff_get]
  refine ⟨by simp [refsFrom], ?_⟩
  intro i hi hi'
  simp [Listed, refsFrom]

/-- The hosts whose agents were built for a node are its ids that are no schedulers, in order. So none was built twice. -/
theorem Raises.added_eq (ht : p.inventory.IsTree) {id : String} {node : Node} {added : List String}
    (h : p.Raises [] id node d added) {name : AgentRef → Option String}
    (hname : ∀ id ref, Listed added id ref → name ref = some id) :
    added = (node.ids name).filter fun id => (p.inventory.scheduler? id).isNone := by
  obtain ⟨-, hmirrors, hrefs⟩ := h
  rw [List.nil_append] at hmirrors
  rw [← hmirrors.refs_names ht hname, hrefs]
  exact (Node.Mirrors.filterMap_name hname (forall₂_listed added)).symm

end TreePlan

namespace SchedulerTree

variable {inv : Inventory} {c : AgentConfig} {listeners : List String}

/-- A tree whose nodes and agents were built for a checked inventory mirrors it. -/
theorem mirrors_of_raises (ht : inv.IsTree) {t : SchedulerTree} {added : List String}
    (h : (TreePlan.ofConfig inv c listeners).Raises [] inv.root t.root { registry := t.registry, agents := t.fleet.agents } added)
    (hroot : t.rootId = inv.root) (htransfer : t.fleet.transfer = { value := c.agent.utilizationTransferRatio })
    (htimeout : t.defaultTimeout = c.scheduler.defaultTimeoutMs.toNat) : t.Mirrors inv c := by
  have hholds := h.holds
  have hmirrors := h.mirrors
  have hrefs : t.root.refs = refsFrom 0 added.length := h.refs
  rw [List.nil_append] at hholds hmirrors
  have hname : ∀ id ref, t.fleet.name? ref = some id ↔ Listed added id ref := fun id ref => hholds.id_iff
  have hnamed : ∀ id ref, Listed added id ref → t.fleet.name? ref = some id := fun id ref => (hname id ref).mpr
  have hhostIds : t.hostIds = added := hholds.registry_ids
  have hadded : added = (t.root.ids t.fleet.name?).filter fun id => (inv.scheduler? id).isNone := h.added_eq ht hnamed
  have hidsNodup := hmirrors.ids_nodup ht hnamed Inventory.Reached.root
  have haddedNodup : added.Nodup := hadded ▸ hidsNodup.filter _
  have hids : ∀ id, id ∈ t.root.ids t.fleet.name? ↔ inv.Reached id := by
    intro id
    rw [hmirrors.mem_ids_iff ht hnamed]
    exact ⟨fun ⟨_, _, hd⟩ => hd.reached Inventory.Reached.root, fun hr => hr.exists_descends⟩
  have href : ∀ id ref, t.ref? id = some ref ↔ Listed added id ref := by
    intro id ref
    rw [ref?_eq_some_iff (hhostIds ▸ haddedNodup)]
    exact hholds.mem_registry_iff
  refine ⟨hroot, ?_, hids, hidsNodup, ?_, hhostIds ▸ haddedNodup, ?_, hrefs ▸ refsFrom_nodup _ _, ?_, htransfer, htimeout⟩
  · exact hmirrors.mono fun id ref hl => (href id ref).mpr hl
  · intro id
    rw [hhostIds, hadded, List.mem_filter, hids, Option.isNone_iff_eq_none]
    exact and_congr_right fun hr => ht.scheduler?_eq_none_iff hr
  · intro ref
    simp only [href]
    rw [hrefs, mem_refsFrom_iff]
    constructor
    · intro hlt
      exact ⟨_, List.getElem?_eq_getElem hlt⟩
    · rintro ⟨id, hl⟩
      exact (List.getElem?_eq_some_iff.mp hl).1
  · intro id ref
    rw [hname, href]

/-- A refused inventory is the error of building, and so is a refused configuration after it. -/
theorem ofInventory_of_refused {cause : ConfigError}
    (h : inv.validate = .error cause ∨ inv.validate = .ok () ∧ c.validate = .error cause) :
    ofInventory inv c listeners = .error (.refused (.placement (.invalidConfig cause))) := by
  rcases h with hv | ⟨hv, hc⟩
  · simp [ofInventory, hv, refuse, bind, Except.bind]
  · simp [ofInventory, hv, hc, refuse, bind, Except.bind]

/-- After both checks only the slots stand against building. -/
theorem ofInventory_of_validate (hv : inv.validate = .ok ()) (hc : c.validate = .ok ()) :
    ∃ t, ofInventory inv c listeners = (TreePlan.ofConfig inv c listeners).grant t.hostIds t ∧
      (TreePlan.ofConfig inv c listeners).buildScheduler (inv.schedulers.length + 1) inv.root {} =
        (TreePlan.ofConfig inv c listeners).grant t.hostIds (t.root, { registry := t.registry, agents := t.fleet.agents }) ∧
      (TreePlan.ofConfig inv c listeners).Holds t.hostIds { registry := t.registry, agents := t.fleet.agents } ∧
      t.Mirrors inv c := by
  have ht := Inventory.isTree_of_validate hv
  have hdepth : inv.schedulers.length < inv.schedulers.length + 1 + [inv.root].length := by
    rw [List.length_singleton]
    omega
  obtain ⟨node, d, added, hb, hr⟩ :=
    TreePlan.buildScheduler_eq (p := TreePlan.ofConfig inv c listeners) ht (Inventory.Descends.here inv.root) ht.rootDefined
      hdepth (TreePlan.holds_nil _)
  let ratios : OvercommitRatios := { cpu := c.agent.cpuOvercommit, memory := c.agent.memoryOvercommit }
  let t : SchedulerTree :=
    { rootId := inv.root, root := node, registry := d.registry,
      fleet := { ratios, transfer := { value := c.agent.utilizationTransferRatio }, agents := d.agents },
      defaultTimeout := c.scheduler.defaultTimeoutMs.toNat }
  have hhosts : t.hostIds = added := hr.holds.registry_ids
  refine ⟨t, ?_, ?_, ?_, mirrors_of_raises ht hr rfl rfl rfl⟩
  · unfold TreePlan.ofConfig AgentConfig.limits at hb ⊢
    simp only [ofInventory, hv, hc, refuse, AgentConfig.ratios_of_validate hc, AgentConfig.transfer_of_validate hc, refusePlacement]
    rw [hhosts]
    simp only [bind, Except.bind, hb]
    exact TreePlan.grant_bind_pure rfl
  · rw [hhosts]
    exact hb
  · rw [hhosts]
    exact hr.holds

/-- After both checks a tree is built if an agent can have the slots that are configured. -/
theorem exists_ofInventory (hv : inv.validate = .ok ()) (hc : c.validate = .ok ())
    (hslots : c.agent.hostServiceThreads.toNat ≤ HostAgent.maxSlots) :
    ∃ t, ofInventory inv c listeners = .ok t ∧ t.Mirrors inv c := by
  obtain ⟨t, ht, -, -, hm⟩ := ofInventory_of_validate hv hc
  exact ⟨t, ht.trans (TreePlan.grant_eq_ok_iff.mpr ⟨Or.inr hslots, rfl⟩), hm⟩

/-- A tree that was built had both checks passed. -/
theorem validate_of_ofInventory {t : SchedulerTree} (h : ofInventory inv c listeners = .ok t) :
    inv.validate = .ok () ∧ c.validate = .ok () := by
  cases hv : inv.validate with
  | error cause =>
    rw [ofInventory_of_refused (Or.inl hv)] at h
    cases h
  | ok =>
    cases hc : c.validate with
    | error cause =>
      rw [ofInventory_of_refused (Or.inr ⟨hv, hc⟩)] at h
      cases h
    | ok => exact ⟨rfl, rfl⟩

/-- What a tree that was built has: its nodes and agents are those that were built for the root, and it mirrors its inventory, which
is a tree. -/
theorem built_of_ofInventory {t : SchedulerTree} (h : ofInventory inv c listeners = .ok t) :
    inv.IsTree ∧ t.Mirrors inv c ∧
      (TreePlan.ofConfig inv c listeners).buildScheduler (inv.schedulers.length + 1) inv.root {} =
        .ok (t.root, { registry := t.registry, agents := t.fleet.agents }) ∧
      ∃ added, (TreePlan.ofConfig inv c listeners).Holds added { registry := t.registry, agents := t.fleet.agents } := by
  obtain ⟨hv, hc⟩ := validate_of_ofInventory h
  obtain ⟨t', ht', hbuild, hholds, hm⟩ := ofInventory_of_validate hv hc
  obtain ⟨hroom, rfl⟩ := TreePlan.grant_eq_ok_iff.mp (ht'.symm.trans h)
  exact ⟨Inventory.isTree_of_validate hv, hm, hbuild.trans (TreePlan.grant_eq_ok_iff.mpr ⟨hroom, rfl⟩), _, hholds⟩

/-- Each reachable host starts with an agent that has the snapshot of its entry. -/
theorem host?_of_ofInventory {t : SchedulerTree} (h : ofInventory inv c listeners = .ok t) {entry : HostEntry}
    (hin : entry ∈ inv.hosts) (hr : inv.Reached entry.id) :
    t.host? entry.id = some (HostAgent.ofSnapshot entry.snapshot c.agent.hostServiceThreads.toNat listeners) := by
  obtain ⟨ht, hm, -, added, hholds⟩ := built_of_ofInventory h
  obtain ⟨ref, href⟩ := mem_hostIds_iff.mp ((hm.hostIds entry.id).mpr ⟨hr, List.mem_map_of_mem hin⟩)
  obtain ⟨a, ha, hid⟩ := Option.map_eq_some_iff.mp ((hm.agents entry.id ref).mpr href)
  obtain ⟨id, found, -, hfound, rfl⟩ := hholds.agent_iff.mp ha
  have hsame : found = entry := by
    have hnd := (List.nodup_append.mp ht.nodup).2.1
    exact List.inj_on_of_nodup_map hnd (List.mem_of_find?_eq_some hfound) hin hid
  rw [host?, href, Option.bind_some, ha, hsame]
  rfl

/-- Every agent starts open, with a snapshot of its own host. -/
theorem agents_of_ofInventory {t : SchedulerTree} (h : ofInventory inv c listeners = .ok t) {ref : AgentRef} {a : HostAgent}
    (ha : t.fleet.agent? ref = some a) : a.snapshot.hostId = a.id ∧ a.closed = false := by
  obtain ⟨-, -, -, added, hholds⟩ := built_of_ofInventory h
  obtain ⟨id, entry, -, -, rfl⟩ := hholds.agent_iff.mp ha
  exact ⟨rfl, rfl⟩

/-- Where the checks pass, a host of the tree is one that the inventory has below its root. -/
theorem Mirrors.hostIds_ne_nil_iff {t : SchedulerTree} (hm : t.Mirrors inv c) :
    t.hostIds ≠ [] ↔ ∃ id ∈ inv.hostIds, inv.Reached id := by
  rw [← List.isEmpty_eq_false_iff, List.isEmpty_eq_false_iff_exists_mem]
  exact exists_congr fun id => (hm.hostIds id).trans and_comm

/-- A tree is built exactly when the inventory and the configuration pass their checks and an agent can have the slots that are
configured, unless no host is reached. Building is refused exactly with what the first check that does not pass reports, and with
nothing else; it dies exactly when the checks pass, a host is reached, and there are more slots than an agent can have. No greater depth
of the recursion makes a difference. The tree mirrors the inventory, and each reachable host starts with one agent that has the snapshot
of its entry. -/
theorem ofInventory_outcome (inv : Inventory) (c : AgentConfig) (listeners : List String) :
    ((∃ t, ofInventory inv c listeners = .ok t) ↔
        inv.validate = .ok () ∧ c.validate = .ok () ∧
          ((∃ id ∈ inv.hostIds, inv.Reached id) → c.agent.hostServiceThreads.toNat ≤ HostAgent.maxSlots)) ∧
      (∀ e, ofInventory inv c listeners = .error (.refused e) ↔
        ∃ cause, e = .placement (.invalidConfig cause) ∧
          (inv.validate = .error cause ∨ inv.validate = .ok () ∧ c.validate = .error cause)) ∧
      (ofInventory inv c listeners = .error .died ↔
        inv.validate = .ok () ∧ c.validate = .ok () ∧ (∃ id ∈ inv.hostIds, inv.Reached id) ∧
          HostAgent.maxSlots < c.agent.hostServiceThreads.toNat) ∧
      ∀ t, ofInventory inv c listeners = .ok t →
        (∀ depth, inv.schedulers.length < depth →
          (TreePlan.ofConfig inv c listeners).buildScheduler depth inv.root {} =
            .ok (t.root, { registry := t.registry, agents := t.fleet.agents })) ∧
        t.Mirrors inv c ∧
        ∀ entry ∈ inv.hosts, inv.Reached entry.id →
          t.host? entry.id = some (HostAgent.ofSnapshot entry.snapshot c.agent.hostServiceThreads.toNat listeners) := by
  have hbuilt : ∀ t, ofInventory inv c listeners = .ok t →
      (∀ depth, inv.schedulers.length < depth →
        (TreePlan.ofConfig inv c listeners).buildScheduler depth inv.root {} =
          .ok (t.root, { registry := t.registry, agents := t.fleet.agents })) ∧
      t.Mirrors inv c ∧
      ∀ entry ∈ inv.hosts, inv.Reached entry.id →
        t.host? entry.id = some (HostAgent.ofSnapshot entry.snapshot c.agent.hostServiceThreads.toNat listeners) := by
    intro t h
    obtain ⟨-, hm, hb, -⟩ := built_of_ofInventory h
    exact ⟨fun depth hd => TreePlan.buildScheduler_of_le hd hb, hm, fun entry hin hr => host?_of_ofInventory h hin hr⟩
  cases hv : inv.validate with
  | error cause => simp [ofInventory_of_refused (Or.inl hv), eq_comm]
  | ok =>
    cases hc : c.validate with
    | error cause => simp [ofInventory_of_refused (Or.inr ⟨hv, hc⟩), eq_comm]
    | ok =>
      obtain ⟨t, (ht : ofInventory inv c listeners = _), -, -, hm⟩ := ofInventory_of_validate hv hc
      have hslots : (TreePlan.ofConfig inv c listeners).slots = c.agent.hostServiceThreads.toNat := rfl
      refine ⟨?_, ?_, ?_, hbuilt⟩
      · simp only [ht, TreePlan.grant_eq_ok_iff, exists_and_left, exists_eq', and_true, true_and, hslots]
        rw [← hm.hostIds_ne_nil_iff]
        exact Decidable.or_iff_not_imp_left
      · simp [ht, TreePlan.grant_eq_error_iff]
      · rw [ht, TreePlan.grant_eq_error_iff, hm.hostIds_ne_nil_iff, hslots]
        simp

/-- A host beside a scheduler that ranks another one, under the default configuration. -/
theorem ofInventory_outcome_two_levels :
    let entry : HostEntry := { id := "h", cpuCount := 4, memoryMb := 1024 }
    let inv : Inventory :=
      { root := "r", schedulers := [⟨"r", ["s", "g"], []⟩, ⟨"s", [], ["h"]⟩],
        hosts := [{ id := "g", cpuCount := 2, memoryMb := 512 }, entry] }
    ∃ t, ofInventory inv {} ["l"] = .ok t ∧ t.Mirrors inv {} ∧ t.host? "h" = some (HostAgent.ofSnapshot entry.snapshot 4 ["l"]) := by
  intro entry inv
  have hv : inv.validate = .ok () := by decide
  have hc : AgentConfig.validate {} = .ok () := rfl
  obtain ⟨hiff, -, -, htree⟩ := ofInventory_outcome inv {} ["l"]
  obtain ⟨t, ht⟩ := hiff.mpr ⟨hv, hc, fun _ => by decide⟩
  obtain ⟨-, hm, hhost⟩ := htree t ht
  have hs : inv.Reached "s" := Inventory.Reached.down Inventory.Reached.root (by decide)
  have hh : inv.Reached "h" := Inventory.Reached.down hs (by decide)
  exact ⟨t, ht, hm, hhost entry (by decide) hh⟩

/-- A root with one host passes both checks with one slot more than an agent can have, and there is no tree of it. -/
theorem ofInventory_dies_of_slots :
    let inv : Inventory :=
      { root := "r", schedulers := [⟨"r", [], ["h"]⟩], hosts := [{ id := "h", cpuCount := 4, memoryMb := 1024 }] }
    let config : AgentConfig := { agent := { hostServiceThreads := 2305843009213693952 } }
    inv.validate = .ok () ∧ config.validate = .ok () ∧ ofInventory inv config [] = .error .died := by
  refine ⟨by decide, rfl, rfl⟩

end SchedulerTree

end PlacementTree
