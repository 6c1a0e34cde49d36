import PlacementTree.Proofs.Node.Answer
import PlacementTree.Proofs.SchedulerTree.Mirror

/-!
# What a node says it meets

A node meets a constraint exactly if the agent of some host below it has a snapshot that does (`Node.Mirrors.satisfies_iff`), at any
depth and whether the host is a child or ranked by its scheduler. So a child that leads to a host which meets all constraints of a
request is always eligible (`Node.Mirrors.eligible_of_below`).
-/

namespace PlacementTree

/-- Which agent stands for a host, by its reference. -/
abbrev Registry := String → Option AgentRef

/-- A registry whose hosts are no schedulers. -/
def Registry.OfHosts (find : Registry) (inv : Inventory) : Prop := ∀ id ref, find id = some ref → inv.scheduler? id = none

/-- The agent of a host in a fleet. -/
def Registry.agent? (find : Registry) (f : Fleet) (id : String) : Option HostAgent := (find id).bind f.agent?

/-- An agent of a fleet stands for a host that there is a way down to from an id. -/
structure AgentBelow (inv : Inventory) (find : Registry) (f : Fleet) (id : String) (path : List String) (hops : Nat)
    (host : String) (a : HostAgent) : Prop where
  way : inv.Descends id path hops host
  agent : find.agent? f host = some a

variable {inv : Inventory} {limits : FanoutLimits} {find : Registry} {f : Fleet} {id host : String} {path : List String}
  {hops : Nat} {a : HostAgent}

/-- Below an id that is no scheduler there is its own agent only. -/
theorem agentBelow_host_iff (hs : inv.scheduler? id = none) :
    AgentBelow inv find f id path hops host a ↔ path = [id] ∧ hops = 0 ∧ host = id ∧ find.agent? f id = some a := by
  constructor
  · intro h
    obtain ⟨rfl, rfl, rfl⟩ := h.way.of_scheduler?_eq_none hs
    exact ⟨rfl, rfl, rfl, h.agent⟩
  · rintro ⟨rfl, rfl, rfl, ha⟩
    exact ⟨Inventory.Descends.here host, ha⟩

/-- A scheduler has no agent of its own. -/
theorem AgentBelow.ne_self (hfind : find.OfHosts inv) {entry : SchedulerEntry} (hs : inv.scheduler? id = some entry)
    (h : AgentBelow inv find f id path hops host a) : host ≠ id := by
  rintro rfl
  obtain ⟨ref, href, -⟩ := Option.bind_eq_some_iff.mp h.agent
  rw [hfind _ ref href] at hs
  cases hs

/-- The agents below a scheduler that ranks hosts are theirs. -/
theorem agentBelow_ranks_iff (hfind : find.OfHosts inv) {entry : SchedulerEntry} (hs : inv.scheduler? id = some entry)
    (hc : entry.children = []) (hhosts : ∀ h ∈ entry.hosts, inv.scheduler? h = none) :
    AgentBelow inv find f id path hops host a ↔
      host ∈ entry.hosts ∧ path = [id, host] ∧ hops = 0 ∧ find.agent? f host = some a := by
  constructor
  · intro h
    rcases h.way.of_scheduler?_eq_some hs with ⟨-, -, heq⟩ | ⟨c, hin, -⟩ | ⟨c, hin, path', rfl, hd⟩
    · exact absurd heq (h.ne_self hfind hs)
    · simp [hc] at hin
    · obtain ⟨rfl, rfl, rfl⟩ := hd.of_scheduler?_eq_none (hhosts c hin)
      exact ⟨hin, rfl, rfl, h.agent⟩
  · rintro ⟨hin, rfl, rfl, ha⟩
    exact ⟨Inventory.Descends.host hs hin (Inventory.Descends.here host), ha⟩

/-- The agents below a scheduler that asks children are those below them, one hop further down. -/
theorem agentBelow_asks_iff (hfind : find.OfHosts inv) {entry : SchedulerEntry} (hs : inv.scheduler? id = some entry)
    (hh : entry.hosts = []) :
    AgentBelow inv find f id path hops host a ↔
      ∃ c ∈ entry.children, ∃ path' hops', path = id :: path' ∧ hops = hops' + 1 ∧
        AgentBelow inv find f c path' hops' host a := by
  constructor
  · intro h
    rcases h.way.of_scheduler?_eq_some hs with ⟨-, -, heq⟩ | ⟨c, hin, path', hops', hp, hk, hd⟩ | ⟨c, hin, -⟩
    · exact absurd heq (h.ne_self hfind hs)
    · exact ⟨c, hin, path', hops', hp, hk, hd, h.agent⟩
    · simp [hh] at hin
  · rintro ⟨c, hin, path', hops', rfl, rfl, hb⟩
    exact ⟨Inventory.Descends.child hs hin hb.way, hb.agent⟩

/-- Hosts that have agents are no schedulers. -/
theorem Registry.OfHosts.of_forall₂ (hfind : find.OfHosts inv) {hosts : List String} {refs : List AgentRef}
    (hst : List.Forall₂ (fun id ref => find id = some ref) hosts refs) : ∀ h ∈ hosts, inv.scheduler? h = none := by
  intro h hin
  obtain ⟨i, hi, rfl⟩ := List.mem_iff_getElem.mp hin
  exact hfind _ _ ((List.forall₂_iff_get.mp hst).2 i hi (hst.length_eq ▸ hi))

/-- The snapshots that a scheduler ranks are those of the agents of its hosts. -/
theorem mem_ranked_snapshots {hosts : List String} {refs : List AgentRef}
    (hst : List.Forall₂ (fun id ref => find id = some ref) hosts refs) {snapshot : ResourceSnapshot} :
    snapshot ∈ (refs.map LocalHost.agent).filterMap (·.snapshot? f) ↔
      ∃ host ∈ hosts, ∃ a, find.agent? f host = some a ∧ a.snapshot = snapshot := by
  rw [List.filterMap_map]
  induction hst with
  | nil => simp
  | @cons id ref ids refs href _ ih =>
    have hhead : find.agent? f id = f.agent? ref := by rw [Registry.agent?, href, Option.bind_some]
    simp only [List.mem_filterMap, List.mem_cons, exists_eq_or_imp] at ih ⊢
    rw [ih, hhead]
    simp [LocalHost.snapshot?]

/-- A node meets a constraint exactly if some host below it does. -/
theorem Node.Mirrors.satisfies_iff {node : Node} (h : node.Mirrors inv limits (fun id ref => find id = some ref) id)
    (hfind : find.OfHosts inv) {s : Surroundings} (hs : ∀ p, s.fleet p = f) {position : Position} {constraint : Constraint} :
    (node.child s position).satisfies constraint = true ↔
      ∃ path hops host a, AgentBelow inv find f id path hops host a ∧ a.snapshot.satisfies constraint = true := by
  induction h generalizing position with
  | @host id ref hnone href =>
    have hagent : find.agent? f id = f.agent? ref := by rw [Registry.agent?, href, Option.bind_some]
    rw [Node.child, hs]
    constructor
    · intro hsat
      cases ha : f.agent? ref with
      | none => simp [ha, danglingChild] at hsat
      | some a =>
        simp only [ha] at hsat
        exact ⟨_, _, id, a, ⟨Inventory.Descends.here id, hagent.trans ha⟩, hsat⟩
    · rintro ⟨path, hops, host, a, hb, hsat⟩
      obtain ⟨-, -, -, ha⟩ := (agentBelow_host_iff hnone).mp hb
      simp only [← hagent, ha]
      exact hsat
  | @ranks id entry refs hsome hne hc hst =>
    simp only [Node.child, Node.childrenFrom, satisfiedBelow, List.isEmpty_nil, if_true, hs]
    rw [List.any_eq_true]
    simp only [mem_ranked_snapshots hst]
    have hhosts := hfind.of_forall₂ hst
    constructor
    · rintro ⟨snapshot, ⟨host, hin, a, ha, rfl⟩, hsat⟩
      exact ⟨_, _, host, a, (agentBelow_ranks_iff hfind hsome hc hhosts).mpr ⟨hin, rfl, rfl, ha⟩, hsat⟩
    · rintro ⟨path, hops, host, a, hb, hsat⟩
      obtain ⟨hin, -, -, ha⟩ := (agentBelow_ranks_iff hfind hsome hc hhosts).mp hb
      exact ⟨a.snapshot, ⟨host, hin, a, ha, rfl⟩, hsat⟩
  | @asks id entry nodes hsome hh hlen hm ih =>
    simp only [Node.child, satisfiedBelow, Node.isEmpty_childrenFrom, agentBelow_asks_iff hfind hsome hh]
    cases nodes with
    | nil =>
      -- A scheduler that lists nothing meets nothing.
      have hnone : entry.children = [] := List.length_eq_zero_iff.mp hlen.symm
      simp [hnone]
    | cons first rest =>
      rw [List.isEmpty_cons, if_neg Bool.false_ne_true, List.any_eq_true]
      constructor
      · rintro ⟨child, hchild, hsat⟩
        obtain ⟨i, hi⟩ := List.getElem?_of_mem hchild
        obtain ⟨c, node, hc, hnode, rfl⟩ := Node.of_getElem?_childrenFrom hlen hi
        obtain ⟨path, hops, host, a, hb, hsat⟩ := (ih i c node hc hnode).mp hsat
        exact ⟨_, _, host, a, ⟨_, List.mem_of_getElem? hc, path, hops, rfl, rfl, hb⟩, hsat⟩
      · rintro ⟨path, hops, host, a, ⟨c, hin, path', hops', -, -, hb⟩, hsat⟩
        obtain ⟨i, hc⟩ := List.getElem?_of_mem hin
        obtain ⟨node, hi⟩ := exists_getElem?_of_length_eq hlen.symm hc
        refine ⟨_, Node.mem_childrenFrom.mpr ⟨i, node, hi, rfl⟩, ?_⟩
        exact (ih i c node hc hi).mpr ⟨path', hops', host, a, hb, hsat⟩

/-- A child that leads to a host which meets all constraints is eligible. -/
theorem Node.Mirrors.eligible_of_below {node : Node} (h : node.Mirrors inv limits (fun id ref => find id = some ref) id)
    (hfind : find.OfHosts inv) {s : Surroundings} (hs : ∀ p, s.fleet p = f) {position : Position}
    {constraints : List Constraint} (hb : AgentBelow inv find f id path hops host a)
    (hsat : satisfiesAll a.snapshot.satisfies constraints = true) : (node.child s position).eligible constraints = true := by
  rw [Child.eligible, satisfiesAll, List.all_eq_true]
  rw [satisfiesAll, List.all_eq_true] at hsat
  intro constraint hin
  exact (h.satisfies_iff hfind hs).mpr ⟨path, hops, host, a, hb, hsat constraint hin⟩

end PlacementTree
