import PlacementTree.Proofs.Inventory.Path
import PlacementTree.SchedulerTree

/-!
# Nodes that mirror an inventory

`Node.Mirrors` says that a node and all below it are what the inventory has under an id: the scheduler with the nodes of its
children, the scheduler with the agents of its hosts, or the agent of the host, each list in the listed order. Which agent stands
for which host is a parameter.

When the inventory is a tree, the ids of such a node are those with a way down to them (`Node.Mirrors.mem_ids_iff`), each once
(`Node.Mirrors.ids_nodup`), and the agents it consults are those of the hosts among them (`Node.Mirrors.refs_names`).
-/

namespace PlacementTree

/-- The agent of a host that is ranked locally, if it has one. -/
def LocalHost.ref? : LocalHost → Option AgentRef
  | .agent ref => some ref
  | .fixed _ => none

/-- The id of a host that is ranked locally, given those of the agents. -/
def LocalHost.id? (name : AgentRef → Option String) : LocalHost → Option String
  | .agent ref => name ref
  | .fixed snapshot => some snapshot.hostId

mutual

/-- The agents that a node and those below it consult, in order. -/
def Node.refs : Node → List AgentRef
  | .host ref => [ref]
  | .peer _ => []
  | .scheduler _ _ hosts children => hosts.filterMap (·.ref?) ++ Node.refsOfEach children

def Node.refsOfEach : List Node → List AgentRef
  | [] => []
  | node :: nodes => node.refs ++ Node.refsOfEach nodes

end

mutual

/-- The ids of a node and of everything below it, hosts that are ranked locally included, given the ids of the agents. -/
def Node.ids (name : AgentRef → Option String) : Node → List String
  | .host ref => (name ref).toList
  | .peer child => [child.id]
  | .scheduler id _ hosts children => id :: (hosts.filterMap (·.id? name) ++ Node.idsOfEach name children)

def Node.idsOfEach (name : AgentRef → Option String) : List Node → List String
  | [] => []
  | node :: nodes => node.ids name ++ Node.idsOfEach name nodes

end

theorem Node.refsOfEach_eq (nodes : List Node) : Node.refsOfEach nodes = nodes.flatMap Node.refs := by
  induction nodes with
  | nil => rfl
  | cons node nodes ih => rw [Node.refsOfEach, List.flatMap_cons, ih]

theorem Node.idsOfEach_eq (name : AgentRef → Option String) (nodes : List Node) :
    Node.idsOfEach name nodes = nodes.flatMap (Node.ids name) := by
  induction nodes with
  | nil => rfl
  | cons node nodes ih => rw [Node.idsOfEach, List.flatMap_cons, ih]

/-- The node is what the inventory has under an id. `stands` says which agent stands for which host. -/
inductive Node.Mirrors (inv : Inventory) (limits : FanoutLimits) (stands : String → AgentRef → Prop) :
    String → Node → Prop where
  | host {id : String} {ref : AgentRef} :
      inv.scheduler? id = none → stands id ref → Mirrors inv limits stands id (.host ref)
  | ranks {id : String} {s : SchedulerEntry} {refs : List AgentRef} :
      inv.scheduler? id = some s → s.hosts ≠ [] → s.children = [] → List.Forall₂ stands s.hosts refs →
        Mirrors inv limits stands id (.scheduler id limits (refs.map .agent) [])
  | asks {id : String} {s : SchedulerEntry} {nodes : List Node} :
      inv.scheduler? id = some s → s.hosts = [] → nodes.length = s.children.length →
        (∀ (i : Nat) c node, s.children[i]? = some c → nodes[i]? = some node → Mirrors inv limits stands c node) →
          Mirrors inv limits stands id (.scheduler id limits [] nodes)

namespace Node.Mirrors

variable {inv : Inventory} {limits : FanoutLimits} {stands stands' : String → AgentRef → Prop} {id : String} {node : Node}

/-- More agents may stand for hosts. -/
theorem mono (h : node.Mirrors inv limits stands id) (hle : ∀ id ref, stands id ref → stands' id ref) :
    node.Mirrors inv limits stands' id := by
  induction h with
  | host hs hr => exact Mirrors.host hs (hle _ _ hr)
  | ranks hs hne hc hr => exact Mirrors.ranks hs hne hc (hr.imp hle)
  | asks hs hh hlen _ ih => exact Mirrors.asks hs hh hlen ih

/-- Each child of a scheduler has a node and each node is that of a child. -/
theorem mem_nodes_iff {s : SchedulerEntry} {nodes : List Node} (hlen : nodes.length = s.children.length)
    {P : String → Node → Prop} (h : ∀ (i : Nat) c node, s.children[i]? = some c → nodes[i]? = some node → P c node) :
    (∀ c ∈ s.children, ∃ node ∈ nodes, P c node) ∧ ∀ node ∈ nodes, ∃ c ∈ s.children, P c node := by
  constructor
  · intro c hc
    obtain ⟨i, hi, rfl⟩ := List.mem_iff_getElem.mp hc
    exact ⟨nodes[i], List.getElem_mem _, h i _ _ (List.getElem?_eq_getElem hi) (List.getElem?_eq_getElem (by omega))⟩
  · intro node hn
    obtain ⟨i, hi, rfl⟩ := List.mem_iff_getElem.mp hn
    exact ⟨s.children[i], List.getElem_mem _, h i _ _ (List.getElem?_eq_getElem (by omega)) (List.getElem?_eq_getElem hi)⟩

/-- The names of agents that stand for hosts are the ids of the hosts. -/
theorem filterMap_name {name : AgentRef → Option String} (hname : ∀ id ref, stands id ref → name ref = some id)
    {ids : List String} {refs : List AgentRef} (h : List.Forall₂ stands ids refs) : refs.filterMap name = ids := by
  induction h with
  | nil => rfl
  | cons hr _ ih => rw [List.filterMap_cons, hname _ _ hr, ih]

section Tree

variable (ht : inv.IsTree) {name : AgentRef → Option String} (hname : ∀ id ref, stands id ref → name ref = some id)

/-- The ids of a scheduler that ranks hosts are its own and those of the hosts. -/
theorem ids_ranks {refs : List AgentRef} {ids : List String} (hname : ∀ id ref, stands id ref → name ref = some id)
    (hr : List.Forall₂ stands ids refs) :
    Node.ids name (.scheduler id limits (refs.map .agent) []) = id :: ids := by
  have hids : (refs.map LocalHost.agent).filterMap (·.id? name) = ids := by
    rw [List.filterMap_map]
    exact filterMap_name hname hr
  rw [Node.ids, hids, Node.idsOfEach, List.append_nil]

/-- The ids of a scheduler that asks children are its own and theirs. -/
theorem ids_asks {nodes : List Node} :
    Node.ids name (.scheduler id limits [] nodes) = id :: nodes.flatMap (Node.ids name) := by
  rw [Node.ids, Node.idsOfEach_eq, List.filterMap_nil, List.nil_append]

include ht in
/-- A host that is ranked by a scheduler is no scheduler. -/
theorem scheduler?_of_ranked {s : SchedulerEntry} (hs : inv.scheduler? id = some s) {h : String} (hh : h ∈ s.hosts) :
    inv.scheduler? h = none :=
  Inventory.scheduler?_eq_none_of_mem_hostIds ht.nodup ((ht.resolves s (Inventory.mem_of_scheduler? hs).1).hosts h hh)

include ht hname in
/-- The ids of a node are those with a way down to them. -/
theorem mem_ids_iff (h : node.Mirrors inv limits stands id) {x : String} :
    x ∈ node.ids name ↔ ∃ path hops, inv.Descends id path hops x := by
  induction h with
  | @host id ref hs hr =>
    rw [Node.ids, hname _ _ hr, Option.toList_some, List.mem_singleton]
    constructor
    · rintro rfl
      exact ⟨_, _, Inventory.Descends.here x⟩
    · rintro ⟨path, hops, hd⟩
      exact (hd.of_scheduler?_eq_none hs).2.2
  | @ranks id s refs hs hne hc hr =>
    rw [ids_ranks hname hr, List.mem_cons]
    constructor
    · rintro (rfl | hx)
      · exact ⟨_, _, Inventory.Descends.here x⟩
      · exact ⟨_, _, Inventory.Descends.host hs hx (Inventory.Descends.here x)⟩
    · rintro ⟨path, hops, hd⟩
      rcases hd.of_scheduler?_eq_some hs with ⟨-, -, rfl⟩ | ⟨c, hc', -⟩ | ⟨h, hh, path', -, hd'⟩
      · exact Or.inl rfl
      · simp [hc] at hc'
      · obtain ⟨-, -, rfl⟩ := hd'.of_scheduler?_eq_none (scheduler?_of_ranked ht hs hh)
        exact Or.inr hh
  | @asks id s nodes hs hh hlen _ ih =>
    obtain ⟨hnode, hchild⟩ := mem_nodes_iff hlen ih
    rw [ids_asks, List.mem_cons, List.mem_flatMap]
    constructor
    · rintro (rfl | ⟨node, hn, hx⟩)
      · exact ⟨_, _, Inventory.Descends.here x⟩
      · obtain ⟨c, hc, hiff⟩ := hchild node hn
        obtain ⟨path, hops, hd⟩ := hiff.mp hx
        exact ⟨_, _, Inventory.Descends.child hs hc hd⟩
    · rintro ⟨path, hops, hd⟩
      rcases hd.of_scheduler?_eq_some hs with ⟨-, -, rfl⟩ | ⟨c, hc, path', hops', -, -, hd'⟩ | ⟨h, hh', -⟩
      · exact Or.inl rfl
      · obtain ⟨node, hn, hiff⟩ := hnode _ hc
        exact Or.inr ⟨node, hn, hiff.mpr ⟨_, _, hd'⟩⟩
      · simp [hh] at hh'

include ht hname in
/-- Every id of a node is that of one part of it. -/
theorem ids_nodup (h : node.Mirrors inv limits stands id) (hr : inv.Reached id) : (node.ids name).Nodup := by
  induction h with
  | host hs hst =>
    rw [Node.ids, hname _ _ hst]
    exact List.nodup_singleton _
  | @ranks id s refs hs hne hc hst =>
    have hbelow : inv.below id = s.hosts := by
      rw [Inventory.below_of_scheduler? hs, SchedulerEntry.below, hc, List.nil_append]
    rw [ids_ranks hname hst, List.nodup_cons, ← hbelow]
    exact ⟨fun hm => ht.not_descends_self hr hm (Inventory.Descends.here id), ht.below_nodup hr⟩
  | @asks id s nodes hs hh hlen hm ih =>
    have hbelow : inv.below id = s.children := by
      rw [Inventory.below_of_scheduler? hs, SchedulerEntry.below, hh, List.append_nil]
    have hmem : ∀ (i : Nat) c node, s.children[i]? = some c → nodes[i]? = some node →
        c ∈ inv.below id ∧ (node.ids name).Nodup ∧ ∀ x ∈ node.ids name, ∃ path hops, inv.Descends c path hops x := by
      intro i c node hc hn
      have hcb : c ∈ inv.below id := hbelow ▸ List.mem_of_getElem? hc
      exact ⟨hcb, ih i c node hc hn (Inventory.Reached.down hr hcb),
        fun x hx => (mem_ids_iff ht hname (hm i c node hc hn)).mp hx⟩
    obtain ⟨-, hchild⟩ := mem_nodes_iff hlen hmem
    rw [ids_asks, List.nodup_cons, List.nodup_flatMap]
    refine ⟨?_, ?_, ?_⟩
    · intro hin
      obtain ⟨node, hn, hx⟩ := List.mem_flatMap.mp hin
      obtain ⟨c, -, hcb, -, hway⟩ := hchild node hn
      obtain ⟨path, hops, hd⟩ := hway id hx
      exact ht.not_descends_self hr hcb hd
    · intro node hn
      obtain ⟨c, -, -, hnd, -⟩ := hchild node hn
      exact hnd
    · rw [List.pairwise_iff_getElem]
      intro i j hi hj hij x hx hx'
      have hi' : i < s.children.length := hlen ▸ hi
      have hj' : j < s.children.length := hlen ▸ hj
      obtain ⟨hcb, -, hway⟩ := hmem i _ _ (List.getElem?_eq_getElem hi') (List.getElem?_eq_getElem hi)
      obtain ⟨hcb', -, hway'⟩ := hmem j _ _ (List.getElem?_eq_getElem hj') (List.getElem?_eq_getElem hj)
      obtain ⟨path, hops, hd⟩ := hway x hx
      obtain ⟨path', hops', hd'⟩ := hway' x hx'
      have hnd : s.children.Nodup := hbelow ▸ ht.below_nodup hr
      have hne : s.children[i] ≠ s.children[j] := by
        intro heq
        exact absurd (hnd.getElem_inj_iff.mp heq) (Nat.ne_of_lt hij)
      exact ht.descends_apart hr hcb hcb' hne hd hd'

include ht hname in
/-- The agents that a node consults are those of the ids of it that are no schedulers, in order. -/
theorem refs_names (h : node.Mirrors inv limits stands id) :
    node.refs.filterMap name = (node.ids name).filter fun x => (inv.scheduler? x).isNone := by
  induction h with
  | host hs hst => simp [Node.refs, Node.ids, hname _ _ hst, hs]
  | @ranks id s refs hs hne hc hst =>
    have hrefs : (refs.map LocalHost.agent).filterMap (·.ref?) = refs := by
      rw [List.filterMap_map]
      exact List.filterMap_some
    have hall : ∀ h ∈ s.hosts, (inv.scheduler? h).isNone = true := fun h hh => by rw [scheduler?_of_ranked ht hs hh]; rfl
    rw [ids_ranks hname hst, Node.refs, Node.refsOfEach, List.append_nil, hrefs, filterMap_name hname hst,
      List.filter_cons_of_neg (by simp [hs]), List.filter_eq_self.mpr hall]
  | @asks id s nodes hs hh hlen _ ih =>
    obtain ⟨-, hchild⟩ := mem_nodes_iff hlen ih
    rw [ids_asks, Node.refs, Node.refsOfEach_eq, List.filterMap_nil, List.nil_append,
      List.filter_cons_of_neg (by simp [hs]), List.filterMap_flatMap, List.filter_flatMap]
    apply List.flatMap_congr
    intro node hn
    obtain ⟨c, -, heq⟩ := hchild node hn
    exact heq

end Tree

end Node.Mirrors

end PlacementTree
