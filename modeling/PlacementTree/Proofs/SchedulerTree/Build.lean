import Mathlib.Data.List.Range
import PlacementTree.Proofs.Config.Validate
import PlacementTree.Proofs.SchedulerTree.Mirror

/-!
# Building the nodes of a tree

A draft that was built for a list of hosts (`TreePlan.Holds`) has the agent of each and its registration, in order. Building what
stands below an id takes such a draft to one for more hosts, and gives a node that mirrors the inventory and consults exactly the
agents it added (`TreePlan.Raises`).

On a checked inventory only the slots of an agent can stand against building: what is built is there unless a host was asked for and
no agent can have that many slots (`TreePlan.grant`). So it is at every reachable scheduler, at a depth that cannot run out
(`TreePlan.buildScheduler_eq`): the way to a scheduler meets every scheduler once at most, so below the last of them there is no
scheduler to build. A greater depth changes nothing then (`TreePlan.buildScheduler_of_le`).
-/

namespace PlacementTree

/-- The agent that is built for a host. -/
def TreePlan.agentOf (p : TreePlan) (entry : HostEntry) : HostAgent :=
  HostAgent.ofSnapshot entry.snapshot p.slots p.listeners

/-- Which reference stands for which host when the agents of these hosts were built, in order. -/
def Listed (hosts : List String) (id : String) (ref : AgentRef) : Prop := hosts[ref.index]? = some id

/-- The references of the agents in a row, the first at the given place. -/
def refsFrom (first count : Nat) : List AgentRef := (List.range' first count).map AgentRef.mk

theorem refsFrom_append (first m n : Nat) : refsFrom first m ++ refsFrom (first + m) n = refsFrom first (m + n) := by
  rw [refsFrom, refsFrom, refsFrom, ← List.map_append, List.range'_append_1]

/-- The agents in a row from the first are those in the first places. -/
theorem mem_refsFrom_iff {count : Nat} {ref : AgentRef} : ref ∈ refsFrom 0 count ↔ ref.index < count := by
  rw [refsFrom, List.mem_map]
  constructor
  · rintro ⟨i, hi, rfl⟩
    rw [List.mem_range'_1, Nat.zero_add] at hi
    exact hi.2
  · intro hlt
    exact ⟨ref.index, List.mem_range'_1.mpr ⟨Nat.zero_le _, by omega⟩, rfl⟩

/-- The agents in a row are distinct. -/
theorem refsFrom_nodup (first count : Nat) : (refsFrom first count).Nodup :=
  List.Nodup.map (fun _ _ h => congrArg AgentRef.index h) List.nodup_range'

theorem Listed.mono {hosts : List String} (more : List String) {id : String} {ref : AgentRef} (h : Listed hosts id ref) :
    Listed (hosts ++ more) id ref := by
  obtain ⟨hlt, -⟩ := List.getElem?_eq_some_iff.mp h
  exact (List.getElem?_append_left hlt).trans h

theorem Listed.last (hosts : List String) (id : String) : Listed (hosts ++ [id]) id ⟨hosts.length⟩ := by
  simp [Listed]

namespace TreePlan

/-- The draft has the agents of these hosts, registered in order. -/
structure Holds (p : TreePlan) (hosts : List String) (d : TreeDraft) : Prop where
  registry : d.registry = hosts.mapIdx fun i id => (id, ⟨i⟩)
  agents : d.agents.map some = hosts.map fun id => (p.inventory.host? id).map p.agentOf

/-- What building the node of an id leaves: the draft for more hosts, and a node that mirrors the inventory and consults the
agents that were added. -/
structure Raises (p : TreePlan) (hosts : List String) (id : String) (node : Node) (d : TreeDraft) (added : List String) :
    Prop where
  holds : p.Holds (hosts ++ added) d
  mirrors : node.Mirrors p.inventory p.limits (Listed (hosts ++ added)) id
  refs : node.refs = refsFrom hosts.length added.length

variable {p : TreePlan} {hosts : List String} {d : TreeDraft}

theorem Holds.length_agents (h : p.Holds hosts d) : d.agents.length = hosts.length := by
  have hlen := congrArg List.length h.agents
  rwa [List.length_map, List.length_map] at hlen

/-- Nothing is built yet. -/
theorem holds_nil (p : TreePlan) : p.Holds [] {} := ⟨rfl, rfl⟩

/-! ## What the slots stand against -/

/-- What is built when the agents of these hosts are added: nothing if there is one and no agent can have that many slots. -/
def grant {α : Type} (p : TreePlan) (added : List String) (built : α) : Except BuildFailure α :=
  if added = [] ∨ p.slots ≤ HostAgent.maxSlots then .ok built else .error .died

/-- What is built without a host is there. -/
theorem grant_nil {α : Type} (p : TreePlan) (built : α) : p.grant [] built = .ok built := if_pos (Or.inl rfl)

theorem grant_eq_ok_iff {α : Type} {added : List String} {built built' : α} :
    p.grant added built = .ok built' ↔ (added = [] ∨ p.slots ≤ HostAgent.maxSlots) ∧ built = built' := by
  unfold grant
  split <;> simp_all

theorem grant_eq_error_iff {α : Type} {added : List String} {built : α} {failure : BuildFailure} :
    p.grant added built = .error failure ↔ (added ≠ [] ∧ HostAgent.maxSlots < p.slots) ∧ failure = .died := by
  rw [← Nat.not_le, ← not_or, grant]
  split <;> simp_all [eq_comm]

theorem map_grant {α β : Type} (f : α → β) (added : List String) (built : α) :
    (p.grant added built).map f = p.grant added (f built) := by
  unfold grant
  split <;> rfl

/-- What is built in two steps is there if both steps are. -/
theorem grant_bind {α β : Type} {f : α → Except BuildFailure β} {added added' : List String} {built : α} {built' : β}
    (h : f built = p.grant added' built') : (p.grant added built >>= f) = p.grant (added ++ added') built' := by
  by_cases hslots : p.slots ≤ HostAgent.maxSlots
  · simpa [grant, hslots, bind, Except.bind] using h
  · cases added with
    | nil => simpa [grant_nil, bind, Except.bind] using h
    | cons => simp [grant, hslots, bind, Except.bind]

theorem grant_bind_pure {α β : Type} {f : α → Except BuildFailure β} {added : List String} {built : α} {built' : β}
    (h : f built = .ok built') : (p.grant added built >>= f) = p.grant added built' := by
  rw [grant_bind (h.trans (p.grant_nil built').symm), List.append_nil]

/-! ## Steps of building -/

/-- Building the agent of a host puts it behind the others. -/
theorem buildHost_eq (h : p.Holds hosts d) {id : String} (hid : id ∈ p.inventory.hostIds) :
    ∃ d', p.buildHost id d = p.grant [id] (⟨hosts.length⟩, d') ∧ p.Holds (hosts ++ [id]) d' := by
  obtain ⟨entry, hentry⟩ : ∃ entry, p.inventory.host? id = some entry := by
    obtain ⟨entry, hin, heq⟩ := List.mem_map.mp hid
    apply Option.isSome_iff_exists.mp
    exact List.find?_isSome.mpr ⟨entry, hin, by simpa using heq⟩
  refine ⟨(d.addAgent id (p.agentOf entry)).2, ?_, ?_, ?_⟩
  · by_cases hslots : p.slots ≤ HostAgent.maxSlots
    · simp [buildHost, hentry, HostAgent.make?, hslots, grant, TreeDraft.addAgent, agentOf, h.length_agents]
    · simp [buildHost, hentry, HostAgent.make?, hslots, grant]
  · rw [List.mapIdx_concat, ← h.registry, ← h.length_agents]
    rfl
  · rw [List.map_append, ← h.agents, List.map_singleton, hentry]
    exact List.map_append

/-- Building the agents of hosts puts them behind the others, in order. -/
theorem buildHosts_eq (h : p.Holds hosts d) {ids : List String} (hids : ∀ id ∈ ids, id ∈ p.inventory.hostIds) :
    ∃ d', p.buildHosts ids d = p.grant ids (refsFrom hosts.length ids.length, d') ∧ p.Holds (hosts ++ ids) d' ∧
      List.Forall₂ (Listed (hosts ++ ids)) ids (refsFrom hosts.length ids.length) := by
  induction ids generalizing hosts d with
  | nil => exact ⟨d, (p.grant_nil _).symm, by rwa [List.append_nil], List.Forall₂.nil⟩
  | cons id ids ih =>
    obtain ⟨d₁, hb₁, h₁⟩ := buildHost_eq h (hids id List.mem_cons_self)
    obtain ⟨d₂, hb₂, h₂, hl₂⟩ := ih h₁ fun x hx => hids x (List.mem_cons_of_mem _ hx)
    rw [List.append_assoc, List.singleton_append] at h₂ hl₂
    rw [List.length_append, List.length_singleton] at hb₂ hl₂
    have hrefs : refsFrom hosts.length (id :: ids).length = ⟨hosts.length⟩ :: refsFrom (hosts.length + 1) ids.length := rfl
    refine ⟨d₂, ?_, h₂, ?_⟩
    · rw [hrefs, buildHosts, hb₁]
      apply grant_bind
      simp only [hb₂]
      exact grant_bind_pure rfl
    · rw [hrefs]
      refine List.Forall₂.cons ?_ hl₂
      have hlast := (Listed.last hosts id).mono ids
      rwa [List.append_assoc, List.singleton_append] at hlast

/-- Building nodes one after another: each mirrors the inventory in the end, whatever is built after it. -/
theorem buildEach_eq {build : String → TreeDraft → Except BuildFailure (Node × TreeDraft)} {ids : List String}
    (hbuild : ∀ id ∈ ids, ∀ hosts d, p.Holds hosts d →
      ∃ node d' added, build id d = p.grant added (node, d') ∧ p.Raises hosts id node d' added)
    (h : p.Holds hosts d) :
    ∃ nodes d' added, buildEach build ids d = p.grant added (nodes, d') ∧ p.Holds (hosts ++ added) d' ∧
      List.Forall₂ (fun id (node : Node) => node.Mirrors p.inventory p.limits (Listed (hosts ++ added)) id) ids nodes ∧
      Node.refsOfEach nodes = refsFrom hosts.length added.length := by
  induction ids generalizing hosts d with
  | nil => exact ⟨[], d, [], (p.grant_nil _).symm, by rwa [List.append_nil], List.Forall₂.nil, rfl⟩
  | cons id ids ih =>
    obtain ⟨node, d₁, added₁, hb₁, hr₁⟩ := hbuild id List.mem_cons_self hosts d h
    obtain ⟨nodes, d₂, added₂, hb₂, h₂, hm₂, hr₂⟩ := ih (fun x hx => hbuild x (List.mem_cons_of_mem _ hx)) hr₁.holds
    rw [List.append_assoc] at h₂ hm₂
    refine ⟨node :: nodes, d₂, added₁ ++ added₂, ?_, h₂, List.Forall₂.cons ?_ hm₂, ?_⟩
    · rw [buildEach, hb₁]
      apply grant_bind
      simp only [hb₂]
      exact grant_bind_pure rfl
    · have hmono := hr₁.mirrors.mono fun _ _ => Listed.mono added₂
      rwa [List.append_assoc] at hmono
    · rw [Node.refsOfEach, hr₁.refs, hr₂, List.length_append, List.length_append, refsFrom_append]

/-- Only the slots stand against building what stands below a reachable scheduler if the depth and the way to it are together longer
than there are schedulers. -/
theorem buildScheduler_eq (ht : p.inventory.IsTree) {depth : Nat} {id : String} {path : List String} {hops : Nat}
    (hd : p.inventory.Descends p.inventory.root path hops id) (hid : id ∈ p.inventory.schedulerIds)
    (hdepth : p.inventory.schedulers.length < depth + path.length) (h : p.Holds hosts d) :
    ∃ node d' added, p.buildScheduler depth id d = p.grant added (node, d') ∧ p.Raises hosts id node d' added := by
  induction depth generalizing id path hops hosts d with
  | zero =>
    have hle := ht.descends_length_le hd hid
    omega
  | succ depth ih =>
    obtain ⟨s, hin, rfl⟩ := List.mem_map.mp hid
    have hs := Inventory.scheduler?_of_mem ht.nodup hin
    have hres := ht.resolves s hin
    by_cases hhosts : s.hosts = []
    · -- A child is a scheduler one step further down, or a host.
      have hchild : ∀ c ∈ s.children, ∀ hosts d, p.Holds hosts d →
          ∃ node d' added,
            p.buildChild (p.buildScheduler depth) c d = p.grant added (node, d') ∧ p.Raises hosts c node d' added := by
        intro c hc hosts d h
        unfold buildChild
        cases hsc : p.inventory.scheduler? c with
        | some s' =>
          obtain ⟨hin', rfl⟩ := Inventory.mem_of_scheduler? hsc
          obtain ⟨k, hd'⟩ := hd.append_of_mem_below (Inventory.mem_below_of_children hs hc) (Inventory.Descends.here s'.id)
          apply ih hd' (List.mem_map_of_mem hin') _ h
          rw [List.length_append, List.length_singleton]
          omega
        | none =>
          have hhost : c ∈ p.inventory.hostIds := by
            rcases List.mem_append.mp (hres.children c hc) with hsid | hhid
            · obtain ⟨s', hin', rfl⟩ := List.mem_map.mp hsid
              rw [Inventory.scheduler?_of_mem ht.nodup hin'] at hsc
              cases hsc
            · exact hhid
          obtain ⟨d', hb, h'⟩ := buildHost_eq h hhost
          refine ⟨.host ⟨hosts.length⟩, d', [c], ?_, h', Node.Mirrors.host hsc (Listed.last hosts c), rfl⟩
          simp [hb, map_grant]
      obtain ⟨nodes, d', added, hb, h', hm, hr⟩ := buildEach_eq hchild h
      refine ⟨.scheduler s.id p.limits [] nodes, d', added, ?_, h', ?_, hr⟩
      · simp [buildScheduler, hs, hhosts, hb, map_grant]
      · exact Node.Mirrors.asks hs hhosts hm.length_eq.symm fun i c node hc hn => by
          obtain ⟨hi, rfl⟩ := List.getElem?_eq_some_iff.mp hc
          obtain ⟨hj, rfl⟩ := List.getElem?_eq_some_iff.mp hn
          exact (List.forall₂_iff_get.mp hm).2 i hi hj
    · have hchildren : s.children = [] := hres.oneKind.resolve_right hhosts
      obtain ⟨d', hb, h', hl⟩ := buildHosts_eq h hres.hosts
      refine ⟨_, d', s.hosts, ?_, h', Node.Mirrors.ranks hs hhosts hchildren hl, ?_⟩
      · simp [buildScheduler, hs, hhosts, hb, map_grant]
      · rw [Node.refs, Node.refsOfEach, List.append_nil, List.filterMap_map]
        exact List.filterMap_some

/-! ## The depth -/

/-- Nodes that are built one after another stay what they are under a builder that builds at least as much. -/
theorem buildEach_mono {build build' : String → TreeDraft → Except BuildFailure (Node × TreeDraft)}
    (hle : ∀ id d r, build id d = .ok r → build' id d = .ok r) {ids : List String} {r : List Node × TreeDraft}
    (h : buildEach build ids d = .ok r) : buildEach build' ids d = .ok r := by
  induction ids generalizing d r with
  | nil => exact h
  | cons id ids ih =>
    simp only [buildEach, bind_eq_ok_iff] at h ⊢
    obtain ⟨first, hfirst, rest, hrest, hr⟩ := h
    exact ⟨first, hle _ _ _ hfirst, rest, ih hrest, hr⟩

/-- What is built within a depth is built within a greater one too, and is the same. -/
theorem buildScheduler_succ {depth : Nat} {id : String} {r : Node × TreeDraft} (h : p.buildScheduler depth id d = .ok r) :
    p.buildScheduler (depth + 1) id d = .ok r := by
  induction depth generalizing id d r with
  | zero => simp [buildScheduler] at h
  | succ depth ih =>
    have hchild : ∀ c d r, p.buildChild (p.buildScheduler depth) c d = .ok r →
        p.buildChild (p.buildScheduler (depth + 1)) c d = .ok r := by
      intro c d r hc
      unfold buildChild at hc ⊢
      split at hc
      · rw [if_pos (by assumption)]
        exact ih hc
      · rwa [if_neg (by assumption)]
    rw [buildScheduler] at h ⊢
    cases hs : p.inventory.scheduler? id with
    | none => simp [hs] at h
    | some s =>
      simp only [hs] at h ⊢
      by_cases hhosts : s.hosts = []
      · simp only [hhosts, List.isEmpty_nil, Bool.not_true, Bool.false_eq_true, if_false] at h ⊢
        cases hb : buildEach (p.buildChild (p.buildScheduler depth)) s.children d with
        | error e => simp [hb, Except.map] at h
        | ok nodes =>
          rw [hb] at h
          rwa [buildEach_mono hchild hb]
      · simpa [hhosts] using h

theorem buildScheduler_of_le {depth depth' : Nat} (hle : depth ≤ depth') {id : String} {r : Node × TreeDraft}
    (h : p.buildScheduler depth id d = .ok r) : p.buildScheduler depth' id d = .ok r := by
  induction hle with
  | refl => exact h
  | step _ ih => exact buildScheduler_succ ih

end TreePlan

end PlacementTree
