import PlacementTree.Proofs.Node.Answer
import PlacementTree.Proofs.SchedulerTree.Run

/-!
# What a placement says

Whatever the tree meets while a request runs through it, samples of any kind and agents that change between two nodes included, a
placement names a reachable host, the path is the way to it, and the score is the one that the agent of that host had when its turn
came (`SchedulerTree.placed_sound`).

The path is put together from below: the node that scored the host starts it and each scheduler puts its id in front. So the fact
carried up the nodes is about the way from the node's own id (`Placed`). Where a host is scored is a position below the node
(`Node.ScoredAt`): its own if the host is a child, that of its scheduler if it is ranked there.
-/

namespace PlacementTree

/-- The node at a position below scores the host of an agent: the host itself, or the scheduler that ranks it. -/
inductive Node.ScoredAt : Node → Position → AgentRef → Prop where
  | host (ref : AgentRef) : ScoredAt (.host ref) [] ref
  | ranked {id : String} {limits : FanoutLimits} {hosts : List LocalHost} {ref : AgentRef} :
      .agent ref ∈ hosts → ScoredAt (.scheduler id limits hosts []) [] ref
  | down {id : String} {limits : FanoutLimits} {hosts : List LocalHost} {nodes : List Node} {i : Nat} {node : Node}
      {position : Position} {ref : AgentRef} :
      nodes[i]? = some node → ScoredAt node position ref → ScoredAt (.scheduler id limits hosts nodes) (i :: position) ref

/-- The fleet has an agent of the right id for each host, with a snapshot of that host. -/
def Fleet.Staffs (f : Fleet) (stands : String → AgentRef → Prop) : Prop :=
  ∀ id ref, stands id ref → ∃ a, f.agent? ref = some a ∧ a.id = id ∧ a.snapshot.hostId = id

/-- The response is a placement from an id down to a host, with the score that the agent of the host has at the position where it
is scored. -/
structure Placed (inv : Inventory) (stands : String → AgentRef → Prop) (s : Surroundings) (r : PlacementRequest)
    (position : Position) (node : Node) (id : String) (resp : PlacementResponse) : Prop where
  way : ∃ hops, inv.Descends id resp.path hops resp.candidateId
  scored : ∃ p ref a, node.ScoredAt p ref ∧ stands resp.candidateId ref ∧ (s.fleet (position ++ p)).agent? ref = some a ∧
    a.score (s.fleet (position ++ p)).ratios (s.fleet (position ++ p)).transfer r = some resp.score

/-- A score of an agent is one of the host of its snapshot. -/
theorem HostAgent.candidateId_of_score {a : HostAgent} {ratios : OvercommitRatios} {transfer : TransferRatio}
    {r : PlacementRequest} {score : CandidateScore} (h : a.score ratios transfer r = some score) :
    score.candidateId = a.snapshot.hostId := candidateId_of_scoreSnapshot (HostAgent.score_eq_some_iff.mp h).2

variable {inv : Inventory} {limits : FanoutLimits} {stands : String → AgentRef → Prop} {s : Surroundings} {id : String}

/-- A placement of an agent is on its host. -/
theorem placed_host {ref : AgentRef} (hstaff : ∀ p, (s.fleet p).Staffs stands) (hst : stands id ref) {position : Position}
    {r : PlacementRequest} {now : Int} {resp : PlacementResponse}
    (hresp : (((Node.host ref).child s position).place r now).answer.response? = some resp) :
    Placed inv stands s r position (.host ref) id resp := by
  obtain ⟨a, ha, haid, hsnap⟩ := hstaff position id ref hst
  rw [Node.child] at hresp
  simp only [ha] at hresp
  obtain ⟨hscore, hpath⟩ := HostAgent.score_of_answer hresp
  have hcand : resp.candidateId = id := (HostAgent.candidateId_of_score hscore).trans hsnap
  constructor
  · refine ⟨0, ?_⟩
    rw [hpath, haid, hcand]
    exact Inventory.Descends.here id
  · refine ⟨[], ref, a, Node.ScoredAt.host ref, hcand.symm ▸ hst, ?_, ?_⟩
    · rwa [List.append_nil]
    · rwa [List.append_nil]

/-- A placement of a scheduler that ranks hosts is on one of them. -/
theorem placed_ranks {entry : SchedulerEntry} {refs : List AgentRef} (hstaff : ∀ p, (s.fleet p).Staffs stands)
    (hs : inv.scheduler? id = some entry) (hst : List.Forall₂ stands entry.hosts refs) {position : Position}
    {r : PlacementRequest} {resp : PlacementResponse}
    (hresp : decideLocally id (s.fleet position) (refs.map .agent) r = .placed resp) :
    Placed inv stands s r position (.scheduler id limits (refs.map .agent) []) id resp := by
  obtain ⟨host, hhost, snapshot, hsnap, hsat, hscore, hpath⟩ := placed_of_decideLocally hresp
  obtain ⟨ref, href, rfl⟩ := List.mem_map.mp hhost
  obtain ⟨i, hi, hiref⟩ := List.mem_iff_getElem.mp href
  have hi' : i < entry.hosts.length := hst.length_eq ▸ hi
  have hstands : stands entry.hosts[i] ref := hiref ▸ (List.forall₂_iff_get.mp hst).2 i hi' hi
  obtain ⟨a, ha, -, hhostId⟩ := hstaff position _ ref hstands
  rw [LocalHost.snapshot?, ha, Option.map_some, Option.some.injEq] at hsnap
  subst hsnap
  have hcand : resp.candidateId = entry.hosts[i] := (candidateId_of_scoreSnapshot hscore).trans hhostId
  constructor
  · refine ⟨0, ?_⟩
    rw [hpath, hcand]
    exact Inventory.Descends.host hs (List.getElem_mem hi') (Inventory.Descends.here _)
  · refine ⟨[], ref, a, Node.ScoredAt.ranked hhost, hcand.symm ▸ hstands, ?_, ?_⟩
    · rwa [List.append_nil]
    · rw [List.append_nil]
      exact HostAgent.score_eq_some_iff.mpr ⟨hsat, hscore⟩

/-- The placement of a child is one of its scheduler, seen one level up. -/
theorem Placed.via {entry : SchedulerEntry} {nodes : List Node} {hosts : List LocalHost} {i : Nat} {c : String} {node : Node}
    (hs : inv.scheduler? id = some entry) (hc : c ∈ entry.children) (hi : nodes[i]? = some node) {position : Position}
    {r r' : PlacementRequest} {resp : PlacementResponse} (h : Placed inv stands s r' (position ++ [i]) node c resp)
    (hdemand : r'.demand = r.demand) (hconstraints : r'.constraints = r.constraints) :
    Placed inv stands s r position (.scheduler id limits hosts nodes) id (resp.via id) := by
  obtain ⟨⟨hops, hway⟩, p, ref, a, hp, hst, ha, hscore⟩ := h
  rw [List.append_assoc, List.singleton_append] at ha hscore
  rw [HostAgent.score_eq_some_iff, hdemand, hconstraints, ← HostAgent.score_eq_some_iff] at hscore
  exact ⟨⟨hops + 1, Inventory.Descends.child hs hc hway⟩, i :: p, ref, a, Node.ScoredAt.down hi hp, hst, ha, hscore⟩

/-- Every placement of a node that mirrors the inventory names a host below it, the way to it, and the score of its agent. -/
theorem Node.Mirrors.placed {node : Node} (h : node.Mirrors inv limits stands id)
    (hstaff : ∀ p, (s.fleet p).Staffs stands) {position : Position} {r : PlacementRequest} {now : Int}
    {resp : PlacementResponse} (hresp : ((node.child s position).place r now).answer.response? = some resp) :
    Placed inv stands s r position node id resp := by
  induction h generalizing position r now resp with
  | host _ hst => exact placed_host hstaff hst hresp
  | @ranks id entry refs hs hne hc hst =>
    rcases Node.placed_of_place hresp with ⟨-, hlocal⟩ | hasked
    · exact placed_ranks hstaff hs hst hlocal
    · obtain ⟨child, hchild, -⟩ := placed_of_decideByAsking hasked
      cases hchild
  | @asks id entry nodes hs hh hlen hm ih =>
    rcases Node.placed_of_place hresp with ⟨-, hlocal⟩ | hasked
    · -- A scheduler that lists nothing places nothing.
      obtain ⟨host, hhost, -⟩ := placed_of_decideLocally hlocal
      cases hhost
    · obtain ⟨child, hchild, r', below, -, hr', hbelow, rfl⟩ := placed_of_decideByAsking hasked
      obtain ⟨i, hi⟩ := List.getElem?_of_mem hchild
      obtain ⟨c, node, hc, hnode, rfl⟩ := Node.of_getElem?_childrenFrom hlen hi
      obtain ⟨-, rfl⟩ := PlacementRequest.forChild_eq_some_iff.mp hr'
      exact Placed.via hs (List.mem_of_getElem? hc) hnode (ih i c node hc hnode hbelow) rfl rfl

namespace SchedulerTree

variable {c : AgentConfig} {listeners : List String} {t : SchedulerTree}

/-- What a node may find while the tree is in use: the ratios of some moment and each agent as it is at some moment, not all at the
same. -/
structure MayFind (t : SchedulerTree) (f : Fleet) : Prop where
  transfer : f.transfer = t.fleet.transfer
  ratios : ∃ events, f.ratios = (t.after events).fleet.ratios
  agent : ∀ ref, ∃ events, f.agent? ref = (t.after events).fleet.agent? ref

/-- A node may find what is there after more has happened. -/
theorem mayFind_after (t : SchedulerTree) (events : List TreeEvent) : t.MayFind (t.after events).fleet :=
  ⟨(t.keeps_after events).transfer, ⟨events, rfl⟩, fun _ => ⟨events, rfl⟩⟩

/-- A node may find what is there. -/
theorem mayFind_self (t : SchedulerTree) : t.MayFind t.fleet := t.mayFind_after []

/-- The fleets of all states that a tree may reach have an agent for each host. -/
theorem staffs_after (hbuilt : ofInventory inv c listeners = .ok t) (events : List TreeEvent) :
    (t.after events).fleet.Staffs fun id ref => t.ref? id = some ref := by
  intro id ref href
  obtain ⟨-, hm, -⟩ := built_of_ofInventory hbuilt
  have hname := ((hm.after events).agents id ref).mpr (((t.keeps_after events).ref? id).trans href)
  obtain ⟨a, ha, hid⟩ := Option.map_eq_some_iff.mp hname
  have hown := own_snapshots (fun ref a ha => (agents_of_ofInventory hbuilt ha).1) events ref a ha
  exact ⟨a, ha, hid, hown.trans hid⟩

/-- What a node may find has an agent for each host. -/
theorem MayFind.staffs (hbuilt : ofInventory inv c listeners = .ok t) {past : List TreeEvent} {f : Fleet}
    (h : (t.after past).MayFind f) : f.Staffs fun id ref => t.ref? id = some ref := by
  intro id ref href
  obtain ⟨events, heq⟩ := h.agent ref
  obtain ⟨a, ha, hid⟩ := staffs_after hbuilt (past ++ events) id ref href
  rw [after, List.foldl_append] at ha
  exact ⟨a, heq.trans ha, hid⟩

/-- A placement of the tree is that of its root. -/
theorem response?_of_decideIn {s : Surroundings} {r : PlacementRequest} {now : Int} {resp : PlacementResponse}
    (h : (t.decideIn s r now).decision = .placed resp) : ((t.root.child s []).place r now).answer.response? = some resp := by
  unfold decideIn at h
  split at h
  · rename_i heq
    simp only at h
    rw [heq, h]
    rfl
  · cases h

/-- A tree that was built and used in any way, and that may change in any way between two nodes while a request runs through it,
places the request on a reachable host only. The path is the one way to it from the root, and the host's snapshot at the moment
when it was scored meets the constraints and gives the score, under the ratios of that moment and the configured transfer ratio.
Samples, fan-out limits and deadlines are arbitrary. -/
theorem placed_sound (hbuilt : ofInventory inv c listeners = .ok t) {past : List TreeEvent} {s : Surroundings}
    (hs : ∀ p, (t.after past).MayFind (s.fleet p)) {r : PlacementRequest} {now : Int}
    {resp : PlacementResponse} (h : ((t.after past).decideIn s r now).decision = .placed resp) :
    (inv.Reached resp.candidateId ∧ resp.candidateId ∈ inv.hostIds) ∧
      (∃ hops, inv.Descends inv.root resp.path hops resp.candidateId) ∧
      (∀ path hops, inv.Descends inv.root path hops resp.candidateId → path = resp.path) ∧
      (resp.path.head? = some inv.root ∧ resp.path.getLast? = some resp.candidateId) ∧
      ∃ p ref a, t.root.ScoredAt p ref ∧ t.ref? resp.candidateId = some ref ∧ (s.fleet p).agent? ref = some a ∧
        a.snapshot.hostId = resp.candidateId ∧ satisfiesAll a.snapshot.satisfies r.constraints = true ∧
        scoreSnapshot a.snapshot r.demand (s.fleet p).ratios { value := c.agent.utilizationTransferRatio } = some resp.score := by
  obtain ⟨ht, hm, -⟩ := built_of_ofInventory hbuilt
  have hstaff : ∀ p, (s.fleet p).Staffs fun id ref => t.ref? id = some ref := fun p => (hs p).staffs hbuilt
  have hresp := response?_of_decideIn h
  rw [(t.keeps_after past).root] at hresp
  obtain ⟨⟨hops, hway⟩, p, ref, a, hp, href, ha, hscore⟩ := hm.nodes.placed hstaff hresp
  rw [List.nil_append] at ha hscore
  obtain ⟨hsat, hsnap⟩ := HostAgent.score_eq_some_iff.mp hscore
  have htransfer : (s.fleet p).transfer = { value := c.agent.utilizationTransferRatio } := by
    rw [(hs p).transfer, (t.keeps_after past).transfer, hm.transfer]
  rw [htransfer] at hsnap
  refine ⟨(hm.hostIds _).mp (mem_hostIds_iff.mpr ⟨ref, href⟩), ⟨hops, hway⟩, ?_, ⟨hway.head?_eq, hway.getLast?_eq⟩,
    p, ref, a, hp, href, ha, (HostAgent.candidateId_of_score hscore).symm, hsat, hsnap⟩
  intro path hops' hway'
  exact (ht.descends_unique hway' hway).1

/-- A host below two schedulers, the only one of its type, and a cpu ratio that is doubled before the request reaches the second scheduler:
the host is found in two steps, and its score is that under the doubled ratio. -/
theorem placed_sound_two_levels :
    let entry : HostEntry := { id := "h", cpuCount := 4, memoryMb := 1024, hostType := some "large" }
    let inv : Inventory :=
      { root := "r", schedulers := [⟨"r", ["s", "g"], []⟩, ⟨"s", [], ["h"]⟩],
        hosts := [{ id := "g", cpuCount := 4, memoryMb := 1024 }, entry] }
    let r := PlacementRequest.issue "w" { cpu := 1, memoryMb := 256 } [.hostType "large"] 0 1000
    let resp : PlacementResponse :=
      { score := { candidateId := "h", cpuScore := ⟨0x3fec000000000000⟩, memoryScore := ⟨0x3fe8000000000000⟩,
                   combined := ⟨0x3fea000000000000⟩, freeMemoryMb := ⟨0x4088000000000000⟩ }
        path := ["r", "s", "h"] }
    ∃ t, ofInventory inv {} [] = .ok t ∧
      let s : Surroundings :=
        { fleet := fun p => if p = [] then t.fleet else (t.after [.setCpu 2.0]).fleet, draw := fun _ _ _ => [] }
      (∀ p, t.MayFind (s.fleet p)) ∧ (t.decideIn s r 0).decision = .placed resp ∧ inv.Reached "h" ∧
        (∃ hops, inv.Descends "r" resp.path hops "h") ∧ ∃ p ref, t.root.ScoredAt p ref ∧ t.ref? "h" = some ref := by
  intro entry inv r resp
  obtain ⟨t, ht, hdecision⟩ : ∃ t, ofInventory inv {} [] = .ok t ∧
      let s : Surroundings :=
        { fleet := fun p => if p = [] then t.fleet else (t.after [.setCpu 2.0]).fleet, draw := fun _ _ _ => [] }
      (t.decideIn s r 0).decision = .placed resp := ⟨_, rfl, by decide +kernel⟩
  refine ⟨t, ht, ?_⟩
  intro s
  have hfind : ∀ p, t.MayFind (s.fleet p) := by
    intro p
    by_cases hp : p = []
    · simpa [s, hp] using t.mayFind_self
    · simpa [s, hp] using t.mayFind_after [.setCpu 2.0]
  have hfound : ∀ p, (t.after []).MayFind (s.fleet p) := hfind
  have hplaced : ((t.after []).decideIn s r 0).decision = .placed resp := hdecision
  obtain ⟨⟨hreached, -⟩, hway, -, -, p, ref, -, hp, href, -⟩ := placed_sound ht hfound hplaced
  exact ⟨hfind, hdecision, hreached, hway, p, ref, hp, href⟩

end SchedulerTree

end PlacementTree
