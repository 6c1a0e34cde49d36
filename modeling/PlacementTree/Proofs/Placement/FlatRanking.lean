import PlacementTree.Proofs.Placement.Sound
import PlacementTree.Proofs.Placement.Steady

/-!
# Placement is flat ranking

While nothing changes and every scheduler may ask all its children, the tree decides as one flat ranking of all hosts would
(`SchedulerTree.decide_eq_flat_ranking`): of all hosts that can be reached by hops which leave some of the time, and that meet the
constraints and have room, it takes the best, and a root with children that cannot afford one hop times out.

What a node decides is the best of what can be reached below it (`Node.Mirrors.bestOf`). At a scheduler that asks children this is the
fan-in, at one that ranks hosts its ranking, at a host its own score.
-/

namespace PlacementTree

/-- The response is one that a host below an id can give in time: the hops of the way to it leave some of the time until the deadline,
it meets the constraints, and it has room. -/
def Attainable (inv : Inventory) (find : Registry) (f : Fleet) (hopLatency : Nat) (r : PlacementRequest) (now : Int) (id : String)
    (resp : PlacementResponse) : Prop :=
  ∃ hops host a, AgentBelow inv find f id resp.path hops host a ∧ now + Int.ofNat (hops * hopLatency) < r.deadline ∧
    a.score f.ratios f.transfer r = some resp.score

/-- The agents of a fleet that are registered are open, have the ids they are registered under, and have snapshots of their hosts. -/
def Fleet.Serves (f : Fleet) (find : Registry) : Prop :=
  ∀ id ref, find id = some ref → ∃ a, f.agent? ref = some a ∧ a.id = id ∧ a.snapshot.hostId = id ∧ a.closed = false

variable {inv : Inventory} {limits : FanoutLimits} {find : Registry} {f : Fleet} {id : String} {r : PlacementRequest} {now : Int}

/-- A request is not expired before its deadline. -/
theorem PlacementRequest.expired_eq_false (hdue : now < r.deadline) : r.expired now = false := by
  rw [expired, decide_eq_false_iff_not]
  omega

/-- The agent of a host has a snapshot of that host. -/
theorem Fleet.Serves.hostId (h : f.Serves find) {host : String} {a : HostAgent} (ha : find.agent? f host = some a) :
    a.snapshot.hostId = host := by
  obtain ⟨ref, href, ha⟩ := Option.bind_eq_some_iff.mp ha
  obtain ⟨a', ha', -, hid, -⟩ := h host ref href
  rwa [Option.some.inj (ha.symm.trans ha')]

/-- What is attainable is a placement on the host that the response names. -/
theorem Attainable.candidateId (hserves : f.Serves find) {hops : Nat} {path : List String} {host : String} {a : HostAgent}
    {score : CandidateScore} (hb : AgentBelow inv find f id path hops host a)
    (hscore : a.score f.ratios f.transfer r = some score) : score.candidateId = host :=
  (HostAgent.candidateId_of_score hscore).trans (hserves.hostId hb.agent)

/-! ## The cases of a node -/

/-- A host decides at once, on itself or on nothing. -/
theorem bestOf_host (hserves : f.Serves find) {ref : AgentRef} (hnone : inv.scheduler? id = none) (href : find id = some ref)
    {s : Surroundings} (hs : ∀ p, s.fleet p = f) {position : Position} (hdue : now < r.deadline) (hopLatency : Nat) :
    ∃ d : PlacementDecision, ((Node.host ref).child s position).place r now = .immediate now (.decided d) ∧ d ≠ .timedOut ∧
      d.BestOf (Attainable inv find f hopLatency r now id) := by
  obtain ⟨a, ha, haid, hid, hopen⟩ := hserves id ref href
  have hagent : find.agent? f id = some a := by rw [Registry.agent?, href, Option.bind_some, ha]
  have hexpired : r.expired now = false := PlacementRequest.expired_eq_false hdue
  have hattain : ∀ resp, Attainable inv find f hopLatency r now id resp ↔
      resp.path = [id] ∧ a.score f.ratios f.transfer r = some resp.score := by
    intro resp
    unfold Attainable
    simp only [agentBelow_host_iff hnone, hagent]
    constructor
    · rintro ⟨hops, host, a', ⟨hpath, -, -, hsame⟩, -, hscore⟩
      rw [Option.some.inj hsame]
      exact ⟨hpath, hscore⟩
    · rintro ⟨hpath, hscore⟩
      exact ⟨0, id, a, ⟨hpath, rfl, rfl, rfl⟩, by simpa using hdue, hscore⟩
  refine ⟨a.decision f.ratios f.transfer r, ?_, ?_, PlacementDecision.BestOf.congr ?_ hattain⟩
  · simp [Node.child, hs, ha, HostAgent.asChild, HostAgent.answer, hexpired, hopen]
  · unfold HostAgent.decision
    split <;> simp
  · unfold HostAgent.decision
    cases hscore : a.score f.ratios f.transfer r with
    | none => exact ⟨by simp [PlacementDecision.response?], by simp⟩
    | some score =>
      refine ⟨?_, by simp [PlacementDecision.response?]⟩
      intro resp hresp
      obtain rfl := Option.some.inj hresp
      refine ⟨⟨by rw [haid], rfl⟩, ?_⟩
      rintro other ⟨-, hother⟩
      rw [← Option.some.inj hother]
      exact CandidateScore.noWorse_refl score

/-- What is attainable at a scheduler that ranks hosts is what its ranking has. -/
theorem attainable_ranks_iff (hfind : find.OfHosts inv) (hserves : f.Serves find) {entry : SchedulerEntry} {refs : List AgentRef}
    (hsome : inv.scheduler? id = some entry) (hc : entry.children = [])
    (hst : List.Forall₂ (fun id ref => find id = some ref) entry.hosts refs) (hdue : now < r.deadline) (hopLatency : Nat)
    (resp : PlacementResponse) :
    Attainable inv find f hopLatency r now id resp ↔
      resp.path = [id, resp.candidateId] ∧
        Scored ((refs.map LocalHost.agent).filterMap (·.snapshot? f)) r.demand r.constraints f.ratios f.transfer resp.score := by
  have hhosts := hfind.of_forall₂ hst
  constructor
  · rintro ⟨hops, host, a, hb, -, hscore⟩
    have hcand : resp.candidateId = host := Attainable.candidateId hserves hb hscore
    obtain ⟨hin, hpath, -, ha⟩ := (agentBelow_ranks_iff hfind hsome hc hhosts).mp hb
    obtain ⟨hsat, hsnap⟩ := HostAgent.score_eq_some_iff.mp hscore
    exact ⟨by rw [hpath, hcand], a.snapshot, (mem_ranked_snapshots hst).mpr ⟨host, hin, a, ha, rfl⟩, hsat, hsnap⟩
  · rintro ⟨hpath, snapshot, hmem, hsat, hsnap⟩
    obtain ⟨host, hin, a, ha, rfl⟩ := (mem_ranked_snapshots hst).mp hmem
    have hcand : resp.candidateId = host := (candidateId_of_scoreSnapshot hsnap).trans (hserves.hostId ha)
    refine ⟨0, host, a, (agentBelow_ranks_iff hfind hsome hc hhosts).mpr ⟨hin, ?_, rfl, ha⟩, by simpa using hdue,
      HostAgent.score_eq_some_iff.mpr ⟨hsat, hsnap⟩⟩
    rw [hpath, hcand]

/-- What is attainable at a scheduler that asks children is what is attainable at a child with a hop less time. -/
theorem attainable_asks_iff (hfind : find.OfHosts inv) {entry : SchedulerEntry} (hsome : inv.scheduler? id = some entry)
    (hh : entry.hosts = []) (f : Fleet) (r : PlacementRequest) (now : Int) (hopLatency : Nat) (resp : PlacementResponse) :
    Attainable inv find f hopLatency r now id resp ↔
      ∃ r', r.forChild hopLatency now = some r' ∧
        ∃ c ∈ entry.children, ∃ resp', Attainable inv find f hopLatency r' now c resp' ∧ resp = resp'.via id := by
  constructor
  · rintro ⟨hops, host, a, hb, htime, hscore⟩
    obtain ⟨c, hin, path', hops', hpath, rfl, hb'⟩ := (agentBelow_asks_iff hfind hsome hh).mp hb
    have hlater : now + Int.ofNat (hops' * hopLatency) < r.deadline - Int.ofNat hopLatency := by
      rw [Nat.succ_mul] at htime
      simp only [Int.ofNat_eq_natCast] at htime ⊢
      omega
    refine ⟨_, PlacementRequest.forChild_eq_some_iff.mpr ⟨?_, rfl⟩, c, hin, { resp with path := path' },
      ⟨hops', host, a, hb', hlater, hscore⟩, ?_⟩
    · simp only [Int.ofNat_eq_natCast] at hlater ⊢
      omega
    · rw [PlacementResponse.via, ← hpath]
  · rintro ⟨r', hr', c, hin, resp', ⟨hops', host, a, hb, htime, hscore⟩, rfl⟩
    obtain ⟨-, rfl⟩ := PlacementRequest.forChild_eq_some_iff.mp hr'
    refine ⟨hops' + 1, host, a, (agentBelow_asks_iff hfind hsome hh).mpr ⟨c, hin, _, hops', rfl, rfl, hb⟩, ?_, hscore⟩
    rw [Nat.succ_mul]
    simp only [Int.ofNat_eq_natCast] at htime ⊢
    omega

/-- Without time for a hop nothing is attainable at a scheduler that asks children. -/
theorem not_attainable_of_late (hfind : find.OfHosts inv) {entry : SchedulerEntry} (hsome : inv.scheduler? id = some entry)
    (hh : entry.hosts = []) {hopLatency : Nat} (hr : r.forChild hopLatency now = none) (resp : PlacementResponse) :
    ¬Attainable inv find f hopLatency r now id resp := by
  intro hallowed
  obtain ⟨r', hsent, -⟩ := (attainable_asks_iff hfind hsome hh f r now hopLatency resp).mp hallowed
  rw [hr] at hsent
  cases hsent

/-- With time for a hop, what is attainable at a scheduler that asks children is what one of the nodes it asks may decide on. -/
theorem attainable_child_iff (hfind : find.OfHosts inv) {entry : SchedulerEntry} (hsome : inv.scheduler? id = some entry)
    (hh : entry.hosts = []) {nodes : List Node} (hlen : nodes.length = entry.children.length) (s : Surroundings)
    (position : Position) {hopLatency : Nat} {r' : PlacementRequest} (hr' : r.forChild hopLatency now = some r')
    (resp : PlacementResponse) :
    Attainable inv find f hopLatency r now id resp ↔
      ∃ (i : Nat) (child : Child) (resp' : PlacementResponse), (Node.childrenFrom s position 0 nodes)[i]? = some child ∧
        (∃ c, entry.children[i]? = some c ∧ Attainable inv find f hopLatency r' now c resp') ∧ resp = resp'.via id := by
  rw [attainable_asks_iff hfind hsome hh]
  constructor
  · rintro ⟨r'', hsent, c, hin, resp', hallowed, rfl⟩
    obtain rfl := Option.some.inj (hsent.symm.trans hr')
    obtain ⟨i, hc⟩ := List.getElem?_of_mem hin
    obtain ⟨node, hnode⟩ := exists_getElem?_of_length_eq hlen.symm hc
    refine ⟨i, node.child s (position ++ [i]), resp', ?_, ⟨c, hc, hallowed⟩, rfl⟩
    rw [Node.getElem?_childrenFrom, hnode, Nat.zero_add]
    rfl
  · rintro ⟨i, child, resp', -, ⟨c, hc, hallowed⟩, rfl⟩
    exact ⟨r', hr', c, List.mem_of_getElem? hc, resp', hallowed, rfl⟩

/-- A scheduler that asks children decides at once, if they do, on the best of what is attainable below them, and times out if it cannot
afford a hop. -/
theorem bestOf_asks (hfind : find.OfHosts inv) {entry : SchedulerEntry} (hsome : inv.scheduler? id = some entry)
    (hh : entry.hosts = []) {nodes : List Node} (hlen : nodes.length = entry.children.length)
    (hlimit : nodes.length ≤ limits.limit)
    (hm : ∀ (i : Nat) c node, entry.children[i]? = some c → nodes[i]? = some node →
      node.Mirrors inv limits (fun id ref => find id = some ref) c)
    {s : Surroundings} (hs : ∀ p, s.fleet p = f) {position : Position} (hdue : now < r.deadline)
    (ih : ∀ r', r.forChild limits.hopLatency now = some r' →
      ∀ (i : Nat) c node, entry.children[i]? = some c → nodes[i]? = some node →
        ∃ d : PlacementDecision, (node.child s (position ++ [i])).place r' now = .immediate now (.decided d) ∧
          d.BestOf (Attainable inv find f limits.hopLatency r' now c)) :
    ∃ d, decideByAsking id limits (s.draw position) (Node.childrenFrom s position 0 nodes) r now = { decision := d, time := now } ∧
      d.BestOf (Attainable inv find f limits.hopLatency r now id) ∧
      (d = .timedOut ↔ r.deadline - Int.ofNat limits.hopLatency ≤ now) := by
  cases hr' : r.forChild limits.hopLatency now with
  | none =>
    have hlate := PlacementRequest.forChild_eq_none_iff.mp hr'
    refine ⟨.timedOut, ?_, ⟨by simp [PlacementDecision.response?], fun _ => not_attainable_of_late hfind hsome hh hr'⟩,
      iff_of_true rfl hlate⟩
    simp [decideByAsking, FanoutLimits.dispatch, hr']
  | some r' =>
    obtain ⟨hlt, hr⟩ := PlacementRequest.forChild_eq_some_iff.mp hr'
    let below : Nat → PlacementResponse → Prop := fun i resp =>
      ∃ c, entry.children[i]? = some c ∧ Attainable inv find f limits.hopLatency r' now c resp
    have hlimit' : (Node.childrenFrom s position 0 nodes).length ≤ limits.limit := by rwa [Node.length_childrenFrom]
    have hanswer : ∀ (i : Nat) (child : Child), (Node.childrenFrom s position 0 nodes)[i]? = some child →
        ∃ d : PlacementDecision, child.place r' now = .immediate now (.decided d) ∧ d.BestOf (below i) := by
      intro i child hi
      obtain ⟨c, node, hc, hnode, rfl⟩ := Node.of_getElem?_childrenFrom hlen hi
      obtain ⟨d, hplace, hbest⟩ := ih r' hr' i c node hc hnode
      refine ⟨d, hplace, hbest.congr fun resp => ?_⟩
      simp [below, hc]
    have heligible : ∀ (i : Nat) (child : Child) (resp : PlacementResponse),
        (Node.childrenFrom s position 0 nodes)[i]? = some child → below i resp → child.eligible r.constraints = true := by
      rintro i child resp hi ⟨c, hc, hops, host, a, hb, -, hscore⟩
      obtain ⟨c', node, hc', hnode, rfl⟩ := Node.of_getElem?_childrenFrom hlen hi
      obtain rfl := Option.some.inj (hc.symm.trans hc')
      have hsat := (HostAgent.score_eq_some_iff.mp hscore).1
      rw [hr] at hsat
      exact (hm i c node hc hnode).eligible_of_below hfind hs hb hsat
    obtain ⟨d, hdec, hd, hbest⟩ := decideByAsking_bestOf id (s.draw position) hlimit' hdue hr' hanswer heligible
    exact ⟨d, hdec, hbest.congr (attainable_child_iff hfind hsome hh hlen s position hr'), iff_of_false hd (Int.not_le.mpr hlt)⟩

/-- Every node decides at once on the best of what is attainable below it. Only a scheduler with children that cannot afford a hop times
out. -/
theorem Node.Mirrors.bestOf {node : Node} (h : node.Mirrors inv limits (fun id ref => find id = some ref) id)
    (hfind : find.OfHosts inv) (hserves : f.Serves find) (hfan : ∀ entry ∈ inv.schedulers, entry.children.length ≤ limits.limit)
    {s : Surroundings} (hs : ∀ p, s.fleet p = f) (position : Position) (hdue : now < r.deadline) :
    ∃ d : PlacementDecision, (node.child s position).place r now = .immediate now (.decided d) ∧
      d.BestOf (Attainable inv find f limits.hopLatency r now id) ∧
      (d = .timedOut ↔ (∃ entry, inv.scheduler? id = some entry ∧ entry.children ≠ []) ∧
        r.deadline - Int.ofNat limits.hopLatency ≤ now) := by
  induction h generalizing position r with
  | @host id ref hnone href =>
    obtain ⟨d, hplace, hd, hbest⟩ := bestOf_host hserves hnone href hs hdue limits.hopLatency
    exact ⟨d, hplace, hbest, by simp [hd, hnone]⟩
  | @ranks id entry refs hsome hne hc hst =>
    have hexpired : r.expired now = false := PlacementRequest.expired_eq_false hdue
    obtain ⟨hd, hbest⟩ := decideLocally_bestOf id f (refs.map .agent) r
    refine ⟨_, ?_, hbest.congr (attainable_ranks_iff hfind hserves hsome hc hst hdue _), ?_⟩
    · rw [Node.place_ranking hexpired, hs]
    · simp [hd, hsome, hc]
  | @asks id entry nodes hsome hh hlen hm ih =>
    have hexpired : r.expired now = false := PlacementRequest.expired_eq_false hdue
    have hattain := attainable_asks_iff hfind hsome hh f r now limits.hopLatency
    cases nodes with
    | nil =>
      -- A scheduler that lists nothing ranks nothing.
      have hnone : entry.children = [] := List.length_eq_zero_iff.mp hlen.symm
      obtain ⟨hd, hbest⟩ := decideLocally_bestOf id f [] r
      refine ⟨_, ?_, hbest.congr ?_, ?_⟩
      · rw [Node.place_ranking hexpired, hs]
      · intro resp
        rw [hattain]
        simp [hnone, Scored]
      · simp [hd, hsome, hnone]
    | cons first rest =>
      have hchildren : entry.children ≠ [] := by
        intro hnil
        simp [hnil] at hlen
      have hlimit : (first :: rest).length ≤ limits.limit := hlen ▸ hfan entry (Inventory.mem_of_scheduler? hsome).1
      have hbelow : ∀ r', r.forChild limits.hopLatency now = some r' →
          ∀ (i : Nat) c node, entry.children[i]? = some c → (first :: rest)[i]? = some node →
            ∃ d : PlacementDecision, (node.child s (position ++ [i])).place r' now = .immediate now (.decided d) ∧
              d.BestOf (Attainable inv find f limits.hopLatency r' now c) := by
        intro r' hr' i c node hc hi
        obtain ⟨d, hplace, hbest, -⟩ := ih i c node hc hi (position ++ [i]) (PlacementRequest.due_of_forChild hr')
        exact ⟨d, hplace, hbest⟩
      obtain ⟨d, hdec, hbest, hd⟩ := bestOf_asks hfind hsome hh hlen hlimit hm hs hdue hbelow
      refine ⟨d, ?_, hbest, ?_⟩
      · rw [Node.place_asking hexpired (List.cons_ne_nil first rest), hdec]
        rfl
      · rw [hd]
        simp [hsome, hchildren]

/-! ## The tree -/

/-- The host can be reached from the root by hops that leave some of the timeout. -/
def Inventory.InReach (inv : Inventory) (hopLatency timeout : Nat) (path : List String) (host : String) : Prop :=
  ∃ hops, inv.Descends inv.root path hops host ∧ hops * hopLatency < timeout

namespace SchedulerTree

/-- The response is the way to a host in reach that meets the constraints now and has room now, with its score. -/
def Candidate (t : SchedulerTree) (inv : Inventory) (hopLatency timeout : Nat) (demand : ResourceDemand)
    (constraints : List Constraint) (resp : PlacementResponse) : Prop :=
  ∃ host a, inv.InReach hopLatency timeout resp.path host ∧ t.host? host = some a ∧
    satisfiesAll a.snapshot.satisfies constraints = true ∧
      scoreSnapshot a.snapshot demand t.fleet.ratios t.fleet.transfer = some resp.score

variable {t : SchedulerTree} {c : AgentConfig} {listeners : List String} {hopLatency timeout : Nat} {demand : ResourceDemand}
  {constraints : List Constraint}

/-- The candidates for a request made now are what is attainable from the root. -/
theorem candidate_iff_attainable (t : SchedulerTree) (inv : Inventory) (name : String) (now : Int) (resp : PlacementResponse) :
    t.Candidate inv hopLatency timeout demand constraints resp ↔
      Attainable inv t.ref? t.fleet hopLatency (PlacementRequest.issue name demand constraints now timeout) now inv.root resp := by
  have htime : ∀ hops : Nat, hops * hopLatency < timeout ↔
      now + Int.ofNat (hops * hopLatency) < (PlacementRequest.issue name demand constraints now timeout).deadline := by
    intro hops
    simp only [PlacementRequest.issue, Int.ofNat_eq_natCast]
    omega
  unfold Candidate Inventory.InReach Attainable
  simp only [HostAgent.score_eq_some_iff, htime]
  constructor
  · rintro ⟨host, a, ⟨hops, hway, hin⟩, ha, hscore⟩
    exact ⟨hops, host, a, ⟨hway, ha⟩, hin, hscore⟩
  · rintro ⟨hops, host, a, ⟨hway, ha⟩, hin, hscore⟩
    exact ⟨host, a, ⟨hops, hway, hin⟩, ha, hscore⟩

/-- The registered hosts of a tree that mirrors an inventory are no schedulers. -/
theorem Mirrors.ofHosts (ht : inv.IsTree) (hm : t.Mirrors inv c) : Registry.OfHosts t.ref? inv := by
  intro id ref href
  obtain ⟨hr, hin⟩ := (hm.hostIds id).mp (mem_hostIds_iff.mpr ⟨ref, href⟩)
  exact (ht.scheduler?_eq_none_iff hr).mpr hin

/-- Unless agents were closed, the fleet of a tree that was built serves all hosts. -/
theorem serves_after (hbuilt : ofInventory inv c listeners = .ok t) {events : List TreeEvent}
    (hopen : ∀ e ∈ events, e.closes = false) : (t.after events).fleet.Serves (t.after events).ref? := by
  intro id ref href
  rw [(t.keeps_after events).ref?] at href
  obtain ⟨a, ha, hid, hsnap⟩ := staffs_after hbuilt events id ref href
  exact ⟨a, ha, hid, hsnap, open_agents (fun ref a ha => (agents_of_ofInventory hbuilt ha).2) hopen ref a ha⟩

/-- What the root decides at once is the decision of the tree. -/
theorem decide_of_immediate {draw : Position → Draw} {d : PlacementDecision}
    (h : (t.root.child (Surroundings.steady t.fleet draw) []).place r now = .immediate now (.decided d)) :
    (t.decide draw r now).decision = d := by
  unfold decide decideIn
  rw [h]
  rfl

/-- Two candidates on one host are the same. -/
theorem Candidate.eq_of_candidateId (ht : inv.IsTree) (hserves : t.fleet.Serves t.ref?) {resp resp' : PlacementResponse}
    (h : t.Candidate inv hopLatency timeout demand constraints resp)
    (h' : t.Candidate inv hopLatency timeout demand constraints resp') (hid : resp.candidateId = resp'.candidateId) :
    resp = resp' := by
  have hhost : ∀ {host a score}, t.host? host = some a →
      scoreSnapshot a.snapshot demand t.fleet.ratios t.fleet.transfer = some score → score.candidateId = host := by
    intro host a score ha hscore
    exact (candidateId_of_scoreSnapshot hscore).trans (hserves.hostId ha)
  obtain ⟨host, a, ⟨hops, hway, -⟩, ha, -, hscore⟩ := h
  obtain ⟨host', a', ⟨hops', hway', -⟩, ha', -, hscore'⟩ := h'
  obtain rfl : host = host' := (hhost ha hscore).symm.trans (hid.trans (hhost ha' hscore'))
  obtain rfl := Option.some.inj (ha.symm.trans ha')
  have hpath := (ht.descends_unique hway hway').1
  have hsame := Option.some.inj (hscore.symm.trans hscore')
  cases resp
  cases resp'
  simp_all

/-- A tree that was built, and used without closing an agent, decides about a request at the moment it is made as a flat ranking of all
reachable hosts would, if every scheduler may ask all its children. A root with children times out if the timeout does not exceed one
hop. Otherwise the request is placed on the best of the hosts in reach, with its score and the way to it, and is unschedulable exactly
if there is none; the score is the head of the ranking of the snapshots of all hosts in reach, in any order. -/
theorem decide_eq_flat_ranking (hbuilt : ofInventory inv c listeners = .ok t)
    (hfan : ∀ s ∈ inv.schedulers, s.children.length ≤ c.scheduler.fanout.toNat) {events : List TreeEvent}
    (hopen : ∀ e ∈ events, e.closes = false) (draw : Position → Draw) (name : String) (demand : ResourceDemand)
    (constraints : List Constraint) (now : Int) {timeout : Nat} (htimeout : 0 < timeout) :
    let used := t.after events
    let hopLatency := c.scheduler.hopLatencyMs.toNat
    let decision := (used.decide draw (PlacementRequest.issue name demand constraints now timeout) now).decision
    let candidate := used.Candidate inv hopLatency timeout demand constraints
    let late := (∃ s, inv.scheduler? inv.root = some s ∧ s.children ≠ []) ∧ timeout ≤ hopLatency
    (late → decision = .timedOut) ∧
      (¬late →
        decision ≠ .timedOut ∧
        (∀ resp, decision = .placed resp ↔
          candidate resp ∧ ∀ other, candidate other → resp.score.noWorse other.score = true) ∧
        (decision = .unschedulable ↔ ∀ resp, ¬candidate resp) ∧
        ∀ snapshots : List ResourceSnapshot,
          (∀ snapshot, snapshot ∈ snapshots ↔
            ∃ path host a, inv.InReach hopLatency timeout path host ∧ used.host? host = some a ∧ a.snapshot = snapshot) →
          decision.response?.map (·.score) =
            (rankSnapshots snapshots demand constraints used.fleet.ratios used.fleet.transfer).head?) := by
  intro used hopLatency decision candidate late
  obtain ⟨ht, hm₀, -⟩ := built_of_ofInventory hbuilt
  have hm : used.Mirrors inv c := hm₀.after events
  have hserves : used.fleet.Serves used.ref? := serves_after hbuilt hopen
  have hlimit : ∀ s ∈ inv.schedulers, s.children.length ≤ c.limits.limit :=
    fun s hs => Nat.le_trans (hfan s hs) (Nat.le_max_left _ _)
  have hdue : now < (PlacementRequest.issue name demand constraints now timeout).deadline := by
    simp only [PlacementRequest.issue, Int.ofNat_eq_natCast]
    omega
  obtain ⟨d, hplace, hbest, hd⟩ := hm.nodes.bestOf (hm.ofHosts ht) hserves hlimit
    (s := Surroundings.steady used.fleet draw) (fun _ => rfl) [] hdue
  have hdecision : decision = d := decide_of_immediate hplace
  have hcandidates : d.BestOf candidate := hbest.congr (candidate_iff_attainable used inv name now)
  have hone : ∀ a b, candidate a → candidate b → a.candidateId = b.candidateId → a = b :=
    fun a b ha hb hid => ha.eq_of_candidateId ht hserves hb hid
  have hlate : d = .timedOut ↔ late := by
    rw [hd]
    apply and_congr_right
    intro _
    simp only [PlacementRequest.issue, Int.ofNat_eq_natCast, hopLatency, AgentConfig.limits, FanoutLimits.ofSettings]
    omega
  rw [hdecision]
  refine ⟨hlate.mpr, ?_⟩
  intro hnot
  have htimed : d ≠ .timedOut := fun heq => hnot (hlate.mp heq)
  refine ⟨htimed, hcandidates.placed_iff hone, hcandidates.unschedulable_iff htimed, ?_⟩
  intro snapshots hsnapshots
  apply hcandidates.score_eq_head? hone
  intro score
  constructor
  · rintro ⟨snapshot, hmem, hsat, hscore⟩
    obtain ⟨path, host, a, hin, ha, rfl⟩ := (hsnapshots snapshot).mp hmem
    exact ⟨{ score, path }, ⟨host, a, hin, ha, hsat, hscore⟩, rfl⟩
  · rintro ⟨resp, ⟨host, a, hin, ha, hsat, hscore⟩, rfl⟩
    exact ⟨a.snapshot, (hsnapshots _).mpr ⟨resp.path, host, a, hin, ha, rfl⟩, hsat, hscore⟩

/-- A host below two schedulers, a hop of 50 and another ratio for the cpu: too late after 50, placed after 51. -/
theorem decide_eq_flat_ranking_two_levels :
    let entry : HostEntry := { id := "h", cpuCount := 4, memoryMb := 1024 }
    let inv : Inventory := { root := "r", schedulers := [⟨"r", ["s"], []⟩, ⟨"s", [], ["h"]⟩], hosts := [entry] }
    let demand : ResourceDemand := { cpu := 1, memoryMb := 256 }
    let decision := fun (t : SchedulerTree) timeout =>
      ((t.after [.setCpu 2.0]).decide (fun _ _ _ => []) (PlacementRequest.issue "w" demand [] 0 timeout) 0).decision
    ∃ t, ofInventory inv {} [] = .ok t ∧ decision t 50 = .timedOut ∧ ∃ resp, decision t 51 = .placed resp := by
  intro entry inv demand decision
  let ratios : OvercommitRatios := { cpu := 2.0, memory := 1.0 }
  obtain ⟨t, ht, hhost, hratios, htransfer⟩ : ∃ t, ofInventory inv {} [] = .ok t ∧
      (t.after [.setCpu 2.0]).host? "h" = some (HostAgent.ofSnapshot entry.snapshot 4 []) ∧
      (t.after [.setCpu 2.0]).fleet.ratios = ratios ∧
      (t.after [.setCpu 2.0]).fleet.transfer = { value := 0.5 } := ⟨_, rfl, rfl, rfl, rfl⟩
  have hfan : ∀ s ∈ inv.schedulers, s.children.length ≤ ({} : AgentConfig).scheduler.fanout.toNat := by decide
  have hopen : ∀ e ∈ [TreeEvent.setCpu 2.0], e.closes = false := by simp [TreeEvent.closes]
  have hroot : inv.scheduler? inv.root = some ⟨"r", ["s"], []⟩ := by decide
  refine ⟨t, ht, ?_, ?_⟩
  · apply (decide_eq_flat_ranking ht hfan hopen _ "w" demand [] 0 (by decide : 0 < 50)).1
    exact ⟨⟨_, hroot, by decide⟩, by decide⟩
  · obtain ⟨htimed, hplaced, hnone, -⟩ :=
      (decide_eq_flat_ranking ht hfan hopen (fun _ _ _ => []) "w" demand [] 0 (by decide : 0 < 51)).2 fun hlate => by
        exact absurd hlate.2 (by decide)
    obtain ⟨score, hscore⟩ : ∃ score, scoreSnapshot entry.snapshot demand ratios { value := 0.5 } = some score :=
      Option.isSome_iff_exists.mp (by decide +kernel)
    have hway : inv.Descends "r" ["r", "s", "h"] 1 "h" :=
      Inventory.Descends.child hroot (by decide)
        (Inventory.Descends.host (s := ⟨"s", [], ["h"]⟩) (by decide) (by decide) (Inventory.Descends.here "h"))
    cases hd : decision t 51 with
    | placed resp => exact ⟨resp, rfl⟩
    | timedOut => exact absurd hd htimed
    | unschedulable =>
      refine absurd ?_ (hnone.mp hd { score, path := ["r", "s", "h"] })
      exact ⟨"h", _, ⟨1, hway, by decide⟩, hhost, rfl, by rw [hratios, htransfer]; exact hscore⟩

end SchedulerTree

end PlacementTree
