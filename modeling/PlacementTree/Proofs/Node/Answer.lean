import PlacementTree.Node
import PlacementTree.Proofs.Aggregate.Winner
import PlacementTree.Proofs.Score.Ranking

/-!
# Where a placement comes from

A placement that a scheduler decides on was ranked first among its own hosts, or it is that of a child which was asked with the
deadline less a hop, seen one level up. Whatever the draw, only children that are eligible are asked.
-/

namespace PlacementTree

/-- The node of a list in a place, as its scheduler sees it. -/
theorem Node.getElem?_childrenFrom (s : Surroundings) (position : Position) (number i : Nat) (nodes : List Node) :
    (Node.childrenFrom s position number nodes)[i]? =
      (nodes[i]?).map fun node => node.child s (position ++ [number + i]) := by
  induction nodes generalizing number i with
  | nil => simp [Node.childrenFrom]
  | cons node nodes ih =>
    rw [Node.childrenFrom]
    cases i with
    | zero => simp
    | succ i =>
      rw [List.getElem?_cons_succ, List.getElem?_cons_succ, ih, Nat.add_right_comm]
      rfl

/-- The children of a scheduler are its nodes, each seen at its place. -/
theorem Node.mem_childrenFrom {s : Surroundings} {position : Position} {nodes : List Node} {child : Child} :
    child ∈ Node.childrenFrom s position 0 nodes ↔
      ∃ (i : Nat) (node : Node), nodes[i]? = some node ∧ child = node.child s (position ++ [i]) := by
  rw [List.mem_iff_getElem?]
  simp only [Node.getElem?_childrenFrom, Option.map_eq_some_iff, Nat.zero_add]
  constructor
  · rintro ⟨i, node, hi, rfl⟩
    exact ⟨i, node, hi, rfl⟩
  · rintro ⟨i, node, hi, rfl⟩
    exact ⟨i, node, hi, rfl⟩

theorem Node.length_childrenFrom (s : Surroundings) (position : Position) (number : Nat) (nodes : List Node) :
    (Node.childrenFrom s position number nodes).length = nodes.length := by
  induction nodes generalizing number with
  | nil => rfl
  | cons node nodes ih => rw [Node.childrenFrom, List.length_cons, List.length_cons, ih]

/-- A scheduler has children exactly if it has nodes. -/
theorem Node.isEmpty_childrenFrom (s : Surroundings) (position : Position) (number : Nat) (nodes : List Node) :
    (Node.childrenFrom s position number nodes).isEmpty = nodes.isEmpty := by
  cases nodes <;> rfl

/-- Lists of one length have entries in the same places. -/
theorem exists_getElem?_of_length_eq {α β : Type} {l : List α} {m : List β} (hlen : l.length = m.length) {i : Nat} {a : α}
    (ha : l[i]? = some a) : ∃ b, m[i]? = some b := by
  obtain ⟨hi, -⟩ := List.getElem?_eq_some_iff.mp ha
  exact ⟨_, List.getElem?_eq_getElem (hlen ▸ hi)⟩

/-- The child in a place is the node in that place, which is that of the id listed there. -/
theorem Node.of_getElem?_childrenFrom {s : Surroundings} {position : Position} {ids : List String} {nodes : List Node}
    (hlen : nodes.length = ids.length) {i : Nat} {child : Child} (h : (Node.childrenFrom s position 0 nodes)[i]? = some child) :
    ∃ c node, ids[i]? = some c ∧ nodes[i]? = some node ∧ child = node.child s (position ++ [i]) := by
  rw [Node.getElem?_childrenFrom, Nat.zero_add] at h
  obtain ⟨node, hnode, rfl⟩ := Option.map_eq_some_iff.mp h
  obtain ⟨c, hc⟩ := exists_getElem?_of_length_eq hlen hnode
  exact ⟨c, node, hc, hnode, rfl⟩

/-! ## What comes of asking a scheduler -/

section Asking

variable {id : String} {limits : FanoutLimits} {hosts : List LocalHost} {nodes : List Node} {s : Surroundings}
  {position : Position} {r : PlacementRequest} {now : Int}

/-- A scheduler answers a request that is expired with a timeout. -/
theorem Node.place_of_expired (hexpired : r.expired now = true) :
    ((Node.scheduler id limits hosts nodes).child s position).place r now = .immediate now (.decided .timedOut) := by
  simp [Node.child, decideAtScheduler, hexpired, Completion.immediate]

/-- A scheduler without children decides at once by ranking its hosts. -/
theorem Node.place_ranking (hexpired : r.expired now = false) :
    ((Node.scheduler id limits hosts []).child s position).place r now =
      .immediate now (.decided (decideLocally id (s.fleet position) hosts r)) := by
  simp [Node.child, Node.childrenFrom, decideAtScheduler, hexpired, Completion.immediate]

/-- A scheduler with children decides by asking them. -/
theorem Node.place_asking (hexpired : r.expired now = false) (hnodes : nodes ≠ []) :
    ((Node.scheduler id limits hosts nodes).child s position).place r now =
      let decided := decideByAsking id limits (s.draw position) (Node.childrenFrom s position 0 nodes) r now
      { time := some decided.time, answer := .decided decided.decision } := by
  simp [Node.child, decideAtScheduler, hexpired, Node.isEmpty_childrenFrom, hnodes]

/-- A placement of a scheduler is that of its ranking or, if it has children, of asking them. -/
theorem Node.placed_of_place {resp : PlacementResponse}
    (h : (((Node.scheduler id limits hosts nodes).child s position).place r now).answer.response? = some resp) :
    (nodes = [] ∧ decideLocally id (s.fleet position) hosts r = .placed resp) ∨
      (decideByAsking id limits (s.draw position) (Node.childrenFrom s position 0 nodes) r now).decision = .placed resp := by
  cases hexpired : r.expired now with
  | true =>
    rw [Node.place_of_expired hexpired] at h
    cases h
  | false =>
    by_cases hnodes : nodes = []
    · subst hnodes
      rw [Node.place_ranking hexpired] at h
      exact Or.inl ⟨rfl, PlacementDecision.response?_eq_some_iff.mp h⟩
    · rw [Node.place_asking hexpired hnodes] at h
      exact Or.inr (PlacementDecision.response?_eq_some_iff.mp h)

end Asking

/-- Only eligible children are asked, whatever the draw. -/
theorem FanoutLimits.mem_of_mem_select {limits : FanoutLimits} {draw : Draw} {constraints : List Constraint}
    {children : List Child} {child : Child} (h : child ∈ limits.select draw constraints children) :
    child ∈ children ∧ child.eligible constraints = true := by
  have heligible : child ∈ children.filter (·.eligible constraints) := by
    simp only [select] at h
    split at h
    · exact h
    · obtain ⟨i, -, hi⟩ := List.mem_filterMap.mp h
      exact List.mem_of_getElem? hi
  exact List.mem_filter.mp heligible

/-- All eligible children are asked in order if they fit the limit. -/
theorem FanoutLimits.select_of_fits {limits : FanoutLimits} {draw : Draw} {constraints : List Constraint} {children : List Child}
    (h : (children.filter (·.eligible constraints)).length ≤ limits.limit) :
    limits.select draw constraints children = children.filter (·.eligible constraints) := if_pos h

/-- They fit if all children do. -/
theorem FanoutLimits.select_of_le {limits : FanoutLimits} {draw : Draw} {constraints : List Constraint}
    {children : List Child} (h : children.length ≤ limits.limit) :
    limits.select draw constraints children = children.filter (·.eligible constraints) :=
  select_of_fits (Nat.le_trans (List.length_filter_le _ children) h)

/-- A placement that arrives is that of the child. -/
theorem Child.response?_of_arrival {c : Child} {r : PlacementRequest} {now : Int} {resp : PlacementResponse}
    (h : (c.arrival r now).answer.response? = some resp) : (c.place r now).answer.response? = some resp := by
  simp only [arrival] at h
  cases ht : (c.place r now).time with
  | none => simp [ht, ChildAnswer.response?] at h
  | some time =>
    simp only [ht] at h
    split at h
    · exact h
    · simp [ChildAnswer.response?] at h

/-- A request that is sent on asks for the same, with a deadline that is a hop earlier and still ahead. -/
theorem PlacementRequest.forChild_eq_some_iff {r r' : PlacementRequest} {hopLatency : Nat} {now : Int} :
    r.forChild hopLatency now = some r' ↔
      now < r.deadline - Int.ofNat hopLatency ∧ r' = { r with deadline := r.deadline - Int.ofNat hopLatency } := by
  unfold forChild
  by_cases h : r.deadline - Int.ofNat hopLatency ≤ now
  · simp only [h, if_true, reduceCtorEq, false_iff]
    omega
  · simp only [h, if_false, Option.some.injEq]
    constructor
    · rintro rfl
      exact ⟨by omega, rfl⟩
    · rintro ⟨-, rfl⟩
      rfl

/-- A request is not sent on if the deadline less a hop has been reached. -/
theorem PlacementRequest.forChild_eq_none_iff {r : PlacementRequest} {hopLatency : Nat} {now : Int} :
    r.forChild hopLatency now = none ↔ r.deadline - Int.ofNat hopLatency ≤ now := by
  simp [forChild]

/-- A request that is sent on is not due yet. -/
theorem PlacementRequest.due_of_forChild {r r' : PlacementRequest} {hopLatency : Nat} {now : Int}
    (h : r.forChild hopLatency now = some r') : now < r'.deadline := by
  obtain ⟨hlt, rfl⟩ := forChild_eq_some_iff.mp h
  exact hlt

/-- A placement by asking is that of an eligible child, seen one level up. -/
theorem placed_of_decideByAsking {id : String} {limits : FanoutLimits} {draw : Draw} {children : List Child}
    {r : PlacementRequest} {now : Int} {resp : PlacementResponse}
    (h : (decideByAsking id limits draw children r now).decision = .placed resp) :
    ∃ child ∈ children, ∃ r' resp', child.eligible r.constraints = true ∧ r.forChild limits.hopLatency now = some r' ∧
      (child.place r' now).answer.response? = some resp' ∧ resp = resp'.via id := by
  unfold decideByAsking FanoutLimits.dispatch at h
  cases hr : r.forChild limits.hopLatency now with
  | none => simp [hr] at h
  | some r' =>
    cases hsel : limits.select draw r.constraints children with
    | nil => simp [hr, hsel] at h
    | cons first rest =>
      simp only [hr, hsel, decideAmong] at h
      split at h
      · rename_i resp' hwinner
        obtain ⟨⟨a, ha, -, hresp⟩, -⟩ := Dispatch.winner_spec hwinner
        obtain ⟨child, hchild, rfl⟩ := List.mem_map.mp ha
        obtain ⟨hin, heligible⟩ := FanoutLimits.mem_of_mem_select (hsel ▸ hchild)
        exact ⟨child, hin, r', resp', heligible, rfl, Child.response?_of_arrival hresp, (PlacementDecision.placed.inj h).symm⟩
      · cases h

/-- A placement on one of the scheduler's own hosts is on one that meets the constraints and has room. -/
theorem placed_of_decideLocally {id : String} {f : Fleet} {hosts : List LocalHost} {r : PlacementRequest}
    {resp : PlacementResponse} (h : decideLocally id f hosts r = .placed resp) :
    ∃ host ∈ hosts, ∃ snapshot, host.snapshot? f = some snapshot ∧ satisfiesAll snapshot.satisfies r.constraints = true ∧
      scoreSnapshot snapshot r.demand f.ratios f.transfer = some resp.score ∧ resp.path = [id, resp.candidateId] := by
  unfold decideLocally at h
  split at h
  · rename_i best hbest
    obtain rfl := PlacementDecision.placed.inj h
    obtain ⟨⟨snapshot, hsnapshot, hsat, hscore⟩, -⟩ := best_of_head?_rankSnapshots hbest
    obtain ⟨host, hhost, hsnap⟩ := List.mem_filterMap.mp hsnapshot
    exact ⟨host, hhost, snapshot, hsnap, hsat, hscore, rfl⟩
  · cases h

/-- A scheduler places a request that one of its own hosts has a score for, -/
theorem exists_placed_of_decideLocally {id : String} {f : Fleet} {hosts : List LocalHost} {r : PlacementRequest} {score : CandidateScore}
    (h : Scored (hosts.filterMap (·.snapshot? f)) r.demand r.constraints f.ratios f.transfer score) :
    ∃ resp, decideLocally id f hosts r = .placed resp := by
  unfold decideLocally
  split
  · exact ⟨_, rfl⟩
  · rename_i hnone
    exact absurd h (head?_rankSnapshots_eq_none_iff.mp hnone score)

/-- and no other. -/
theorem unschedulable_of_decideLocally {id : String} {f : Fleet} {hosts : List LocalHost} {r : PlacementRequest}
    (h : ∀ score, ¬Scored (hosts.filterMap (·.snapshot? f)) r.demand r.constraints f.ratios f.transfer score) :
    decideLocally id f hosts r = .unschedulable := by
  rw [decideLocally, head?_rankSnapshots_eq_none_iff.mpr h]

/-- The placement of an agent has its score of its host. -/
theorem HostAgent.score_of_answer {a : HostAgent} {ratios : OvercommitRatios} {transfer : TransferRatio}
    {r : PlacementRequest} {now : Int} {resp : PlacementResponse}
    (h : (a.answer ratios transfer r now).response? = some resp) :
    a.score ratios transfer r = some resp.score ∧ resp.path = [a.id] := by
  unfold answer at h
  split at h
  · cases h
  · split at h
    · cases h
    · unfold decision at h
      cases hscore : a.score ratios transfer r with
      | none => simp [hscore, ChildAnswer.response?, PlacementDecision.response?] at h
      | some score =>
        simp only [hscore, ChildAnswer.response?, PlacementDecision.response?, Option.some.injEq] at h
        rw [← h]
        exact ⟨rfl, rfl⟩

/-- A closed agent refuses what is not expired. -/
theorem HostAgent.answer_of_closed {a : HostAgent} (hclosed : a.closed = true) (ratios : OvercommitRatios) (transfer : TransferRatio)
    {r : PlacementRequest} {now : Int} (hexpired : r.expired now = false) :
    a.answer ratios transfer r now = .failed (.unavailable a.id .shutDown) := by
  simp [answer, hexpired, hclosed]

/-- An open agent decides about it. -/
theorem HostAgent.answer_of_open {a : HostAgent} (hopen : a.closed = false) (ratios : OvercommitRatios) (transfer : TransferRatio)
    {r : PlacementRequest} {now : Int} (hexpired : r.expired now = false) :
    a.answer ratios transfer r now = .decided (a.decision ratios transfer r) := by
  simp [answer, hexpired, hopen]

/-- An agent gives its host the score of its snapshot, if that meets the constraints and has room. -/
theorem HostAgent.score_eq_some_iff {a : HostAgent} {ratios : OvercommitRatios} {transfer : TransferRatio}
    {r : PlacementRequest} {score : CandidateScore} :
    a.score ratios transfer r = some score ↔
      satisfiesAll a.snapshot.satisfies r.constraints = true ∧
        scoreSnapshot a.snapshot r.demand ratios transfer = some score := by
  unfold HostAgent.score
  by_cases h : satisfiesAll a.snapshot.satisfies r.constraints = true <;> simp [h]

end PlacementTree
