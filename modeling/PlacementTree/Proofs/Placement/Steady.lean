import PlacementTree.Proofs.Node.Pruning

/-!
# Fan-out when nothing changes

While nothing changes and nothing is delayed every node answers at the instant it is asked, and what it decides is the best of all
that can be reached below it in the time left (`Node.Mirrors.bestOf`), if every scheduler may ask all its children.

A fan-in over children that each decide on the best of what is allowed below them decides on the best of what is allowed below any
(`decideByAsking_bestOf`): children that are not asked have nothing to offer, and the deadline of a child is a hop earlier, which is
the hop that leads to it.
-/

namespace PlacementTree

/-- The decision places the best of what is allowed, and nothing if nothing is. -/
structure PlacementDecision.BestOf (allowed : PlacementResponse → Prop) (decision : PlacementDecision) : Prop where
  placed : ∀ resp, decision.response? = some resp →
    allowed resp ∧ ∀ other, allowed other → resp.score.noWorse other.score = true
  unplaced : decision.response? = none → ∀ resp, ¬allowed resp

/-- Being the best depends on what is allowed only. -/
theorem PlacementDecision.BestOf.congr {allowed allowed' : PlacementResponse → Prop} {decision : PlacementDecision}
    (h : decision.BestOf allowed) (hiff : ∀ resp, allowed' resp ↔ allowed resp) : decision.BestOf allowed' := by
  obtain rfl : allowed' = allowed := funext fun resp => propext (hiff resp)
  exact h

section Unique

variable {allowed : PlacementResponse → Prop} {decision : PlacementDecision} (h : decision.BestOf allowed)
include h

/-- A decision that is no timeout is without a host exactly if nothing is allowed. -/
theorem PlacementDecision.BestOf.unschedulable_iff (hd : decision ≠ .timedOut) :
    decision = .unschedulable ↔ ∀ resp, ¬allowed resp := by
  constructor
  · rintro rfl
    exact h.unplaced rfl
  · intro hnone
    cases decision with
    | placed resp => exact absurd (h.placed resp rfl).1 (hnone resp)
    | unschedulable => rfl
    | timedOut => exact absurd rfl hd

variable (hone : ∀ a b, allowed a → allowed b → a.candidateId = b.candidateId → a = b)
include hone

/-- Where each host has one response, the decision places exactly what is allowed and no worse than anything allowed. -/
theorem PlacementDecision.BestOf.placed_iff (resp : PlacementResponse) :
    decision = .placed resp ↔ allowed resp ∧ ∀ other, allowed other → resp.score.noWorse other.score = true := by
  constructor
  · rintro rfl
    exact h.placed resp rfl
  · rintro ⟨hallowed, hbest⟩
    have hplaced : ∀ best, decision.response? = some best → best = resp := by
      intro best hresp
      obtain ⟨hbestAllowed, hle⟩ := h.placed best hresp
      exact hone best resp hbestAllowed hallowed
        (CandidateScore.candidateId_eq_of_noWorse (hle resp hallowed) (hbest best hbestAllowed))
    cases decision with
    | placed best => rw [hplaced best rfl]
    | unschedulable => exact absurd hallowed (h.unplaced rfl resp)
    | timedOut => exact absurd hallowed (h.unplaced rfl resp)

/-- The score of the decision is the head of a ranking of the same scores. -/
theorem PlacementDecision.BestOf.score_eq_head? {snapshots : List ResourceSnapshot} {demand : ResourceDemand}
    {constraints : List Constraint} {ratios : OvercommitRatios} {transfer : TransferRatio}
    (hscored : ∀ score, Scored snapshots demand constraints ratios transfer score ↔ ∃ resp, allowed resp ∧ resp.score = score) :
    decision.response?.map (·.score) = (rankSnapshots snapshots demand constraints ratios transfer).head? := by
  cases hresp : decision.response? with
  | none =>
    rw [Option.map_none, eq_comm, head?_rankSnapshots_eq_none_iff]
    intro score hscore
    obtain ⟨resp, hallowed, -⟩ := (hscored score).mp hscore
    exact h.unplaced hresp resp hallowed
  | some best =>
    obtain ⟨hallowed, hle⟩ := h.placed best hresp
    have hbest : CandidateScore.Best (Scored snapshots demand constraints ratios transfer) best.score := by
      refine ⟨(hscored _).mpr ⟨best, hallowed, rfl⟩, ?_⟩
      intro score hscore
      obtain ⟨resp, hresp, rfl⟩ := (hscored score).mp hscore
      exact hle resp hresp
    cases hhead : (rankSnapshots snapshots demand constraints ratios transfer).head? with
    | none => exact absurd hbest.1 (head?_rankSnapshots_eq_none_iff.mp hhead _)
    | some first =>
      rw [Option.map_some, hbest.unique (best_of_head?_rankSnapshots hhead)]
      intro a b ha hb hid
      obtain ⟨x, hx, rfl⟩ := (hscored a).mp ha
      obtain ⟨y, hy, rfl⟩ := (hscored b).mp hb
      rw [hone x y hx hy hid]

end Unique

/-! ## One scheduler -/

/-- A scheduler that ranks its own hosts places the request on the best of them. -/
theorem decideLocally_bestOf (id : String) (f : Fleet) (hosts : List LocalHost) (r : PlacementRequest) :
    decideLocally id f hosts r ≠ .timedOut ∧
      (decideLocally id f hosts r).BestOf fun resp =>
        resp.path = [id, resp.candidateId] ∧
          Scored (hosts.filterMap (·.snapshot? f)) r.demand r.constraints f.ratios f.transfer resp.score := by
  unfold decideLocally
  cases hhead : (rankSnapshots (hosts.filterMap (·.snapshot? f)) r.demand r.constraints f.ratios f.transfer).head? with
  | none =>
    refine ⟨by simp, by simp [PlacementDecision.response?], ?_⟩
    rintro - resp ⟨-, hscored⟩
    exact head?_rankSnapshots_eq_none_iff.mp hhead resp.score hscored
  | some best =>
    obtain ⟨hscored, hbest⟩ := best_of_head?_rankSnapshots hhead
    refine ⟨by simp, ?_, by simp [PlacementDecision.response?]⟩
    intro resp hresp
    obtain rfl := Option.some.inj hresp
    exact ⟨⟨rfl, hscored⟩, fun other hother => hbest other.score hother.2⟩

/-- An answer that is there at once arrives at once. -/
theorem Child.arrival_of_immediate {c : Child} {r : PlacementRequest} {now : Int} {answer : ChildAnswer}
    (h : c.place r now = .immediate now answer) (hdue : now ≤ r.deadline) :
    c.arrival r now = { childId := c.id, time := now, answer } := by
  simp [arrival, h, Completion.immediate, hdue]

/-- A wait for arrivals of one instant before the deadline ends then. -/
theorem Dispatch.finishedAt_of_immediate {d : Dispatch} {now : Int} (hdue : now < d.deadline)
    (h : ∀ a ∈ d.arrivals, a.time = now) : d.finishedAt now = now := by
  have hin : d.arrivals.all d.inTime = true := by
    rw [List.all_eq_true]
    intro a ha
    rw [inTime, h a ha, decide_eq_true_eq]
    exact hdue
  have hmax : ∀ arrivals : List Arrival, (∀ a ∈ arrivals, a.time = now) →
      arrivals.foldl (fun latest a => max latest a.time) now = now := by
    intro arrivals ha
    induction arrivals with
    | nil => rfl
    | cons a rest ih =>
      rw [List.foldl_cons, ha a List.mem_cons_self, Int.max_self]
      exact ih fun b hb => ha b (List.mem_cons_of_mem _ hb)
  rw [finishedAt, if_pos hin, hmax d.arrivals h]

/-- A scheduler that may ask all its children waits for the eligible ones. With none there is nothing to wait for. -/
theorem decideByAsking_of_forChild {id : String} {limits : FanoutLimits} {draw : Draw} {children : List Child}
    {r r' : PlacementRequest} {now : Int} (hlen : children.length ≤ limits.limit)
    (hr' : r.forChild limits.hopLatency now = some r') :
    let d : Dispatch :=
      { arrivals := (children.filter (·.eligible r.constraints)).map (·.arrival r' now), deadline := r.deadline }
    decideByAsking id limits draw children r now = { decision := decideAmong id d.aggregate.winner, time := d.finishedAt now } := by
  unfold decideByAsking FanoutLimits.dispatch
  simp only [hr', FanoutLimits.select_of_le hlen]
  cases children.filter (·.eligible r.constraints) with
  | nil => simp [Dispatch.aggregate, Dispatch.collected, Dispatch.finishedAt, selectWinner, bestResponse, decideAmong]
  | cons first rest => rfl

/-- What a scheduler makes of a fan-in is the best of what is allowed, if all placements in time are allowed one level up and for
everything that is allowed there is one in time that is no worse. -/
theorem decideAmong_bestOf {id : String} {d : Dispatch} {allowed : PlacementResponse → Prop}
    (hplaced : ∀ a ∈ d.arrivals, ∀ resp, a.answer.response? = some resp → allowed (resp.via id))
    (hoffer : ∀ resp, allowed resp → ∃ a ∈ d.arrivals, d.inTime a = true ∧
      ∃ best, a.answer.response? = some best ∧ best.score.noWorse resp.score = true) :
    decideAmong id d.aggregate.winner ≠ .timedOut ∧ (decideAmong id d.aggregate.winner).BestOf allowed := by
  unfold decideAmong
  cases hwinner : d.aggregate.winner with
  | none =>
    refine ⟨by simp, by simp [PlacementDecision.response?], ?_⟩
    intro _ resp hallowed
    obtain ⟨a, ha, hin, best, hbest, -⟩ := hoffer resp hallowed
    rw [Dispatch.winner_eq_none_iff.mp hwinner a ha hin] at hbest
    cases hbest
  | some winner =>
    obtain ⟨⟨a, ha, -, hresp⟩, hbest⟩ := Dispatch.winner_spec hwinner
    refine ⟨by simp, ?_, by simp [PlacementDecision.response?]⟩
    intro resp heq
    obtain rfl := Option.some.inj heq
    refine ⟨hplaced a ha winner hresp, ?_⟩
    intro other hallowed
    obtain ⟨a', ha', hin, best, hoffered, hle⟩ := hoffer other hallowed
    exact CandidateScore.noWorse_trans (hbest a' ha' hin best hoffered) hle

/-- A scheduler whose children answer at once, each with the best of what is allowed below it, decides at once, on the best of what is
allowed below any of them, if it may ask them all and every child with something allowed is eligible. -/
theorem decideByAsking_bestOf (id : String) {limits : FanoutLimits} (draw : Draw) {children : List Child}
    {r r' : PlacementRequest} {now : Int} {below : Nat → PlacementResponse → Prop} (hlen : children.length ≤ limits.limit)
    (hdue : now < r.deadline) (hr' : r.forChild limits.hopLatency now = some r')
    (hanswer : ∀ (i : Nat) (child : Child), children[i]? = some child →
      ∃ d : PlacementDecision, child.place r' now = .immediate now (.decided d) ∧ d.BestOf (below i))
    (heligible : ∀ (i : Nat) (child : Child) (resp : PlacementResponse), children[i]? = some child → below i resp →
      child.eligible r.constraints = true) :
    ∃ d, decideByAsking id limits draw children r now = { decision := d, time := now } ∧ d ≠ .timedOut ∧
      d.BestOf fun resp => ∃ (i : Nat) (child : Child) (resp' : PlacementResponse), children[i]? = some child ∧
        below i resp' ∧ resp = resp'.via id := by
  have harrival : ∀ (i : Nat) (child : Child), children[i]? = some child →
      ∃ d : PlacementDecision, child.arrival r' now = { childId := child.id, time := now, answer := .decided d } ∧
        d.BestOf (below i) := by
    intro i child hi
    obtain ⟨d, hplace, hbest⟩ := hanswer i child hi
    exact ⟨d, Child.arrival_of_immediate hplace (Int.le_of_lt (PlacementRequest.due_of_forChild hr')), hbest⟩
  rw [decideByAsking_of_forChild hlen hr']
  set d : Dispatch :=
    { arrivals := (children.filter (·.eligible r.constraints)).map (·.arrival r' now), deadline := r.deadline } with hd
  have hasked : ∀ a ∈ d.arrivals, ∃ (i : Nat) (child : Child), children[i]? = some child ∧ a = child.arrival r' now := by
    intro a ha
    obtain ⟨child, hchild, rfl⟩ := List.mem_map.mp ha
    obtain ⟨i, hi⟩ := List.getElem?_of_mem (List.mem_filter.mp hchild).1
    exact ⟨i, child, hi, rfl⟩
  have htime : ∀ a ∈ d.arrivals, a.time = now := by
    intro a ha
    obtain ⟨i, child, hi, rfl⟩ := hasked a ha
    obtain ⟨decision, harr, -⟩ := harrival i child hi
    rw [harr]
  refine ⟨decideAmong id d.aggregate.winner, by rw [Dispatch.finishedAt_of_immediate hdue htime], ?_⟩
  apply decideAmong_bestOf
  · intro a ha resp hresp
    obtain ⟨i, child, hi, rfl⟩ := hasked a ha
    obtain ⟨decision, harr, hdec⟩ := harrival i child hi
    rw [harr] at hresp
    exact ⟨i, child, resp, hi, (hdec.placed resp hresp).1, rfl⟩
  · -- A child with something allowed was asked, and what it decided on is no worse.
    rintro resp ⟨i, child, resp', hi, hbelow, rfl⟩
    obtain ⟨decision, harr, hdec⟩ := harrival i child hi
    have hmem : child ∈ children.filter (·.eligible r.constraints) :=
      List.mem_filter.mpr ⟨List.mem_of_getElem? hi, heligible i child resp' hi hbelow⟩
    have ha : child.arrival r' now ∈ d.arrivals := List.mem_map_of_mem hmem
    refine ⟨_, ha, ?_, ?_⟩
    · rw [Dispatch.inTime, htime _ ha, decide_eq_true_eq]
      exact hdue
    · cases hresp : decision.response? with
      | none => exact absurd hbelow (hdec.unplaced hresp resp')
      | some best =>
        rw [harr]
        exact ⟨best, hresp, (hdec.placed best hresp).2 resp' hbelow⟩

end PlacementTree
