import Mathlib.Algebra.GroupWithZero.Nat
import PlacementTree.Proofs.Aggregate.FanIn
import PlacementTree.Proofs.Node.Receives

/-!
# Deadlines down the tree

Every scheduler decides by the deadline of the request it was given, whatever its children do: answer after any delay, fail, die or
never answer (`Node.DecidesInTime`). A busy host is such a child too, a peer that answers when it gets round to it. What is sent down
the tree is the same request with the hop latencies of the way taken off its deadline, and it arrives before that
(`Node.PassedDown`). Both together are `Node.decides_by_deadline`.
-/

namespace PlacementTree

/-! ## When a fan-in ends -/

/-- What comes of asking a child is there by the deadline it was given. -/
theorem Child.arrival_time_le (c : Child) (r : PlacementRequest) (now : Int) : (c.arrival r now).time ≤ r.deadline := by
  simp only [arrival]
  split
  · exact Int.le_refl _
  · split
    · assumption
    · exact Int.le_refl _

namespace Dispatch

/-- The latest of some answers lies between the start and any bound of the start and the answers. -/
theorem latest_bounds {arrivals : List Arrival} {start bound : Int} (hstart : start ≤ bound)
    (h : ∀ a ∈ arrivals, a.time ≤ bound) :
    start ≤ arrivals.foldl (fun latest a => max latest a.time) start ∧
      arrivals.foldl (fun latest a => max latest a.time) start ≤ bound := by
  induction arrivals generalizing start with
  | nil => exact ⟨Int.le_refl _, hstart⟩
  | cons a rest ih =>
    have ha : a.time ≤ bound := h a List.mem_cons_self
    have hnext : max start a.time ≤ bound := by omega
    obtain ⟨hlow, hhigh⟩ := ih hnext fun b hb => h b (List.mem_cons_of_mem _ hb)
    rw [List.foldl_cons]
    exact ⟨by omega, hhigh⟩

variable {d : Dispatch} {start : Int}

/-- A wait that starts by the deadline ends by the deadline. -/
theorem finishedAt_bounds (hstart : start ≤ d.deadline) : start ≤ d.finishedAt start ∧ d.finishedAt start ≤ d.deadline := by
  unfold finishedAt
  split
  · rename_i hall
    apply latest_bounds hstart
    intro a ha
    have hin := List.all_eq_true.mp hall a ha
    rw [inTime, decide_eq_true_eq] at hin
    exact Int.le_of_lt hin
  · exact ⟨hstart, Int.le_refl _⟩

/-- A wait for answers that are all there before the deadline ends with the last of them. -/
theorem finishedAt_le {bound : Int} (hstart : start ≤ bound) (hbound : bound < d.deadline)
    (h : ∀ a ∈ d.arrivals, a.time ≤ bound) : d.finishedAt start ≤ bound := by
  have hall : d.arrivals.all d.inTime = true := by
    rw [List.all_eq_true]
    intro a ha
    rw [inTime, decide_eq_true_eq]
    exact Int.lt_of_le_of_lt (h a ha) hbound
  rw [finishedAt, if_pos hall]
  exact (latest_bounds hstart h).2

end Dispatch

/-- A request that was passed on was shortened by a hop, and every child that was picked was asked with it. -/
theorem FanoutLimits.of_dispatched {limits : FanoutLimits} {draw : Draw} {r : PlacementRequest} {now : Int}
    {children : List Child} {d : Dispatch} (h : limits.dispatch draw r now children = .dispatched d) :
    ∃ sent, r.forChild limits.hopLatency now = some sent ∧ d.deadline = r.deadline ∧
      d.arrivals = (limits.select draw r.constraints children).map (·.arrival sent now) := by
  unfold dispatch at h
  cases hsent : r.forChild limits.hopLatency now with
  | none => simp [hsent] at h
  | some sent =>
    cases hselected : limits.select draw r.constraints children with
    | nil => simp [hsent, hselected] at h
    | cons first rest =>
      simp only [hsent, hselected, Fanout.dispatched.injEq] at h
      subst h
      exact ⟨sent, rfl, rfl, rfl⟩

section Scheduler

variable {id : String} {limits : FanoutLimits} {draw : Draw} {f : Fleet} {hosts : List LocalHost} {children : List Child}
  {r : PlacementRequest} {now : Int}

/-- Asking children takes until the deadline at most. -/
theorem decideByAsking_time (hdue : now ≤ r.deadline) :
    now ≤ (decideByAsking id limits draw children r now).time ∧
      (decideByAsking id limits draw children r now).time ≤ r.deadline := by
  unfold decideByAsking
  cases hd : limits.dispatch draw r now children with
  | noBudget => exact ⟨Int.le_refl _, hdue⟩
  | noEligibleChildren => exact ⟨Int.le_refl _, hdue⟩
  | dispatched d =>
    obtain ⟨sent, -, hdeadline, -⟩ := FanoutLimits.of_dispatched hd
    rw [← hdeadline] at hdue ⊢
    exact Dispatch.finishedAt_bounds hdue

/-- A scheduler decides at once about a request that is due, and about any other by its deadline. -/
theorem decideAtScheduler_time :
    let decided := decideAtScheduler id limits draw f hosts children r now
    now ≤ decided.time ∧ decided.time ≤ max now r.deadline ∧ (r.deadline ≤ now → decided.time = now) := by
  intro decided
  by_cases hexpired : r.expired now = true
  · have htime : decided.time = now := by simp [decided, decideAtScheduler, hexpired]
    rw [htime]
    exact ⟨Int.le_refl _, Int.le_max_left _ _, fun _ => rfl⟩
  · have hdue : now < r.deadline := by
      rw [PlacementRequest.expired, decide_eq_true_eq] at hexpired
      omega
    have hbounds : now ≤ decided.time ∧ decided.time ≤ r.deadline := by
      by_cases hempty : children.isEmpty = true
      · simp only [decided, decideAtScheduler, hexpired, hempty, if_true]
        exact ⟨Int.le_refl _, Int.le_of_lt hdue⟩
      · simp only [decided, decideAtScheduler, hexpired, hempty]
        exact decideByAsking_time (Int.le_of_lt hdue)
    exact ⟨hbounds.1, by omega, by omega⟩

/-- A scheduler that fans out decides when the wait for its children ends. -/
theorem decideAtScheduler_of_dispatched {d : Dispatch} (hd : limits.dispatch draw r now children = .dispatched d) :
    decideAtScheduler id limits draw f hosts children r now =
      { decision := decideAmong id d.aggregate.winner, time := d.finishedAt now } := by
  obtain ⟨sent, hsent, -, -⟩ := FanoutLimits.of_dispatched hd
  have hexpired : r.expired now = false := by
    have hlt := (PlacementRequest.forChild_eq_some_iff.mp hsent).1
    rw [PlacementRequest.expired, decide_eq_false_iff_not]
    have : (0 : Int) ≤ Int.ofNat limits.hopLatency := Int.natCast_nonneg _
    omega
  have hne : children.isEmpty = false := by
    cases children with
    | nil => simp [FanoutLimits.dispatch, hsent, FanoutLimits.select] at hd
    | cons => rfl
  simp [decideAtScheduler, decideByAsking, hexpired, hne, hd]

/-- With a hop that takes time the wait ends a hop before the deadline. -/
theorem Dispatch.finishedAt_le_hop {d : Dispatch} (hd : limits.dispatch draw r now children = .dispatched d)
    (hhop : 0 < limits.hopLatency) : d.finishedAt now ≤ r.deadline - limits.hopLatency := by
  obtain ⟨sent, hsent, hdeadline, harrivals⟩ := FanoutLimits.of_dispatched hd
  obtain ⟨hdue, rfl⟩ := PlacementRequest.forChild_eq_some_iff.mp hsent
  rw [Int.ofNat_eq_natCast] at hdue
  apply Dispatch.finishedAt_le
  · exact Int.le_of_lt hdue
  · rw [hdeadline]
    omega
  · intro a ha
    rw [harrivals] at ha
    obtain ⟨child, -, rfl⟩ := List.mem_map.mp ha
    exact Child.arrival_time_le child _ now

end Scheduler

/-! ## Every scheduler of a tree -/

namespace Node

/-- The hop latencies on the way to a position below, from the top. -/
def hopsTo : Node → Position → List Nat
  | .scheduler _ limits _ nodes, number :: position =>
    limits.hopLatency :: ((nodes[number]?).map fun node => node.hopsTo position).getD []
  | _, _ => []

/-- A request as the node at a position below receives it: the same but for the hops, and not due yet unless it never moved. -/
structure PassedDown (node : Node) (p : Position) (r r' : PlacementRequest) (now' : Int) : Prop where
  id : r'.id = r.id
  demand : r'.demand = r.demand
  constraints : r'.constraints = r.constraints
  hops : (node.hopsTo p).length = p.length
  deadline : r'.deadline = r.deadline - (node.hopsTo p).sum
  due : p ≠ [] → now' < r'.deadline

/-- What a scheduler at a position does about a request that arrives at `now` is done in time: never before, by the deadline, and at
once if that is reached. If it asks its children, it is done when the wait for them ends, whatever the order of their answers, and a
hop before the deadline unless a hop takes no time. -/
structure DecidesInTime (s : Surroundings) (position : Position) (limits : FanoutLimits) (nodes : List Node)
    (r : PlacementRequest) (now time : Int) : Prop where
  notBefore : now ≤ time
  byDeadline : time ≤ max now r.deadline
  atOnce : r.deadline ≤ now → time = now
  afterWait : ∀ d, limits.dispatch (s.draw position) r now (Node.childrenFrom s position 0 nodes) = .dispatched d →
    (∀ w t late, Relation.ReflTransGen (FanIn.Turn d.deadline) (d.wait now) w → w.Ends d.deadline t late → t = time) ∧
      (0 < limits.hopLatency → time ≤ r.deadline - limits.hopLatency)

variable {s : Surroundings} {position : Position} {node : Node} {r r' : PlacementRequest} {now now' : Int} {p : Position}

/-- What a node below receives was passed down to it. -/
theorem Receives.passedDown (h : Receives s position node r now p r' now') : node.PassedDown p r r' now' := by
  induction h with
  | asked position node r now =>
    refine ⟨rfl, rfl, rfl, ?_, ?_, fun h => absurd rfl h⟩
    · cases node <;> rfl
    · cases node <;> simp [hopsTo]
  | @passedOn position id limits hosts nodes r sent now i node p r' now' hsent hi _ hbelow ih =>
    obtain ⟨hdue, rfl⟩ := PlacementRequest.forChild_eq_some_iff.mp hsent
    have hhops : (Node.scheduler id limits hosts nodes).hopsTo (i :: p) = limits.hopLatency :: node.hopsTo p := by
      rw [hopsTo, hi]
      rfl
    refine ⟨ih.id, ih.demand, ih.constraints, ?_, ?_, ?_⟩
    · rw [hhops, List.length_cons, List.length_cons, ih.hops]
    · rw [hhops, List.sum_cons, ih.deadline]
      simp only [Int.ofNat_eq_natCast]
      omega
    · intro _
      cases hbelow with
      | asked => exact hdue
      | passedOn => exact ih.due (List.cons_ne_nil _ _)

/-- Every scheduler decides in time. -/
theorem exists_decided (s : Surroundings) (position : Position) (id : String) (limits : FanoutLimits)
    (hosts : List LocalHost) (nodes : List Node) (r : PlacementRequest) (now : Int) :
    ∃ time decision, ((Node.scheduler id limits hosts nodes).child s position).place r now =
        { time := some time, answer := .decided decision } ∧ DecidesInTime s position limits nodes r now time := by
  let decided := decideAtScheduler id limits (s.draw position) (s.fleet position) hosts (Node.childrenFrom s position 0 nodes) r now
  refine ⟨decided.time, decided.decision, rfl, ?_⟩
  obtain ⟨hnotBefore, hby, honce⟩ : now ≤ decided.time ∧ decided.time ≤ max now r.deadline ∧ (r.deadline ≤ now → decided.time = now) :=
    decideAtScheduler_time
  refine ⟨hnotBefore, hby, honce, ?_⟩
  intro d hd
  simp only [decided, decideAtScheduler_of_dispatched hd]
  refine ⟨?_, Dispatch.finishedAt_le_hop hd⟩
  intro w t late hrun hend
  exact (Dispatch.wait_ends hrun hend).1

/-- No decision outlives its deadline, and budgets shrink exactly. Wherever in a tree a request is received, it is the one that the top
was asked about with the hops of the way taken off its deadline, which is still ahead below the top; and a scheduler that
receives it decides in time. Nothing else is asked of anybody: peers that differ on other requests only make no difference. -/
theorem decides_by_deadline (s : Surroundings) (position : Position) (node : Node) (r : PlacementRequest) (now : Int) :
    (∀ p r' now', Receives s position node r now p r' now' →
      node.PassedDown p r r' now' ∧
        ∃ below, node.at? p = some below ∧ ∀ id limits hosts nodes, below = .scheduler id limits hosts nodes →
          ∃ time decision, (below.child s (position ++ p)).place r' now' =
              { time := some time, answer := .decided decision } ∧
            DecidesInTime s (position ++ p) limits nodes r' now' time) ∧
      ∀ g : Position → Child → Child, (∀ p child, (g p child).id = child.id ∧ (g p child).satisfies = child.satisfies) →
        (∀ p child r' now', node.at? p = some (.peer child) → Receives s position node r now p r' now' →
          (g p child).place r' now' = child.place r' now') →
        ((node.withPeers g).child s position).place r now = (node.child s position).place r now := by
  constructor
  · intro p r' now' h
    obtain ⟨below, hbelow⟩ := h.exists_at?
    refine ⟨h.passedDown, below, hbelow, ?_⟩
    rintro id limits hosts nodes rfl
    exact exists_decided s (position ++ p) id limits hosts nodes r' now'
  · intro g hsame hplace
    exact place_withPeers (fun p child => (hsame p child).1) (fun p child => (hsame p child).2) hplace

/-- A peer that never answers, below two schedulers with hops of 10 and 20: it is given until 70, and both decide then. -/
theorem decides_by_deadline_silent_peer :
    let silent : Child := { id := "p", satisfies := fun _ => true, place := fun _ _ => { time := none, answer := .died } }
    let pod := Node.scheduler "s" { limit := 1, hopLatency := 20 } [] [.peer silent]
    let top := Node.scheduler "r" { limit := 1, hopLatency := 10 } [] [pod]
    let s := Surroundings.steady { ratios := OvercommitRatios.none, transfer := { value := 0.5 }, agents := [] } fun _ _ _ => []
    let r := PlacementRequest.issue "w" { cpu := 1, memoryMb := 256 } [] 0 100
    Receives s [] top r 0 [0, 0] { r with deadline := 70 } 0 ∧ top.PassedDown [0, 0] r { r with deadline := 70 } 0 ∧
      ∃ decision, (top.child s []).place r 0 = { time := some 70, answer := .decided decision } := by
  intro silent pod top s r
  have hreceives : Receives s [] top r 0 [0, 0] { r with deadline := 70 } 0 :=
    Receives.passedOn (by rfl) (by rfl) List.mem_cons_self
      (Receives.passedOn (by rfl) (by rfl) List.mem_cons_self (Receives.asked _ _ _ _))
  have hpassed := ((decides_by_deadline s [] top r 0).1 [0, 0] _ 0 hreceives).1
  exact ⟨hreceives, hpassed, _, rfl⟩

end Node

end PlacementTree
