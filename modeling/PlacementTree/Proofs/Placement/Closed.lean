import Mathlib.Data.List.Rotate
import PlacementTree.Proofs.Node.Below
import PlacementTree.Proofs.Placement.FlatRanking
import PlacementTree.Proofs.SchedulerTree.Delivery

/-!
# Placements of a closed tree

Closing a tree closes its agents, and nothing opens them again: each refuses every request that is not expired
(`SchedulerTree.closed_agents`). A scheduler that ranks hosts reads the snapshots of their agents and asks none of them, so it goes on
placing. After a close only hosts that are listed under the `hosts` of a scheduler are placed (`Node.Mirrors.ranked_of_closed`), and a
tree places nothing then exactly if no reachable scheduler lists such hosts (`SchedulerTree.close_stops_asked_hosts`).

That a closed tree does place if one lists a host is shown for a request for nothing: its deadline leaves time for all hops, and the
draws lead to the scheduler (`Surroundings.Leads`), so on the way down every scheduler asks the next one (`Node.Mirrors.placed_of_leads`).
-/

namespace PlacementTree

/-! ## Draws that lead somewhere -/

/-- The draw that begins with a given position and goes on in order, around the end. -/
def Draw.from (i : Nat) : Draw := fun n k => ((List.range n).rotate i).take k

/-- A draw around the end is one of distinct positions. -/
theorem Draw.fair_from (i : Nat) : (Draw.from i).Fair := by
  constructor
  · intro n k hle
    simp [Draw.from, hle]
  · intro n k _
    exact (List.nodup_rotate.mpr List.nodup_range).sublist (List.take_sublist _ _)
  · intro n k _ j hj
    exact List.mem_range.mp (List.mem_rotate.mp (List.mem_of_mem_take hj))

/-- A draw has the position it begins with. -/
theorem Draw.mem_from {i n k : Nat} (hi : i < n) (hk : 0 < k) : i ∈ Draw.from i n k := by
  have hhead : ((List.range n).rotate i).head? = some i := by
    rw [List.head?_rotate (by simpa using hi)]
    simp [hi]
  obtain ⟨rest, hrest⟩ := List.head?_eq_some_iff.mp hhead
  obtain ⟨k, rfl⟩ := Nat.exists_eq_succ_of_ne_zero (Nat.pos_iff_ne_zero.mp hk)
  rw [Draw.from, hrest]
  exact List.mem_cons_self

/-- Every scheduler on a route draws the next number of it. -/
def Surroundings.Leads (s : Surroundings) (route : Position) : Prop :=
  ∀ before i after, route = before ++ i :: after → ∀ n k, i < n → 0 < k → i ∈ s.draw before n k

/-- The draws along a route. -/
def drawAlong (route : Position) (position : Position) : Draw := Draw.from (route.getD position.length 0)

theorem leads_drawAlong (f : Fleet) (route : Position) : (Surroundings.steady f (drawAlong route)).Leads route := by
  rintro before i after rfl n k hi hk
  have hnext : (before ++ i :: after).getD before.length 0 = i := by simp
  simp only [Surroundings.steady, drawAlong, hnext]
  exact Draw.mem_from hi hk

/-- A child that the draw has is among those that are asked if all children are eligible. -/
theorem FanoutLimits.mem_select {limits : FanoutLimits} {draw : Draw} {constraints : List Constraint} {children : List Child}
    (hall : ∀ child ∈ children, child.eligible constraints = true) {i : Nat} {child : Child} (hi : children[i]? = some child)
    (hdraw : i ∈ draw children.length limits.limit) : child ∈ limits.select draw constraints children := by
  have heligible : children.filter (·.eligible constraints) = children := List.filter_eq_self.mpr hall
  simp only [select, heligible]
  split
  · exact List.mem_of_getElem? hi
  · exact List.mem_filterMap.mpr ⟨i, hdraw, hi⟩

/-! ## Nodes whose agents are closed -/

/-- A way of two ids from a scheduler without children leads to a host that it ranks. -/
theorem Inventory.mem_hosts_of_descends {inv : Inventory} {id host : String} {entry : SchedulerEntry} {hops : Nat}
    (hs : inv.scheduler? id = some entry) (hc : entry.children = []) (h : inv.Descends id [id, host] hops host) :
    host ∈ entry.hosts := by
  rcases h.of_scheduler?_eq_some hs with ⟨hpath, -⟩ | ⟨c, hin, -⟩ | ⟨c, hin, path, hpath, hbelow⟩
  · cases hpath
  · rw [hc] at hin
    cases hin
  · obtain rfl := List.tail_eq_of_cons_eq hpath
    have hfirst := hbelow.head?_eq
    rw [List.head?_cons, Option.some.injEq] at hfirst
    rwa [hfirst]

variable {inv : Inventory} {limits : FanoutLimits} {stands : String → AgentRef → Prop} {s : Surroundings} {id : String} {node : Node}

/-- A closed agent places nothing. -/
theorem HostAgent.response?_of_closed {a : HostAgent} (hclosed : a.closed = true) (ratios : OvercommitRatios)
    (transfer : TransferRatio) (r : PlacementRequest) (now : Int) : (a.answer ratios transfer r now).response? = none := by
  unfold answer
  rw [hclosed]
  split <;> rfl

/-- A node whose agents are all closed places only on hosts that their scheduler ranks itself. -/
theorem Node.Mirrors.ranked_of_closed (h : node.Mirrors inv limits stands id) (hr : inv.Reached id)
    (hstaff : ∀ p, (s.fleet p).Staffs stands) (hclosed : ∀ p ref a, (s.fleet p).agent? ref = some a → a.closed = true)
    {position : Position} {r : PlacementRequest} {now : Int} {resp : PlacementResponse}
    (hresp : ((node.child s position).place r now).answer.response? = some resp) :
    ∃ entry ∈ inv.schedulers, inv.Reached entry.id ∧ resp.candidateId ∈ entry.hosts ∧
      [entry.id, resp.candidateId] <:+ resp.path := by
  induction h generalizing position r now resp with
  | @host id ref _ hst =>
    obtain ⟨a, ha, -⟩ := hstaff position id ref hst
    rw [Node.child] at hresp
    simp only [ha] at hresp
    exact absurd hresp (by simp [HostAgent.asChild, Completion.immediate, HostAgent.response?_of_closed (hclosed position ref a ha)])
  | @ranks id entry refs hs _ hc hst =>
    rcases Node.placed_of_place hresp with ⟨-, hlocal⟩ | hasked
    · have hplaced : Placed inv stands s r position (.scheduler id limits (refs.map .agent) []) id resp :=
        placed_ranks hstaff hs hst hlocal
      obtain ⟨hops, hway⟩ := hplaced.way
      obtain ⟨-, -, -, -, -, -, hpath⟩ := placed_of_decideLocally hlocal
      obtain ⟨hin, rfl⟩ := Inventory.mem_of_scheduler? hs
      exact ⟨entry, hin, hr, Inventory.mem_hosts_of_descends hs hc (hpath ▸ hway), hpath ▸ List.suffix_refl _⟩
    · obtain ⟨child, hchild, -⟩ := placed_of_decideByAsking hasked
      cases hchild
  | @asks id entry nodes hs _ hlen _ ih =>
    rcases Node.placed_of_place hresp with ⟨-, hlocal⟩ | hasked
    · obtain ⟨host, hhost, -⟩ := placed_of_decideLocally hlocal
      cases hhost
    · obtain ⟨child, hchild, r', below, -, -, hbelow, rfl⟩ := placed_of_decideByAsking hasked
      obtain ⟨i, hi⟩ := List.getElem?_of_mem hchild
      obtain ⟨c, node, hc, hnode, rfl⟩ := Node.of_getElem?_childrenFrom hlen hi
      have hdown := hr.down (Inventory.mem_below_of_children hs (List.mem_of_getElem? hc))
      obtain ⟨lister, hin, hreached, hlisted, hsuffix⟩ := ih i c node hc hnode hdown hbelow
      exact ⟨lister, hin, hreached, hlisted, hsuffix.trans (List.suffix_cons id below.path)⟩

/-! ## Nodes along a route -/

/-- A scheduler that asks children who answer at once decides at once. -/
theorem decideByAsking_time_of_immediate {limits : FanoutLimits} {draw : Draw} {children : List Child} {r : PlacementRequest}
    {now : Int} (hdue : now < r.deadline)
    (hchildren : ∀ child ∈ children, ∀ r', ∃ answer, child.place r' now = .immediate now answer) :
    (decideByAsking id limits draw children r now).time = now := by
  unfold decideByAsking FanoutLimits.dispatch
  cases hr' : r.forChild limits.hopLatency now with
  | none => rfl
  | some r' =>
    cases hsel : limits.select draw r.constraints children with
    | nil => rfl
    | cons first rest =>
      apply Dispatch.finishedAt_of_immediate hdue
      intro a ha
      obtain ⟨child, hchild, rfl⟩ := List.mem_map.mp ha
      obtain ⟨hin, -⟩ := FanoutLimits.mem_of_mem_select (hsel ▸ hchild)
      obtain ⟨answer, hanswer⟩ := hchildren child hin r'
      rw [Child.arrival_of_immediate hanswer (Int.le_of_lt (PlacementRequest.due_of_forChild hr'))]

/-- The nodes of an inventory answer at once. -/
theorem Node.Mirrors.immediate (h : node.Mirrors inv limits stands id) (s : Surroundings) (position : Position)
    (r : PlacementRequest) (now : Int) : ∃ answer, (node.child s position).place r now = .immediate now answer := by
  induction h generalizing position r with
  | @host id ref _ _ =>
    rw [Node.child]
    cases (s.fleet position).agent? ref <;> exact ⟨_, rfl⟩
  | ranks =>
    cases hexpired : r.expired now with
    | true => exact ⟨_, Node.place_of_expired hexpired⟩
    | false => exact ⟨_, Node.place_ranking hexpired⟩
  | @asks id entry nodes _ _ hlen _ ih =>
    cases hexpired : r.expired now with
    | true => exact ⟨_, Node.place_of_expired hexpired⟩
    | false =>
      by_cases hnodes : nodes = []
      · subst hnodes
        exact ⟨_, Node.place_ranking hexpired⟩
      · have hdue : now < r.deadline := by simpa [PlacementRequest.expired] using hexpired
        have hchildren : ∀ child ∈ Node.childrenFrom s position 0 nodes, ∀ r', ∃ answer, child.place r' now = .immediate now answer := by
          intro child hchild r'
          obtain ⟨i, hi⟩ := List.getElem?_of_mem hchild
          obtain ⟨c, node, hc, hnode, rfl⟩ := Node.of_getElem?_childrenFrom hlen hi
          exact ih i c node hc hnode _ r'
        rw [Node.place_asking hexpired hnodes]
        simp only [decideByAsking_time_of_immediate hdue hchildren]
        exact ⟨_, rfl⟩

/-- A scheduler places the request if one of those it asks does at once. -/
theorem exists_placed_of_asked {limits : FanoutLimits} {draw : Draw} {children : List Child} {child : Child}
    {r r' : PlacementRequest} {now : Int} (hdue : now < r.deadline) (hasked : child ∈ limits.select draw r.constraints children)
    (hr' : r.forChild limits.hopLatency now = some r') {answer : ChildAnswer} (hanswer : child.place r' now = .immediate now answer)
    {below : PlacementResponse} (hbelow : answer.response? = some below) :
    ∃ resp, (decideByAsking id limits draw children r now).decision = .placed resp := by
  unfold decideByAsking FanoutLimits.dispatch
  cases hsel : limits.select draw r.constraints children with
  | nil =>
    rw [hsel] at hasked
    cases hasked
  | cons first rest =>
    simp only [hr']
    have harrival := Child.arrival_of_immediate hanswer (Int.le_of_lt (PlacementRequest.due_of_forChild hr'))
    unfold decideAmong
    split
    · exact ⟨_, rfl⟩
    · rename_i hwinner
      have hnone := Dispatch.winner_eq_none_iff.mp hwinner (child.arrival r' now) (List.mem_map_of_mem (hsel ▸ hasked))
        (by rw [harrival]; exact decide_eq_true hdue)
      rw [harrival, hbelow] at hnone
      cases hnone

/-- A request with time for a hop and more is sent on with time for the rest. -/
theorem PlacementRequest.exists_forChild {r : PlacementRequest} {now : Int} {hops hopLatency : Nat}
    (hdue : now + Int.ofNat ((hops + 1) * hopLatency) < r.deadline) :
    ∃ r', r.forChild hopLatency now = some r' ∧ r'.demand = r.demand ∧ r'.constraints = r.constraints ∧
      now + Int.ofNat (hops * hopLatency) < r'.deadline := by
  have hlater : now + Int.ofNat (hops * hopLatency) < r.deadline - Int.ofNat hopLatency := by
    rw [Nat.succ_mul] at hdue
    simp only [Int.ofNat_eq_natCast] at hdue ⊢
    omega
  refine ⟨_, forChild_eq_some_iff.mpr ⟨?_, rfl⟩, rfl, rfl, hlater⟩
  simp only [Int.ofNat_eq_natCast] at hlater ⊢
  omega

/-- If the draws lead to a scheduler that places the request and the deadline leaves time for the hops, all schedulers on the way place
it. -/
theorem Node.Mirrors.placed_of_leads (h : node.Mirrors inv limits stands id) (hlimit : 0 < limits.limit) {position p : Position}
    {id' : String} {limits' : FanoutLimits} {hosts : List LocalHost} (hat : node.at? p = some (.scheduler id' limits' hosts []))
    (hleads : s.Leads (position ++ p)) {r : PlacementRequest} {now : Int} (hfree : r.constraints = [])
    (hdue : now + Int.ofNat (p.length * limits.hopLatency) < r.deadline)
    (hlocal : ∀ r' : PlacementRequest, r'.demand = r.demand → r'.constraints = [] →
      ∃ resp, decideLocally id' (s.fleet (position ++ p)) hosts r' = .placed resp) :
    ∃ resp, ((node.child s position).place r now).answer.response? = some resp := by
  induction p generalizing node id position r with
  | nil =>
    rw [Node.at?_nil, Option.some.injEq] at hat
    rw [List.append_nil] at hlocal
    obtain ⟨resp, hresp⟩ := hlocal r rfl hfree
    refine ⟨resp, ?_⟩
    rw [hat, Node.place_ranking (PlacementRequest.expired_eq_false (by simpa using hdue)), hresp]
    rfl
  | cons number p ih =>
    obtain ⟨_, _, _, nodes, next, rfl, hnext, hbelow⟩ := Node.at?_cons_eq_some_iff.mp hat
    obtain ⟨r', hr', hdemand, hconstraints, htime⟩ := PlacementRequest.exists_forChild hdue
    have hnow : now < r.deadline := by
      simp only [Int.ofNat_eq_natCast] at hdue
      omega
    cases h with
    | ranks => cases hnext
    | @asks _ entry _ _ _ hlen hm =>
      obtain ⟨c, hc⟩ := exists_getElem?_of_length_eq hlen hnext
      have hmnext := hm number c next hc hnext
      have hroute : (position ++ [number]) ++ p = position ++ number :: p := by rw [List.append_assoc, List.singleton_append]
      obtain ⟨answer, hanswer⟩ := hmnext.immediate s (position ++ [number]) r' now
      obtain ⟨below, hplaced⟩ := ih hmnext hbelow (hroute ▸ hleads) (hconstraints.trans hfree) htime
        (hroute.symm ▸ hdemand.symm ▸ hlocal)
      rw [hanswer] at hplaced
      have hchild : (Node.childrenFrom s position 0 nodes)[number]? = some (next.child s (position ++ [number])) := by
        rw [Node.getElem?_childrenFrom, hnext, Nat.zero_add]
        rfl
      have hasked : next.child s (position ++ [number]) ∈
          limits.select (s.draw position) r.constraints (Node.childrenFrom s position 0 nodes) := by
        apply FanoutLimits.mem_select _ hchild
        · exact hleads position number p rfl _ _ (List.getElem?_eq_some_iff.mp hchild).1 hlimit
        · intro child _
          rw [hfree]
          rfl
      obtain ⟨resp, hresp⟩ := exists_placed_of_asked hnow hasked hr' hanswer hplaced
      have hnodes : nodes ≠ [] := List.ne_nil_of_mem (List.mem_of_getElem? hnext)
      exact ⟨resp, by
        rw [Node.place_asking (PlacementRequest.expired_eq_false hnow) hnodes]
        exact PlacementDecision.response?_eq_some_iff.mpr hresp⟩

/-! ## What is left of a closed tree -/

/-- A node has the scheduler of every way below it that ends at one which lists hosts, and for each host the agent that stands for it. -/
theorem Node.Mirrors.exists_at? (h : node.Mirrors inv limits stands id) (ht : inv.IsTree) {path : List String} {hops : Nat}
    {entry : SchedulerEntry} (hd : inv.Descends id path hops entry.id) (hs : inv.scheduler? entry.id = some entry)
    (hhosts : entry.hosts ≠ []) :
    ∃ p refs, node.at? p = some (.scheduler entry.id limits (refs.map .agent) []) ∧ List.Forall₂ stands entry.hosts refs := by
  generalize hend : entry.id = last at hd hs
  induction hd generalizing node with
  | here id =>
    cases h with
    | host hnone => exact absurd (hnone.symm.trans hs) (by simp)
    | ranks hs' _ _ hst =>
      obtain rfl := Option.some.inj (hs.symm.trans hs')
      exact ⟨[], _, Node.at?_nil _, hst⟩
    | asks hs' hh =>
      obtain rfl := Option.some.inj (hs.symm.trans hs')
      exact absurd hh hhosts
  | @child _ c _ _ _ _ hs' hc _ ih =>
    cases h with
    | host hnone => exact absurd (hnone.symm.trans hs') (by simp)
    | ranks hs'' _ hnone _ =>
      obtain rfl := Option.some.inj (hs'.symm.trans hs'')
      rw [hnone] at hc
      cases hc
    | @asks _ _ nodes hs'' _ hlen hm =>
      obtain rfl := Option.some.inj (hs'.symm.trans hs'')
      obtain ⟨i, hi⟩ := List.getElem?_of_mem hc
      obtain ⟨next, hnext⟩ := exists_getElem?_of_length_eq hlen.symm hi
      obtain ⟨p, refs, hat, hst⟩ := ih (hm i c next hi hnext) hend hs
      exact ⟨i :: p, refs, Node.at?_cons_eq_some_iff.mpr ⟨_, _, _, _, next, rfl, hnext, hat⟩, hst⟩
  | host hs' hh hd =>
    -- Below a host there is no scheduler.
    obtain ⟨-, -, rfl⟩ := hd.of_scheduler?_eq_none (Node.Mirrors.scheduler?_of_ranked ht hs' hh)
    exact absurd ((Node.Mirrors.scheduler?_of_ranked ht hs' hh).symm.trans hs) (by simp)

/-- The report of a host that has nothing. -/
def ResourceSnapshot.bare (host : String) : ResourceSnapshot := { hostId := host, rawCpu := 0, rawMemoryMb := 0 }

/-- A demand for nothing. -/
def ResourceDemand.nothing : ResourceDemand := { cpu := 0, memoryMb := 0 }

/-- Without overcommit there is room for nothing on a host that has nothing. -/
theorem exists_score_bare (host : String) (transfer : TransferRatio) :
    ∃ score, scoreSnapshot (ResourceSnapshot.bare host) ResourceDemand.nothing OvercommitRatios.none transfer = some score := by
  have hroom : ¬(((ResourceSnapshot.bare host).cpuAmounts ResourceDemand.nothing OvercommitRatios.none).headroom < 0 ∨
      ((ResourceSnapshot.bare host).memoryAmounts ResourceDemand.nothing OvercommitRatios.none).headroom < 0) :=
    show ¬(((ResourceSnapshot.bare "").cpuAmounts ResourceDemand.nothing OvercommitRatios.none).headroom < 0 ∨
      ((ResourceSnapshot.bare "").memoryAmounts ResourceDemand.nothing OvercommitRatios.none).headroom < 0) by decide +kernel
  have hdisk : ¬(ResourceSnapshot.bare host).freeDiskGb < ResourceDemand.nothing.diskGb := show ¬(0 : UInt64) < 0 by decide
  rw [scoreSnapshot, if_neg hdisk, marks?, if_neg hroom]
  exact ⟨_, rfl⟩

namespace SchedulerTree

variable {c : AgentConfig} {listeners : List String} {t : SchedulerTree}

/-- Once a tree was closed all its agents are. -/
theorem closed_agents (hm : t.Mirrors inv c) {past : List TreeEvent} (hclose : .close ∈ past) :
    ∀ ref a, (t.after past).fleet.agent? ref = some a → a.closed = true := by
  intro ref a ha
  rw [hm.agent?_after, Option.map_eq_some_iff] at ha
  obtain ⟨b, -, rfl⟩ := ha
  have hany : past.any (TreeEvent.closesAgent b.id) = true := List.any_eq_true.mpr ⟨.close, hclose, rfl⟩
  rw [HostAgent.meetAll_eq, hany, Bool.or_true]

/-- Whoever may be found in a closed tree is closed. -/
theorem MayFind.closed (hm : t.Mirrors inv c) {past : List TreeEvent} (hclose : .close ∈ past) {f : Fleet}
    (h : (t.after past).MayFind f) : ∀ ref a, f.agent? ref = some a → a.closed = true := by
  intro ref a ha
  obtain ⟨events, heq⟩ := h.agent ref
  have hlater : (t.after past).after events = t.after (past ++ events) := (List.foldl_append ..).symm
  rw [heq, hlater] at ha
  exact closed_agents hm (List.mem_append_left events hclose) ref a ha

/-- What leaves a host with nothing, switches overcommit off and closes the tree. -/
def barring (host : String) : List TreeEvent := [.deliver (.bare host), .setCpu 1.0, .setMemory 1.0, .close]

/-- After this no overcommit is in force, -/
theorem ratios_barring (t : SchedulerTree) (host : String) : (t.after (barring host)).fleet.ratios = OvercommitRatios.none := by
  have hcpu : ∀ r : OvercommitRatios, r.setCpu 1.0 = .ok { r with cpu := 1.0 } := by
    intro r
    have hone : checkOvercommit .cpu 1.0 = .ok 1.0 := rfl
    rw [OvercommitRatios.setCpu, hone]
    rfl
  have hmemory : ∀ r : OvercommitRatios, r.setMemory 1.0 = .ok { r with memory := 1.0 } := by
    intro r
    have hone : checkOvercommit .memory 1.0 = .ok 1.0 := rfl
    rw [OvercommitRatios.setMemory, hone]
    rfl
  simp only [barring, after, List.foldl_cons, List.foldl_nil, step, hcpu, hmemory, setRatiosIfOk, setRatios, close, Fleet.close]
  rfl

/-- and the host has reported that it has nothing. -/
theorem snapshot_barring (hm : t.Mirrors inv c) {host : String} {ref : AgentRef} (href : t.ref? host = some ref) :
    LocalHost.snapshot? (t.after (barring host)).fleet (.agent ref) = some (.bare host) := by
  obtain ⟨a, ha, hid⟩ := Option.map_eq_some_iff.mp ((hm.agents host ref).mpr href)
  have hlast : TreeEvent.latest? (barring host) a.id = some (.bare host) := by
    have hfirst : (TreeEvent.deliver (.bare host)).deliveredFor? a.id = some (.bare host) := by
      simp [TreeEvent.deliveredFor?, TreeEvent.delivered?, Option.filter, ResourceSnapshot.bare, hid]
    rw [TreeEvent.latest?, barring, List.filterMap_cons, hfirst]
    rfl
  rw [LocalHost.snapshot?, hm.agent?_after, ha, Option.map_some, Option.map_some, HostAgent.meetAll_eq, hlast]
  rfl

/-- A tree with a reachable scheduler that lists a host goes on placing after a close. -/
theorem exists_placed_after_close (hbuilt : ofInventory inv c listeners = .ok t) {entry : SchedulerEntry}
    (hin : entry ∈ inv.schedulers) (hr : inv.Reached entry.id) (hhosts : entry.hosts ≠ []) :
    ∃ past draw r resp, .close ∈ past ∧ (∀ p, (draw p).Fair) ∧ ((t.after past).decide draw r 0).decision = .placed resp := by
  obtain ⟨ht, hm, -⟩ := built_of_ofInventory hbuilt
  obtain ⟨path, hops, hway⟩ := hr.exists_descends
  obtain ⟨p, refs, hat, hst⟩ := hm.nodes.exists_at? ht hway (Inventory.scheduler?_of_mem ht.nodup hin) hhosts
  obtain ⟨host, rest, hlist⟩ := List.exists_cons_of_ne_nil hhosts
  rw [hlist] at hst
  cases hst with
  | @cons _ ref _ refs href _ =>
  let used := t.after (barring host)
  let s := Surroundings.steady used.fleet (drawAlong p)
  let r : PlacementRequest :=
    { id := "", demand := .nothing, constraints := [], deadline := Int.ofNat (p.length * c.limits.hopLatency) + 1 }
  obtain ⟨score, hscore⟩ := exists_score_bare host used.fleet.transfer
  have hlocal : ∀ r' : PlacementRequest, r'.demand = r.demand → r'.constraints = [] →
      ∃ resp, decideLocally entry.id (s.fleet ([] ++ p)) ((ref :: refs).map .agent) r' = .placed resp := by
    intro r' hdemand hfree
    refine exists_placed_of_decideLocally (show Scored _ _ _ _ _ score from ⟨.bare host, ?_, by rw [hfree]; rfl, ?_⟩)
    · exact List.mem_filterMap.mpr ⟨.agent ref, List.mem_cons_self, snapshot_barring hm href⟩
    · rw [hdemand, ← hscore, show (s.fleet ([] ++ p)).ratios = OvercommitRatios.none from ratios_barring t host]
      rfl
  have hdue : 0 + Int.ofNat (p.length * c.limits.hopLatency) < r.deadline := by
    simp only [r]
    omega
  have hlimit : 0 < c.limits.limit := Nat.lt_of_lt_of_le Nat.one_pos (Nat.le_max_right _ _)
  have hleads : s.Leads ([] ++ p) := leads_drawAlong used.fleet p
  obtain ⟨resp, hresp⟩ := hm.nodes.placed_of_leads hlimit hat hleads rfl hdue hlocal
  refine ⟨barring host, drawAlong p, r, resp, by simp [barring], fun _ => Draw.fair_from _, ?_⟩
  obtain ⟨answer, hanswer⟩ := hm.nodes.immediate s [] r 0
  rw [hanswer] at hresp
  apply decide_of_immediate
  rw [(t.keeps_after (barring host)).root, ← ChildAnswer.response?_eq_some_iff.mp hresp]
  exact hanswer

/-- Once a tree was closed, whatever else happens to it, the agent of every host refuses the requests that are not expired, and what is
still placed stands on a host that a scheduler lists under its hosts, by way of that scheduler. So nothing is placed any more exactly if
no reachable scheduler lists hosts. -/
theorem close_stops_asked_hosts (hbuilt : ofInventory inv c listeners = .ok t) :
    (∀ past, .close ∈ past → ∀ host a, (t.after past).host? host = some a →
      ∀ ratios transfer (r : PlacementRequest) now, r.expired now = false →
        a.answer ratios transfer r now = .failed (.unavailable host .shutDown)) ∧
      (∀ past, .close ∈ past → ∀ s : Surroundings, (∀ p, (t.after past).MayFind (s.fleet p)) → ∀ r now resp,
        ((t.after past).decideIn s r now).decision = .placed resp →
          ∃ entry ∈ inv.schedulers, inv.Reached entry.id ∧ resp.candidateId ∈ entry.hosts ∧
            [entry.id, resp.candidateId] <:+ resp.path) ∧
      ((∀ past draw r now resp, .close ∈ past → (∀ p, (draw p).Fair) →
          ((t.after past).decide draw r now).decision ≠ .placed resp) ↔
        ∀ entry ∈ inv.schedulers, inv.Reached entry.id → entry.hosts = []) := by
  obtain ⟨-, hm, -⟩ := built_of_ofInventory hbuilt
  have hranked : ∀ past, .close ∈ past → ∀ s : Surroundings, (∀ p, (t.after past).MayFind (s.fleet p)) → ∀ r now resp,
      ((t.after past).decideIn s r now).decision = .placed resp →
        ∃ entry ∈ inv.schedulers, inv.Reached entry.id ∧ resp.candidateId ∈ entry.hosts ∧
          [entry.id, resp.candidateId] <:+ resp.path := by
    intro past hclose s hs r now resp h
    have hresp := response?_of_decideIn h
    rw [(t.keeps_after past).root] at hresp
    exact hm.nodes.ranked_of_closed Inventory.Reached.root (fun p => (hs p).staffs hbuilt) (fun p => (hs p).closed hm hclose) hresp
  refine ⟨?_, hranked, ?_, ?_⟩
  · intro past hclose host a ha ratios transfer r now hexpired
    obtain ⟨rfl, ref, -, hagent⟩ := (hm.after past).host?_eq_some_iff.mp ha
    exact HostAgent.answer_of_closed (closed_agents hm hclose ref a hagent) ratios transfer hexpired
  · intro hnever entry hin hr
    by_contra hhosts
    obtain ⟨past, draw, r, resp, hclose, hfair, hplaced⟩ := exists_placed_after_close hbuilt hin hr hhosts
    exact hnever past draw r 0 resp hclose hfair hplaced
  · intro hnone past draw r now resp hclose _ hplaced
    obtain ⟨entry, hin, hr, hlisted, -⟩ := hranked past hclose _ (fun _ => (t.after past).mayFind_self) r now resp hplaced
    rw [hnone entry hin hr] at hlisted
    cases hlisted

/-- A host that is asked refuses once the tree is closed, and one that is ranked by its scheduler is the last one left. -/
theorem close_stops_asked_hosts_two_levels :
    let inv : Inventory :=
      { root := "r", schedulers := [⟨"r", ["s", "g"], []⟩, ⟨"s", [], ["h"]⟩],
        hosts := [{ id := "g", cpuCount := 2, memoryMb := 512 }, { id := "h", cpuCount := 4, memoryMb := 1024 }] }
    ∃ t, ofInventory inv {} [] = .ok t ∧ (∃ a, (t.after [.close]).host? "g" = some a ∧
      ∀ r : PlacementRequest, r.expired 0 = false →
        a.answer OvercommitRatios.none { value := 0.5 } r 0 = .failed (.unavailable "g" .shutDown)) ∧
      ∃ past draw r now resp, .close ∈ past ∧ ((t.after past).decide draw r now).decision = .placed resp := by
  intro inv
  have hvalid : inv.validate = .ok () := by decide
  obtain ⟨t, ht, hm⟩ := @exists_ofInventory inv {} [] hvalid rfl (by decide)
  obtain ⟨hrefuse, -, hexact⟩ := close_stops_asked_hosts ht
  have hg : inv.Reached "g" := Inventory.Reached.down Inventory.Reached.root (by decide)
  have hs : inv.Reached "s" := Inventory.Reached.down Inventory.Reached.root (by decide)
  obtain ⟨a, ha⟩ := (hm.after [.close]).exists_host?_iff.mpr ⟨hg, by decide⟩
  refine ⟨t, ht, ⟨a, ha, fun r => hrefuse [.close] (by simp) "g" a ha _ _ r 0⟩, ?_⟩
  by_contra hnone
  have hhosts := hexact.mp fun past draw r now resp hclose _ hplaced => hnone ⟨past, draw, r, now, resp, hclose, hplaced⟩
  exact absurd (hhosts ⟨"s", [], ["h"]⟩ (by simp [inv]) hs) (by simp)

/-- A closed tree places a request on a host that its root ranks. -/
theorem closed_root_places_ranked_host :
    let entry : HostEntry := { id := "h", cpuCount := 4, memoryMb := 1024 }
    let inv : Inventory := { root := "r", schedulers := [⟨"r", [], ["h"]⟩], hosts := [entry] }
    let r := PlacementRequest.issue "w" { cpu := 1, memoryMb := 256 } [] 0 1000
    ∃ t resp, ofInventory inv {} [] = .ok t ∧ ((t.after [.close]).decide (fun _ _ _ => []) r 0).decision = .placed resp := by
  intro entry inv r
  obtain ⟨score, hscore⟩ : ∃ score, scoreSnapshot entry.snapshot r.demand OvercommitRatios.none { value := 0.5 } = some score :=
    Option.isSome_iff_exists.mp (by decide +kernel)
  obtain ⟨t, f, ht, hdecides, hsnapshots, hratios, htransfer⟩ : ∃ t f, ofInventory inv {} [] = .ok t ∧
      ((t.after [.close]).decide (fun _ _ _ => []) r 0).decision = decideLocally "r" f [.agent ⟨0⟩] r ∧
      [LocalHost.agent ⟨0⟩].filterMap (·.snapshot? f) = [entry.snapshot] ∧ f.ratios = OvercommitRatios.none ∧
      f.transfer = { value := 0.5 } := ⟨_, _, rfl, rfl, rfl, rfl, rfl⟩
  obtain ⟨resp, hresp⟩ : ∃ resp, decideLocally "r" f [.agent ⟨0⟩] r = .placed resp := by
    apply exists_placed_of_decideLocally
    rw [hsnapshots, hratios, htransfer]
    exact ⟨entry.snapshot, List.mem_singleton_self _, rfl, hscore⟩
  exact ⟨t, resp, ht, hdecides.trans hresp⟩

end SchedulerTree

end PlacementTree
