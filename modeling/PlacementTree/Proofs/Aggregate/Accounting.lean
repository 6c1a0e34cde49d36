import PlacementTree.Proofs.Aggregate.Selection
import PlacementTree.Proofs.Node.Deadline

/-!
# What a fan-in counts

However the answers of a fan-in come in, the wait for them yields an outcome (`Dispatch.Yields`), and `Dispatch.aggregate` is one that it
may yield (`Dispatch.yields_aggregate`). In every outcome each child is counted once, and there is a winner if anybody is counted as
having placed the workload (`Dispatch.Yields.counts_all`).

If a hop takes time, nobody is late: each child counts as what it answers or as failed, depending on whether its answer takes less time than
what is left after the hop (`Child.CountsAs`), and the wait ends with the last answer or cut-off. An answer that takes longer has no
influence at all. `FanoutLimits.fan_in_accounts` says all of it.
-/

namespace PlacementTree

/-! ## Outcomes of a wait -/

namespace Dispatch

/-- The outcome of a fan-in that took in the given answers, in this order, and missed some. -/
def outcome (d : Dispatch) (taken : List Arrival) (late : Nat) : Aggregate :=
  let answers := taken.map (·.answer)
  { winner := selectWinner answers
    dispatched := d.dispatched
    succeeded := answers.countP (·.isPlaced)
    declined := answers.countP (·.isDeclined)
    failed := answers.countP (·.isFailed)
    late }

/-- Some wait for a dispatch that started at `start` ends with this outcome at this time. -/
def Yields (d : Dispatch) (start : Int) (outcome : Aggregate) (time : Int) : Prop :=
  ∃ w late, Relation.ReflTransGen (FanIn.Turn d.deadline) (d.wait start) w ∧ w.Ends d.deadline time late ∧
    outcome = d.outcome w.collected late

end Dispatch

/-- A wait may take in answers that are in time one after the other, up to those that are not. -/
theorem FanIn.exists_run_of_sorted {deadline : Int} {taken rest : List Arrival} {w : FanIn}
    (hsplit : w.pending.Perm (taken ++ rest)) (hdue : ∀ a ∈ taken, a.time < deadline)
    (hsorted : taken.Pairwise fun a b => a.time ≤ b.time) (hrest : ∀ a ∈ rest, deadline ≤ a.time) :
    ∃ w', Relation.ReflTransGen (Turn deadline) w w' ∧ w'.pending.Perm rest ∧ w'.collected = w.collected ++ taken := by
  induction taken generalizing w with
  | nil => exact ⟨w, Relation.ReflTransGen.refl, hsplit, by rw [List.append_nil]⟩
  | cons a taken ih =>
    rw [List.pairwise_cons] at hsorted
    have ha : a.time < deadline := hdue a List.mem_cons_self
    have hfirst : ∀ b ∈ w.pending, a.time ≤ b.time := by
      intro b hb
      rcases List.mem_append.mp (hsplit.mem_iff.mp hb) with hb | hb
      · rcases List.mem_cons.mp hb with rfl | hb
        · exact Int.le_refl _
        · exact hsorted.1 b hb
      · have := hrest b hb
        omega
    have hturn := Turn.take (hsplit.mem_iff.mpr (List.mem_append_left _ List.mem_cons_self)) hfirst ha
    have hleft : (w.pending.erase a).Perm (taken ++ rest) := by
      have h := hsplit.erase a
      rwa [List.cons_append, List.erase_cons_head] at h
    have hlater : ∀ b ∈ taken, b.time < deadline := fun b hb => hdue b (List.mem_cons_of_mem _ hb)
    obtain ⟨w', hrun, hpending, hcollected⟩ :=
      ih (w := { pending := w.pending.erase a, collected := w.collected ++ [a], now := max w.now a.time }) hleft hlater hsorted.2
    exact ⟨w', hrun.head hturn, hpending, by rw [hcollected, List.append_assoc, List.singleton_append]⟩

namespace ChildAnswer

/-- An answer is a placement, a decision against one, or no decision. -/
theorem countP_add_countP_add_countP (answers : List ChildAnswer) :
    answers.countP (·.isPlaced) + answers.countP (·.isDeclined) + answers.countP (·.isFailed) = answers.length := by
  induction answers with
  | nil => rfl
  | cons answer answers ih =>
    have hone : (if answer.isPlaced = true then 1 else 0) + (if answer.isDeclined = true then 1 else 0) +
        (if answer.isFailed = true then 1 else 0) = 1 := by
      rcases answer with ⟨_ | _ | _⟩ | _ | _ <;> rfl
    simp only [List.countP_cons, List.length_cons]
    omega

theorem isPlaced_iff {answer : ChildAnswer} : answer.isPlaced = true ↔ ∃ r, answer = .decided (.placed r) := by
  rcases answer with ⟨_ | _ | _⟩ | _ | _ <;> simp [isPlaced]

/-- There is a winner exactly if something is placed. -/
theorem selectWinner_eq_none_iff_countP {answers : List ChildAnswer} :
    selectWinner answers = none ↔ answers.countP (·.isPlaced) = 0 := by
  rw [selectWinner_eq_none_iff, List.countP_eq_zero]
  simp only [isPlaced_iff]
  constructor
  · rintro h _ hin ⟨r, rfl⟩
    exact h r hin
  · intro h r hin
    exact h _ hin ⟨r, rfl⟩

end ChildAnswer

namespace Dispatch

variable {d : Dispatch} {start time : Int} {A : Aggregate}

/-- The aggregate of a dispatch is an outcome of the wait for it. -/
theorem yields_aggregate (d : Dispatch) (start : Int) : d.Yields start d.aggregate (d.finishedAt start) := by
  have hsplit : (d.wait start).pending.Perm (d.collected ++ d.arrivals.filter fun a => !d.inTime a) := by
    calc d.arrivals.Perm (d.arrivals.filter d.inTime ++ d.arrivals.filter fun a => !d.inTime a) :=
          (List.filter_append_perm d.inTime d.arrivals).symm
      _ |>.Perm (d.collected ++ d.arrivals.filter fun a => !d.inTime a) := (List.mergeSort_perm _ _).symm.append_right _
  have hdue : ∀ a ∈ d.collected, a.time < d.deadline := by
    intro a ha
    have hin := (mem_collected.mp ha).2
    rwa [inTime, decide_eq_true_eq] at hin
  have hsorted : d.collected.Pairwise fun a b => a.time ≤ b.time := by
    have h := @List.pairwise_mergeSort _ (fun a b : Arrival => decide (a.time ≤ b.time)) (by simp; omega) (by simp; omega)
      (d.arrivals.filter d.inTime)
    simpa [collected] using h
  have hrest : ∀ a ∈ d.arrivals.filter (fun a => !d.inTime a), d.deadline ≤ a.time := by
    intro a ha
    simpa [inTime] using (List.mem_filter.mp ha).2
  obtain ⟨w, hrun, hpending, hcollected⟩ := FanIn.exists_run_of_sorted hsplit hdue hsorted hrest
  obtain ⟨time, late, hend⟩ : ∃ time late, w.Ends d.deadline time late := by
    by_cases hp : w.pending = []
    · exact ⟨_, _, FanIn.Ends.nobodyOut hp⟩
    · exact ⟨_, _, FanIn.Ends.deadline hp fun a ha => hrest a (hpending.mem_iff.mp ha)⟩
  obtain ⟨rfl, rfl, -, -⟩ := wait_ends hrun hend
  refine ⟨w, _, hrun, hend, ?_⟩
  rw [hcollected]
  rfl

/-- Every child is counted once, and there is a winner if anybody is counted as having placed the workload. -/
theorem Yields.counts_all (h : d.Yields start A time) :
    A.succeeded + A.declined + A.failed + A.late = A.dispatched ∧ A.dispatched = d.arrivals.length ∧
      (A.winner = none ↔ A.succeeded = 0) := by
  obtain ⟨w, late, hrun, hend, rfl⟩ := h
  obtain ⟨-, hlate, hcollected, -⟩ := wait_ends hrun hend
  refine ⟨?_, rfl, ChildAnswer.selectWinner_eq_none_iff_countP⟩
  have htaken := ChildAnswer.countP_add_countP_add_countP (w.collected.map (·.answer))
  rw [List.length_map, hcollected.length_eq, collected, List.length_mergeSort, ← List.countP_eq_length_filter] at htaken
  have hall : d.arrivals.length = d.arrivals.countP d.inTime + d.arrivals.countP fun a => !d.inTime a := by
    simpa using List.length_eq_countP_add_countP (l := d.arrivals) (p := d.inTime)
  simp only [aggregate] at hlate
  simp only [outcome, dispatched]
  omega

/-- When nobody is late the outcome counts every answer. -/
theorem Yields.of_inTime (h : d.Yields start A time) (hall : ∀ a ∈ d.arrivals, d.inTime a = true) :
    A.late = 0 ∧ time = d.arrivals.foldl (fun latest a => max latest a.time) start ∧
      ∃ answers : List ChildAnswer, answers.Perm (d.arrivals.map (·.answer)) ∧ A.winner = selectWinner answers ∧
        A.succeeded = answers.countP (·.isPlaced) ∧ A.declined = answers.countP (·.isDeclined) ∧
        A.failed = answers.countP (·.isFailed) := by
  obtain ⟨w, late, hrun, hend, rfl⟩ := h
  obtain ⟨htime, hlate, hcollected, -⟩ := wait_ends hrun hend
  refine ⟨?_, ?_, w.collected.map (·.answer), ?_, rfl, rfl, rfl, rfl⟩
  · rw [outcome, hlate, aggregate, List.countP_eq_zero]
    intro a ha
    simp [hall a ha]
  · rw [htime, finishedAt, if_pos (List.all_eq_true.mpr hall)]
  · apply List.Perm.map
    calc w.collected.Perm d.collected := hcollected
      _ |>.Perm (d.arrivals.filter d.inTime) := List.mergeSort_perm _ _
      _ |>.Perm d.arrivals := by rw [List.filter_eq_self.mpr hall]

end Dispatch

/-! ## What a child counts as -/

namespace Child

/-- Whether the answer takes longer than the budget, or never comes. -/
def Exceeds (c : Child) (r : PlacementRequest) (now budget : Int) : Prop :=
  ∀ time, (c.place r now).time = some time → budget < time - now

/-- What a child that has a budget may count as: its own answer if that takes no longer, a failure if it does not take less. -/
inductive CountsAs (c : Child) (r : PlacementRequest) (now budget : Int) : ChildAnswer → Prop where
  | answered {time : Int} :
      (c.place r now).time = some time → time - now ≤ budget → CountsAs c r now budget (c.place r now).answer
  | cutOff :
      (∀ time, (c.place r now).time = some time → budget ≤ time - now) →
        CountsAs c r now budget (.failed (.childTimedOut c.id))

/-- How long the scheduler waits for a child that has a budget. -/
def waited (c : Child) (r : PlacementRequest) (now budget : Int) : Int :=
  match (c.place r now).time with
  | some time => min (time - now) budget
  | none => budget

variable {c c' : Child} {r : PlacementRequest} {now : Int}

/-- What reaches the scheduler of asking a child is what the child counts as, after the time that is waited for it. -/
theorem arrival_countsAs (c : Child) (r : PlacementRequest) (now : Int) :
    c.CountsAs r now (r.deadline - now) (c.arrival r now).answer ∧
      (c.arrival r now).time = now + c.waited r now (r.deadline - now) := by
  cases htime : (c.place r now).time with
  | none =>
    simp only [arrival, waited, htime]
    exact ⟨CountsAs.cutOff (by simp [htime]), by omega⟩
  | some time =>
    by_cases hdue : time ≤ r.deadline
    · simp only [arrival, waited, htime, hdue, if_true]
      exact ⟨CountsAs.answered htime (by omega), by omega⟩
    · simp only [arrival, waited, htime, hdue, if_false]
      refine ⟨CountsAs.cutOff ?_, by omega⟩
      intro _ h
      obtain rfl := Option.some.inj (htime.symm.trans h)
      omega

/-- Of a child that takes too long nothing but its name reaches the scheduler. -/
theorem Exceeds.arrival_eq (h : c.Exceeds r now (r.deadline - now)) :
    c.arrival r now = { childId := c.id, time := r.deadline, answer := .failed (.childTimedOut c.id) } := by
  cases htime : (c.place r now).time with
  | none => simp only [arrival, htime]
  | some time =>
    have hlate : ¬time ≤ r.deadline := by
      have := h time htime
      omega
    simp only [arrival, htime, hlate, if_false]

/-- The scheduler waits for the child that takes longest. -/
theorem foldl_arrival_time (children : List Child) (r : PlacementRequest) (now longest : Int) :
    (children.map (·.arrival r now)).foldl (fun latest a => max latest a.time) (now + longest) =
      now + (children.map (·.waited r now (r.deadline - now))).foldl max longest := by
  induction children generalizing longest with
  | nil => rfl
  | cons c children ih =>
    rw [List.map_cons, List.map_cons, List.foldl_cons, List.foldl_cons, (c.arrival_countsAs r now).2, ← ih]
    congr 1
    omega

end Child

/-- A fan-in accounts for every child. The wait takes at most one turn for each child and comes to its end. Whatever the order in which the
answers come in, the four counters add up to the number of children asked, and there is a winner if anybody is counted as having placed the
workload. If a hop takes time, nobody is late, and each child
counts as its own answer if that takes less than what is left after the hop and as failed if it takes more, which is all that is counted;
the winner is the best of the placements counted; and the wait is as long as the longest answer, each cut off at what is left. What children
answer that take too long makes no difference. The aggregate of the scheduler is one of the outcomes. -/
theorem FanoutLimits.fan_in_accounts {limits : FanoutLimits} {draw : Draw} {r : PlacementRequest} {now : Int} {children : List Child}
    {d : Dispatch} (hd : limits.dispatch draw r now children = .dispatched d) :
    let sent : PlacementRequest := { r with deadline := r.deadline - limits.hopLatency }
    let budget := sent.deadline - now
    let asked := limits.select draw r.constraints children
    d.Yields now d.aggregate (d.finishedAt now) ∧
      (∀ w, Relation.ReflTransGen (FanIn.Turn d.deadline) (d.wait now) w → w.collected.length ≤ asked.length ∧
        ∃ w' time late, Relation.ReflTransGen (FanIn.Turn d.deadline) w w' ∧ w'.Ends d.deadline time late) ∧
      (∀ A time, d.Yields now A time →
        A.succeeded + A.declined + A.failed + A.late = A.dispatched ∧ A.dispatched = asked.length ∧
          (A.winner = none ↔ A.succeeded = 0)) ∧
      (0 < limits.hopLatency → ∃ counted, List.Forall₂ (fun c answer => c.CountsAs sent now budget answer) asked counted ∧
        ∀ A time, d.Yields now A time →
          A.late = 0 ∧ A.succeeded = counted.countP (·.isPlaced) ∧ A.declined = counted.countP (·.isDeclined) ∧
            A.failed = counted.countP (·.isFailed) ∧
            (∀ best, A.winner = some best → .decided (.placed best) ∈ counted ∧
              ∀ other, .decided (.placed other) ∈ counted → best.score.rankCompare other.score ≠ .gt) ∧
            time = now + (asked.map (·.waited sent now budget)).foldl max 0) ∧
      ∀ g : Child → Child,
        (∀ c ∈ children, (g c).id = c.id ∧ (g c).satisfies = c.satisfies ∧
          ((g c).place sent now = c.place sent now ∨ c.Exceeds sent now budget ∧ (g c).Exceeds sent now budget)) →
          limits.dispatch draw r now (children.map g) = .dispatched d := by
  intro sent budget asked
  obtain ⟨_, hsent, hdeadline, harrivals⟩ := FanoutLimits.of_dispatched hd
  obtain ⟨hdue, rfl⟩ := PlacementRequest.forChild_eq_some_iff.mp hsent
  change d.arrivals = asked.map (·.arrival sent now) at harrivals
  have hasked : d.arrivals.length = asked.length := by rw [harrivals, List.length_map]
  refine ⟨d.yields_aggregate now, ?_, ?_, ?_, ?_⟩
  · intro w hrun
    rw [← hasked]
    exact Dispatch.wait_comes_to_end hrun
  · intro A time h
    obtain ⟨hsum, hdispatched, hwinner⟩ := h.counts_all
    exact ⟨hsum, hdispatched.trans hasked, hwinner⟩
  · intro hhop
    have hall : ∀ a ∈ d.arrivals, d.inTime a = true := by
      intro a ha
      rw [harrivals] at ha
      obtain ⟨c, -, rfl⟩ := List.mem_map.mp ha
      have htime : (c.arrival sent now).time ≤ r.deadline - limits.hopLatency := c.arrival_time_le sent now
      rw [Dispatch.inTime, decide_eq_true_eq, hdeadline]
      omega
    refine ⟨d.arrivals.map (·.answer), ?_, ?_⟩
    · rw [harrivals, List.map_map, List.forall₂_map_right_iff, List.forall₂_same]
      intro c _
      exact (c.arrival_countsAs sent now).1
    · intro A time h
      obtain ⟨hlate, htime, answers, hperm, hwinner, hsucceeded, hdeclined, hfailed⟩ := h.of_inTime hall
      refine ⟨hlate, by rw [hsucceeded, hperm.countP_eq], by rw [hdeclined, hperm.countP_eq], by rw [hfailed, hperm.countP_eq], ?_, ?_⟩
      · intro best hbest
        obtain ⟨hin, hleast⟩ := selectWinner_spec (hwinner ▸ hbest)
        refine ⟨hperm.mem_iff.mp hin, ?_⟩
        intro other hother
        simpa [CandidateScore.noWorse] using hleast other (hperm.mem_iff.mpr hother)
      · have hlongest := Child.foldl_arrival_time asked sent now 0
        rw [Int.add_zero, ← harrivals] at hlongest
        rw [htime, hlongest]
  · intro g hg
    rw [← hd]
    apply FanoutLimits.dispatch_congr
      (R := fun a b => a.satisfies = b.satisfies ∧ a.arrival sent now = b.arrival sent now) (fun _ _ h => h.1)
    · rw [List.forall₂_map_left_iff, List.forall₂_same]
      intro c hc
      obtain ⟨hid, hsat, hsame | ⟨hslow, hslow'⟩⟩ := hg c hc
      · exact ⟨hsat, by rw [Child.arrival, Child.arrival, hsame, hid]⟩
      · exact ⟨hsat, by rw [hslow.arrival_eq, hslow'.arrival_eq, hid]⟩
    · intro _ hsent' a b _ h
      obtain rfl := Option.some.inj (hsent.symm.trans hsent')
      exact h.2

/-- A child that places in time, one that declines, one whose task dies, and a better one that takes too long: one placement, one decline
and two failures after 190, with 10 of 200 taken off for the hop. -/
theorem fan_in_accounts_slow_best :
    let score (id : String) (combined : UInt64) : CandidateScore :=
      { candidateId := id, cpuScore := ⟨0⟩, memoryScore := ⟨0⟩, combined := ⟨combined⟩, freeMemoryMb := ⟨0⟩ }
    let child (id : String) (delay : Int) (answer : ChildAnswer) : Child :=
      { id, satisfies := fun _ => true, place := fun _ now => { time := some (now + delay), answer } }
    let fast : PlacementResponse := { score := score "fast" 1, path := ["fast"] }
    let slow : PlacementResponse := { score := score "slow" 2, path := ["slow"] }
    let children := [child "slow" 5000 (.decided (.placed slow)), child "fast" 20 (.decided (.placed fast)),
      child "full" 30 (.decided .unschedulable), child "dead" 40 .died]
    let limits : FanoutLimits := { limit := 8, hopLatency := 10 }
    let r := PlacementRequest.issue "w" { cpu := 1, memoryMb := 256 } [] 0 200
    ∃ d, limits.dispatch (fun _ _ => []) r 0 children = .dispatched d ∧ d.aggregate.winner = some fast ∧ d.aggregate.succeeded = 1 ∧
      d.aggregate.declined = 1 ∧ d.aggregate.failed = 2 ∧ d.aggregate.late = 0 ∧ d.finishedAt 0 = 190 := by
  intro score child fast slow children limits r
  let cutOff : Arrival := { childId := "slow", time := 190, answer := .failed (.childTimedOut "slow") }
  let answered : List Arrival :=
    [{ childId := "fast", time := 20, answer := .decided (.placed fast) },
      { childId := "full", time := 30, answer := .decided .unschedulable }, { childId := "dead", time := 40, answer := .died }]
  let d : Dispatch := { arrivals := cutOff :: answered, deadline := 200 }
  have hd : limits.dispatch (fun _ _ => []) r 0 children = .dispatched d := rfl
  have hcollected : d.collected = answered ++ [cutOff] := by
    simp [Dispatch.collected, Dispatch.inTime, List.mergeSort, d, answered, cutOff]
  obtain ⟨hyields, -, -, hcounts, -⟩ := FanoutLimits.fan_in_accounts hd
  obtain ⟨counted, -, hall⟩ := hcounts (by decide)
  obtain ⟨hlate, -, -, -, -, htime⟩ := hall _ _ hyields
  refine ⟨d, hd, ?_, ?_, ?_, ?_, hlate, htime⟩ <;> simp only [Dispatch.aggregate, hcollected] <;> rfl

end PlacementTree
