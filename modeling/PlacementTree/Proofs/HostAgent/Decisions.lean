import Mathlib.Data.List.Basic
import Mathlib.Data.List.Induction
import Mathlib.Data.List.Nodup
import PlacementTree.HostAgent.Service

/-!
# What an agent in service answers

Whatever happens to an agent, in any order: who waits has not reached its deadline, nobody waits while a slot is free, nobody waits or holds a
slot at a closed agent, and no more slots are held than there are (`HostService.Orderly`). From this follows what the next event makes the agent
answer and to whom (`HostService.Orderly.mem_given_iff`, the cases are those of `HostService.Gives`): what arrives too late and what waits too
long is timed out, who comes to or is still at an agent that is closed is turned away, and who has a slot is answered by what the agent knows in
the moment in which it is answered.

A visit is answered, holds a slot, waits, or was cancelled before, and only one of these (`HostService.perm_visits_run`). So an answer gives the
slot back. It holds a slot from the moment in which one became free for it until it is answered or cancelled (`HostService.mem_holding_run_iff`).
-/

namespace PlacementTree

namespace ServiceEvent

/-- The request that an event brings. -/
def request? : ServiceEvent → Option PlacementRequest
  | .arrive request => some request
  | _ => none

/-- The snapshot of a host that an event reports. -/
def reported? (hostId : String) : ServiceEvent → Option ResourceSnapshot
  | .update snapshot => if snapshot.hostId = hostId then some snapshot else none
  | _ => none

/-- The ratios that an event puts in force. -/
def ratios? : ServiceEvent → Option OvercommitRatios
  | .setRatios ratios => some ratios
  | _ => none

/-- How much time passes by an event. -/
def time : ServiceEvent → Int
  | .advance time => time
  | _ => 0

/-- Whether an event ends a visit that holds a slot: it goes on, is cancelled, or is turned away. -/
def ends (number : Nat) : ServiceEvent → Bool
  | .goOn number' => number' == number
  | .cancel number' => number' == number
  | .close => true
  | _ => false

/-- Whether an event closes the agent. -/
def closes : ServiceEvent → Bool
  | .close => true
  | _ => false

theorem closes_iff {e : ServiceEvent} : e.closes = true ↔ e = .close := by
  cases e <;> simp [closes]

end ServiceEvent

namespace HostAgent

variable {a : HostAgent} {ratios : OvercommitRatios} {transfer : TransferRatio} {r : PlacementRequest}

/-- A host that meets the constraints and has a score is the decision, with its own id as the path. -/
theorem decision_of_score {score : CandidateScore} (hmeets : satisfiesAll a.snapshot.satisfies r.constraints = true)
    (hscore : scoreSnapshot a.snapshot r.demand ratios transfer = some score) :
    a.decision ratios transfer r = .placed { score, path := [a.id] } := by
  rw [decision, HostAgent.score, if_pos hmeets, hscore]

/-- Any other host cannot take the workload. -/
theorem decision_of_no_score
    (h : satisfiesAll a.snapshot.satisfies r.constraints = true → scoreSnapshot a.snapshot r.demand ratios transfer = none) :
    a.decision ratios transfer r = .unschedulable := by
  rw [decision, HostAgent.score]
  by_cases hmeets : satisfiesAll a.snapshot.satisfies r.constraints = true
  · rw [if_pos hmeets, h hmeets]
  · rw [if_neg hmeets]

end HostAgent

namespace HostService

variable {s : HostService} {e : ServiceEvent}

/-! ## What an event does -/

/-- The answers that an agent gives by an event. -/
def given (s : HostService) : ServiceEvent → List Served
  | .arrive request =>
    if request.expired s.now then [timedOut ⟨s.arrived, request⟩ s.now]
    else if s.agent.closed then [s.turnedAway ⟨s.arrived, request⟩]
    else if s.held < s.agent.slots then [s.decided ⟨s.arrived, request⟩]
    else []
  | .goOn number => (s.holding.filter (·.number == number)).map s.decided
  | .close => (s.holding ++ s.waiting).map s.turnedAway
  | .advance time =>
    (s.waiting.filter (·.request.expired (s.now + Int.ofNat time))).map fun visit => timedOut visit visit.request.deadline
  | _ => []

/-- Who waits after an event, before free slots are passed on. -/
def line (s : HostService) : ServiceEvent → List Visit
  | .arrive request =>
    if request.expired s.now ∨ s.agent.closed = true ∨ s.held < s.agent.slots then s.waiting else s.waiting ++ [⟨s.arrived, request⟩]
  | .cancel number => s.waiting.filter (·.number != number)
  | .close => []
  | .advance time => s.waiting.filter fun visit => !visit.request.expired (s.now + Int.ofNat time)
  | _ => s.waiting

/-- Who keeps a slot by an event. -/
def kept (s : HostService) (e : ServiceEvent) : List Visit := s.holding.filter fun visit => !e.ends visit.number

/-- How many slots others hold after an event. -/
def others (s : HostService) : ServiceEvent → Nat
  | .occupy => if s.agent.closed then s.occupied else s.occupied + min s.free 1
  | .vacate => s.occupied - 1
  | _ => s.occupied

/-- How many slots are free after an event, before they are passed on. -/
def room (s : HostService) (e : ServiceEvent) : Nat := s.agent.slots - (s.others e + (s.kept e).length)

/-- The visits that get a slot by an event: the first in line, as many as there is room for. -/
def passed (s : HostService) (e : ServiceEvent) : List Visit := (s.line e).take (s.room e)

open ServiceEvent (reported? closes ratios? time request? ends) in
/-- What an event makes of an agent in service: the agent holds the last snapshot of its host and is closed once it was closed; visits are
answered, join and leave the line, give up their slots, and get those that are free. -/
theorem step_eq (s : HostService) (e : ServiceEvent) :
    s.step e =
      { agent :=
          { s.agent with
            snapshot := (e.reported? s.agent.id).getD s.agent.snapshot
            closed := s.agent.closed || e.closes }
        ratios := e.ratios?.getD s.ratios
        transfer := s.transfer
        now := s.now + e.time
        arrived := s.arrived + e.request?.toList.length
        occupied := s.others e
        holding := s.kept e ++ s.passed e
        waiting := (s.line e).drop (s.room e)
        served := s.served ++ s.given e } := by
  obtain ⟨⟨id, snapshot, slots, closed, listeners⟩, ratios, transfer, now, arrived, occupied, holding, waiting, served⟩ := s
  cases e with
  | arrive request =>
    by_cases hlate : request.expired now <;> cases closed <;> by_cases hfree : occupied + holding.length < slots <;>
      simp [step, react, passOn, arrive, given, line, kept, others, room, passed, free, held, decided, turnedAway, hlate, hfree, reported?,
        closes, ratios?, time, request?, ends]
  | update report =>
    by_cases hown : report.hostId = id <;>
      simp [step, react, passOn, HostAgent.updateSnapshot, given, line, kept, others, room, passed, free, held, hown, reported?, closes,
        ratios?, time, request?, ends]
  | goOn number | cancel number =>
    simp [step, react, passOn, goOn, given, line, kept, others, room, passed, free, held, bne, Bool.beq_comm, reported?, closes, ratios?, time,
      request?, ends]
  | occupy =>
    cases closed <;>
      simp [step, react, passOn, given, line, kept, others, room, passed, free, held, reported?, closes, ratios?, time, request?, ends]
  | vacate | setRatios | close | advance =>
    simp [step, react, passOn, close, HostAgent.close, advance, given, line, kept, others, room, passed, free, held, reported?, closes,
      ratios?, time, request?, ends]

/-! ## What it answers, and to whom -/

/-- An agent in service at which who waits has not reached its deadline, nobody waits or holds a slot once it is closed, no more slots are
held than there are, and nobody waits while one is free. -/
structure Orderly (s : HostService) : Prop where
  due : ∀ visit ∈ s.waiting, s.now < visit.request.deadline
  shut : s.agent.closed = true → s.holding = [] ∧ s.waiting = []
  bounded : s.held ≤ s.agent.slots
  busy : s.waiting ≠ [] → s.held = s.agent.slots

/-- What a request with a slot is answered: by the constraints and the score on the snapshot and the ratios that the agent has. -/
inductive Scores (s : HostService) (r : PlacementRequest) : ChildAnswer → Prop where
  | placed {score : CandidateScore} : satisfiesAll s.agent.snapshot.satisfies r.constraints = true →
      scoreSnapshot s.agent.snapshot r.demand s.ratios s.transfer = some score →
      Scores s r (.decided (.placed ⟨score, [s.agent.id]⟩))
  | unschedulable : (satisfiesAll s.agent.snapshot.satisfies r.constraints = true →
        scoreSnapshot s.agent.snapshot r.demand s.ratios s.transfer = none) →
      Scores s r (.decided .unschedulable)

theorem scores_iff {r : PlacementRequest} {answer : ChildAnswer} :
    Scores s r answer ↔ answer = .decided (s.agent.decision s.ratios s.transfer r) := by
  constructor
  · rintro (⟨hmeets, hscore⟩ | hnone)
    · rw [HostAgent.decision_of_score hmeets hscore]
    · rw [HostAgent.decision_of_no_score hnone]
  · rintro rfl
    by_cases hmeets : satisfiesAll s.agent.snapshot.satisfies r.constraints = true
    · cases hscore : scoreSnapshot s.agent.snapshot r.demand s.ratios s.transfer with
      | some score =>
        rw [HostAgent.decision_of_score hmeets hscore]
        exact .placed hmeets hscore
      | none =>
        rw [HostAgent.decision_of_no_score fun _ => hscore]
        exact .unschedulable fun _ => hscore
    · rw [HostAgent.decision_of_no_score fun hyet => absurd hyet hmeets]
      exact .unschedulable fun hyet => absurd hyet hmeets

/-- The answers that an agent may give by an event. -/
inductive Gives (s : HostService) : ServiceEvent → Served → Prop where
  | late {request : PlacementRequest} : request.deadline ≤ s.now →
      Gives s (.arrive request) ⟨⟨s.arrived, request⟩, s.now, .decided .timedOut⟩
  | refused {request : PlacementRequest} : s.now < request.deadline → s.agent.closed = true →
      Gives s (.arrive request) ⟨⟨s.arrived, request⟩, s.now, .failed (.unavailable s.agent.id .shutDown)⟩
  | atOnce {request : PlacementRequest} {answer : ChildAnswer} : s.now < request.deadline → s.agent.closed = false →
      s.held < s.agent.slots → Scores s request answer →
      Gives s (.arrive request) ⟨⟨s.arrived, request⟩, s.now, answer⟩
  | inTurn {visit : Visit} {answer : ChildAnswer} : visit ∈ s.holding → s.agent.closed = false → Scores s visit.request answer →
      Gives s (.goOn visit.number) ⟨visit, s.now, answer⟩
  | closed {visit : Visit} : visit ∈ s.holding ∨ visit ∈ s.waiting →
      Gives s .close ⟨visit, s.now, .failed (.unavailable s.agent.id .shutDown)⟩
  | overdue {visit : Visit} {time : Nat} : visit ∈ s.waiting → s.now < visit.request.deadline →
      visit.request.deadline ≤ s.now + time → Gives s (.advance time) ⟨visit, visit.request.deadline, .decided .timedOut⟩

/-- An agent gives an arriving request the answer that it may give it. -/
theorem mem_given_arrive_iff {request : PlacementRequest} {x : Served} :
    x ∈ s.given (.arrive request) ↔ Gives s (.arrive request) x := by
  by_cases hlate : request.deadline ≤ s.now
  · have hgiven : s.given (.arrive request) = [⟨⟨s.arrived, request⟩, s.now, .decided .timedOut⟩] := by
      simp [given, timedOut, PlacementRequest.expired, hlate]
    rw [hgiven, List.mem_singleton]
    refine ⟨fun hx => hx ▸ .late hlate, fun hx => ?_⟩
    cases hx with
    | late => rfl
    | refused hdue | atOnce hdue => omega
  by_cases hclosed : s.agent.closed = true
  · have hgiven : s.given (.arrive request) = [⟨⟨s.arrived, request⟩, s.now, .failed (.unavailable s.agent.id .shutDown)⟩] := by
      simp [given, turnedAway, PlacementRequest.expired, hlate, hclosed]
    rw [hgiven, List.mem_singleton]
    refine ⟨fun hx => hx ▸ .refused (by omega) hclosed, fun hx => ?_⟩
    cases hx with
    | late hyet => exact absurd hyet hlate
    | refused => rfl
    | atOnce _ hopen => simp [hclosed] at hopen
  by_cases hfree : s.held < s.agent.slots
  · have hgiven : s.given (.arrive request) = [s.decided ⟨s.arrived, request⟩] := by
      simp [given, PlacementRequest.expired, hlate, hclosed, hfree]
    rw [hgiven, List.mem_singleton]
    refine ⟨fun hx => hx ▸ .atOnce (by omega) (by simpa using hclosed) hfree (scores_iff.mpr rfl), fun hx => ?_⟩
    cases hx with
    | late hyet => exact absurd hyet hlate
    | refused _ hyet => exact absurd hyet hclosed
    | atOnce _ _ _ hscores => rw [scores_iff.mp hscores, decided]
  · have hgiven : s.given (.arrive request) = [] := by
      simp [given, PlacementRequest.expired, hlate, hclosed, hfree]
    rw [hgiven]
    refine ⟨nofun, fun hx => ?_⟩
    cases hx with
    | late hyet => exact absurd hyet hlate
    | refused _ hyet => exact absurd hyet hclosed
    | atOnce _ _ hyet => exact absurd hyet hfree

/-- An agent gives by an event all the answers that it may give, and no others. -/
theorem Orderly.mem_given_iff (h : s.Orderly) (e : ServiceEvent) (x : Served) : x ∈ s.given e ↔ Gives s e x := by
  cases e with
  | arrive request => exact mem_given_arrive_iff
  | goOn number =>
    simp only [given, List.mem_map, List.mem_filter, beq_iff_eq]
    constructor
    · rintro ⟨visit, ⟨hvisit, rfl⟩, rfl⟩
      refine .inTurn hvisit ?_ (scores_iff.mpr rfl)
      rw [Bool.eq_false_iff]
      intro hclosed
      rw [(h.shut hclosed).1] at hvisit
      cases hvisit
    · intro hx
      cases hx with
      | inTurn hvisit _ hscores => exact ⟨_, ⟨hvisit, rfl⟩, by rw [scores_iff.mp hscores, decided]⟩
  | close =>
    simp only [given, List.mem_map, List.mem_append]
    constructor
    · rintro ⟨visit, hvisit, rfl⟩
      exact .closed hvisit
    · rintro ⟨⟩
      exact ⟨_, ‹_›, rfl⟩
  | advance time =>
    simp only [given, List.mem_map, List.mem_filter, PlacementRequest.expired, decide_eq_true_eq]
    constructor
    · rintro ⟨visit, ⟨hvisit, hpassed⟩, rfl⟩
      exact .overdue hvisit (h.due visit hvisit) hpassed
    · rintro ⟨⟩
      exact ⟨_, ⟨‹_›, ‹_›⟩, rfl⟩
  | cancel | occupy | vacate | update | setRatios =>
    simp only [given, List.not_mem_nil, false_iff]
    exact nofun

/-! ## What a run keeps -/

theorem Orderly.start (a : HostAgent) (ratios : OvercommitRatios) (transfer : TransferRatio) (now : Int) :
    (start a ratios transfer now).Orderly :=
  ⟨nofun, fun _ => ⟨rfl, rfl⟩, Nat.zero_le _, nofun⟩

/-- Who waits after an event has not reached its deadline by then. -/
theorem Orderly.due_line (h : s.Orderly) (e : ServiceEvent) : ∀ visit ∈ s.line e, s.now + e.time < visit.request.deadline := by
  intro visit hvisit
  cases e with
  | arrive request =>
    simp only [line, ServiceEvent.time, Int.add_zero] at hvisit ⊢
    split at hvisit
    · exact h.due visit hvisit
    · rename_i hjoins
      rcases List.mem_append.mp hvisit with hvisit | hvisit
      · exact h.due visit hvisit
      · rw [List.mem_singleton.mp hvisit]
        simp [PlacementRequest.expired] at hjoins ⊢
        exact hjoins.1
  | cancel number =>
    simp only [line, ServiceEvent.time, Int.add_zero] at hvisit ⊢
    exact h.due visit (List.mem_filter.mp hvisit).1
  | close => cases hvisit
  | advance time =>
    have hpassed := (List.mem_filter.mp hvisit).2
    simp [PlacementRequest.expired] at hpassed ⊢
    exact hpassed
  | goOn | occupy | vacate | update | setRatios =>
    simp only [line, ServiceEvent.time, Int.add_zero] at hvisit ⊢
    exact h.due visit hvisit

/-- Nobody waits or keeps a slot at an agent that was closed before an event or by it. -/
theorem Orderly.nobody_of_closed (h : s.Orderly) (hclosed : (s.agent.closed || e.closes) = true) : s.kept e = [] ∧ s.line e = [] := by
  rcases Bool.or_eq_true_iff.mp hclosed with hbefore | hcloses
  · obtain ⟨hholding, hwaiting⟩ := h.shut hbefore
    refine ⟨by rw [kept, hholding, List.filter_nil], ?_⟩
    cases e <;> simp [line, hwaiting, hbefore]
  · rw [ServiceEvent.closes_iff.mp hcloses]
    exact ⟨List.filter_eq_nil_iff.mpr fun _ _ => by simp [ServiceEvent.ends], rfl⟩

/-- No more slots are held after an event than there are, before free ones are passed on. -/
theorem Orderly.kept_le (h : s.Orderly) (e : ServiceEvent) : s.others e + (s.kept e).length ≤ s.agent.slots := by
  have hbounded := h.bounded
  have hkept : (s.kept e).length ≤ s.holding.length := List.length_filter_le ..
  have hothers : s.others e ≤ s.occupied + s.free := by
    cases e with
    | occupy =>
      simp only [others]
      split <;> omega
    | vacate => simp only [others]; omega
    | arrive | goOn | cancel | update | setRatios | close | advance => exact Nat.le_add_right _ _
  have hfree : s.free = s.agent.slots - s.held := rfl
  have hheld : s.held = s.occupied + s.holding.length := rfl
  omega

/-- An event leaves an agent in service orderly. -/
theorem Orderly.step (h : s.Orderly) (e : ServiceEvent) : (s.step e).Orderly := by
  have hkept := h.kept_le e
  have hheld : (s.step e).held = s.others e + ((s.kept e).length + min (s.room e) (s.line e).length) := by
    rw [held, step_eq, List.length_append, passed, List.length_take]
  have hroom : s.room e = s.agent.slots - (s.others e + (s.kept e).length) := rfl
  have hslots : (s.step e).agent.slots = s.agent.slots := by rw [step_eq]
  constructor
  · rw [step_eq]
    exact fun visit hvisit => h.due_line e visit (List.mem_of_mem_drop hvisit)
  · rw [step_eq]
    intro hclosed
    obtain ⟨hnobody, hline⟩ := h.nobody_of_closed hclosed
    simp [passed, hnobody, hline]
  · rw [hheld, hslots]
    omega
  · -- Who still waits stands behind those who got the free slots.
    intro hwaiting
    have hlong : s.room e < (s.line e).length := by
      rw [step_eq] at hwaiting
      exact Nat.lt_of_not_le fun hshort => hwaiting (List.drop_eq_nil_of_le hshort)
    rw [hheld, hslots]
    omega

/-- So does a run. -/
theorem Orderly.run (h : s.Orderly) (events : List ServiceEvent) : (s.run events).Orderly := by
  induction events generalizing s with
  | nil => exact h
  | cons e events ih => exact ih (h.step e)

theorem run_concat (s : HostService) (events : List ServiceEvent) (e : ServiceEvent) : s.run (events ++ [e]) = (s.run events).step e :=
  List.foldl_concat ..

/-- A closed agent times out what comes too late, and turns away all else. -/
theorem Orderly.answer_of_closed (h : s.Orderly) (hclosed : s.agent.closed = true) {x : Served} (hx : x ∈ s.given e) :
    x.answer = if x.visit.request.deadline ≤ x.time then .decided .timedOut else .failed (.unavailable s.agent.id .shutDown) := by
  obtain ⟨hholding, hwaiting⟩ := h.shut hclosed
  rw [h.mem_given_iff] at hx
  cases hx with
  | late hlate => rw [if_pos hlate]
  | refused hdue => rw [if_neg (Int.not_le.mpr hdue)]
  | atOnce _ hopen | inTurn _ hopen => simp [hclosed] at hopen
  | closed hthere => simp [hholding, hwaiting] at hthere
  | overdue hwaits => simp [hwaiting] at hwaits

end HostService

end PlacementTree
