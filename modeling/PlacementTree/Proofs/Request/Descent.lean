import Mathlib.Algebra.GroupWithZero.Nat
import PlacementTree.Proofs.Node.Answer

/-!
# The deadline of a request on its way down

A `Descent` is a request that is out, with the time and the hops it has made so far. Time passes, and from time to time the request is to
go one hop down: it does if its shortened deadline is still ahead, and else stays as it is (`Descent.step`).

Each step keeps the account of the deadline: what was there at first is what is left of it and the hops made (`Descent.Accounted`). A
request that has expired goes no further, so it stays as it is and stays expired (`Descent.run_of_expired`).
-/

namespace PlacementTree

/-! ## One request -/

namespace PlacementRequest

variable {r : PlacementRequest} {now : Int} {hop : Nat}

theorem expired_iff : r.expired now = true ↔ r.deadline ≤ now := decide_eq_true_iff

theorem remaining_eq_max (r : PlacementRequest) (now : Int) : (r.remaining now : Int) = max 0 (r.deadline - now) := by
  unfold remaining
  omega

/-- A request has expired when no time is left. -/
theorem expired_iff_remaining_eq_zero : r.expired now = true ↔ r.remaining now = 0 := by
  rw [expired_iff, remaining]
  omega

/-- An expired request is not sent on, not even without a hop latency. -/
theorem forChild_of_expired (h : r.expired now = true) (hop : Nat) : r.forChild hop now = none := by
  rw [expired_iff] at h
  rw [forChild_eq_none_iff, Int.ofNat_eq_natCast]
  omega

theorem isSome_forChild_iff : (r.forChild hop now).isSome = true ↔ now < r.deadline - hop := by
  rw [Option.isSome_iff_ne_none, Ne, forChild_eq_none_iff, Int.not_le, Int.ofNat_eq_natCast]

/-- The instant some time before another one, on a clock that knows no instant before `origin`. -/
def earlier? (origin instant : Int) (span : Nat) : Option Int :=
  if origin ≤ instant - span then some (instant - span) else none

/-- A deadline that the clock does not know has been reached, so a clock that has a first instant sends on the same requests. -/
theorem forChild_eq_bind_earlier? {origin : Int} (h : origin ≤ now) :
    r.forChild hop now =
      (earlier? origin r.deadline hop).bind fun deadline => if deadline ≤ now then none else some { r with deadline } := by
  unfold earlier?
  split
  · rfl
  · rename_i hbefore
    rw [Option.bind_none, forChild_eq_none_iff, Int.ofNat_eq_natCast]
    omega

end PlacementRequest

/-! ## Runs -/

/-- A request that is out, the time, and the hops it has made, the first one first. -/
structure Descent where
  request : PlacementRequest
  now : Int
  hops : List Nat

namespace Descent

/-- What happens to a request that is out: time passes, or it is to go one hop down. -/
inductive Event where
  | advance (span : Nat)
  | descend (hop : Nat)

/-- The time that passes. -/
def Event.span : Event → Nat
  | .advance span => span
  | .descend _ => 0

/-- A request that has just been made. -/
def issue (id : String) (demand : ResourceDemand) (constraints : List Constraint) (created : Int) (timeout : Nat) : Descent :=
  { request := PlacementRequest.issue id demand constraints created timeout, now := created, hops := [] }

def step (s : Descent) : Event → Descent
  | .advance span => { s with now := s.now + span }
  | .descend hop =>
    match s.request.forChild hop s.now with
    | some child => { s with request := child, hops := s.hops ++ [hop] }
    | none => s

def run (s : Descent) (events : List Event) : Descent := events.foldl step s

variable {s : Descent} {event : Event}

/-- A request that may be sent on loses the hop from its deadline. -/
theorem step_descend_of_lt {hop : Nat} (h : s.now < s.request.deadline - hop) :
    s.step (.descend hop) =
      { s with request := { s.request with deadline := s.request.deadline - hop }, hops := s.hops ++ [hop] } := by
  have hsent : s.request.forChild hop s.now = some { s.request with deadline := s.request.deadline - hop } :=
    PlacementRequest.forChild_eq_some_iff.mpr ⟨h, rfl⟩
  simp only [step, hsent]

/-- Every other one stays as it is. -/
theorem step_descend_of_le {hop : Nat} (h : s.request.deadline - hop ≤ s.now) : s.step (.descend hop) = s := by
  simp only [step, PlacementRequest.forChild_eq_none_iff.mpr h]

/-- The request is the one first made, but for its deadline, which the hops made have been taken off. -/
def Accounted (first : PlacementRequest) (s : Descent) : Prop :=
  s.request = { first with deadline := first.deadline - (s.hops.sum : Nat) }

theorem Accounted.step {first : PlacementRequest} (h : Accounted first s) (event : Event) : Accounted first (s.step event) := by
  cases event with
  | advance span => exact h
  | descend hop =>
    rcases Int.lt_or_le s.now (s.request.deadline - hop) with hahead | hreached
    · rw [step_descend_of_lt hahead]
      unfold Accounted at h ⊢
      dsimp only
      rw [h, List.sum_append, List.sum_singleton, Int.natCast_add, Int.sub_sub]
    · rwa [step_descend_of_le hreached]

theorem Accounted.run {first : PlacementRequest} (h : Accounted first s) (events : List Event) :
    Accounted first (s.run events) := by
  induction events generalizing s with
  | nil => exact h
  | cons event events ih => exact ih (h.step event)

theorem now_step (s : Descent) (event : Event) : (s.step event).now = s.now + event.span := by
  cases event with
  | advance span => rfl
  | descend hop =>
    rcases Int.lt_or_le s.now (s.request.deadline - hop) with hahead | hreached
    · rw [step_descend_of_lt hahead]
      exact (Int.add_zero s.now).symm
    · rw [step_descend_of_le hreached]
      exact (Int.add_zero s.now).symm

/-- All the time that passes counts. -/
theorem now_run (s : Descent) (events : List Event) : (s.run events).now = s.now + ((events.map Event.span).sum : Nat) := by
  induction events generalizing s with
  | nil => exact (Int.add_zero s.now).symm
  | cons event events ih =>
    rw [show s.run (event :: events) = (s.step event).run events from rfl, ih, now_step, List.map_cons, List.sum_cons,
      Int.natCast_add, Int.add_assoc]

/-- To an expired request only time happens. -/
theorem step_of_expired (h : s.request.expired s.now = true) (event : Event) :
    s.step event = { s with now := s.now + event.span } := by
  cases event with
  | advance span => rfl
  | descend hop =>
    simp only [step, PlacementRequest.forChild_of_expired h, Event.span, Int.natCast_zero, Int.add_zero]

/-- An expired request stays as it is, and stays expired. -/
theorem run_of_expired (h : s.request.expired s.now = true) (events : List Event) :
    (s.run events).request = s.request ∧ (s.run events).hops = s.hops ∧ s.request.expired (s.run events).now = true := by
  induction events generalizing s with
  | nil => exact ⟨rfl, rfl, h⟩
  | cons event events ih =>
    have hstep := step_of_expired h event
    have hstill : (s.step event).request.expired (s.step event).now = true := by
      rw [hstep]
      rw [PlacementRequest.expired_iff] at h ⊢
      dsimp only
      omega
    obtain ⟨hrequest, hhops, hexpired⟩ := ih hstill
    rw [hstep] at hrequest hhops hexpired
    rw [show s.run (event :: events) = (s.step event).run events from rfl, hstep]
    exact ⟨hrequest, hhops, hexpired⟩

/-- Whatever has happened to a request since it was made, it is the same but for its deadline, which is the first one less the hops made.
The time left is what is left of that, and none is left exactly when the request has expired. It goes one hop down exactly if the shortened
deadline is still ahead, also where the clock knows no instant before the one when it was made, or before any earlier one; else it stays as
it is. Once expired it goes no further and stays expired. -/
theorem deadline_accounts (id : String) (demand : ResourceDemand) (constraints : List Constraint) (created : Int) (timeout : Nat)
    (events : List Event) :
    let s := (issue id demand constraints created timeout).run events
    (s.request.id = id ∧ s.request.demand = demand ∧ s.request.constraints = constraints ∧
        s.request.deadline = created + timeout - (s.hops.sum : Nat)) ∧
      s.now = created + ((events.map Event.span).sum : Nat) ∧
      (s.request.remaining s.now : Int) = max 0 (s.request.deadline - s.now) ∧
      (s.request.expired s.now = true ↔ s.request.remaining s.now = 0) ∧
      (∀ hop, ((s.request.forChild hop s.now).isSome = true ↔ s.now < s.request.deadline - hop) ∧
        s.step (.descend hop) =
          if s.now < s.request.deadline - hop then
            { s with request := { s.request with deadline := s.request.deadline - hop }, hops := s.hops ++ [hop] }
          else s) ∧
      (∀ origin ≤ created, ∀ hop, s.request.forChild hop s.now =
        (PlacementRequest.earlier? origin s.request.deadline hop).bind fun deadline =>
          if deadline ≤ s.now then none else some { s.request with deadline }) ∧
      (s.request.expired s.now = true → ∀ later hop, (s.run later).request.forChild hop (s.run later).now = none ∧
        (s.run later).request = s.request ∧ (s.run later).request.expired (s.run later).now = true) := by
  intro s
  have haccount : Accounted (PlacementRequest.issue id demand constraints created timeout) s := by
    apply Accounted.run
    simp [Accounted, issue]
  have hnow : s.now = created + ((events.map Event.span).sum : Nat) := now_run _ _
  refine ⟨?_, hnow, PlacementRequest.remaining_eq_max .., PlacementRequest.expired_iff_remaining_eq_zero, ?_, ?_, ?_⟩
  · rw [haccount]
    exact ⟨rfl, rfl, rfl, rfl⟩
  · intro hop
    refine ⟨PlacementRequest.isSome_forChild_iff, ?_⟩
    split
    · rename_i hahead
      exact step_descend_of_lt hahead
    · rename_i hreached
      exact step_descend_of_le (Int.not_lt.mp hreached)
  · intro origin horigin hop
    exact PlacementRequest.forChild_eq_bind_earlier? (by omega)
  · intro hexpired later hop
    obtain ⟨hrequest, -, hstill⟩ := run_of_expired hexpired later
    rw [hrequest]
    exact ⟨PlacementRequest.forChild_of_expired hstill hop, rfl, hstill⟩

/-- A hop longer than the clock has been running is not made, two hops are, and then the time runs out to the millisecond. -/
theorem deadline_accounts_to_the_end :
    let s := (issue "vm" { cpu := 1, memoryMb := 256 } [.network "lan"] 0 100).run
      [.descend 18446744073709551615, .descend 30, .advance 20, .descend 10, .descend 40, .advance 40]
    (s.request.deadline = 60 ∧ s.now = 60 ∧ s.request.expired s.now = true) ∧
      (s.request.forChild 18446744073709551615 s.now =
        (PlacementRequest.earlier? 0 s.request.deadline 18446744073709551615).bind fun deadline =>
          if deadline ≤ s.now then none else some { s.request with deadline }) ∧
      ∀ later hop, (s.run later).request.forChild hop (s.run later).now = none ∧
        (s.run later).request = s.request ∧ (s.run later).request.expired (s.run later).now = true := by
  intro s
  have hexpired : s.request.expired s.now = true := by decide
  obtain ⟨-, -, -, -, -, horigin, hstays⟩ := deadline_accounts "vm" { cpu := 1, memoryMb := 256 } [.network "lan"] 0 100
    [.descend 18446744073709551615, .descend 30, .advance 20, .descend 10, .descend 40, .advance 40]
  exact ⟨⟨by decide, by decide, hexpired⟩, horigin 0 (Int.le_refl 0) _, hstays hexpired⟩

end Descent

end PlacementTree
