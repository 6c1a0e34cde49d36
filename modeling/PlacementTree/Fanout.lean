import PlacementTree.Child
import PlacementTree.Draw

/-!
# Fan-out

A scheduler asks several of its children at once. It first takes the hop latency off the deadline; if nothing is left of it the
request goes no further, whoever the children are. Then it picks the children that are eligible, all of them if they fit its
limit, else a draw of as many as the limit, and asks each with the shortened deadline. A child that is not there by that
deadline is counted as one that failed then.
-/

namespace PlacementTree

/-- How many children a scheduler asks at once, and what a hop takes off the deadline, in milliseconds. -/
structure FanoutLimits where
  limit : Nat
  hopLatency : Nat
  deriving DecidableEq, Repr

/-- The limits of settings. A scheduler asks at least one child. -/
def FanoutLimits.ofSettings (fanout hopLatency : Nat) : FanoutLimits := { limit := max fanout 1, hopLatency }

/-- The children to ask: the eligible ones, cut down to the limit by a draw. -/
def FanoutLimits.select (limits : FanoutLimits) (draw : Draw) (constraints : List Constraint) (children : List Child) :
    List Child :=
  let eligible := children.filter (·.eligible constraints)
  if eligible.length ≤ limits.limit then eligible
  else (draw eligible.length limits.limit).filterMap (eligible[·]?)

/-- The answer of one child as it reaches the scheduler. -/
structure Arrival where
  childId : String
  time : Int
  answer : ChildAnswer
  deriving DecidableEq

/-- What reaches the scheduler of asking a child: its answer if that is there by the deadline, else a failure then. -/
def Child.arrival (c : Child) (r : PlacementRequest) (now : Int) : Arrival :=
  let late : Arrival := { childId := c.id, time := r.deadline, answer := .failed (.childTimedOut c.id) }
  let completion := c.place r now
  match completion.time with
  | none => late
  | some time => if time ≤ r.deadline then { childId := c.id, time, answer := completion.answer } else late

/-- Children that were asked at one instant. `deadline` is that of the scheduler itself. -/
structure Dispatch where
  arrivals : List Arrival
  deadline : Int
  deriving DecidableEq

/-- How many children were asked. -/
def Dispatch.dispatched (d : Dispatch) : Nat := d.arrivals.length

/-- What becomes of a request that a scheduler wants to pass on. -/
inductive Fanout where
  | noBudget
  | noEligibleChildren
  | dispatched (d : Dispatch)

/-- Pass a request on at `now`. -/
def FanoutLimits.dispatch (limits : FanoutLimits) (draw : Draw) (r : PlacementRequest) (now : Int)
    (children : List Child) : Fanout :=
  match r.forChild limits.hopLatency now with
  | none => .noBudget
  | some childRequest =>
    match limits.select draw r.constraints children with
    | [] => .noEligibleChildren
    | selected => .dispatched { arrivals := selected.map (·.arrival childRequest now), deadline := r.deadline }

/-- A scheduler's limits with the generator it draws from. Draws follow one another. -/
structure Coordinator where
  limits : FanoutLimits
  generator : StdGen

/-- Pick the children to ask and move the generator on. -/
def Coordinator.select (c : Coordinator) (constraints : List Constraint) (children : List Child) :
    List Child × Coordinator :=
  let count := (children.filter (·.eligible constraints)).length
  let drawn := drawDistinct c.generator count c.limits.limit
  (c.limits.select (fun _ _ => drawn.1) constraints children,
    if count ≤ c.limits.limit then c else { c with generator := drawn.2 })

end PlacementTree
