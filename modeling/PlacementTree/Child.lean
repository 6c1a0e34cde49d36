import PlacementTree.Decision

/-!
# Children as their scheduler sees them

A scheduler knows three things of a child: its id, which constraints somebody below it meets, and what comes of asking it. What
comes of asking is a completion: an answer and the instant it is there, or no instant at all if the child never answers. The
child may be a host, another scheduler, or anything behind a connection, so a `Child` is a record of functions.
-/

namespace PlacementTree

/-- What a child answers: a decision, a failure of its own, or nothing because its task died. -/
inductive ChildAnswer where
  | decided (decision : PlacementDecision)
  | failed (error : NodeError)
  | died
  deriving DecidableEq

/-- The response of an answer that places the workload. -/
def ChildAnswer.response? : ChildAnswer → Option PlacementResponse
  | .decided decision => decision.response?
  | _ => none

/-- An answer and when it is there. Without an instant it never is. -/
structure Completion where
  time : Option Int
  answer : ChildAnswer
  deriving DecidableEq

/-- An answer that is there at once. -/
def Completion.immediate (now : Int) (answer : ChildAnswer) : Completion := { time := some now, answer }

/-- A node as the scheduler above it sees it. `place request now` is what comes of asking it at `now`. -/
structure Child where
  id : String
  satisfies : Constraint → Bool
  place : PlacementRequest → Int → Completion

/-- Whether the child is worth asking: for each constraint somebody below it meets it. -/
def Child.eligible (c : Child) (constraints : List Constraint) : Bool := satisfiesAll c.satisfies constraints

end PlacementTree
