import PlacementTree.Constraint

/-!
# Requests and their deadlines

Time is counted in milliseconds on one clock. A request carries a deadline, an instant; each hop down the tree takes the hop
latency off it (`PlacementRequest.forChild`), and a request whose shortened deadline is not in the future is not sent on. A
deadline may lie before the clock's origin, so instants are integers.
-/

namespace PlacementTree

/-- What a workload needs. Memory is in MiB, disk in GiB. -/
structure ResourceDemand where
  cpu : UInt32
  memoryMb : UInt64
  diskGb : UInt64 := 0
  deriving DecidableEq, Repr

/-- A workload that waits for a host until its deadline. -/
structure PlacementRequest where
  id : String
  demand : ResourceDemand
  constraints : List Constraint
  deadline : Int
  deriving DecidableEq, Repr

namespace PlacementRequest

/-- A request made at `now` that may wait for `timeout`. -/
def issue (id : String) (demand : ResourceDemand) (constraints : List Constraint) (now : Int) (timeout : Nat) :
    PlacementRequest :=
  { id, demand, constraints, deadline := now + Int.ofNat timeout }

/-- The time left, zero after the deadline. -/
def remaining (r : PlacementRequest) (now : Int) : Nat := (r.deadline - now).toNat

/-- Whether the deadline has been reached. -/
def expired (r : PlacementRequest) (now : Int) : Bool := decide (r.deadline ≤ now)

/-- The request as it is sent one hop down, unless its shortened deadline has been reached already. -/
def forChild (r : PlacementRequest) (hopLatency : Nat) (now : Int) : Option PlacementRequest :=
  let deadline := r.deadline - Int.ofNat hopLatency
  if deadline ≤ now then none else some { r with deadline }

end PlacementRequest

end PlacementTree
