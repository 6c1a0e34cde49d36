import PlacementTree.Fanout

/-!
# Fan-in

A scheduler waits until every child it asked has answered or its own deadline is reached, whichever is first, and keeps the best
placement among the answers that were in time. The best one depends on the answers alone unless two are ranked equal; of equal
ones the first to arrive is kept. What arrives at the deadline itself is late: the wait ends then.

A hop latency above zero makes every child answer or fail strictly before the deadline, so then nothing is late.
-/

namespace PlacementTree

/-- The better of two responses; of equal ones the first. -/
def PlacementResponse.better (a b : PlacementResponse) : PlacementResponse :=
  if a.score.noWorse b.score then a else b

/-- The best of the responses in order of arrival. -/
def bestResponse : List PlacementResponse → Option PlacementResponse
  | [] => none
  | first :: rest => some (rest.foldl PlacementResponse.better first)

/-- The winner among answers in order of arrival. -/
def selectWinner (answers : List ChildAnswer) : Option PlacementResponse := bestResponse (answers.filterMap (·.response?))

/-- The outcome of a fan-in: the winner, and how many children were asked, placed the workload, declined to, failed, and were
not there at the deadline. -/
structure Aggregate where
  winner : Option PlacementResponse
  dispatched : Nat
  succeeded : Nat
  declined : Nat
  failed : Nat
  late : Nat
  deriving DecidableEq

/-- Whether the answer places the workload. -/
def ChildAnswer.isPlaced : ChildAnswer → Bool
  | .decided (.placed _) => true
  | _ => false

/-- Whether the answer is a decision that places nothing. -/
def ChildAnswer.isDeclined : ChildAnswer → Bool
  | .decided (.placed _) => false
  | .decided _ => true
  | _ => false

/-- Whether there is no decision. -/
def ChildAnswer.isFailed : ChildAnswer → Bool
  | .decided _ => false
  | _ => true

namespace Dispatch

/-- Whether an arrival is there before the wait ends. -/
def inTime (d : Dispatch) (a : Arrival) : Bool := decide (a.time < d.deadline)

/-- The arrivals that are in time, in order of arrival; those of one instant in the order in which the children were asked. -/
def collected (d : Dispatch) : List Arrival := (d.arrivals.filter d.inTime).mergeSort fun a b => a.time ≤ b.time

/-- The outcome of the fan-in. -/
def aggregate (d : Dispatch) : Aggregate :=
  let answers := d.collected.map (·.answer)
  { winner := selectWinner answers
    dispatched := d.dispatched
    succeeded := answers.countP (·.isPlaced)
    declined := answers.countP (·.isDeclined)
    failed := answers.countP (·.isFailed)
    late := d.arrivals.countP fun a => !d.inTime a }

/-- When the wait of a fan-in that started at `start` ends: at the last arrival, or at the deadline if some child is late. -/
def finishedAt (d : Dispatch) (start : Int) : Int :=
  if d.arrivals.all d.inTime then d.arrivals.foldl (fun latest a => max latest a.time) start else d.deadline

end Dispatch

end PlacementTree
