import PlacementTree.HostAgent

/-!
# Serving with a bounded number of slots

The agent of a host serves no more requests at once than it has slots. A request that is neither expired on arrival nor turned
away is answered at once if a slot is free; otherwise it waits in line. A slot that becomes free goes to the first in line in the
same moment, and is held for that visit until it goes on.

With a slot a visit is answered by what the agent knows when it goes on, and gives the slot back with the answer: nothing is waited
for in between, so this is one step. Whoever waits when its deadline is reached is timed out then. Closing the agent turns away all
who wait, and also those who have a slot and did not go on yet: they look once more whether the agent is open. Slots may also be
held by others, who are not asking for a placement.

`HostService` is the agent with its line and its slots, `ServiceEvent` what may happen to it.
-/

namespace PlacementTree

/-- A request at an agent, with its number in the order of arrival. -/
structure Visit where
  number : Nat
  request : PlacementRequest
  deriving DecidableEq

/-- The answer to a visit, and when it was given. -/
structure Served where
  visit : Visit
  time : Int
  answer : ChildAnswer
  deriving DecidableEq

/-- An agent in service: the number of slots that others hold, the visits that hold one, those that wait in line, and the answers so
far. -/
structure HostService where
  agent : HostAgent
  ratios : OvercommitRatios
  transfer : TransferRatio
  now : Int
  arrived : Nat := 0
  occupied : Nat := 0
  holding : List Visit := []
  waiting : List Visit := []
  served : List Served := []

/-- What may happen to an agent in service: a request comes, the visit of a number goes on with its slot or is cancelled, somebody
else takes a slot or gives one back, a snapshot is reported, other ratios are put in force, the agent is closed, time passes. -/
inductive ServiceEvent where
  | arrive (request : PlacementRequest)
  | goOn (number : Nat)
  | cancel (number : Nat)
  | occupy
  | vacate
  | update (snapshot : ResourceSnapshot)
  | setRatios (ratios : OvercommitRatios)
  | close
  | advance (time : Nat)

namespace HostService

/-- An agent that nobody has asked anything yet. -/
def start (agent : HostAgent) (ratios : OvercommitRatios) (transfer : TransferRatio) (now : Int) : HostService :=
  { agent, ratios, transfer, now }

/-- How many slots are held. -/
def held (s : HostService) : Nat := s.occupied + s.holding.length

/-- How many slots are free. -/
def free (s : HostService) : Nat := s.agent.slots - s.held

/-- The answer to a visit that has a slot, by what the agent knows now. -/
def decided (s : HostService) (visit : Visit) : Served :=
  { visit, time := s.now, answer := .decided (s.agent.decision s.ratios s.transfer visit.request) }

/-- The answer to a visit of a closed agent. -/
def turnedAway (s : HostService) (visit : Visit) : Served :=
  { visit, time := s.now, answer := .failed (.unavailable s.agent.id .shutDown) }

/-- The answer to a visit at its deadline, or on arrival after it. -/
def timedOut (visit : Visit) (time : Int) : Served := { visit, time, answer := .decided .timedOut }

/-- A request arrives. -/
def arrive (s : HostService) (request : PlacementRequest) : HostService :=
  let visit : Visit := { number := s.arrived, request }
  let s := { s with arrived := s.arrived + 1 }
  if request.expired s.now then { s with served := s.served ++ [timedOut visit s.now] }
  else if s.agent.closed then { s with served := s.served ++ [s.turnedAway visit] }
  else if s.held < s.agent.slots then { s with served := s.served ++ [s.decided visit] }
  else { s with waiting := s.waiting ++ [visit] }

/-- The visit of a number goes on with the slot it holds: it is answered and gives the slot back. -/
def goOn (s : HostService) (number : Nat) : HostService :=
  { s with
    holding := s.holding.filter (·.number != number)
    served := s.served ++ (s.holding.filter (·.number == number)).map s.decided }

/-- Time passes. Who waits past the deadline is timed out at the deadline. -/
def advance (s : HostService) (time : Nat) : HostService :=
  let now := s.now + Int.ofNat time
  let expired := s.waiting.filter (·.request.expired now)
  { s with
    now
    waiting := s.waiting.filter fun visit => !visit.request.expired now
    served := s.served ++ expired.map fun visit => timedOut visit visit.request.deadline }

/-- The agent stops serving and turns away who was not answered yet. -/
def close (s : HostService) : HostService :=
  { s with
    agent := s.agent.close
    holding := []
    waiting := []
    served := s.served ++ (s.holding ++ s.waiting).map s.turnedAway }

/-- What an event itself does. A snapshot of another host changes nothing, and nobody takes a slot of a closed agent. -/
def react (s : HostService) : ServiceEvent → HostService
  | .arrive request => s.arrive request
  | .goOn number => s.goOn number
  | .cancel number =>
    { s with holding := s.holding.filter (·.number != number), waiting := s.waiting.filter (·.number != number) }
  | .occupy => if s.agent.closed then s else { s with occupied := s.occupied + min s.free 1 }
  | .vacate => { s with occupied := s.occupied - 1 }
  | .update snapshot =>
    match s.agent.updateSnapshot snapshot with
    | .ok (agent, _) => { s with agent }
    | .error _ => s
  | .setRatios ratios => { s with ratios }
  | .close => s.close
  | .advance time => s.advance time

/-- Free slots go to the first in line. -/
def passOn (s : HostService) : HostService :=
  { s with holding := s.holding ++ s.waiting.take s.free, waiting := s.waiting.drop s.free }

/-- One event. -/
def step (s : HostService) (e : ServiceEvent) : HostService := (s.react e).passOn

/-- A row of events. -/
def run (s : HostService) (events : List ServiceEvent) : HostService := events.foldl step s

end HostService

end PlacementTree
