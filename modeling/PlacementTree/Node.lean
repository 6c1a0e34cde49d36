import PlacementTree.Aggregate
import PlacementTree.HostAgent

/-!
# The scheduling tree and what it decides

A node is a host agent, a peer behind a connection, or a scheduler. A scheduler with children asks them; a scheduler without
children ranks the hosts it lists itself, reading their agents' snapshots and asking nobody, so it needs no hop and no open
agent.

Agents are shared: the tree holds references, the agents live in a `Fleet` together with the ratios in force. While a request
runs through the tree the fleet may change, so a decision is a function of what each node finds when its turn comes
(`Surroundings.fleet`, by the node's position) and of the draws of each scheduler. A run in which nothing changes meanwhile is
the one with the same fleet at all positions (`Surroundings.steady`).
-/

namespace PlacementTree

/-- The place of an agent in its fleet. -/
structure AgentRef where
  index : Nat
  deriving DecidableEq, Repr

/-- The agents of a tree, and what they share: the overcommit ratios in force and the transfer ratio. -/
structure Fleet where
  ratios : OvercommitRatios
  transfer : TransferRatio
  agents : List HostAgent
  deriving DecidableEq

namespace Fleet

def agent? (f : Fleet) (ref : AgentRef) : Option HostAgent := f.agents[ref.index]?

/-- Put an agent into the place of another. -/
def setAgent (f : Fleet) (ref : AgentRef) (a : HostAgent) : Fleet := { f with agents := f.agents.set ref.index a }

/-- Close all agents. -/
def close (f : Fleet) : Fleet := { f with agents := f.agents.map (·.close) }

end Fleet

/-- A host that a scheduler without children ranks itself: that of an agent, or one known by a fixed snapshot. -/
inductive LocalHost where
  | agent (ref : AgentRef)
  | fixed (snapshot : ResourceSnapshot)

/-- The snapshot of a host that is ranked locally. -/
def LocalHost.snapshot? (f : Fleet) : LocalHost → Option ResourceSnapshot
  | .agent ref => (f.agent? ref).map (·.snapshot)
  | .fixed snapshot => some snapshot

/-- A node of the scheduling tree. -/
inductive Node where
  | host (ref : AgentRef)
  | peer (child : Child)
  | scheduler (id : String) (limits : FanoutLimits) (hosts : List LocalHost) (children : List Node)

/-- The way from the root to a node: at each scheduler the number of the child taken. -/
abbrev Position := List Nat

/-- What a request meets on its way: the fleet as each node finds it, and the draws of each scheduler. -/
structure Surroundings where
  fleet : Position → Fleet
  draw : Position → Draw

/-- Surroundings that do not change while the request runs. -/
def Surroundings.steady (fleet : Fleet) (draw : Position → Draw) : Surroundings := { fleet := fun _ => fleet, draw }

/-- A decision and when it is there. -/
structure Decided where
  decision : PlacementDecision
  time : Int
  deriving DecidableEq

/-- What a scheduler without children decides about its own hosts. -/
def decideLocally (id : String) (f : Fleet) (hosts : List LocalHost) (r : PlacementRequest) : PlacementDecision :=
  match (rankSnapshots (hosts.filterMap (·.snapshot? f)) r.demand r.constraints f.ratios f.transfer).head? with
  | some best => .placed { score := best, path := [id, best.candidateId] }
  | none => .unschedulable

/-- What a scheduler makes of a fan-in: the winner seen one level up. -/
def decideAmong (id : String) (winner : Option PlacementResponse) : PlacementDecision :=
  match winner with
  | some response => .placed (response.via id)
  | none => .unschedulable

/-- What a scheduler decides by asking its children. -/
def decideByAsking (id : String) (limits : FanoutLimits) (draw : Draw) (children : List Child) (r : PlacementRequest)
    (now : Int) : Decided :=
  match limits.dispatch draw r now children with
  | .noBudget => { decision := .timedOut, time := now }
  | .noEligibleChildren => { decision := .unschedulable, time := now }
  | .dispatched d => { decision := decideAmong id d.aggregate.winner, time := d.finishedAt now }

/-- What a scheduler decides about a request that arrives at `now`. -/
def decideAtScheduler (id : String) (limits : FanoutLimits) (draw : Draw) (f : Fleet) (hosts : List LocalHost)
    (children : List Child) (r : PlacementRequest) (now : Int) : Decided :=
  if r.expired now then { decision := .timedOut, time := now }
  else if children.isEmpty then { decision := decideLocally id f hosts r, time := now }
  else decideByAsking id limits draw children r now

/-- Whether somebody below a scheduler meets a constraint. -/
def satisfiedBelow (f : Fleet) (hosts : List LocalHost) (children : List Child) (c : Constraint) : Bool :=
  if children.isEmpty then (hosts.filterMap (·.snapshot? f)).any (·.satisfies c) else children.any (·.satisfies c)

/-- A reference to no agent: it meets nothing and fails. Built trees hold none. -/
def danglingChild : Child :=
  { id := "", satisfies := fun _ => false, place := fun _ now => .immediate now (.failed (.unavailable "" .notInInventory)) }

mutual

/-- A node at a position as the scheduler above it sees it. -/
def Node.child (s : Surroundings) (position : Position) : Node → Child
  | .host ref =>
    let f := s.fleet position
    match f.agent? ref with
    | some a => a.asChild f.ratios f.transfer
    | none => danglingChild
  | .peer child => child
  | .scheduler id limits hosts children =>
    let below := Node.childrenFrom s position 0 children
    { id
      satisfies := satisfiedBelow (s.fleet position) hosts below
      place := fun r now =>
        let decided := decideAtScheduler id limits (s.draw position) (s.fleet position) hosts below r now
        { time := some decided.time, answer := .decided decided.decision } }

/-- The children of a node as it sees them, the first of them at the given number. -/
def Node.childrenFrom (s : Surroundings) (position : Position) (number : Nat) : List Node → List Child
  | [] => []
  | node :: nodes => node.child s (position ++ [number]) :: Node.childrenFrom s position (number + 1) nodes

end

end PlacementTree
