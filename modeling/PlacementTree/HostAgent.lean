import PlacementTree.Child

/-!
# Host agents

An agent stands for one host. It keeps the host's last snapshot, scores the host on demand, and tells its listeners when a new
snapshot changes the host's datastores or networks. It answers a request only while it is open; a request that is expired on
arrival is timed out even by a closed agent. An agent serves a bounded number of requests at once, and there is none that serves
more than `HostAgent.maxSlots`; answering takes no time, so on a clock that moves only while everything waits a request never waits
for a slot.
-/

namespace PlacementTree

/-- The agent of a host. `slots` is how many requests it serves at once, `listeners` are the names of those who follow its
inventory, one entry for each registration. -/
structure HostAgent where
  id : String
  snapshot : ResourceSnapshot
  slots : Nat
  closed : Bool := false
  listeners : List String := []
  deriving DecidableEq

/-- What a listener is told: the host and its current datastores and networks. -/
structure InventoryNotice where
  listener : String
  hostId : String
  datastores : NameSet
  networks : NameSet
  deriving DecidableEq

namespace HostAgent

/-- How many requests an agent serves at once unless told otherwise. -/
def defaultSlots : Nat := 4

/-- The most slots an agent can have: three bits of a word are not for counting. -/
def maxSlots : Nat := 0x1fffffffffffffff

/-- An open agent for the host of a snapshot. It has at least one slot. -/
def ofSnapshot (snapshot : ResourceSnapshot) (slots : Nat) (listeners : List String) : HostAgent :=
  { id := snapshot.hostId, snapshot, slots := max slots 1, listeners }

/-- The agent of the host of a snapshot, unless it would have more slots than an agent can have. -/
def make? (snapshot : ResourceSnapshot) (slots : Nat) (listeners : List String) : Option HostAgent :=
  if slots ≤ maxSlots then some (ofSnapshot snapshot slots listeners) else none

/-- The score of the host, if it meets the constraints and has room. -/
def score (a : HostAgent) (ratios : OvercommitRatios) (transfer : TransferRatio) (r : PlacementRequest) :
    Option CandidateScore :=
  if satisfiesAll a.snapshot.satisfies r.constraints then scoreSnapshot a.snapshot r.demand ratios transfer else none

/-- The decision of an agent that serves a request. -/
def decision (a : HostAgent) (ratios : OvercommitRatios) (transfer : TransferRatio) (r : PlacementRequest) :
    PlacementDecision :=
  match a.score ratios transfer r with
  | some score => .placed { score, path := [a.id] }
  | none => .unschedulable

/-- The answer of an agent to a request that arrives at `now`. -/
def answer (a : HostAgent) (ratios : OvercommitRatios) (transfer : TransferRatio) (r : PlacementRequest) (now : Int) :
    ChildAnswer :=
  if r.expired now then .decided .timedOut
  else if a.closed then .failed (.unavailable a.id .shutDown)
  else .decided (a.decision ratios transfer r)

/-- What the listeners are told when one snapshot replaces another. -/
def notices (a : HostAgent) (next : ResourceSnapshot) : List InventoryNotice :=
  if a.snapshot.inventoryDiffers next then
    a.listeners.map fun listener => { listener, hostId := a.id, datastores := next.datastores, networks := next.networks }
  else []

/-- Deliver a fresh snapshot. A snapshot of another host is refused. -/
def updateSnapshot (a : HostAgent) (next : ResourceSnapshot) : Except NodeError (HostAgent × List InventoryNotice) :=
  if next.hostId = a.id then .ok ({ a with snapshot := next }, a.notices next)
  else .error (.snapshotMismatch a.id next.hostId)

/-- Stop serving. -/
def close (a : HostAgent) : HostAgent := { a with closed := true }

/-- The agent as a scheduler sees it. It answers at once. -/
def asChild (a : HostAgent) (ratios : OvercommitRatios) (transfer : TransferRatio) : Child :=
  { id := a.id
    satisfies := a.snapshot.satisfies
    place := fun r now => .immediate now (a.answer ratios transfer r now) }

end HostAgent

end PlacementTree
