import PlacementTree.Config
import PlacementTree.Inventory.Validate
import PlacementTree.Node

/-!
# Building and running a tree

`SchedulerTree.ofInventory` builds the tree below the root of a checked inventory: every scheduler gets what it lists, in order,
and every host one agent, which is registered under the host's id. From then on the tree changes only through its agents and the
shared ratios: fresh snapshots are delivered by host id, ratios are set or adopted, and closing the tree closes all agents.

The check of the configuration has no upper bound for the slots of an agent. Where it lets too many pass, building dies at the first
host.

The recursion follows the lists of the inventory. On a checked inventory no node is met twice, so it ends before its depth
exceeds the number of schedulers; the bound on the depth is for inventories that go in circles, which are never built.
-/

namespace PlacementTree

/-- A tree in use: the nodes, where the agent of each host is, the agents and ratios, and the timeout of requests without one. -/
structure SchedulerTree where
  rootId : String
  root : Node
  registry : List (String × AgentRef)
  fleet : Fleet
  defaultTimeout : Nat

/-- Why there is no tree: building was refused with an error, or it died at a host whose agent cannot have the slots that are
configured. -/
inductive BuildFailure where
  | refused (cause : NodeError)
  | died
  deriving DecidableEq

/-- The agents built so far and their registrations. -/
structure TreeDraft where
  registry : List (String × AgentRef) := []
  agents : List HostAgent := []

/-- Add the agent of a host and register it under its id. -/
def TreeDraft.addAgent (d : TreeDraft) (id : String) (a : HostAgent) : AgentRef × TreeDraft :=
  let ref : AgentRef := { index := d.agents.length }
  (ref, { registry := d.registry ++ [(id, ref)], agents := d.agents ++ [a] })

/-- What the parts of one tree have in common. -/
structure TreePlan where
  inventory : Inventory
  limits : FanoutLimits
  slots : Nat
  listeners : List String

namespace TreePlan

/-- Build the agent of a host. -/
def buildHost (p : TreePlan) (id : String) (d : TreeDraft) : Except BuildFailure (AgentRef × TreeDraft) :=
  match p.inventory.host? id with
  | none => .error (.refused (.unknownHost id))
  | some entry =>
    match HostAgent.make? entry.snapshot p.slots p.listeners with
    | none => .error .died
    | some a => .ok (d.addAgent id a)

/-- Build the agents of hosts, in order. -/
def buildHosts (p : TreePlan) : List String → TreeDraft → Except BuildFailure (List AgentRef × TreeDraft)
  | [], d => .ok ([], d)
  | id :: ids, d => do
    let (ref, d) ← p.buildHost id d
    let (refs, d) ← p.buildHosts ids d
    return (ref :: refs, d)

/-- Build nodes by a builder of one node, in order. -/
def buildEach (build : String → TreeDraft → Except BuildFailure (Node × TreeDraft)) :
    List String → TreeDraft → Except BuildFailure (List Node × TreeDraft)
  | [], d => .ok ([], d)
  | id :: ids, d => do
    let (node, d) ← build id d
    let (nodes, d) ← buildEach build ids d
    return (node :: nodes, d)

/-- Build a child: the scheduler of its id if there is one, else the host. -/
def buildChild (p : TreePlan) (scheduler : String → TreeDraft → Except BuildFailure (Node × TreeDraft)) (id : String)
    (d : TreeDraft) : Except BuildFailure (Node × TreeDraft) :=
  if (p.inventory.scheduler? id).isSome then scheduler id d
  else (p.buildHost id d).map fun (ref, d) => (.host ref, d)

/-- Build a scheduler and everything below it, at most `depth` schedulers deep. -/
def buildScheduler (p : TreePlan) : Nat → String → TreeDraft → Except BuildFailure (Node × TreeDraft)
  | 0, id, _ => .error (.refused (.unavailable id .notInInventory))
  | depth + 1, id, d =>
    match p.inventory.scheduler? id with
    | none => .error (.refused (.unavailable id .notInInventory))
    | some entry =>
      if !entry.hosts.isEmpty then
        (p.buildHosts entry.hosts d).map fun (refs, d) => (.scheduler id p.limits (refs.map .agent) [], d)
      else
        (buildEach (p.buildChild (p.buildScheduler depth)) entry.children d).map fun (nodes, d) =>
          (.scheduler id p.limits [] nodes, d)

end TreePlan

namespace SchedulerTree

/-- Treat a configuration fault as a failure to build. -/
def refuse {α : Type} : Except ConfigError α → Except BuildFailure α
  | .ok a => .ok a
  | .error cause => .error (.refused (.placement (.invalidConfig cause)))

/-- Treat a fault of the scoring layer as a failure to build. -/
def refusePlacement {α : Type} : Except PlacementError α → Except BuildFailure α
  | .ok a => .ok a
  | .error cause => .error (.refused (.placement cause))

/-- Build the tree of an inventory under a configuration; `listeners` are registered with every agent. The inventory is checked
first, then the configuration. -/
def ofInventory (inv : Inventory) (config : AgentConfig) (listeners : List String) : Except BuildFailure SchedulerTree := do
  refuse inv.validate
  refuse config.validate
  let ratios ← refusePlacement config.overcommit.ratios
  let transfer ← refusePlacement (TransferRatio.make config.agent.utilizationTransferRatio)
  let plan : TreePlan :=
    { inventory := inv
      limits := FanoutLimits.ofSettings config.scheduler.fanout.toNat config.scheduler.hopLatencyMs.toNat
      slots := config.agent.hostServiceThreads.toNat
      listeners }
  let (root, draft) ← plan.buildScheduler (inv.schedulers.length + 1) inv.root {}
  return { rootId := inv.root, root, registry := draft.registry, fleet := { ratios, transfer, agents := draft.agents },
           defaultTimeout := config.scheduler.defaultTimeoutMs.toNat }

/-- Where the agent of a host is. Of several registrations under one id the last counts. -/
def ref? (t : SchedulerTree) (id : String) : Option AgentRef := t.registry.reverse.lookup id

/-- The agent of a host. -/
def host? (t : SchedulerTree) (id : String) : Option HostAgent := (t.ref? id).bind t.fleet.agent?

/-- The ids of all hosts that have an agent. -/
def hostIds (t : SchedulerTree) : List String := t.registry.map (·.1)

/-- Replace the agent of a host. -/
def setHost (t : SchedulerTree) (id : String) (a : HostAgent) : SchedulerTree :=
  match t.ref? id with
  | some ref => { t with fleet := t.fleet.setAgent ref a }
  | none => t

/-- Deliver a fresh snapshot to the agent of the host it describes. -/
def updateSnapshot (t : SchedulerTree) (s : ResourceSnapshot) : Except NodeError (SchedulerTree × List InventoryNotice) :=
  match t.host? s.hostId with
  | none => .error (.unknownHost s.hostId)
  | some a => (a.updateSnapshot s).map fun (a, notices) => (t.setHost s.hostId a, notices)

/-- Put ratios in force. -/
def setRatios (t : SchedulerTree) (ratios : OvercommitRatios) : SchedulerTree :=
  { t with fleet := { t.fleet with ratios } }

/-- What the root decides about a request in given surroundings, and when. The root of a tree is a scheduler, which always
decides. -/
def decideIn (t : SchedulerTree) (s : Surroundings) (r : PlacementRequest) (now : Int) : Decided :=
  match (t.root.child s []).place r now with
  | { time := some time, answer := .decided decision } => { decision, time }
  | _ => { decision := .unschedulable, time := now }

/-- What the root decides when nothing changes meanwhile. -/
def decide (t : SchedulerTree) (draw : Position → Draw) (r : PlacementRequest) (now : Int) : Decided :=
  t.decideIn (Surroundings.steady t.fleet draw) r now

/-- Stop all agents from serving. -/
def close (t : SchedulerTree) : SchedulerTree := { t with fleet := t.fleet.close }

end SchedulerTree

end PlacementTree
