import PlacementTree.Decimal.Style

/-!
# What can be wrong, and its wording

Every error of the library is a cause, not a text. The wording stands in one `message` function for each type.

A `ConfigError` says what is wrong with a configuration, an inventory or a ratio; a `PlacementError` is one that reached the
scoring layer; a `NodeError` is one that a node of the tree answers or that building the tree meets.
-/

namespace PlacementTree

/-- The resources that may be overcommitted. -/
inductive Resource where
  | cpu | memory
  deriving DecidableEq, Repr

def Resource.name : Resource → String
  | .cpu => "cpu"
  | .memory => "memory"

/-- The whole-number settings that must not be zero. -/
inductive CountSetting where
  | hostServiceThreads | schedulerServiceThreads | fanout | defaultTimeout
  deriving DecidableEq, Repr

/-- Where a setting stands in the configuration. -/
def CountSetting.key : CountSetting → String
  | .hostServiceThreads => "agent.host_service_threads"
  | .schedulerServiceThreads => "agent.scheduler_service_threads"
  | .fanout => "scheduler.fanout"
  | .defaultTimeout => "scheduler.default_timeout_ms"

def CountSetting.requirement : CountSetting → String
  | .defaultTimeout => "must be greater than zero"
  | _ => "must be at least 1"

/-- What keeps an inventory from being a tree below its root. -/
inductive InventoryFault where
  | duplicateId (id : String)
  | rootUndefined (root : String)
  | childrenAndHosts (scheduler : String)
  | unknownChild (scheduler child : String)
  | unknownHost (scheduler host : String)
  | reachedTwice (id : String)
  deriving DecidableEq, Repr

/-- A name between grave accents. -/
def quoted (name : String) : String := "`" ++ name ++ "`"

def InventoryFault.message : InventoryFault → String
  | .duplicateId id => "duplicate id " ++ quoted id
  | .rootUndefined root => "root scheduler " ++ quoted root ++ " is not defined"
  | .childrenAndHosts scheduler => "scheduler " ++ quoted scheduler ++ " lists both children and hosts"
  | .unknownChild scheduler child => "scheduler " ++ quoted scheduler ++ " references unknown child " ++ quoted child
  | .unknownHost scheduler host => "scheduler " ++ quoted scheduler ++ " references unknown host " ++ quoted host
  | .reachedTwice id => "node " ++ quoted id ++ " is reachable more than once"

/-- What is wrong with a configuration, an inventory or a ratio. -/
inductive ConfigError where
  | overcommit (resource : Resource) (value : Float)
  | transferRatio (value : Float)
  | zeroSetting (setting : CountSetting)
  | inventory (fault : InventoryFault)
  deriving DecidableEq

def ConfigError.message : ConfigError → String
  | .overcommit resource value =>
    "invalid overcommit ratio for " ++ resource.name ++ ": " ++ Decimal.Style.message.write value ++
      " (must be a finite value >= 1.0)"
  | .transferRatio value =>
    "invalid utilization transfer ratio: " ++ Decimal.Style.message.write value ++ " (must be within [0.0, 1.0])"
  | .zeroSetting setting => "invalid value for " ++ setting.key ++ ": " ++ setting.requirement
  | .inventory fault => "invalid inventory: " ++ fault.message

/-- A configuration that the scoring layer cannot use. -/
inductive PlacementError where
  | invalidConfig (cause : ConfigError)
  deriving DecidableEq

def PlacementError.message : PlacementError → String
  | .invalidConfig cause => "invalid configuration: " ++ cause.message

/-- Why a node cannot serve. -/
inductive Outage where
  | shutDown | notInInventory
  deriving DecidableEq, Repr

def Outage.message : Outage → String
  | .shutDown => "host agent is shut down"
  | .notInInventory => "not in inventory"

/-- What a node of the tree answers when it fails, and what building the tree meets. -/
inductive NodeError where
  | placement (cause : PlacementError)
  | unavailable (node : String) (outage : Outage)
  | childTimedOut (child : String)
  | unknownHost (host : String)
  | snapshotMismatch (expected got : String)
  deriving DecidableEq

def NodeError.message : NodeError → String
  | .placement cause => "placement error: " ++ cause.message
  | .unavailable node outage => "node " ++ node ++ " unavailable: " ++ outage.message
  | .childTimedOut child => "child " ++ child ++ " did not answer before its deadline"
  | .unknownHost host => "unknown host " ++ host
  | .snapshotMismatch expected got => "snapshot for host " ++ got ++ " delivered to agent " ++ expected

end PlacementTree
