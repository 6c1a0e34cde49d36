import PlacementTree.Overcommit

/-!
# The configuration

Two sections of settings with defaults. Reading one does not check it; `AgentConfig.validate` does, and reports the first thing
wrong in a fixed order: the three ratios, then the four counts that must not be zero.
-/

namespace PlacementTree

/-- Settings of the agent. -/
structure AgentSection where
  hostServiceThreads : UInt64 := 4
  schedulerServiceThreads : UInt64 := 8
  utilizationTransferRatio : Float := 0.5
  cpuOvercommit : Float := 1.0
  memoryOvercommit : Float := 1.0
  deriving DecidableEq

/-- Settings of the schedulers. Times are in milliseconds. Without a seed samples are not reproducible. -/
structure SchedulerSection where
  fanout : UInt64 := 4
  hopLatencyMs : UInt64 := 50
  defaultTimeoutMs : UInt64 := 2000
  seed : Option UInt64 := none
  deriving DecidableEq

/-- The whole configuration. -/
structure AgentConfig where
  agent : AgentSection := {}
  scheduler : SchedulerSection := {}
  deriving DecidableEq

namespace AgentConfig

instance : Inhabited AgentConfig := ⟨{}⟩

/-- Refuse a count of zero. -/
def checkCount (setting : CountSetting) (value : UInt64) : Except ConfigError Unit :=
  if value = 0 then .error (.zeroSetting setting) else .ok ()

/-- Check all settings, the first fault wins. -/
def validate (c : AgentConfig) : Except ConfigError Unit := do
  let _ ← checkOvercommit .cpu c.agent.cpuOvercommit
  let _ ← checkOvercommit .memory c.agent.memoryOvercommit
  let _ ← checkTransfer c.agent.utilizationTransferRatio
  checkCount .hostServiceThreads c.agent.hostServiceThreads
  checkCount .schedulerServiceThreads c.agent.schedulerServiceThreads
  checkCount .fanout c.scheduler.fanout
  checkCount .defaultTimeout c.scheduler.defaultTimeoutMs

/-- The overcommit settings, the part of the configuration that may change while a tree is in use. -/
def overcommit (c : AgentConfig) : OvercommitSettings := { cpu := c.agent.cpuOvercommit, memory := c.agent.memoryOvercommit }

/-- Equality of settings by value: both zeros are equal and a not-a-number equals nothing. -/
def sameSettings (a b : AgentConfig) : Bool :=
  a.agent.hostServiceThreads == b.agent.hostServiceThreads &&
    a.agent.schedulerServiceThreads == b.agent.schedulerServiceThreads &&
    a.agent.utilizationTransferRatio == b.agent.utilizationTransferRatio &&
    a.agent.cpuOvercommit == b.agent.cpuOvercommit &&
    a.agent.memoryOvercommit == b.agent.memoryOvercommit &&
    a.scheduler == b.scheduler

end AgentConfig

end PlacementTree
