import PlacementTree.Config
import PlacementTree.Datum

/-!
# The configuration as data

Every setting of a configuration has a default, so each may be missing, and so may whole sections. Reading does not check the
values. Overcommit settings that stand by themselves have no defaults.
-/

namespace PlacementTree

namespace OvercommitSettings

def fieldNames : List String := ["cpu", "memory"]

def toDatum (s : OvercommitSettings) : Datum := .record [("cpu", .ofFloat s.cpu), ("memory", .ofFloat s.memory)]

def ofDatum? (datum : Datum) : Option OvercommitSettings := do
  let fields ← datum.fields? fieldNames .refused
  let cpu ← fields.required "cpu" Datum.float?
  let memory ← fields.required "memory" Datum.float?
  return { cpu, memory }

end OvercommitSettings

namespace AgentSection

def fieldNames : List String :=
  ["host_service_threads", "scheduler_service_threads", "utilization_transfer_ratio", "cpu_overcommit", "memory_overcommit"]

def toDatum (a : AgentSection) : Datum :=
  .record
    [("host_service_threads", .ofUInt64 a.hostServiceThreads),
      ("scheduler_service_threads", .ofUInt64 a.schedulerServiceThreads),
      ("utilization_transfer_ratio", .ofFloat a.utilizationTransferRatio), ("cpu_overcommit", .ofFloat a.cpuOvercommit),
      ("memory_overcommit", .ofFloat a.memoryOvercommit)]

def ofDatum? (surplus : Surplus) (datum : Datum) : Option AgentSection := do
  let default : AgentSection := {}
  let fields ← datum.fields? fieldNames surplus
  let hostServiceThreads ← fields.defaulted "host_service_threads" default.hostServiceThreads Datum.uint64?
  let schedulerServiceThreads ← fields.defaulted "scheduler_service_threads" default.schedulerServiceThreads Datum.uint64?
  let utilizationTransferRatio ← fields.defaulted "utilization_transfer_ratio" default.utilizationTransferRatio Datum.float?
  let cpuOvercommit ← fields.defaulted "cpu_overcommit" default.cpuOvercommit Datum.float?
  let memoryOvercommit ← fields.defaulted "memory_overcommit" default.memoryOvercommit Datum.float?
  return { hostServiceThreads, schedulerServiceThreads, utilizationTransferRatio, cpuOvercommit, memoryOvercommit }

end AgentSection

namespace SchedulerSection

def fieldNames : List String := ["fanout", "hop_latency_ms", "default_timeout_ms", "seed"]

def toDatum (s : SchedulerSection) : Datum :=
  .record
    [("fanout", .ofUInt64 s.fanout), ("hop_latency_ms", .ofUInt64 s.hopLatencyMs),
      ("default_timeout_ms", .ofUInt64 s.defaultTimeoutMs), ("seed", .ofOption .ofUInt64 s.seed)]

def ofDatum? (surplus : Surplus) (datum : Datum) : Option SchedulerSection := do
  let default : SchedulerSection := {}
  let fields ← datum.fields? fieldNames surplus
  let fanout ← fields.defaulted "fanout" default.fanout Datum.uint64?
  let hopLatencyMs ← fields.defaulted "hop_latency_ms" default.hopLatencyMs Datum.uint64?
  let defaultTimeoutMs ← fields.defaulted "default_timeout_ms" default.defaultTimeoutMs Datum.uint64?
  let seed ← fields.defaulted "seed" default.seed (Datum.nullable? Datum.uint64?)
  return { fanout, hopLatencyMs, defaultTimeoutMs, seed }

end SchedulerSection

namespace AgentConfig

def fieldNames : List String := ["agent", "scheduler"]

def toDatum (c : AgentConfig) : Datum := .record [("agent", c.agent.toDatum), ("scheduler", c.scheduler.toDatum)]

def ofDatum? (surplus : Surplus) (datum : Datum) : Option AgentConfig := do
  let fields ← datum.fields? fieldNames surplus
  let agent ← fields.defaulted "agent" {} (AgentSection.ofDatum? surplus)
  let scheduler ← fields.defaulted "scheduler" {} (SchedulerSection.ofDatum? surplus)
  return { agent, scheduler }

end AgentConfig

end PlacementTree
