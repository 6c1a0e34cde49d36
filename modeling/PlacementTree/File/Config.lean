import PlacementTree.Decimal.Style
import PlacementTree.File.Error
import PlacementTree.Toml.Document
import PlacementTree.Wire.Config

/-!
# Configuration files

A configuration file is a TOML document. `AgentConfig.parse` reads one and checks what it says; `AgentConfig.write?` writes one,
with every setting on a line of its own in the order in which they are declared. A seed that is not set is not written. TOML has
no whole numbers beyond 63 bits, so a configuration with one cannot be written.
-/

namespace PlacementTree

/-- A setting as it stands in a configuration file. -/
inductive Setting where
  | count (n : UInt64)
  | ratio (x : Float)

/-- The text of a setting. -/
def Setting.write? : Setting → Option String
  | .count n => if n.toNat < Toml.signedLimit then some (String.ofList (Nat.toDigits 10 n.toNat)) else none
  | .ratio x => some (Decimal.Style.configuration.write x)

/-- A line of a configuration file. -/
def settingLine? (setting : String × Setting) : Option String :=
  setting.2.write?.map fun text => setting.1 ++ " = " ++ text ++ "\n"

/-- A section of a configuration file: its header and its lines. -/
def sectionText? (name : String) (settings : List (String × Setting)) : Option String :=
  (settings.mapM settingLine?).map fun lines => "[" ++ name ++ "]\n" ++ String.join lines

def AgentSection.settings (a : AgentSection) : List (String × Setting) :=
  [("host_service_threads", .count a.hostServiceThreads), ("scheduler_service_threads", .count a.schedulerServiceThreads),
    ("utilization_transfer_ratio", .ratio a.utilizationTransferRatio), ("cpu_overcommit", .ratio a.cpuOvercommit),
    ("memory_overcommit", .ratio a.memoryOvercommit)]

def SchedulerSection.settings (s : SchedulerSection) : List (String × Setting) :=
  [("fanout", .count s.fanout), ("hop_latency_ms", .count s.hopLatencyMs), ("default_timeout_ms", .count s.defaultTimeoutMs)] ++
    (s.seed.map fun seed => ("seed", Setting.count seed)).toList

namespace AgentConfig

/-- The text of a configuration file, if the configuration can be written. -/
def write? (c : AgentConfig) : Option String := do
  let agent ← sectionText? "agent" c.agent.settings
  let scheduler ← sectionText? "scheduler" c.scheduler.settings
  return agent ++ "\n" ++ scheduler

/-- The configuration that a file says, not checked. -/
def read? (text : String) : Option AgentConfig := (Toml.read text).bind (AgentConfig.ofDatum? .passedOver)

/-- The configuration of a file. -/
def parse (text : String) : Except FileError AgentConfig :=
  match read? text with
  | none => .error .malformed
  | some config => FileError.ofCheck config config.validate

end AgentConfig

end PlacementTree
