import PlacementTree.Error

/-!
# Overcommit and transfer ratios

A host promises more than it has: its effective capacity is the raw one times an overcommit ratio, one for the cpu and one for
memory. Ratios are finite and at least one; `OvercommitRatios.make` is the only way from settings to ratios and refuses
anything else, the cpu first.

Shared ratios change by single writes, each of one ratio (`RatioWrite`). Adopting settings is planned against ratios read
beforehand (`OvercommitSettings.writesFrom`): it writes a ratio only if it differs from the one read, the cpu first, and it
writes nothing at all when a value is refused. A pair of ratios is a value, so whoever read a pair keeps it whatever is
written later.
-/

namespace PlacementTree

/-- An overcommit ratio is finite and at least one. -/
def checkOvercommit (resource : Resource) (value : Float) : Except ConfigError Float :=
  if value.isFinite && decide (1.0 ≤ value) then .ok value else .error (.overcommit resource value)

/-- A transfer ratio lies between zero and one, both included. -/
def checkTransfer (value : Float) : Except ConfigError Float :=
  if decide (0.0 ≤ value) && decide (value ≤ 1.0) then .ok value else .error (.transferRatio value)

/-- Overcommit settings as somebody wrote them, not checked. -/
structure OvercommitSettings where
  cpu : Float
  memory : Float
  deriving DecidableEq

/-- A pair of overcommit ratios in force. -/
structure OvercommitRatios where
  cpu : Float
  memory : Float
  deriving DecidableEq

namespace OvercommitRatios

/-- The ratios of checked values. -/
def make (cpu memory : Float) : Except PlacementError OvercommitRatios :=
  match checkOvercommit .cpu cpu, checkOvercommit .memory memory with
  | .error cause, _ => .error (.invalidConfig cause)
  | .ok _, .error cause => .error (.invalidConfig cause)
  | .ok cpu, .ok memory => .ok { cpu, memory }

/-- No overcommit. -/
def none : OvercommitRatios := { cpu := 1.0, memory := 1.0 }

def ratio (r : OvercommitRatios) : Resource → Float
  | .cpu => r.cpu
  | .memory => r.memory

/-- What a raw capacity counts for. -/
def effectiveCapacity (r : OvercommitRatios) (resource : Resource) (raw : Float) : Float := raw * r.ratio resource

end OvercommitRatios

/-- The ratios of settings. -/
def OvercommitSettings.ratios (s : OvercommitSettings) : Except PlacementError OvercommitRatios :=
  OvercommitRatios.make s.cpu s.memory

/-- One write to the shared ratios. -/
inductive RatioWrite where
  | cpu (ratio : Float)
  | memory (ratio : Float)
  deriving DecidableEq

/-- The ratios after a write. -/
def OvercommitRatios.write (r : OvercommitRatios) : RatioWrite → OvercommitRatios
  | .cpu ratio => { r with cpu := ratio }
  | .memory ratio => { r with memory := ratio }

/-- The writes that adopt settings for somebody who read the ratios `seen`. -/
def OvercommitSettings.writesFrom (s : OvercommitSettings) (seen : OvercommitRatios) :
    Except PlacementError (List RatioWrite) :=
  s.ratios.map fun next =>
    (if next.cpu != seen.cpu then [.cpu next.cpu] else []) ++ (if next.memory != seen.memory then [.memory next.memory] else [])

namespace OvercommitRatios

/-- Set the cpu ratio alone. -/
def setCpu (r : OvercommitRatios) (value : Float) : Except PlacementError OvercommitRatios :=
  match checkOvercommit .cpu value with
  | .error cause => .error (.invalidConfig cause)
  | .ok ratio => .ok (r.write (.cpu ratio))

/-- Set the memory ratio alone. -/
def setMemory (r : OvercommitRatios) (value : Float) : Except PlacementError OvercommitRatios :=
  match checkOvercommit .memory value with
  | .error cause => .error (.invalidConfig cause)
  | .ok ratio => .ok (r.write (.memory ratio))

/-- Adopt settings with nobody else writing: the new ratios, and whether anything was written. -/
def adopt (r : OvercommitRatios) (s : OvercommitSettings) : Except PlacementError (OvercommitRatios × Bool) :=
  (s.writesFrom r).map fun writes => (writes.foldl write r, !writes.isEmpty)

end OvercommitRatios

/-- How much the free share of the cpu counts in a combined score; the free share of memory counts for the rest. -/
structure TransferRatio where
  value : Float
  deriving DecidableEq

/-- The transfer ratio of a checked value. -/
def TransferRatio.make (value : Float) : Except PlacementError TransferRatio :=
  match checkTransfer value with
  | .error cause => .error (.invalidConfig cause)
  | .ok value => .ok { value }

end PlacementTree
