import PlacementTree.Labels
import PlacementTree.Overcommit

/-!
# Snapshots of hosts

A `ResourceSnapshot` is what a host last reported: what it has, what is in use, and what it is connected to. Only the datastores
and networks count as its inventory (`ResourceSnapshot.inventoryDiffers`); usage, disk, type and tags change without notice.
-/

namespace PlacementTree

/-- What a host reported. Memory is in MiB, disk in GiB. -/
structure ResourceSnapshot where
  hostId : String
  rawCpu : UInt32
  rawMemoryMb : UInt64
  usedCpu : UInt32 := 0
  usedMemoryMb : UInt64 := 0
  freeDiskGb : UInt64 := 0
  datastores : NameSet := NameSet.empty
  networks : NameSet := NameSet.empty
  hostType : Option String := none
  tags : TagMap := TagMap.empty
  deriving DecidableEq

namespace ResourceSnapshot

/-- The cpus that may be promised. -/
def effectiveCpu (s : ResourceSnapshot) (r : OvercommitRatios) : Float := r.effectiveCapacity .cpu s.rawCpu.toFloat

/-- The memory that may be promised, in MiB. -/
def effectiveMemoryMb (s : ResourceSnapshot) (r : OvercommitRatios) : Float :=
  r.effectiveCapacity .memory s.rawMemoryMb.toFloat

/-- Whether the host is connected to other datastores or networks. -/
def inventoryDiffers (s t : ResourceSnapshot) : Bool := s.datastores != t.datastores || s.networks != t.networks

end ResourceSnapshot

end PlacementTree
