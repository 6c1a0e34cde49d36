import PlacementTree.Snapshot

/-!
# The inventory

An inventory lists schedulers and hosts, each with an id, and names the root. A scheduler lists either other nodes as its
children or hosts that it ranks itself.
-/

namespace PlacementTree

/-- A scheduler: the nodes it asks, or the hosts it ranks itself. -/
structure SchedulerEntry where
  id : String
  children : List String := []
  hosts : List String := []
  deriving DecidableEq, Repr

/-- A host as the inventory describes it. -/
structure HostEntry where
  id : String
  cpuCount : UInt32
  memoryMb : UInt64
  usedCpu : UInt32 := 0
  usedMemoryMb : UInt64 := 0
  freeDiskGb : UInt64 := 0
  datastores : NameSet := NameSet.empty
  networks : NameSet := NameSet.empty
  hostType : Option String := none
  tags : TagMap := TagMap.empty
  deriving DecidableEq

/-- All schedulers and hosts, in order, and the id of the root. -/
structure Inventory where
  root : String
  schedulers : List SchedulerEntry := []
  hosts : List HostEntry := []
  deriving DecidableEq

/-- The snapshot of a host before it has reported anything. -/
def HostEntry.snapshot (h : HostEntry) : ResourceSnapshot :=
  { hostId := h.id, rawCpu := h.cpuCount, rawMemoryMb := h.memoryMb, usedCpu := h.usedCpu, usedMemoryMb := h.usedMemoryMb,
    freeDiskGb := h.freeDiskGb, datastores := h.datastores, networks := h.networks, hostType := h.hostType, tags := h.tags }

/-- Everything below a scheduler, in order. -/
def SchedulerEntry.below (s : SchedulerEntry) : List String := s.children ++ s.hosts

namespace Inventory

/-- The first scheduler of an id. -/
def scheduler? (inv : Inventory) (id : String) : Option SchedulerEntry := inv.schedulers.find? (·.id == id)

/-- The first host of an id. -/
def host? (inv : Inventory) (id : String) : Option HostEntry := inv.hosts.find? (·.id == id)

def schedulerIds (inv : Inventory) : List String := inv.schedulers.map (·.id)

def hostIds (inv : Inventory) : List String := inv.hosts.map (·.id)

/-- The ids of all nodes, schedulers first. -/
def ids (inv : Inventory) : List String := inv.schedulerIds ++ inv.hostIds

end Inventory

end PlacementTree
