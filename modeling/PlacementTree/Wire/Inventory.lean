import PlacementTree.Datum
import PlacementTree.Inventory.Basic

/-!
# The inventory as data

Of an inventory only the root is required, of a scheduler only its id, of a host its id, its cpus and its memory.
-/

namespace PlacementTree

namespace SchedulerEntry

def fieldNames : List String := ["id", "children", "hosts"]

def toDatum (s : SchedulerEntry) : Datum :=
  .record [("id", .string s.id), ("children", .list (s.children.map .string)), ("hosts", .list (s.hosts.map .string))]

def ofDatum? (surplus : Surplus) (datum : Datum) : Option SchedulerEntry := do
  let fields ← datum.fields? fieldNames surplus
  let id ← fields.required "id" Datum.string?
  let children ← fields.defaulted "children" [] (Datum.list? Datum.string?)
  let hosts ← fields.defaulted "hosts" [] (Datum.list? Datum.string?)
  return { id, children, hosts }

end SchedulerEntry

namespace HostEntry

def fieldNames : List String :=
  ["id", "cpu_count", "memory_mb", "used_cpu", "used_memory_mb", "free_disk_gb", "datastores", "networks", "host_type", "tags"]

def toDatum (h : HostEntry) : Datum :=
  .record
    [("id", .string h.id), ("cpu_count", .ofUInt32 h.cpuCount), ("memory_mb", .ofUInt64 h.memoryMb),
      ("used_cpu", .ofUInt32 h.usedCpu), ("used_memory_mb", .ofUInt64 h.usedMemoryMb),
      ("free_disk_gb", .ofUInt64 h.freeDiskGb), ("datastores", .ofNames h.datastores), ("networks", .ofNames h.networks),
      ("host_type", .ofOption .string h.hostType), ("tags", .ofTags h.tags)]

def ofDatum? (surplus : Surplus) (datum : Datum) : Option HostEntry := do
  let fields ← datum.fields? fieldNames surplus
  let id ← fields.required "id" Datum.string?
  let cpuCount ← fields.required "cpu_count" Datum.uint32?
  let memoryMb ← fields.required "memory_mb" Datum.uint64?
  let usedCpu ← fields.defaulted "used_cpu" 0 Datum.uint32?
  let usedMemoryMb ← fields.defaulted "used_memory_mb" 0 Datum.uint64?
  let freeDiskGb ← fields.defaulted "free_disk_gb" 0 Datum.uint64?
  let datastores ← fields.defaulted "datastores" NameSet.empty Datum.names?
  let networks ← fields.defaulted "networks" NameSet.empty Datum.names?
  let hostType ← fields.optional "host_type" Datum.string?
  let tags ← fields.defaulted "tags" TagMap.empty Datum.tags?
  return { id, cpuCount, memoryMb, usedCpu, usedMemoryMb, freeDiskGb, datastores, networks, hostType, tags }

end HostEntry

namespace Inventory

def fieldNames : List String := ["root", "schedulers", "hosts"]

def toDatum (inv : Inventory) : Datum :=
  .record
    [("root", .string inv.root), ("schedulers", .list (inv.schedulers.map (·.toDatum))),
      ("hosts", .list (inv.hosts.map (·.toDatum)))]

def ofDatum? (surplus : Surplus) (datum : Datum) : Option Inventory := do
  let fields ← datum.fields? fieldNames surplus
  let root ← fields.required "root" Datum.string?
  let schedulers ← fields.defaulted "schedulers" [] (Datum.list? (SchedulerEntry.ofDatum? surplus))
  let hosts ← fields.defaulted "hosts" [] (Datum.list? (HostEntry.ofDatum? surplus))
  return { root, schedulers, hosts }

end Inventory

end PlacementTree
