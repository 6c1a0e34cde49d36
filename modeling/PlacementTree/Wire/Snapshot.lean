import PlacementTree.Datum
import PlacementTree.Snapshot

/-!
# Snapshots as data

A snapshot is a record of all its fields. Only the host type may be missing.
-/

namespace PlacementTree.ResourceSnapshot

def fieldNames : List String :=
  ["host_id", "raw_cpu", "raw_memory_mb", "used_cpu", "used_memory_mb", "free_disk_gb", "datastores", "networks", "host_type",
    "tags"]

def toDatum (s : ResourceSnapshot) : Datum :=
  .record
    [("host_id", .string s.hostId), ("raw_cpu", .ofUInt32 s.rawCpu), ("raw_memory_mb", .ofUInt64 s.rawMemoryMb),
      ("used_cpu", .ofUInt32 s.usedCpu), ("used_memory_mb", .ofUInt64 s.usedMemoryMb),
      ("free_disk_gb", .ofUInt64 s.freeDiskGb), ("datastores", .ofNames s.datastores), ("networks", .ofNames s.networks),
      ("host_type", .ofOption .string s.hostType), ("tags", .ofTags s.tags)]

def ofDatum? (datum : Datum) : Option ResourceSnapshot := do
  let fields ← datum.fields? fieldNames .refused
  let hostId ← fields.required "host_id" Datum.string?
  let rawCpu ← fields.required "raw_cpu" Datum.uint32?
  let rawMemoryMb ← fields.required "raw_memory_mb" Datum.uint64?
  let usedCpu ← fields.required "used_cpu" Datum.uint32?
  let usedMemoryMb ← fields.required "used_memory_mb" Datum.uint64?
  let freeDiskGb ← fields.required "free_disk_gb" Datum.uint64?
  let datastores ← fields.required "datastores" Datum.names?
  let networks ← fields.required "networks" Datum.names?
  let hostType ← fields.optional "host_type" Datum.string?
  let tags ← fields.required "tags" Datum.tags?
  return { hostId, rawCpu, rawMemoryMb, usedCpu, usedMemoryMb, freeDiskGb, datastores, networks, hostType, tags }

end PlacementTree.ResourceSnapshot
