import PlacementTree.Datum
import PlacementTree.Request

/-!
# Demands and constraints as data

What a demand and a constraint are written as and read from. A constraint is an object with its kind as the tag.
-/

namespace PlacementTree

namespace ResourceDemand

def fieldNames : List String := ["cpu", "memory_mb", "disk_gb"]

def toDatum (d : ResourceDemand) : Datum :=
  .record [("cpu", .ofUInt32 d.cpu), ("memory_mb", .ofUInt64 d.memoryMb), ("disk_gb", .ofUInt64 d.diskGb)]

/-- A demand. Without a disk size no disk is asked for. -/
def ofDatum? (datum : Datum) : Option ResourceDemand := do
  let fields ← datum.fields? fieldNames .refused
  let cpu ← fields.required "cpu" Datum.uint32?
  let memoryMb ← fields.required "memory_mb" Datum.uint64?
  let diskGb ← fields.defaulted "disk_gb" 0 Datum.uint64?
  return { cpu, memoryMb, diskGb }

end ResourceDemand

namespace Constraint

/-- The kinds of constraints. -/
def kinds : List String := ["datastore", "network", "host_type", "tag"]

def toDatum : Constraint → Datum
  | .datastore id => .record [("kind", .string "datastore"), ("id", .string id)]
  | .network id => .record [("kind", .string "network"), ("id", .string id)]
  | .hostType name => .record [("kind", .string "host_type"), ("name", .string name)]
  | .tag key value => .record [("kind", .string "tag"), ("key", .string key), ("value", .string value)]

/-- One name, the only field beside a kind. -/
def oneName? (field : String) (content : Datum) : Option String := do
  let fields ← content.fields? [field] .refused
  fields.required field Datum.string?

/-- The constraint of a kind. -/
def ofKind? (kind : String) (content : Datum) : Option Constraint :=
  match kind with
  | "datastore" => (oneName? "id" content).map .datastore
  | "network" => (oneName? "id" content).map .network
  | "host_type" => (oneName? "name" content).map .hostType
  | "tag" => do
    let fields ← content.fields? ["key", "value"] .refused
    let key ← fields.required "key" Datum.string?
    let value ← fields.required "value" Datum.string?
    return .tag key value
  | _ => none

/-- A constraint that stands by itself. -/
def ofDatum? (datum : Datum) : Option Constraint := do
  let tagged ← datum.tagged? "kind"
  ofKind? (← tagged.name?) tagged.content

/-- A constraint inside an object that is held as a whole. -/
def ofHeldDatum? (datum : Datum) : Option Constraint := do
  let tagged ← datum.tagged? "kind"
  ofKind? (← tagged.nameOrNumber? kinds) tagged.content

end Constraint

end PlacementTree
