import PlacementTree.Wire.Decision
import PlacementTree.Wire.Request
import PlacementTree.Wire.Snapshot

/-!
# Commands and replies as data

A session is told to place a workload or is given a fresh snapshot. Its replies are decisions, which carry the id of the
request, acknowledgements of snapshots, and errors.
-/

namespace PlacementTree

/-- What a session is told. Without a timeout the default one counts. -/
inductive Command where
  | place (id : String) (demand : ResourceDemand) (constraints : List Constraint) (timeoutMs : Option UInt64)
  | snapshot (snapshot : ResourceSnapshot)

/-- What a session answers. -/
inductive Reply where
  | decision (id : String) (decision : PlacementDecision)
  | snapshotAccepted (hostId : String)
  | error (message : String)
  deriving DecidableEq

namespace Command

/-- The command of a type. -/
def ofType? (type : String) (content : Datum) : Option Command :=
  match type with
  | "place" => do
    let fields ← content.fields? ["id", "demand", "constraints", "timeout_ms"] .refused
    let id ← fields.required "id" Datum.string?
    let demand ← fields.required "demand" ResourceDemand.ofDatum?
    let constraints ← fields.defaulted "constraints" [] (Datum.list? Constraint.ofHeldDatum?)
    let timeoutMs ← fields.optional "timeout_ms" Datum.uint64?
    return .place id demand constraints timeoutMs
  | "snapshot" => do
    let fields ← content.fields? ["snapshot"] .refused
    let snapshot ← fields.required "snapshot" ResourceSnapshot.ofDatum?
    return .snapshot snapshot
  | _ => none

def ofDatum? (datum : Datum) : Option Command := do
  let tagged ← datum.tagged? "type"
  ofType? (← tagged.name?) tagged.content

end Command

/-- A reply as an object with its type as the tag. -/
def Reply.toDatum : Reply → Datum
  | .decision id outcome => .record [("type", .string "decision"), ("id", .string id), ("decision", outcome.toDatum)]
  | .snapshotAccepted hostId => .record [("type", .string "snapshot_accepted"), ("host_id", .string hostId)]
  | .error message => .record [("type", .string "error"), ("message", .string message)]

end PlacementTree
