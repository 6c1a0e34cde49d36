import PlacementTree.Datum
import PlacementTree.Decision

/-!
# Decisions as data

A decision is an object with its outcome as the tag; the score and the path of a placement stand beside it. JSON has no notation
for infinities and not-a-numbers: they are written as nothing, and nothing is no number when it is read back.
-/

namespace PlacementTree

/-- The bits of a number that was read. -/
def Datum.binary64? (datum : Datum) : Option Binary64 := datum.float?.map Binary64.ofFloat

/-- A score's number. -/
def Datum.ofBinary64 (x : Binary64) : Datum := if x.isFinite then .float x.toFloat else .null

namespace CandidateScore

def fieldNames : List String := ["candidate_id", "cpu_score", "memory_score", "combined", "free_memory_mb"]

def toDatum (s : CandidateScore) : Datum :=
  .record
    [("candidate_id", .string s.candidateId), ("cpu_score", .ofBinary64 s.cpuScore), ("memory_score", .ofBinary64 s.memoryScore),
      ("combined", .ofBinary64 s.combined), ("free_memory_mb", .ofBinary64 s.freeMemoryMb)]

def ofDatum? (datum : Datum) : Option CandidateScore := do
  let fields ← datum.fields? fieldNames .refused
  let candidateId ← fields.required "candidate_id" Datum.string?
  let cpuScore ← fields.required "cpu_score" Datum.binary64?
  let memoryScore ← fields.required "memory_score" Datum.binary64?
  let combined ← fields.required "combined" Datum.binary64?
  let freeMemoryMb ← fields.required "free_memory_mb" Datum.binary64?
  return { candidateId, cpuScore, memoryScore, combined, freeMemoryMb }

end CandidateScore

namespace PlacementResponse

def fieldNames : List String := ["score", "path"]

/-- The fields of a response, which also stand beside the outcome of a placement. -/
def fieldData (r : PlacementResponse) : List (String × Datum) :=
  [("score", r.score.toDatum), ("path", .list (r.path.map .string))]

def toDatum (r : PlacementResponse) : Datum := .record r.fieldData

def ofDatum? (datum : Datum) : Option PlacementResponse := do
  let fields ← datum.fields? fieldNames .refused
  let score ← fields.required "score" CandidateScore.ofDatum?
  let path ← fields.required "path" (Datum.list? Datum.string?)
  return { score, path }

end PlacementResponse

namespace PlacementDecision

def toDatum : PlacementDecision → Datum
  | .placed response => .record (("outcome", .string "placed") :: response.fieldData)
  | .unschedulable => .record [("outcome", .string "unschedulable")]
  | .timedOut => .record [("outcome", .string "timed_out")]

/-- The decision of an outcome. -/
def ofOutcome? (outcome : String) (content : Datum) : Option PlacementDecision :=
  match outcome with
  | "placed" => (PlacementResponse.ofDatum? content).map .placed
  | "unschedulable" => if content.bare then some .unschedulable else none
  | "timed_out" => if content.bare then some .timedOut else none
  | _ => none

def ofDatum? (datum : Datum) : Option PlacementDecision := do
  let tagged ← datum.tagged? "outcome"
  ofOutcome? (← tagged.name?) tagged.content

end PlacementDecision

end PlacementTree
