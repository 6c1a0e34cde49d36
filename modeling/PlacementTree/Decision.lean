import PlacementTree.Score

/-!
# Decisions

A decision names a host and the path to it, or says why there is none. A response is assembled from below: the node that scored
the host starts the path, and every scheduler that passes the response on puts its own id in front (`PlacementResponse.via`);
the score is passed on as it is.
-/

namespace PlacementTree

/-- A host found for a request: its score, and the ids of the nodes from the one that answers down to the host. -/
structure PlacementResponse where
  score : CandidateScore
  path : List String
  deriving DecidableEq, Repr

namespace PlacementResponse

/-- The host. -/
def candidateId (r : PlacementResponse) : String := r.score.candidateId

def combined (r : PlacementResponse) : Binary64 := r.score.combined

/-- The same response as seen one level up. -/
def via (r : PlacementResponse) (node : String) : PlacementResponse := { r with path := node :: r.path }

end PlacementResponse

/-- The outcome of a request at one node. -/
inductive PlacementDecision where
  | placed (response : PlacementResponse)
  | unschedulable
  | timedOut
  deriving DecidableEq, Repr

/-- The response of a decision that places the workload. -/
def PlacementDecision.response? : PlacementDecision → Option PlacementResponse
  | .placed response => some response
  | _ => none

end PlacementTree
