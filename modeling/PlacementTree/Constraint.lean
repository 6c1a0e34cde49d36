import PlacementTree.Snapshot

/-!
# Constraints on hosts

A request may ask for a datastore, a network, a host type or a tag. A host meets a constraint by what its snapshot says; a
subtree meets it if some host below does, so a node is described by the predicate of the constraints it meets
(`satisfiesAll`).
-/

namespace PlacementTree

/-- What a request asks of a host. -/
inductive Constraint where
  | datastore (id : String)
  | network (id : String)
  | hostType (name : String)
  | tag (key value : String)
  deriving DecidableEq, Repr

/-- A constraint as text. -/
def Constraint.text : Constraint → String
  | .datastore id => "datastore=" ++ id
  | .network id => "network=" ++ id
  | .hostType name => "host_type=" ++ name
  | .tag key value => "tag:" ++ key ++ "=" ++ value

/-- Whether a host meets a constraint. -/
def ResourceSnapshot.satisfies (s : ResourceSnapshot) : Constraint → Bool
  | .datastore id => s.datastores.contains id
  | .network id => s.networks.contains id
  | .hostType name => s.hostType == some name
  | .tag key value => s.tags.get? key == some value

/-- Whether all constraints of a list are met, given which ones are. -/
def satisfiesAll (satisfies : Constraint → Bool) (constraints : List Constraint) : Bool := constraints.all satisfies

end PlacementTree
