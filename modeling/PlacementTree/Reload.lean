import PlacementTree.Feed
import PlacementTree.File.Config

/-!
# Reloading the configuration

On a hang-up the configuration file is read again. A file that cannot be read or is not accepted changes nothing; of an accepted
one only the overcommit settings are published, everything else of it waits for the next start.
-/

namespace PlacementTree

/-- The overcommit settings of a file that may be missing, if it is accepted as a whole. -/
def acceptedSettings? (content : Option String) : Option OvercommitSettings :=
  match content.map AgentConfig.parse with
  | some (.ok config) => some config.overcommit
  | _ => none

/-- What a hang-up does to the feed, given what the file holds at that moment. -/
def OvercommitFeed.hangUp (f : OvercommitFeed) (content : Option String) : OvercommitFeed :=
  match acceptedSettings? content with
  | some settings => f.publish settings
  | none => f

end PlacementTree
