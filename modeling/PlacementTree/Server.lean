import PlacementTree.Reload
import PlacementTree.Session

/-!
# The server

A server is a session over a tree together with the feed that keeps the tree's overcommit ratios up to date. The feed starts with
the settings of the configuration at hand. On a hang-up the configuration file, if there is one, is read again, and the settings of a
file that is accepted are published; once the session is over nobody reads it any more. Session, hang-ups and follower take turns in any
order (`ServerEvent`).
-/

namespace PlacementTree

/-- What came of a hang-up: the ratios changed, they did not, the file was not accepted, or there is no file. -/
inductive ReloadOutcome where
  | changed | unchanged | failed | noConfigFile
  deriving DecidableEq, Repr

/-- A session, the feed of its tree's ratios, and whether the configuration came from a file. -/
structure Server where
  session : Session
  feed : OvercommitFeed
  hasConfigFile : Bool

namespace Server

/-- The ratios in force. -/
def ratios (s : Server) : OvercommitRatios := s.session.tree.fleet.ratios

/-- One step of the follower, which may write the ratios in the tree of the session. -/
def follow (s : Server) (step : FollowerStep) : Server :=
  let (feed, ratios) := s.feed.follow s.ratios step
  { s with feed, session := s.session.setRatios ratios }

/-- What the owner of the configuration does on a hang-up, given what the file holds at that moment. -/
def reload (s : Server) (content : Option String) : Server :=
  if s.hasConfigFile then { s with feed := s.feed.hangUp content } else s

end Server

/-- What may happen to a server. A hang-up comes with what the configuration file holds at that moment, if it can be read; others see
nothing of it before the settings of the file are published, so reading and publishing are one event. -/
inductive ServerEvent where
  | session (event : SessionEvent)
  | hangUp (content : Option String)
  | stopReloading
  | follow (step : FollowerStep)

namespace Server

/-- One event. -/
def step (s : Server) : ServerEvent → Server
  | .session event => { s with session := s.session.step event }
  | .hangUp content => s.reload content
  | .stopReloading => { s with feed := s.feed.stop }
  | .follow step => s.follow step

/-- A run of a server. -/
def run (s : Server) (events : List ServerEvent) : Server := events.foldl step s

/-- A server for a tree and its configuration before its follower has done anything. -/
def launch (tree : SchedulerTree) (config : AgentConfig) (hasConfigFile : Bool) : Server :=
  { session := { tree }, feed := OvercommitFeed.start config.overcommit, hasConfigFile }

/-- Let the follower of the feed go on until it waits. -/
def settle (s : Server) : Server := s.run (OvercommitFeed.round.map .follow)

/-- A server whose follower waits. -/
def start (tree : SchedulerTree) (config : AgentConfig) (hasConfigFile : Bool) : Server :=
  (launch tree config hasConfigFile).settle

/-- Read a line and answer it before anything else happens. -/
def exchange (s : Server) (line : InputLine) (draw : Position → Draw) (now : Int) : Option Reply × Server :=
  let (reply, session) := s.session.exchange line (Surroundings.steady s.session.tree.fleet draw) now
  (reply, { s with session })

/-- A hang-up with nothing else happening until the follower waits again: what came of it. -/
def hangUp (s : Server) (content : Option String) : ReloadOutcome × Server :=
  let next := (s.reload content).settle
  if !s.hasConfigFile then (.noConfigFile, next)
  else if (acceptedSettings? content).isNone then (.failed, next)
  else (if next.ratios = s.ratios then .unchanged else .changed, next)

end Server

end PlacementTree
