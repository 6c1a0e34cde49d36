import PlacementTree.Overcommit

/-!
# The feed of overcommit settings

Whoever owns the configuration publishes overcommit settings; a follower puts each it observes into force. Only the value
published last is kept: those between two turns of the follower are overwritten. The follower first observes a value it has not seen,
then plans the writes that adopt it, then makes them one at a time; only when there is no new value does it notice that nobody publishes
any more, and ends. So the value present at the start counts, and one published just before the end does too. Refused settings leave
the ratios as they are.
-/

namespace PlacementTree

/-- A feed: the value published last, the one that the follower has observed and the writes that it has planned, whether it has yet to
observe the last one, whether somebody may still publish, and whether the follower is there. -/
structure OvercommitFeed where
  latest : OvercommitSettings
  held : Option OvercommitSettings := none
  planned : List RatioWrite := []
  unseen : Bool := true
  publishing : Bool := true
  following : Bool := true
  deriving DecidableEq

/-- What the follower of a feed does next: observe the value published last, plan the writes that adopt the one it holds, make the
first of them, or end. -/
inductive FollowerStep where
  | observe | plan | write | leave
  deriving DecidableEq, Repr

namespace OvercommitFeed

/-- A feed with its first value. -/
def start (initial : OvercommitSettings) : OvercommitFeed := { latest := initial }

/-- Publish settings. They replace what was published before. -/
def publish (f : OvercommitFeed) (s : OvercommitSettings) : OvercommitFeed :=
  if f.publishing then { f with latest := s, unseen := true } else f

/-- Nobody will publish any more. -/
def stop (f : OvercommitFeed) : OvercommitFeed := { f with publishing := false }

/-- Whether the follower has observed a value and is not done with it. -/
def adopting (f : OvercommitFeed) : Bool := f.held.isSome || !f.planned.isEmpty

/-- Whether the follower waits for a value, or is gone. -/
def atRest (f : OvercommitFeed) : Bool := !f.following || (!f.adopting && !f.unseen)

/-- One step of the follower, with the ratios in force. A step that is not its turn does nothing. Nobody else writes the ratios, so
those it reads when it plans are those it writes over. -/
def follow (f : OvercommitFeed) (r : OvercommitRatios) : FollowerStep → OvercommitFeed × OvercommitRatios
  | .observe =>
    if f.following && !f.adopting && f.unseen then ({ f with held := some f.latest, unseen := false }, r) else (f, r)
  | .plan =>
    match f.held with
    | some settings => ({ f with held := none, planned := (settings.writesFrom r).toOption.getD [] }, r)
    | none => (f, r)
  | .write =>
    match f.planned with
    | w :: writes => ({ f with planned := writes }, r.write w)
    | [] => (f, r)
  | .leave => if f.atRest && !f.publishing then ({ f with following := false }, r) else (f, r)

/-- What the follower does from a new value until it waits or has ended: it never plans more than two writes. -/
def round : List FollowerStep := [.observe, .plan, .write, .write, .leave]

/-- Let the follower go on until it waits or has ended. -/
def settle (f : OvercommitFeed) (r : OvercommitRatios) : OvercommitFeed × OvercommitRatios :=
  round.foldl (fun state step => state.1.follow state.2 step) (f, r)

end OvercommitFeed

/-- What may happen to a feed. -/
inductive FeedEvent where
  | publish (settings : OvercommitSettings)
  | stop
  | follow (step : FollowerStep)

/-- One event of a feed, with the ratios in force. -/
def FeedEvent.run (state : OvercommitFeed × OvercommitRatios) : FeedEvent → OvercommitFeed × OvercommitRatios
  | .publish settings => (state.1.publish settings, state.2)
  | .stop => (state.1.stop, state.2)
  | .follow step => state.1.follow state.2 step

end PlacementTree
