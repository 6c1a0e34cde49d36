import PlacementTree.HostAgent.Service
import PlacementTree.Main
import PlacementTree.Proofs.Aggregate.Accounting
import PlacementTree.Proofs.Fanout.Dispatch
import PlacementTree.Proofs.Node.Satisfies
import PlacementTree.Proofs.Overcommit.Interleaving
import PlacementTree.Proofs.Overcommit.Policy
import PlacementTree.Proofs.Placement.Closed
import PlacementTree.Proofs.SchedulerTree.Store
import PlacementTree.Proofs.Score.Exact
import PlacementTree.Proofs.Score.Room
import PlacementTree.Proofs.Server.Reload
import PlacementTree.Proofs.Session.Shutdown
import PlacementTree.Proofs.HostAgent.Listeners
import PlacementTree.Proofs.Overcommit.Observed
import PlacementTree.Proofs.Decimal.Written
import PlacementTree.Proofs.HostAgent.Decisions
import PlacementTree.Proofs.Toml.Scalar
import PlacementTree.Proofs.Config.RoundTrip
import PlacementTree.Proofs.Request.Descent
import PlacementTree.Proofs.Score.Preorder
import PlacementTree.Proofs.Wire.RoundTrip
