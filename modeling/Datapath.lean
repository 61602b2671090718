import Datapath.Design.Stats
import Datapath.Design.Drawing
import Datapath.Throughput.Report
import Datapath.Proofs.RegisterFree
import Datapath.Proofs.Structured
import Datapath.Proofs.FaultFree
import Datapath.Proofs.Untimeable
import Datapath.Proofs.FixableModules
import Datapath.Proofs.Postponing
import Datapath.Proofs.LimitOrder
import Datapath.Proofs.RegionPoints
import Datapath.Proofs.Aggregation
import Datapath.Proofs.BranchDelays
import Datapath.Proofs.LatencyLaws
import Datapath.Proofs.WiringErrors
import Datapath.Proofs.BodyStarts
import Datapath.Proofs.Recursion
import Datapath.Proofs.Closing
import Datapath.Proofs.OwnerChains
import Datapath.Proofs.Drawings
import Datapath.Proofs.Settings
