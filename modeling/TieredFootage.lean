import TieredFootage.Archive.Lifecycle
import TieredFootage.Archive.Clock
import TieredFootage.Catalog.Opening
import TieredFootage.Chain
import TieredFootage.Config.Layers
import TieredFootage.Serving.Pattern
import TieredFootage.Serving.Routes
import TieredFootage.Watch.Intake
import TieredFootage.Proofs.Evaluation.Followers
import TieredFootage.Proofs.Evaluation.Recordings
import TieredFootage.Proofs.Chain.Neighbours
import TieredFootage.Proofs.Selection.Removal
import TieredFootage.Proofs.Evaluation.Sparing
import TieredFootage.Proofs.Chain.Destination
import TieredFootage.Proofs.Disk.Moving
import TieredFootage.Proofs.Eviction.Content
import TieredFootage.Proofs.Evaluation.Orphans
import TieredFootage.Proofs.Serving.Runs
import TieredFootage.Proofs.Evaluation.Plain
import TieredFootage.Proofs.Archive.Journeys
import TieredFootage.Proofs.Archive.Refilling
import TieredFootage.Proofs.Archive.Mirror
import TieredFootage.Proofs.Archive.Cameras
import TieredFootage.Proofs.Serving.Lifetimes
import TieredFootage.Proofs.Timer.Punctuality
import TieredFootage.Proofs.Serving.Confinement
import TieredFootage.Proofs.Archive.Quiet
import TieredFootage.Proofs.Chain.Enclosure
import TieredFootage.Proofs.Evaluation.Pointers
import TieredFootage.Proofs.Evaluation.Failing
import TieredFootage.Proofs.Evaluation.Retrying
import TieredFootage.Proofs.Disk.Touching
import TieredFootage.Proofs.Evaluation.Touching
import TieredFootage.Proofs.Disk.Ways
import TieredFootage.Proofs.Eviction.Departing
import TieredFootage.Proofs.Evaluation.Draining
import TieredFootage.Proofs.Selection.Cut
import TieredFootage.Proofs.Catalog.Tables
import TieredFootage.Proofs.Archive.Phases
import TieredFootage.Proofs.Evaluation.Stranding
import TieredFootage.Proofs.Selection.Floor
import TieredFootage.Proofs.Selection.Loosening
import TieredFootage.Proofs.Selection.Combining
import TieredFootage.Proofs.Selection.Bounds
import TieredFootage.Proofs.Eviction.Staying
import TieredFootage.Proofs.Evaluation.Namesakes
import TieredFootage.Proofs.Archive.Lateness
import TieredFootage.Proofs.Serving.Precedence
import TieredFootage.Proofs.Chain.SharedRoots
import TieredFootage.Proofs.Timer.Throttling
import TieredFootage.Proofs.Archive.Pace
import TieredFootage.Proofs.Watch.Reports
import TieredFootage.Proofs.Catalog.Wildcards
import TieredFootage.Proofs.Chain.Thresholds
