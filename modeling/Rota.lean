import Rota.Binary64.Shortest
import Rota.Engine.Timeline
import Rota.Main
import Rota.Proofs.Table
import Rota.Proofs.Origin
import Rota.Proofs.Store
import Rota.Proofs.Execution
import Rota.Proofs.Course
import Rota.Proofs.Live
import Rota.Proofs.Overlap
import Rota.Proofs.Timeline
import Rota.Proofs.Exclusive
import Rota.Proofs.Details
import Rota.Proofs.Updates
import Rota.Proofs.Rearmed
import Rota.Proofs.Recycle
import Rota.Proofs.Scan
import Rota.Proofs.Tick
import Rota.Proofs.Orphans
import Rota.Proofs.ReadBack
import Rota.Proofs.Reach
import Rota.Proofs.Accord
import Rota.Proofs.Format
import Rota.Proofs.Drain
import Rota.Proofs.Independence
import Rota.Proofs.Deleted
import Rota.Proofs.Durations
import Rota.Proofs.Stamps
import Rota.Proofs.Stranded
import Rota.Proofs.Tally
import Rota.Proofs.Staggered
import Rota.Proofs.Parked
import Rota.Proofs.Coverage
import Rota.Proofs.Iterated
import Rota.Proofs.InTurn
import Rota.Proofs.Passing
import Rota.Proofs.Deadlines
import Rota.Proofs.Monotone
import Rota.Proofs.RunTime
import Rota.Proofs.Admitted
import Rota.Proofs.Views
import Rota.Proofs.Halted
import Rota.Proofs.Startup
import Rota.Proofs.Runnable
import Rota.Proofs.Walk
import Rota.Proofs.Manifest
