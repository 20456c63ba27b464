import Haptics.Level.Binary32
import Haptics.Conductor.Recital
import Haptics.Command.Session
import Haptics.Command.Transcript
import Haptics.Main
import Haptics.Proofs.CommonStart
import Haptics.Proofs.Cancelling
import Haptics.Proofs.Starting
import Haptics.Proofs.TurningOff
import Haptics.Proofs.Unwinding
import Haptics.Proofs.Flight
import Haptics.Proofs.Reports
import Haptics.Proofs.Interfaces
import Haptics.Proofs.Observers
import Haptics.Proofs.Batches
import Haptics.Proofs.Walk
import Haptics.Proofs.Likeness
import Haptics.Proofs.Strays
import Haptics.Proofs.Alone
import Haptics.Proofs.Intake
import Haptics.Proofs.Expansion
import Haptics.Proofs.Playable
import Haptics.Proofs.Splitting
import Haptics.Proofs.Volume
import Haptics.Proofs.Ending
import Haptics.Proofs.Timeline
import Haptics.Proofs.Coverage
import Haptics.Proofs.Sessions
import Haptics.Proofs.OnTime
import Haptics.Proofs.LookAhead
import Haptics.Proofs.Gaps
import Haptics.Proofs.Callers
import Haptics.Proofs.Following
import Haptics.Proofs.TurningBack
import Haptics.Proofs.Blocks
import Haptics.Proofs.Timekeeping
import Haptics.Proofs.Defaults
import Haptics.Proofs.Completions
import Haptics.Proofs.Totals
import Haptics.Proofs.Scheduling
import Haptics.Proofs.Routing
import Haptics.Proofs.RampingDown
import Haptics.Proofs.GoingOn
