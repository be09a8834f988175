import Rynox.Lts
import Rynox.ThreadPool
import Rynox.Monitor
import Rynox.Sessions
import Rynox.Resources
import Rynox.Jni
import Rynox.Worker
import Rynox.Entry
import Rynox.Agent
import Rynox.Lifecycle
import Rynox.Progress
import Rynox.SingleWorker
import Rynox.EnvPointer
import Rynox.StopSignal
import Rynox.Refinement
import Rynox.RunningFlag
import Rynox.Creation
import Rynox.Overlap
import Rynox.Pairing
import Rynox.Drain
import Rynox.Quiescence
import Rynox.Handles
import Rynox.Exceptions
import Rynox.LocalRefs
import Rynox.Lone
import Rynox.Amortized
import Rynox.Work
import Rynox.Rest
import Rynox.Scripted
import Rynox.Source
import Rynox.Pacing
import Rynox.Realize
import Rynox.Restart
import Rynox.Typing
import Rynox.Blocks
import Rynox.Crowding
import Rynox.Detached
import Rynox.Legal
import Rynox.Racing
import Rynox.Sharp
import Rynox.Fairness
import Rynox.Liveness
