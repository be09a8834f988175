import Rynox.Worker

/-!
# The Entry Points

The variables of the namespace `Client` (`src/Rynox.h`) and the functions the JVM calls:
`Agent_OnLoad`, `Agent_OnAttach` and `Agent_OnUnload` with the bodies of
`initializeRynoxClient` and `shutdownRynoxClient` (`src/Rynox.cpp`, lines 5 to 20 and 89
to 104), step by step. A call in progress is an `Entry`: the function it is in and the
control point there. Each step reads or writes at most one shared variable;
`pthread_detach(Client::clientThread)` is two, the variable is read and then the thread
detached. `Client::jvm = vm` is the first step of a call: nothing of the call shows
before, so the call counts as made when it is taken.

The answers from outside are those of the system: whether `pthread_create` succeeds and
what it writes to `Client::clientThread`.
-/

namespace Rynox

/-- The variables of the namespace `Client`. -/
structure Client where
  isRunning : Bool := false
  clientThread : Option ℕ := none
  jvm : Option ℕ := none
  env : EnvPtr := none
  deriving DecidableEq, Repr

/-- The control points of a call of `Agent_OnLoad` or `Agent_OnAttach`: those of
`initializeRynoxClient` (lines 6 to 14), and `return JNI_OK`. At `detachThread` the call
has read the thread to detach. -/
inductive InitPc
  | testRunning
  | setRunning
  | createThread
  | reportFailure
  | resetRunning
  | readThread
  | detachThread (thread : Option ℕ)
  | ret
  deriving DecidableEq, Repr

/-- The control points of a call of `Agent_OnUnload`: those of `shutdownRynoxClient`
(lines 18 and 19), and the return. -/
inductive ShutdownPc
  | testRunning
  | clearRunning
  | ret
  deriving DecidableEq, Repr

/-- A call in progress: of `Agent_OnLoad` or `Agent_OnAttach`, or of `Agent_OnUnload`. -/
inductive Entry
  | init (pc : InitPc)
  | shutdown (pc : ShutdownPc)
  deriving DecidableEq, Repr

/-- What a call in progress does in one step: read or write `Client::isRunning`;
`pthread_create(&Client::clientThread, nullptr, &runClient, nullptr)`; read
`Client::clientThread`; `pthread_detach` of the thread read; print to `std::cerr`; return
to the JVM. -/
inductive EntryOp
  | testRunning
  | storeRunning (b : Bool)
  | createThread
  | readThread
  | detachThread (thread : Option ℕ)
  | cerr (message : String)
  | ret (result : Option JInt)
  deriving DecidableEq, Repr

/-- What the system answers to `pthread_create`: its return code, the name it gives the
thread, and the name that a failed call leaves in the variable, if it writes there. -/
structure OsReply where
  code : JInt := 0
  thread : ℕ := 0
  spoiled : Option ℕ := none
  deriving DecidableEq, Repr

/-! ### The functions of the source -/

/-- `initializeRynoxClient`, from its start. -/
def initializeRynoxClient : Entry := .init .testRunning

/-- `shutdownRynoxClient`, from its start. -/
def shutdownRynoxClient : Entry := .shutdown .testRunning

/-- The common body of `Agent_OnLoad` and `Agent_OnAttach`: keep the JVM and call
`initializeRynoxClient`. -/
def startAgent (vm : ℕ) (c : Client) : Client × Entry :=
  ({ c with jvm := some vm }, initializeRynoxClient)

/-- `Agent_OnLoad`. -/
def agentOnLoad (vm : ℕ) (c : Client) : Client × Entry := startAgent vm c

/-- `Agent_OnAttach`. -/
def agentOnAttach (vm : ℕ) (c : Client) : Client × Entry := startAgent vm c

/-- `Agent_OnUnload`, which does not look at its argument. -/
def agentOnUnload (_vm : ℕ) (c : Client) : Client × Entry := (c, shutdownRynoxClient)

/-- A call the JVM makes. -/
inductive Call
  | onLoad (vm : ℕ)
  | onAttach (vm : ℕ)
  | onUnload (vm : ℕ)
  deriving DecidableEq, Repr

namespace Call

/-- The first step of a call: the store of `Client::jvm`, for a start. Calls are in the
order of these steps. -/
def enter : Call → Client → Client × Entry
  | onLoad vm => agentOnLoad vm
  | onAttach vm => agentOnAttach vm
  | onUnload vm => agentOnUnload vm

/-- Whether the call is one of `Agent_OnLoad` and `Agent_OnAttach`. -/
def starts : Call → Bool
  | onLoad _ | onAttach _ => true
  | onUnload _ => false

end Call

namespace Entry

/-- The operation a call performs next. -/
def op : Entry → EntryOp
  | init .testRunning => .testRunning
  | init .setRunning => .storeRunning true
  | init .createThread => .createThread
  | init .reportFailure => .cerr "[Rynox] Failed to create client thread."
  | init .resetRunning => .storeRunning false
  | init .readThread => .readThread
  | init (.detachThread thread) => .detachThread thread
  | init .ret => .ret (some jniOk)
  | shutdown .testRunning => .testRunning
  | shutdown .clearRunning => .storeRunning false
  | shutdown .ret => .ret none

/-- Continue a call: it goes on from what it reads in `c` or is answered in `r`. The result
is `none` once the call has returned. -/
def resume (c : Client) (r : OsReply) : Entry → Option Entry
  | init .testRunning => some (init (if c.isRunning then .ret else .setRunning))
  | init .setRunning => some (init .createThread)
  | init .createThread =>
      some (init (if r.code ≠ 0 then .reportFailure else .readThread))
  | init .reportFailure => some (init .resetRunning)
  | init .resetRunning => some (init .ret)
  | init .readThread => some (init (.detachThread c.clientThread))
  | init (.detachThread _) => some (init .ret)
  | init .ret => none
  | shutdown .testRunning => some (shutdown (if c.isRunning then .clearRunning else .ret))
  | shutdown .clearRunning => some (shutdown .ret)
  | shutdown .ret => none

/-- Whether the call is inside `initializeRynoxClient`. -/
def initializing : Entry → Bool
  | init .ret => false
  | init _ => true
  | shutdown _ => false

end Entry

namespace EntryOp

/-- The effect of an operation on the variables of `Client`. What a failed
`pthread_create` leaves in `Client::clientThread` is up to the system: an overlapping call
may read it. -/
def exec (c : Client) (r : OsReply) : EntryOp → Client
  | storeRunning b => { c with isRunning := b }
  | createThread =>
      if r.code = 0 then { c with clientThread := some r.thread }
      else { c with clientThread := r.spoiled.or c.clientThread }
  | _ => c

/-- The thread an operation creates. -/
def spawn (r : OsReply) : EntryOp → Option Worker
  | createThread => if r.code = 0 then some Worker.start else none
  | _ => none

end EntryOp

end Rynox
