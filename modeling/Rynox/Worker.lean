import Rynox.Jni
import Rynox.Lts

/-!
# The Worker Thread

`runClient` (`src/Rynox.cpp`, lines 22 to 86) as a machine whose control points are the
calls and the accesses to shared variables it makes, in source order. `Worker.op` says
what the thread does next, with the arguments it passes; `Worker.resume` continues from
the answer, running the local code up to the next operation: the null checks of the
lookups, the counter of the log loop, the branches of a poll.

Nothing here says what the answers are. In the agent (`Rynox.Agent`) the shared
variables and the JVM give them; the lone worker `Worker.lts` takes them as they come,
which is all runs of one `runClient`, and a little more, since any answer may come at
any time.
-/

namespace Rynox

/-- The exits of `runClient` after a successful attach, each with its own
`DetachCurrentThread`: five failed lookups and the end of the polling loop. -/
inductive Exit
  | logManagerClass
  | getLoggerMethod
  | rootLogger
  | infoMethod
  | minecraftClass
  | pollingEnded
  deriving DecidableEq, Repr

/-- The control points of `runClient`, in source order: the attach and its failure branch
(lines 23 to 28), the first lookups (31 to 54), the log loop (57 to 62), the lookups of
the game (65 to 72), the polling loop (74 to 82), then the `DetachCurrentThread` and the
`return nullptr` that every exit has. -/
inductive Pc
  | attach
  | checkAttach
  | reportAttachFailure
  | clearRunning
  | findLogManagerClass
  | getGetLoggerMethod
  | callGetLogger
  | getLoggerClass
  | getInfoMethod
  | newMessage
  | callInfo
  | deleteMessage
  | sleepLog
  | findMinecraftClass
  | getGetInstanceMethod
  | getPlayerField
  | testRunning
  | callGetInstance
  | getPlayer
  | deletePlayer
  | deleteMinecraft
  | sleepPoll
  | detach (exit : Exit)
  | ret
  | returned
  deriving DecidableEq, Repr

/-- A thread running `runClient`: its control point and its local variables. -/
structure Worker where
  pc : Pc := .attach
  attachResult : JInt := 0
  logManagerClass : JObject := none
  getLoggerMethod : JMethodID := none
  rootLogger : JObject := none
  loggerClass : JObject := none
  infoMethod : JMethodID := none
  i : ℕ := 0
  message : JObject := none
  minecraftClass : JObject := none
  getInstanceMethod : JMethodID := none
  playerField : JFieldID := none
  minecraftInstance : JObject := none
  playerInstance : JObject := none
  deriving DecidableEq, Repr

/-- What a thread does in one step: attach to the JVM, storing the pointer in
`Client::env`; read `Client::env` to compare it with null; print to `std::cerr`; write
`false` to `Client::isRunning`; call through `Client::env`; sleep, in milliseconds; read
`Client::isRunning`; detach from the JVM; return from `runClient`. -/
inductive Op
  | attach
  | checkEnv
  | cerr (message : String)
  | clearRunning
  | env (f : EnvCall)
  | sleep (ms : ℕ)
  | testRunning
  | detach
  | ret
  deriving DecidableEq, Repr

/-- What a thread learns from an operation. Each operation answers in one of the fields:
an attach in `result`, a test in `test`, a call through `Client::env` in `value`; such
a call may also leave an exception pending. -/
structure Answer where
  result : JInt := 0
  test : Bool := false
  value : Option ℕ := none
  raised : Bool := false
  deriving DecidableEq, Repr

namespace Worker

/-- A thread that `pthread_create` has just created. -/
def start : Worker := {}

/-- The operation a worker performs next; `none` once `runClient` has returned. -/
def op (w : Worker) : Option Op :=
  match w.pc with
  | .attach => some .attach
  | .checkAttach => some .checkEnv
  | .reportAttachFailure => some (.cerr "[Rynox] Failed to attach thread to JVM.")
  | .clearRunning => some .clearRunning
  | .findLogManagerClass => some (.env (.findClass "org/apache/logging/log4j/LogManager"))
  | .getGetLoggerMethod =>
      some (.env (.getStaticMethodID w.logManagerClass "getLogger"
        "()Lorg/apache/logging/log4j/Logger;"))
  | .callGetLogger => some (.env (.callStaticObjectMethod w.logManagerClass w.getLoggerMethod))
  | .getLoggerClass => some (.env (.getObjectClass w.rootLogger))
  | .getInfoMethod => some (.env (.getMethodID w.loggerClass "info" "(Ljava/lang/Object;)V"))
  | .newMessage => some (.env (.newStringUTF "[Rynox] Rynox hook bypass"))
  | .callInfo => some (.env (.callVoidMethod w.rootLogger w.infoMethod w.message))
  | .deleteMessage => some (.env (.deleteLocalRef w.message))
  | .sleepLog => some (.sleep 50)
  | .findMinecraftClass => some (.env (.findClass "net/minecraft/client/Minecraft"))
  | .getGetInstanceMethod =>
      some (.env (.getStaticMethodID w.minecraftClass "getInstance"
        "()Lnet/minecraft/client/Minecraft;"))
  | .getPlayerField =>
      some (.env (.getFieldID w.minecraftClass "player"
        "Lnet/minecraft/client/player/LocalPlayer;"))
  | .testRunning => some .testRunning
  | .callGetInstance =>
      some (.env (.callStaticObjectMethod w.minecraftClass w.getInstanceMethod))
  | .getPlayer => some (.env (.getObjectField w.minecraftInstance w.playerField))
  | .deletePlayer => some (.env (.deleteLocalRef w.playerInstance))
  | .deleteMinecraft => some (.env (.deleteLocalRef w.minecraftInstance))
  | .sleepPoll => some (.sleep 100)
  | .detach _ => some .detach
  | .ret => some .ret
  | .returned => none

/-- The call a worker makes next through `Client::env`, if that is what it does next. -/
def call (w : Worker) : Option EnvCall :=
  match w.op with
  | some (.env f) => some f
  | _ => none

/-- Go on at `pc`. -/
def goto (w : Worker) (pc : Pc) : Worker :=
  { w with pc := pc }

/-- The head of the log loop: another round while `i < 10`. -/
def logLoop (w : Worker) : Worker :=
  if w.i < 10 then w.goto .newMessage else w.goto .findMinecraftClass

/-- Continue with the answer to the operation the worker stands at. -/
def resume (w : Worker) (a : Answer) : Worker :=
  match w.pc with
  | .attach => { w with attachResult := a.result, pc := .checkAttach }
  | .checkAttach =>
      -- the whole condition is one step: the read that `||` may skip has no effect
      if w.attachResult ≠ jniOk ∨ a.test = false then w.goto .reportAttachFailure
      else w.goto .findLogManagerClass
  | .reportAttachFailure => w.goto .clearRunning
  | .clearRunning => w.goto .ret
  | .findLogManagerClass =>
      if a.value = none then { w with logManagerClass := a.value, pc := .detach .logManagerClass }
      else { w with logManagerClass := a.value, pc := .getGetLoggerMethod }
  | .getGetLoggerMethod =>
      if a.value = none then { w with getLoggerMethod := a.value, pc := .detach .getLoggerMethod }
      else { w with getLoggerMethod := a.value, pc := .callGetLogger }
  | .callGetLogger =>
      if a.value = none then { w with rootLogger := a.value, pc := .detach .rootLogger }
      else { w with rootLogger := a.value, pc := .getLoggerClass }
  | .getLoggerClass => { w with loggerClass := a.value, pc := .getInfoMethod }
  | .getInfoMethod =>
      if a.value = none then { w with infoMethod := a.value, pc := .detach .infoMethod }
      else { w with infoMethod := a.value, i := 0 }.logLoop
  | .newMessage => { w with message := a.value, pc := .callInfo }
  | .callInfo => w.goto .deleteMessage
  | .deleteMessage => w.goto .sleepLog
  | .sleepLog => { w with i := w.i + 1 }.logLoop
  | .findMinecraftClass =>
      if a.value = none then { w with minecraftClass := a.value, pc := .detach .minecraftClass }
      else { w with minecraftClass := a.value, pc := .getGetInstanceMethod }
  | .getGetInstanceMethod => { w with getInstanceMethod := a.value, pc := .getPlayerField }
  | .getPlayerField => { w with playerField := a.value, pc := .testRunning }
  | .testRunning =>
      if a.test then w.goto .callGetInstance else w.goto (.detach .pollingEnded)
  | .callGetInstance =>
      -- a null instance skips the body of the `if`
      if a.value = none then { w with minecraftInstance := a.value, pc := .sleepPoll }
      else { w with minecraftInstance := a.value, pc := .getPlayer }
  | .getPlayer =>
      if a.value = none then { w with playerInstance := a.value, pc := .deleteMinecraft }
      else { w with playerInstance := a.value, pc := .deletePlayer }
  | .deletePlayer => w.goto .deleteMinecraft
  | .deleteMinecraft => w.goto .sleepPoll
  | .sleepPoll => w.goto .testRunning
  | .detach _ => w.goto .ret
  | .ret => w.goto .returned
  | .returned => w

/-- The lone worker: `runClient` under all answers. -/
def lts : Lts Worker Answer where
  init := start
  step w a := w.op.map fun _ => w.resume a

variable {w w' : Worker} {a : Answer}

/-- A lone worker steps as long as it has not returned. -/
theorem lts_step : lts.step w a = some w' ↔ w.op ≠ none ∧ w' = w.resume a := by
  simp only [lts, Option.map_eq_some_iff, Option.ne_none_iff_exists', exists_and_right]
  exact and_congr_right fun _ => eq_comm

/-- A worker has no next operation exactly when `runClient` has returned. -/
theorem op_eq_none_iff : w.op = none ↔ w.pc = .returned := by
  cases hpc : w.pc <;> simp [op, hpc]

/-- A worker that has not returned has a next operation. -/
theorem op_isSome_of_ne (h : w.pc ≠ .returned) : ∃ o, w.op = some o :=
  Option.ne_none_iff_exists'.mp (mt op_eq_none_iff.mp h)

/-- The answer with which everything succeeds. -/
def succeeding : Answer := { test := true, value := some 1 }

/-- The answer of null, or of a flag that is false. -/
def failing : Answer := {}

/-- Only at the loop test is the flag tested. -/
theorem pc_eq_testRunning_of_op (h : w.op = some .testRunning) : w.pc = .testRunning := by
  cases hpc : w.pc <;> simp [op, hpc] at h ⊢

end Worker

end Rynox
