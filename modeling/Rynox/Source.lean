import Rynox.Lone
import Rynox.Scripted

/-!
# The Text of `runClient`

`Rynox.Worker` has `runClient` as a machine that goes from one control point to the next.
Here it is as the source has it: a structured program with an early return at every failed
lookup, a `for` loop and a `while` loop. The two agree. On every script of answers the
machine performs the operations of the text, in the same order and with the same arguments,
and returns exactly where the text does (`program_start`); so in every run of the library,
whatever the calls and the other workers do, each worker does what the text says it does on
the answers it gets (`runClient_of_overlapRun`).
-/

namespace Rynox

open Scripted (perform timesM whileM EqUpTo)

/-- A statement whose answer is not looked at. -/
def act (o : Op) : Scripted Op Answer Unit := do
  let _ ← perform o

/-- A call through `Client::env`, for its value. -/
def ask (f : EnvCall) : Scripted Op Answer (Option ℕ) := do
  let a ← perform (.env f)
  return a.value

/-- The way out of `runClient` once it is attached: `DetachCurrentThread` and
`return nullptr`. -/
def leave : Scripted Op Answer Unit := do
  act .detach
  act .ret

/-- The body of the `for` loop (lines 58 to 61). -/
def logMessage (rootLogger : JObject) (infoMethod : JMethodID) : Scripted Op Answer Unit := do
  let message ← ask (.newStringUTF "[Rynox] Rynox hook bypass")
  act (.env (.callVoidMethod rootLogger infoMethod message))
  act (.env (.deleteLocalRef message))
  act (.sleep 50)

/-- The body of the `while` loop (lines 75 to 81). -/
def pollPlayer (minecraftClass : JObject) (getInstanceMethod : JMethodID)
    (playerField : JFieldID) : Scripted Op Answer Unit := do
  let minecraftInstance ← ask (.callStaticObjectMethod minecraftClass getInstanceMethod)
  if minecraftInstance ≠ none then
    let playerInstance ← ask (.getObjectField minecraftInstance playerField)
    if playerInstance ≠ none then
      act (.env (.deleteLocalRef playerInstance))
    act (.env (.deleteLocalRef minecraftInstance))
  act (.sleep 100)

/-- The condition of the `while` loop. -/
def isRunning : Scripted Op Answer Bool := do
  let a ← perform .testRunning
  return a.test

/-- The last part of `runClient`, the polling of the player (lines 65 to 85). -/
def pollGame : Scripted Op Answer Unit := do
  let minecraftClass ← ask (.findClass "net/minecraft/client/Minecraft")
  if minecraftClass = none then
    leave
    return
  let getInstanceMethod ← ask (.getStaticMethodID minecraftClass "getInstance"
    "()Lnet/minecraft/client/Minecraft;")
  let playerField ← ask (.getFieldID minecraftClass "player"
    "Lnet/minecraft/client/player/LocalPlayer;")
  whileM isRunning (pollPlayer minecraftClass getInstanceMethod playerField)
  leave

/-- `runClient`, as the source has it. The whole condition after the attach is one
operation, as it is in the machine. -/
def runClient : Scripted Op Answer Unit := do
  let attached ← perform .attach
  let env ← perform .checkEnv
  if attached.result ≠ jniOk ∨ env.test = false then
    act (.cerr "[Rynox] Failed to attach thread to JVM.")
    act .clearRunning
    act .ret
    return
  let logManagerClass ← ask (.findClass "org/apache/logging/log4j/LogManager")
  if logManagerClass = none then
    leave
    return
  let getLoggerMethod ← ask (.getStaticMethodID logManagerClass "getLogger"
    "()Lorg/apache/logging/log4j/Logger;")
  if getLoggerMethod = none then
    leave
    return
  let rootLogger ← ask (.callStaticObjectMethod logManagerClass getLoggerMethod)
  if rootLogger = none then
    leave
    return
  let loggerClass ← ask (.getObjectClass rootLogger)
  let infoMethod ← ask (.getMethodID loggerClass "info" "(Ljava/lang/Object;)V")
  if infoMethod = none then
    leave
    return
  timesM (logMessage rootLogger infoMethod) 10
  pollGame

/-! ### The machine as a program -/

namespace Worker

/-- What the machine does on a script: the operations it performs, and the answers left if
it returns. -/
def follow (w : Worker) : List Answer → List Op × Option (Unit × List Answer)
  | [] => ([], if w.pc = .returned then some ((), []) else none)
  | a :: as =>
      match w.op with
      | none => ([], some ((), a :: as))
      | some o => (o :: ((w.resume a).follow as).1, ((w.resume a).follow as).2)

/-- A worker performs no more operations than it has answers, and leaves no more. -/
theorem follow_le_length (w : Worker) (as : List Answer) :
    (w.follow as).1.length + ((w.follow as).2.elim 0 fun x => x.2.length) ≤ as.length := by
  induction as generalizing w with
  | nil =>
      rw [follow]
      split <;> simp
  | cons a as ih =>
      rw [follow]
      split
      · simp
      · have := ih (w.resume a)
        simp only [List.length_cons]
        omega

/-- The machine from a given point on, as a program. -/
def program (w : Worker) : Scripted Op Answer Unit := ⟨w.follow, w.follow_le_length⟩

variable {w : Worker} {o : Op} {n : ℕ} {f : Answer → Scripted Op Answer Unit}

/-- The machine performs an operation and goes on with the answer. -/
theorem program_bind (ho : w.op = some o) (h : ∀ a, (w.resume a).program = f a) :
    w.program = perform o >>= f := by
  have hpc : w.pc ≠ .returned := fun hpc => by
    rw [op_eq_none_iff.mpr hpc] at ho
    cases ho
  ext as : 1
  cases as with
  | nil => simp [program, follow, hpc]
  | cons a as =>
      rw [Scripted.run_perform_bind_cons, ← h a]
      simp [program, follow, ho]

/-- Where the continuations agree, so does the worker with the operation before them. -/
theorem program_eqUpTo (ho : w.op = some o) (h : ∀ a, EqUpTo n (w.resume a).program (f a)) :
    EqUpTo (n + 1) w.program (perform o >>= f) := by
  rw [program_bind ho fun a => rfl]
  exact EqUpTo.perform h

/-- A worker that has returned does nothing more. -/
theorem program_returned (hpc : w.pc = .returned) : w.program = pure () := by
  ext as : 1
  cases as with
  | nil => simp [program, follow, hpc]
  | cons a as => simp [program, follow, op, hpc]

/-- The way out. -/
theorem program_detach {exit : Exit} (hpc : w.pc = .detach exit) : w.program = leave := by
  simp only [leave, act, bind_assoc, pure_bind]
  refine program_bind (by simp [op, hpc]) fun a => ?_
  refine program_bind (by simp [op, resume, hpc, goto]) fun b => ?_
  exact program_returned (by simp [resume, hpc, goto])

/-- The test of the `while` loop performs an operation. -/
theorem isRunning_performs (as : List Answer) (x : Bool × List Answer)
    (h : (isRunning.run as).2 = some x) : (isRunning.run as).1 ≠ [] := by
  cases as with
  | nil => cases h
  | cons a as => exact List.cons_ne_nil _ _

/-- The end of a round of the `while` loop. -/
theorem sleepPoll_eqUpTo {k : Scripted Op Answer Unit} (hpc : w.pc = .sleepPoll)
    (hk : EqUpTo n (w.goto .testRunning).program k) :
    EqUpTo n w.program (act (.sleep 100) >>= fun _ => k) := by
  simp only [act, bind_assoc, pure_bind]
  refine (program_eqUpTo (by simp [op, hpc]) fun a => ?_).mono (Nat.le_succ n)
  simpa only [resume, hpc] using hk

/-- The end of a round that has found the game. -/
theorem deleteMinecraft_eqUpTo {k : Scripted Op Answer Unit} (hpc : w.pc = .deleteMinecraft)
    (hk : EqUpTo n (w.goto .testRunning).program k) :
    EqUpTo n w.program (act (.env (.deleteLocalRef w.minecraftInstance)) >>= fun _ =>
      act (.sleep 100) >>= fun _ => k) := by
  rw [act, bind_assoc]
  refine (program_eqUpTo (by simp [op, hpc]) fun a => ?_).mono (Nat.le_succ n)
  simp only [resume, hpc, pure_bind]
  exact sleepPoll_eqUpTo rfl hk

/-- One round of the `while` loop, whatever follows it. -/
theorem callGetInstance_eqUpTo {k : Scripted Op Answer Unit} (hpc : w.pc = .callGetInstance)
    (hk : ∀ u : Worker, u.pc = .testRunning → u.minecraftClass = w.minecraftClass →
      u.getInstanceMethod = w.getInstanceMethod → u.playerField = w.playerField →
      EqUpTo n u.program k) :
    EqUpTo n w.program
      (pollPlayer w.minecraftClass w.getInstanceMethod w.playerField >>= fun _ => k) := by
  rw [pollPlayer, ask]
  simp only [bind_assoc, pure_bind]
  refine (program_eqUpTo (by simp [op, hpc]) fun a => ?_).mono (Nat.le_succ n)
  simp only [resume, hpc]
  cases hvalue : a.value with
  | none =>
      simp only [ne_eq, not_true_eq_false, if_false, if_true]
      exact sleepPoll_eqUpTo rfl (hk _ rfl rfl rfl rfl)
  | some game =>
      simp only [ne_eq, reduceCtorEq, not_false_eq_true, if_false, if_true, ask, bind_assoc,
        pure_bind]
      refine (program_eqUpTo rfl fun b => ?_).mono (Nat.le_succ n)
      simp only [resume]
      cases hplayer : b.value with
      | none =>
          simp only [not_true_eq_false, if_false, if_true, bind_assoc]
          exact deleteMinecraft_eqUpTo rfl (hk _ rfl rfl rfl rfl)
      | some player =>
          simp only [reduceCtorEq, not_false_eq_true, if_false, if_true, bind_assoc]
          rw [act, bind_assoc]
          refine (program_eqUpTo rfl fun c => ?_).mono (Nat.le_succ n)
          exact deleteMinecraft_eqUpTo rfl (hk _ rfl rfl rfl rfl)

/-- The end of the polling: the loop and the way out. -/
theorem program_testRunning (hpc : w.pc = .testRunning) :
    w.program = (do
      whileM isRunning (pollPlayer w.minecraftClass w.getInstanceMethod w.playerField)
      leave) := by
  refine Scripted.eq_of_eqUpTo fun n => ?_
  induction n generalizing w with
  | zero => exact fun as has => absurd has (Nat.not_lt_zero _)
  | succ n ih =>
      rw [Scripted.whileM_eq isRunning_performs]
      generalize hloop : whileM isRunning
        (pollPlayer w.minecraftClass w.getInstanceMethod w.playerField) = loop at ih ⊢
      rw [isRunning]
      simp only [bind_assoc, pure_bind]
      refine program_eqUpTo (by simp [op, hpc]) fun a => ?_
      simp only [resume, hpc]
      cases a.test with
      | false =>
          simp only [Bool.false_eq_true, if_false, pure_bind]
          exact EqUpTo.of_eq (program_detach rfl)
      | true =>
          simp only [if_true, bind_assoc]
          refine callGetInstance_eqUpTo rfl fun u hu hclass hmethod hfield => ?_
          have hih := ih hu
          rw [hclass, hmethod, hfield] at hih
          rw [← hloop]
          exact hih

/-- A failed lookup leaves; else the program goes on. -/
theorem program_lookup {u : Worker} {exit : Exit} {v : Option ℕ} {k : Scripted Op Answer Unit}
    (hleave : v = none → w.pc = .detach exit) (hgo : v ≠ none → u.program = k) :
    (if v = none then w else u).program = if v = none then leave else k := by
  split
  · rename_i h
    exact program_detach (hleave h)
  · rename_i h
    exact hgo h

/-- From the lookup of the game on. -/
theorem program_findMinecraftClass (hpc : w.pc = .findMinecraftClass) :
    w.program = pollGame := by
  rw [pollGame, ask]
  simp only [bind_assoc, pure_bind]
  refine program_bind (by simp [op, hpc]) fun a => ?_
  simp only [resume, hpc, ask, bind_assoc, pure_bind, bind_pure_unit]
  refine program_lookup (fun _ => rfl) fun _ => ?_
  refine program_bind rfl fun b => ?_
  refine program_bind rfl fun c => ?_
  exact program_testRunning rfl

/-- One round of the `for` loop, whatever follows it. -/
theorem program_newMessage {k : Scripted Op Answer Unit} (hpc : w.pc = .newMessage)
    (hk : ∀ u : Worker, u.i = w.i + 1 → u.rootLogger = w.rootLogger →
      u.infoMethod = w.infoMethod → u.logLoop.program = k) :
    w.program = (logMessage w.rootLogger w.infoMethod >>= fun _ => k) := by
  rw [logMessage]
  simp only [ask, act, bind_assoc, pure_bind]
  refine program_bind (by simp [op, hpc]) fun a => ?_
  simp only [resume, hpc]
  refine program_bind rfl fun b => ?_
  refine program_bind rfl fun c => ?_
  refine program_bind rfl fun d => ?_
  exact hk _ rfl rfl rfl

/-- From the head of the log loop on: the rounds that are left, then the game. -/
theorem program_logLoop {k : ℕ} (hi : w.i + k = 10) :
    w.logLoop.program = (do
      timesM (logMessage w.rootLogger w.infoMethod) k
      pollGame) := by
  induction k generalizing w with
  | zero =>
      have hdone : ¬ w.i < 10 := by omega
      rw [logLoop, if_neg hdone, program_findMinecraftClass rfl, timesM, pure_bind]
  | succ k ih =>
      have hround : w.i < 10 := by omega
      rw [logLoop, if_pos hround, timesM, bind_assoc]
      refine program_newMessage rfl fun u hu hlogger hmethod => ?_
      have hcount : u.i = w.i + 1 := hu
      have hnext := ih (w := u) (by omega)
      rwa [hlogger, hmethod] at hnext

/-- **The machine is the text.** What the machine does from its start is what `runClient`
does. -/
theorem program_start : start.program = runClient := by
  rw [runClient]
  refine program_bind rfl fun a => ?_
  refine program_bind rfl fun b => ?_
  simp only [ask, act, bind_assoc, pure_bind, bind_pure_unit]
  by_cases hfail : a.result ≠ jniOk ∨ b.test = false
  · have hfailed : (start.resume a).resume b = (start.resume a).goto .reportAttachFailure :=
      if_pos hfail
    rw [if_pos hfail, hfailed]
    refine program_bind rfl fun c => ?_
    refine program_bind rfl fun d => ?_
    refine program_bind rfl fun e => ?_
    exact program_returned rfl
  have hattached : (start.resume a).resume b = (start.resume a).goto .findLogManagerClass :=
    if_neg hfail
  rw [if_neg hfail, hattached]
  refine program_bind rfl fun c => program_lookup (fun _ => rfl) fun _ => ?_
  refine program_bind rfl fun d => program_lookup (fun _ => rfl) fun _ => ?_
  refine program_bind rfl fun e => program_lookup (fun _ => rfl) fun _ => ?_
  refine program_bind rfl fun g => ?_
  refine program_bind rfl fun h => program_lookup (fun _ => rfl) fun _ => ?_
  exact program_logLoop rfl

/-- A run of the machine is what it does on the answers of the run. -/
theorem follow_of_run {u : Worker} {tr : List (Worker × Answer)} (hrun : lts.Run w tr u)
    (as : List Answer) :
    w.follow (tr.map Prod.snd ++ as) =
      ((tr.filterMap fun x => x.1.op) ++ (u.follow as).1, (u.follow as).2) := by
  induction hrun generalizing as with
  | nil => simp
  | @snoc t u tr a _ hstep ih =>
      obtain ⟨ho, rfl⟩ := lts_step.mp hstep
      obtain ⟨o, ho⟩ := Option.ne_none_iff_exists'.mp ho
      have hlast : t.follow (a :: as) =
          (o :: ((t.resume a).follow as).1, ((t.resume a).follow as).2) := by
        simp only [follow, ho]
      rw [List.map_append, List.append_assoc, List.map_singleton, List.singleton_append, ih,
        hlast, List.filterMap_append]
      simp [ho]

end Worker

/-- **Every worker does what the text of `runClient` says.** In every run of the library,
however the calls overlap and the workers interleave, the operations a worker has performed
are those of `runClient` on the answers it got, in the same order and with the same
arguments; and it has returned exactly when `runClient` has. -/
theorem runClient_of_overlapRun {tr : List (OverlapState × ActionOf OverlapAction)}
    {s : OverlapState} {i : ℕ} {w : Worker} (hrun : OverlapRun tr s) (hi : s.threads[i]? = some w) :
    runClient.run ((lifeOf i tr).map Prod.snd) =
      ((lifeOf i tr).filterMap fun x => x.1.op,
        if w.pc = .returned then some ((), []) else none) := by
  have hfollow := Worker.follow_of_run (run_lifeOf_overlap hrun hi) []
  rw [← Worker.program_start]
  simpa [Worker.program, Worker.follow] using hfollow

/-- A run to which the theorem applies: a worker finds everything, polls once, is stopped and
returns, after 59 operations. -/
theorem runClient_of_overlapRun_one_poll :
    ∃ tr s w, OverlapRun tr s ∧ s.threads[0]? = some w ∧ (lifeOf 0 tr).length = 59 ∧
      runClient.run ((lifeOf 0 tr).map Prod.snd) =
        ((lifeOf 0 tr).filterMap fun x => x.1.op, some ((), [])) := by
  obtain ⟨tr, s, hrun, ⟨w, hi, hret⟩, hlength⟩ := Lts.exists_run_of_exec
    (L := overlap.lts) (s := overlap.lts.init)
    (P := fun tr s => (∃ w ∈ s.threads[0]?, w.pc = .returned) ∧ (lifeOf 0 tr).length = 59)
    polledOnce (by decide)
  have htext := runClient_of_overlapRun hrun hi
  rw [if_pos hret] at htext
  exact ⟨tr, s, w, hrun, hi, hlength, htext⟩

end Rynox
