import Rynox.Agent

/-!
# The Life of a Worker

The control points of `runClient` seen from a distance. A worker passes through the
phases below in this order; everything from the first lookup to the last poll is one
phase, `running`. The protocol between the workers and the entry points depends on the
phases alone, so the proofs about it use the two relations of this module and never the
control points:

* `WorkerMove`: what a step of a worker does to its phase, to the shared variables, and
  what is seen of it (`workerMove_of_op`);
* `CallMove`: what a step of the JVM's side does (`callMove_of_serialized`).

`AgentMove` puts the two together for a step of the library (`agentMove_of_step`).

## The phases

`starting`, before the attach; `checking`, the attach has returned and its result is not
yet tested; `reporting` and `clearing`, in the failure branch; `running`, attached and
at work; `leaving`, about to detach; `finishing`, only `return nullptr` is left;
`returned`.
-/

namespace Rynox

/-- The phases in the life of a worker. -/
inductive Phase
  | starting
  | checking
  | reporting
  | clearing
  | running
  | leaving
  | finishing
  | returned
  deriving DecidableEq, Repr

/-- The phase a control point belongs to. -/
def Pc.phase : Pc → Phase
  | attach => .starting
  | checkAttach => .checking
  | reportAttachFailure => .reporting
  | clearRunning => .clearing
  | detach _ => .leaving
  | ret => .finishing
  | returned => .returned
  | _ => .running

namespace Worker

/-- The phase of a worker. -/
def phase (w : Worker) : Phase := w.pc.phase

/-- A worker is **active** from its creation until it has failed to attach or called
`DetachCurrentThread`. -/
def Active (w : Worker) : Prop :=
  match w.phase with
  | .starting | .running | .leaving => True
  | .checking => w.attachResult = jniOk
  | _ => False

/-- A worker is **engaged** until it has taken one of its exits: it may still test
`Client::isRunning`, or clear it. -/
def Engaged (w : Worker) : Prop :=
  match w.phase with
  | .leaving | .finishing | .returned => False
  | _ => True

/-- A worker is **unfinished** until `runClient` has returned. -/
def Unfinished (w : Worker) : Prop :=
  w.phase ≠ .returned

/-- The active workers, by their phases. -/
theorem active_iff {w : Worker} :
    w.Active ↔ w.phase = .starting ∨ w.phase = .running ∨ w.phase = .leaving ∨
      (w.phase = .checking ∧ w.attachResult = jniOk) := by
  cases h : w.phase <;> simp [Active, h]

/-- The engaged workers are those that have not left. -/
theorem engaged_iff {w : Worker} :
    w.Engaged ↔ w.phase ≠ .leaving ∧ w.phase ≠ .finishing ∧ w.phase ≠ .returned := by
  cases h : w.phase <;> simp [Engaged, h]

instance : DecidablePred Active := fun _ =>
  decidable_of_iff _ active_iff.symm

instance : DecidablePred Engaged := fun _ =>
  decidable_of_iff _ engaged_iff.symm

instance : DecidablePred Unfinished := fun w =>
  inferInstanceAs (Decidable (w.phase ≠ .returned))

/-- The step takes one of the failed-lookup exits: the worker stands at a lookup whose
result it tests, and the JVM answers null. -/
def LookupFails (w : Worker) (r : JvmReply) : Prop :=
  match w.pc with
  | .findLogManagerClass | .getGetLoggerMethod | .callGetLogger | .getInfoMethod
  | .findMinecraftClass => r.value = none
  | _ => False

/-- The checked lookups are five, and fail when the answer is null. -/
theorem lookupFails_iff {w : Worker} {r : JvmReply} :
    w.LookupFails r ↔ w.pc ∈ [Pc.findLogManagerClass, .getGetLoggerMethod, .callGetLogger,
      .getInfoMethod, .findMinecraftClass] ∧ r.value = none := by
  cases hpc : w.pc <;> simp [LookupFails, hpc]

instance (w : Worker) (r : JvmReply) : Decidable (w.LookupFails r) :=
  decidable_of_iff _ lookupFails_iff.symm

/-- A worker that may take a failed-lookup exit is running. -/
theorem LookupFails.phase {w : Worker} {r : JvmReply} (h : w.LookupFails r) :
    w.phase = .running := by
  cases hpc : w.pc <;> simp [LookupFails, Worker.phase, hpc, Pc.phase] at h ⊢

/-- A new worker is about to attach. -/
@[simp] theorem start_phase : start.phase = .starting := rfl

/-- A worker is unfinished until `runClient` has returned. -/
theorem unfinished_iff {w : Worker} : w.Unfinished ↔ w.pc ≠ .returned := by
  cases hpc : w.pc <;> simp [Unfinished, phase, hpc, Pc.phase]

/-- The loop test belongs to the phase `running`. -/
theorem phase_of_testRunning {w : Worker} (h : w.pc = .testRunning) : w.phase = .running := by
  simp [phase, h, Pc.phase]

/-- A worker at its loop test is engaged. -/
theorem engaged_of_testRunning {w : Worker} (h : w.pc = .testRunning) : w.Engaged := by
  simp [Engaged, phase_of_testRunning h]

end Worker

/-! ### Steps of a worker -/

/-- What a step of a worker does, seen through its phase: `WorkerMove c r w c' w' e` when
the worker `w`, over the shared variables `c` and answered `r`, goes to `w'`, leaves `c'`
and is seen to do `e`. -/
inductive WorkerMove (c : Client) (r : JvmReply) (w : Worker) : Client → Worker → Event → Prop
  | attach {w' : Worker} (h : w.phase = .starting) (h' : w'.phase = .checking)
      (hresult : w'.attachResult = r.result) :
      WorkerMove c r w { c with env := r.stored.getD c.env } w' (.attach r.result r.stored)
  | attached {w' : Worker} (h : w.phase = .checking) (h' : w'.phase = .running)
      (hok : w.attachResult = jniOk) (henv : c.env ≠ none) :
      WorkerMove c r w c w' (.checkEnv c.env)
  | attachFailed {w' : Worker} (h : w.phase = .checking) (h' : w'.phase = .reporting)
      (hfail : w.attachResult ≠ jniOk ∨ c.env = none) :
      WorkerMove c r w c w' (.checkEnv c.env)
  | report {w' : Worker} (m : String) (h : w.phase = .reporting) (h' : w'.phase = .clearing) :
      WorkerMove c r w c w' (.cerr m)
  | clear {w' : Worker} (h : w.phase = .clearing) (h' : w'.phase = .finishing) :
      WorkerMove c r w { c with isRunning := false } w' .clearRunning
  | call {w' : Worker} (f : EnvCall) (h : w.phase = .running) (h' : w'.phase = .running)
      (hok : ¬ w.LookupFails r) :
      WorkerMove c r w c w' (.env c.env f r.value r.raised)
  | sleep {w' : Worker} (ms : ℕ) (h : w.phase = .running) (h' : w'.phase = .running)
      (hok : ¬ w.LookupFails r) :
      WorkerMove c r w c w' (.sleep ms)
  | poll {w' : Worker} (h : w.pc = .testRunning) (h' : w'.phase = .running)
      (htest : c.isRunning = true) :
      WorkerMove c r w c w' (.testRunning true)
  | pollEnded {w' : Worker} (h : w.pc = .testRunning) (h' : w'.phase = .leaving)
      (htest : c.isRunning = false) :
      WorkerMove c r w c w' (.testRunning false)
  | lookupFailed {w' : Worker} (f : EnvCall) (h : w.phase = .running) (h' : w'.phase = .leaving)
      (hfail : w.LookupFails r) :
      WorkerMove c r w c w' (.env c.env f r.value r.raised)
  | detach {w' : Worker} (h : w.phase = .leaving) (h' : w'.phase = .finishing) :
      WorkerMove c r w c w' .detach
  | ret {w' : Worker} (h : w.phase = .finishing) (h' : w'.phase = .returned) :
      WorkerMove c r w c w' .ret

/-- The head of the log loop stays in the phase `running`. -/
theorem Worker.logLoop_phase (w : Worker) : w.logLoop.phase = .running := by
  rw [logLoop]
  split <;> rfl

/-- The phases are sound for the code: every step of `runClient` is a `WorkerMove`. -/
theorem workerMove_of_op {c : Client} {r : JvmReply} {w : Worker} {o : Op} {a : Answer}
    (ho : w.op = some o) (ha : o.answer c r = a) :
    WorkerMove c r w (o.exec c r) (w.resume a) (o.event c r) := by
  have hphase : w.phase = w.pc.phase := rfl
  cases hpc : w.pc <;> rw [hpc] at hphase <;>
    simp only [Worker.op, hpc, Option.some.injEq, reduceCtorEq] at ho <;> subst ho <;>
    simp only [Worker.resume, hpc, Op.exec, Op.event]
  case attach => exact .attach hphase rfl (congrArg Answer.result ha).symm
  case checkAttach =>
      have henv : a.test = c.env.isSome := (congrArg Answer.test ha).symm
      split
      · rename_i h
        refine .attachFailed hphase rfl (h.imp_right fun h => ?_)
        simpa [henv] using h
      · rename_i h
        obtain ⟨hok, hnull⟩ := not_or.mp h
        refine .attached hphase rfl (not_not.mp hok) fun h => hnull ?_
        rw [henv, h, Option.isSome_none]
  case reportAttachFailure => exact .report _ hphase rfl
  case clearRunning => exact .clear hphase rfl
  case findLogManagerClass | getGetLoggerMethod | callGetLogger | findMinecraftClass =>
      have hvalue : r.value = a.value := congrArg Answer.value ha
      split
      · rename_i hv
        exact .lookupFailed _ hphase rfl (by simpa [Worker.LookupFails, hpc, hvalue] using hv)
      · rename_i hv
        exact .call _ hphase rfl (by simpa [Worker.LookupFails, hpc, hvalue] using hv)
  case getInfoMethod =>
      have hvalue : r.value = a.value := congrArg Answer.value ha
      split
      · rename_i hv
        exact .lookupFailed _ hphase rfl (by simpa [Worker.LookupFails, hpc, hvalue] using hv)
      · rename_i hv
        exact .call _ hphase (Worker.logLoop_phase _)
          (by simpa [Worker.LookupFails, hpc, hvalue] using hv)
  case getLoggerClass | newMessage | callInfo | deleteMessage | getGetInstanceMethod
      | getPlayerField | deletePlayer | deleteMinecraft =>
      exact .call _ hphase rfl (by simp [Worker.LookupFails, hpc])
  case callGetInstance | getPlayer =>
      split <;> exact .call _ hphase rfl (by simp [Worker.LookupFails, hpc])
  case sleepLog =>
      exact .sleep _ hphase (Worker.logLoop_phase _) (by simp [Worker.LookupFails, hpc])
  case sleepPoll => exact .sleep _ hphase rfl (by simp [Worker.LookupFails, hpc])
  case testRunning =>
      have htest : c.isRunning = a.test := congrArg Answer.test ha
      rw [htest]
      cases h : a.test with
      | true => exact .poll hpc rfl (htest.trans h)
      | false => exact .pollEnded hpc rfl (htest.trans h)
  case detach => exact .detach hphase rfl
  case ret => exact .ret hphase rfl

/-- No worker sets the flag. -/
theorem WorkerMove.isRunning_of {c c' : Client} {r : JvmReply} {w w' : Worker} {e : Event}
    (h : WorkerMove c r w c' w' e) (hflag : c'.isRunning = true) : c.isRunning = true := by
  cases h with
  | clear _ _ => simp at hflag
  | _ => exact hflag

/-- A false flag stays false while workers move. -/
theorem WorkerMove.isRunning_eq_false {c c' : Client} {r : JvmReply} {w w' : Worker} {e : Event}
    (h : WorkerMove c r w c' w' e) (hflag : c.isRunning = false) : c'.isRunning = false := by
  cases hflag' : c'.isRunning with
  | false => rfl
  | true => exact (h.isRunning_of hflag').symm.trans hflag

/-- Only the failure branch of the attach changes the flag. -/
theorem WorkerMove.isRunning_eq {c c' : Client} {r : JvmReply} {w w' : Worker} {e : Event}
    (h : WorkerMove c r w c' w' e) (he : e ≠ .clearRunning) : c'.isRunning = c.isRunning := by
  cases h with
  | clear _ _ => exact absurd rfl he
  | _ => rfl

/-- No step engages a worker. -/
theorem WorkerMove.engaged_of_engaged {c c' : Client} {r : JvmReply} {w w' : Worker} {e : Event}
    (h : WorkerMove c r w c' w' e) (hw' : w'.Engaged) : w.Engaged := by
  simp only [Worker.Engaged] at hw' ⊢
  cases h with
  | attach h _ _ | attached h _ _ _ | attachFailed h _ _ | report _ h _ | clear h _
  | call _ h _ _ | sleep _ h _ _ | lookupFailed _ h _ _ => simp [h]
  | poll h _ _ | pollEnded h _ _ => simp [Worker.phase_of_testRunning h]
  | detach _ h' | ret _ h' => simp [h'] at hw'

/-- A worker that is not engaged leaves the flag alone. -/
theorem WorkerMove.client_eq_of_not_engaged {c c' : Client} {r : JvmReply} {w w' : Worker}
    {e : Event} (h : WorkerMove c r w c' w' e) (hw : ¬ w.Engaged) : c' = c := by
  cases h with
  | attach h _ _ | clear h _ => simp [Worker.Engaged, h] at hw
  | _ => rfl

/-- A failed-lookup exit makes the worker leave and touches no shared variable. -/
theorem WorkerMove.of_lookupFails {c c' : Client} {r : JvmReply} {w w' : Worker} {e : Event}
    (h : WorkerMove c r w c' w' e) (hfail : w.LookupFails r) :
    w'.phase = .leaving ∧ c' = c := by
  have hphase := hfail.phase
  cases h with
  | lookupFailed _ _ h' _ => exact ⟨h', rfl⟩
  | call _ _ _ hok | sleep _ _ _ hok => exact absurd hfail hok
  | pollEnded _ h' _ => exact ⟨h', rfl⟩
  | poll h _ _ => simp [Worker.LookupFails, h] at hfail
  | attach h _ _ | attached h _ _ _ | attachFailed h _ _ | report _ h _ | clear h _ | detach h _
  | ret h _ => simp [h] at hphase

/-! ### Steps of the calls -/

/-- Making a call only changes `Client::jvm`. -/
@[simp] theorem Call.enter_isRunning (f : Call) (c : Client) :
    (f.enter c).1.isRunning = c.isRunning := by
  cases f <;> rfl

/-- Making a call does not touch `Client::env`. -/
@[simp] theorem Call.enter_env (f : Call) (c : Client) : (f.enter c).1.env = c.env := by
  cases f <;> rfl

/-- The function a call is in after its first step. -/
theorem Call.enter_entry (f : Call) (c : Client) :
    (f.enter c).2 = if f.starts then initializeRynoxClient else shutdownRynoxClient := by
  cases f <;> rfl

/-- What a step of the JVM's side does: `CallMove c k x c' k' o` when the step `x`, over
the shared variables `c` with the call `k` in progress, leaves `c'` and `k'` and creates
the worker `o`. -/
inductive CallMove (c : Client) :
    Option Entry → EntryAction → Client → Option Entry → Option Worker → Prop
  | enter (f : Call) :
      CallMove c none (.call f) (f.enter c).1 (some (f.enter c).2) none
  | testSkips (r : OsReply) (h : c.isRunning = true) :
      CallMove c (some (.init .testRunning)) (.step r) c (some (.init .ret)) none
  | testPasses (r : OsReply) (h : c.isRunning = false) :
      CallMove c (some (.init .testRunning)) (.step r) c (some (.init .setRunning)) none
  | set (r : OsReply) :
      CallMove c (some (.init .setRunning)) (.step r) { c with isRunning := true }
        (some (.init .createThread)) none
  | create (r : OsReply) (h : r.code = 0) :
      CallMove c (some (.init .createThread)) (.step r) { c with clientThread := some r.thread }
        (some (.init .readThread)) (some Worker.start)
  | createFails (r : OsReply) (h : r.code ≠ 0) :
      CallMove c (some (.init .createThread)) (.step r)
        { c with clientThread := r.spoiled.or c.clientThread } (some (.init .reportFailure)) none
  | report (r : OsReply) :
      CallMove c (some (.init .reportFailure)) (.step r) c (some (.init .resetRunning)) none
  | reset (r : OsReply) :
      CallMove c (some (.init .resetRunning)) (.step r) { c with isRunning := false }
        (some (.init .ret)) none
  | read (r : OsReply) :
      CallMove c (some (.init .readThread)) (.step r) c
        (some (.init (.detachThread c.clientThread))) none
  | detach (thread : Option ℕ) (r : OsReply) :
      CallMove c (some (.init (.detachThread thread))) (.step r) c (some (.init .ret)) none
  | initRet (r : OsReply) :
      CallMove c (some (.init .ret)) (.step r) c none none
  | shutdownSkips (r : OsReply) (h : c.isRunning = false) :
      CallMove c (some (.shutdown .testRunning)) (.step r) c (some (.shutdown .ret)) none
  | shutdownPasses (r : OsReply) (h : c.isRunning = true) :
      CallMove c (some (.shutdown .testRunning)) (.step r) c (some (.shutdown .clearRunning)) none
  | clear (r : OsReply) :
      CallMove c (some (.shutdown .clearRunning)) (.step r) { c with isRunning := false }
        (some (.shutdown .ret)) none
  | shutdownRet (r : OsReply) :
      CallMove c (some (.shutdown .ret)) (.step r) c none none

/-- The calls do not touch `Client::env`. -/
theorem CallMove.env_eq {c c' : Client} {k k' : Option Entry} {x : EntryAction}
    {o : Option Worker} (h : CallMove c k x c' k' o) : c'.env = c.env := by
  cases h with
  | enter f => exact f.enter_env c
  | _ => rfl

/-- A created worker is at its start. -/
theorem CallMove.eq_start {c c' : Client} {k k' : Option Entry} {x : EntryAction}
    {o : Option Worker} (h : CallMove c k x c' k' o) {u : Worker} (ho : o = some u) :
    u = Worker.start := by
  cases h with
  | create _ _ => exact (Option.some.inj ho).symm
  | _ => simp at ho

/-- A call in progress moves as `CallMove` says. -/
theorem callMove_of_entry (c : Client) (r : OsReply) (e : Entry) :
    CallMove c (some e) (.step r) (e.op.exec c r) (e.resume c r)
      (e.op.spawn r) := by
  cases e with
  | init pc =>
      cases pc with
      | testRunning =>
          cases hrun : c.isRunning with
          | true => simpa [Entry.resume, Entry.op, EntryOp.exec, EntryOp.spawn, hrun]
              using CallMove.testSkips r hrun
          | false => simpa [Entry.resume, Entry.op, EntryOp.exec, EntryOp.spawn, hrun]
              using CallMove.testPasses r hrun
      | setRunning => exact .set r
      | createThread =>
          by_cases hcode : r.code = 0
          · simpa [Entry.resume, Entry.op, EntryOp.exec, EntryOp.spawn, hcode]
              using CallMove.create (c := c) r hcode
          · simpa [Entry.resume, Entry.op, EntryOp.exec, EntryOp.spawn, hcode]
              using CallMove.createFails (c := c) r hcode
      | reportFailure => exact .report r
      | resetRunning => exact .reset r
      | readThread => exact .read r
      | detachThread thread => exact .detach thread r
      | ret => exact .initRet r
  | shutdown pc =>
      cases pc with
      | testRunning =>
          cases hrun : c.isRunning with
          | true => simpa [Entry.resume, Entry.op, EntryOp.exec, EntryOp.spawn, hrun]
              using CallMove.shutdownPasses r hrun
          | false => simpa [Entry.resume, Entry.op, EntryOp.exec, EntryOp.spawn, hrun]
              using CallMove.shutdownSkips r hrun
      | clearRunning => exact .clear r
      | ret => exact .shutdownRet r

/-- Every step of the serialized calls is a `CallMove`. -/
theorem callMove_of_serialized {g g' : Agent (Option Entry)} {x : EntryAction} {o : Option Worker}
    (h : serialized g x = some (g', o)) :
    CallMove g.client g.calls x g'.client g'.calls o := by
  obtain ⟨c, k⟩ := g
  cases x with
  | call f =>
      cases k with
      | some e => simp [serialized] at h
      | none =>
          simp only [serialized, Option.some.injEq, Prod.mk.injEq] at h
          obtain ⟨rfl, rfl⟩ := h
          exact .enter f
  | step r =>
      cases k with
      | none => simp [serialized] at h
      | some e =>
          simp only [serialized, Option.some.injEq, Prod.mk.injEq] at h
          obtain ⟨rfl, rfl⟩ := h
          exact callMove_of_entry c r e

/-! ### Steps of the library -/

section AgentMove

variable {κ α : Type} {controller : Agent κ → α → Option (Agent κ × Option Worker)}

/-- What a step of the library does: the controller moves and may append a worker, or one
worker moves. -/
inductive AgentMove (controller : Agent κ → α → Option (Agent κ × Option Worker))
    (s : StateOf κ) : ActionOf α → StateOf κ → Prop
  | controller {x : α} {g : Agent κ} {o : Option Worker}
      (h : controller s.shared x = some (g, o)) :
      AgentMove controller s (.controller x) ⟨g, s.threads ++ o.toList⟩
  | worker {i : ℕ} {r : JvmReply} {w w' : Worker} {c : Client} {e : Event}
      (hi : s.threads[i]? = some w) (h : WorkerMove s.shared.client r w c w' e)
      (he : moved ((s, .thread i r) : StateOf κ × ActionOf α) = some (i, e)) :
      AgentMove controller s (.thread i r) ⟨{ s.shared with client := c }, s.threads.set i w'⟩

/-- A step of worker `i`: its operation takes effect, and it goes on from the answer. -/
theorem step_worker {calls : κ} {s s' : StateOf κ} {i : ℕ} {r : JvmReply} :
    (agentOf calls controller).lts.step s (.thread i r) = some s' ↔
      ∃ w o, s.threads[i]? = some w ∧ w.op = some o ∧
        s' = ⟨{ s.shared with client := o.exec s.shared.client r },
          s.threads.set i (w.resume (o.answer s.shared.client r))⟩ := by
  rw [ThreadPool.step_thread]
  constructor
  · rintro ⟨w, g, w', hi, hw, rfl⟩
    simp only [agentOf, Agent.work, Option.map_eq_some_iff, Prod.mk.injEq] at hw
    obtain ⟨o, ho, rfl, rfl⟩ := hw
    exact ⟨w, o, hi, ho, rfl⟩
  · rintro ⟨w, o, hi, ho, rfl⟩
    exact ⟨w, _, _, hi, by simp [agentOf, Agent.work, ho], rfl⟩

/-- Every step of the library is of one of the two kinds. -/
theorem agentMove_of_step {calls : κ} {s s' : StateOf κ} {a : ActionOf α}
    (h : (agentOf calls controller).lts.step s a = some s') : AgentMove controller s a s' := by
  cases a with
  | controller x =>
      obtain ⟨g, o, hx, rfl⟩ := ThreadPool.step_controller.mp h
      exact .controller hx
  | thread i r =>
      obtain ⟨w, o, hi, ho, rfl⟩ := step_worker.mp h
      exact .worker hi (workerMove_of_op ho rfl) (by simp [moved, hi, ho])

/-! ### Histories of the workers -/

/-- A worker that is not created yet has done nothing. -/
theorem traceOf_eq_nil {calls : κ} {tr : List (StateOf κ × ActionOf α)} {s : StateOf κ}
    (hrun : (agentOf calls controller).lts.Run (agentOf calls controller).lts.init tr s) {i : ℕ}
    (hi : s.threads.length ≤ i) : traceOf i tr = [] := by
  refine hrun.induct (I := fun tr s => s.threads.length ≤ i → traceOf i tr = [])
    (fun _ => rfl) ?_ hi
  intro tr s a s' _ ih hstep hle
  have hnil := ih (Nat.le_trans (ThreadPool.length_le_of_step hstep) hle)
  cases agentMove_of_step hstep with
  | controller hx => rw [traceOf_snoc_of_none (moved_controller _ _), hnil]
  | @worker j r w w' c e hj hmove he =>
      have hlt := ThreadPool.lt_length_of_getElem? hj
      have hne : i ≠ j := by
        simp only [List.length_set] at hle
        omega
      rw [traceOf_snoc_ne he hne, hnil]

section Histories

variable {Q : ℕ → Worker → List Event → Prop} {s : StateOf κ}
  {tr : List (StateOf κ × ActionOf α)}

/-- After a step of the controller: what holds of every worker and its history still
does, if it holds of a created worker, which has none. -/
theorem histories_controller {a : α} {o : Option Worker}
    (hold : ∀ j u, s.threads[j]? = some u → Q j u (traceOf j tr))
    (hnil : traceOf s.threads.length tr = [])
    (hnew : ∀ u, o = some u → Q s.threads.length u []) {j : ℕ} {u : Worker}
    (hj : (s.threads ++ o.toList)[j]? = some u) :
    Q j u (traceOf j (tr ++ [(s, .controller a)])) := by
  rw [traceOf_snoc_of_none (moved_controller s a)]
  rcases ThreadPool.getElem?_spawn.mp hj with hj | ⟨rfl, ho⟩
  · exact hold j u hj
  · rw [hnil]
    exact hnew u ho

/-- After a step of worker `i`: what holds of every worker and its history still does, if
it holds of `i` with the new event and the step does not disturb the others. -/
theorem histories_worker {i : ℕ} {r : JvmReply} {w w' : Worker} {e : Event}
    (hi : s.threads[i]? = some w)
    (he : moved ((s, .thread i r) : StateOf κ × ActionOf α) = some (i, e))
    (hown : Q i w' (traceOf i tr ++ [e]))
    (hother : ∀ j u, j ≠ i → s.threads[j]? = some u → Q j u (traceOf j tr)) {j : ℕ} {u : Worker}
    (hj : (s.threads.set i w')[j]? = some u) :
    Q j u (traceOf j (tr ++ [(s, .thread i r)])) := by
  rcases (ThreadPool.getElem?_set hi).mp hj with ⟨rfl, rfl⟩ | ⟨hne, hj⟩
  · rwa [traceOf_snoc_self he]
  · rw [traceOf_snoc_ne he hne]
    exact hother j u hne hj

end Histories

end AgentMove

/-- A step of the agent: a `CallMove`, or a `WorkerMove` of one worker. -/
theorem agent_step_cases {s s' : State} {a : Action} (h : agent.lts.step s a = some s') :
    (∃ x c k o, a = .controller x ∧ CallMove s.shared.client s.shared.calls x c k o ∧
      s' = ⟨⟨c, k⟩, s.threads ++ o.toList⟩) ∨
    (∃ i r w c w' e, a = .thread i r ∧ s.threads[i]? = some w ∧
      WorkerMove s.shared.client r w c w' e ∧ moved (s, a) = some (i, e) ∧
      s' = ⟨⟨c, s.shared.calls⟩, s.threads.set i w'⟩) := by
  cases agentMove_of_step h with
  | @controller x g o hx =>
      exact Or.inl ⟨x, g.client, g.calls, o, rfl, callMove_of_serialized hx, rfl⟩
  | @worker i r w w' c e hi hmove he =>
      exact Or.inr ⟨i, r, w, c, w', e, rfl, hi, hmove, he, rfl⟩

/-- Every `CallMove` is a step of the agent. -/
theorem step_of_callMove {c c' : Client} {k k' : Option Entry} {x : EntryAction}
    {o : Option Worker} (h : CallMove c k x c' k' o) (ts : List Worker) :
    agent.lts.step ⟨⟨c, k⟩, ts⟩ (.controller x) = some ⟨⟨c', k'⟩, ts ++ o.toList⟩ := by
  refine ThreadPool.step_controller.mpr ⟨⟨c', k'⟩, o, ?_, rfl⟩
  cases h with
  | enter f => rfl
  | testSkips r h | testPasses r h | createFails r h | shutdownSkips r h | shutdownPasses r h =>
      simp [agent, agentOf, serialized, Entry.op, Entry.resume, EntryOp.exec, EntryOp.spawn, h]
  | create r h =>
      simp [agent, agentOf, serialized, Entry.op, Entry.resume, EntryOp.exec, EntryOp.spawn, h]
  | _ => rfl

/-! ### Where the calls touch the flag -/

/-- The step is the one in which `shutdownRynoxClient` clears the flag. -/
def ShutdownClears (s : State) : Action → Prop
  | .controller (.step _) => s.shared.calls = some (.shutdown .clearRunning)
  | _ => False

instance (s : State) : (a : Action) → Decidable (ShutdownClears s a)
  | .controller (.step _) =>
      inferInstanceAs (Decidable (s.shared.calls = some (.shutdown .clearRunning)))
  | .controller (.call _) => inferInstanceAs (Decidable False)
  | .thread _ _ => inferInstanceAs (Decidable False)

/-- The control points of `initializeRynoxClient` between setting the flag and creating
the worker or giving up. -/
def Entry.pending : Entry → Bool
  | init .createThread | init .reportFailure | init .resetRunning => true
  | _ => false

/-- A call that finds the flag false at its guard creates a worker, if `pthread_create`
succeeds. -/
theorem exists_run_create {c : Client} (hflag : c.isRunning = false) (ts : List Worker)
    (r : OsReply) (hr : r.code = 0) :
    ∃ tr s', agent.lts.Run ⟨⟨c, some initializeRynoxClient⟩, ts⟩ tr s' ∧
      tr.map Prod.snd =
        [.controller (.step {}), .controller (.step {}), .controller (.step r)] ∧
      s'.threads = ts ++ [Worker.start] := by
  have hguard := step_of_callMove (.testPasses {} hflag) ts
  have hset := step_of_callMove (.set (c := c) {}) ts
  have hcreate := step_of_callMove (.create (c := { c with isRunning := true }) r hr) ts
  simp only [Option.toList_none, List.append_nil] at hguard hset
  exact ⟨_, _, .cons hguard (.cons hset (.single hcreate)), rfl, rfl⟩

end Rynox
