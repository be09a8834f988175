import Rynox.Lifecycle

/-!
# How Far a Worker Has to Go

The only loop of `runClient` without a bound of its own is the polling loop, and it looks
at the flag before each iteration. So a worker that does not find the flag true has a
bounded number of steps left, whatever is answered: `Worker.remaining` counts them, for
the longest way through the log loop and a poll iteration.

The same count shows that a worker gets where it is let go: one whose attach succeeds and
whose lookups do reaches its loop test (`exists_run_to_test`). And while no worker moves the
calls can always raise the flag (`exists_run_raise`).
-/

namespace Rynox

namespace Worker

/-- The steps a worker still makes, at most, if it does not find the flag true: a round
of the log loop takes four, and what follows the loop six. -/
def remaining (w : Worker) : ℕ :=
  match w.pc with
  | .attach => 53
  | .checkAttach => 52
  | .reportAttachFailure => 3
  | .clearRunning => 2
  | .findLogManagerClass => 51
  | .getGetLoggerMethod => 50
  | .callGetLogger => 49
  | .getLoggerClass => 48
  | .getInfoMethod => 47
  | .newMessage => 10 + 4 * (9 - w.i)
  | .callInfo => 9 + 4 * (9 - w.i)
  | .deleteMessage => 8 + 4 * (9 - w.i)
  | .sleepLog => 7 + 4 * (9 - w.i)
  | .findMinecraftClass => 6
  | .getGetInstanceMethod => 5
  | .getPlayerField => 4
  | .testRunning => 3
  | .callGetInstance => 8
  | .getPlayer => 7
  | .deletePlayer => 6
  | .deleteMinecraft => 5
  | .sleepPoll => 4
  | .detach _ => 2
  | .ret => 1
  | .returned => 0

/-- No worker has more to go than a new one. -/
theorem remaining_le (w : Worker) : w.remaining ≤ 53 := by
  rw [remaining]
  split <;> omega

/-- Nothing remains exactly when `runClient` has returned. -/
theorem remaining_eq_zero_iff {w : Worker} : w.remaining = 0 ↔ ¬ w.Unfinished := by
  rw [unfinished_iff]
  cases hpc : w.pc <;> simp [remaining, hpc]

/-- The head of the log loop has four steps to go for each round left. -/
theorem remaining_logLoop (w : Worker) : w.logLoop.remaining ≤ 6 + 4 * (10 - w.i) := by
  rw [logLoop]
  split
  · simp only [remaining, goto]
    omega
  · simp [remaining, goto]

/-- Every step brings a worker closer to its return, unless it is a loop test that
succeeds. -/
theorem remaining_resume_lt {w : Worker} {a : Answer} (hop : w.op ≠ none)
    (htest : w.pc = .testRunning → a.test = false) : (w.resume a).remaining < w.remaining := by
  cases hpc : w.pc <;> simp only [resume, hpc]
  case returned => exact absurd (op_eq_none_iff.mpr hpc) hop
  case testRunning => simp [remaining, hpc, goto, htest hpc]
  case sleepLog =>
      have hloop := remaining_logLoop { w with i := w.i + 1 }
      simp only [remaining, hpc] at hloop ⊢
      omega
  case getInfoMethod =>
      have hloop := remaining_logLoop { w with infoMethod := a.value, i := 0 }
      split
      · simp [remaining, hpc]
      · simp only [remaining, hpc] at hloop ⊢
        omega
  all_goals
    try split
    all_goals simp [remaining, hpc, goto]

end Worker

/-! ### Reaching the loop test -/

/-- The reply of a JVM with which everything succeeds. -/
def JvmReply.succeeding : JvmReply := { stored := some (some 0), value := some 0 }

/-- Nothing in the way of a worker but its lookups: it has not failed to attach, and what
it found so far was not null. -/
def Worker.OnTrack (c : Client) (w : Worker) : Prop :=
  match w.phase with
  | .starting | .running => True
  | .checking => w.attachResult = jniOk ∧ c.env ≠ none
  | _ => False

/-- No lookup fails while everything succeeds. -/
theorem Worker.not_lookupFails_succeeding (w : Worker) : ¬ w.LookupFails .succeeding := by
  simp only [LookupFails]
  split <;> simp [JvmReply.succeeding]

/-- A worker on its track to the loop test stays on it while everything succeeds, and
does not touch the flag. -/
theorem WorkerMove.onTrack {c c' : Client} {w w' : Worker} {e : Event}
    (h : WorkerMove c .succeeding w c' w' e) (htrack : w.OnTrack c) (hpc : w.pc ≠ .testRunning) :
    w'.OnTrack c' ∧ c'.isRunning = c.isRunning := by
  simp only [Worker.OnTrack] at htrack ⊢
  cases h with
  | attach hw hw' hresult => simp [hw', hresult, JvmReply.succeeding, jniOk]
  | attached hw hw' _ _ | call _ hw hw' _ | sleep _ hw hw' _ => simp [hw']
  | attachFailed hw _ hfail =>
      rw [hw] at htrack
      exact absurd hfail (not_or.mpr ⟨not_not.mpr htrack.1, htrack.2⟩)
  | poll hw _ _ | pollEnded hw _ _ => exact absurd hw hpc
  | lookupFailed _ _ _ hfail => exact absurd hfail w.not_lookupFails_succeeding
  | report _ hw _ | clear hw _ | detach hw _ | ret hw _ => simp [hw] at htrack

/-- An engaged worker that is not on its track stays so until it clears the flag. -/
theorem WorkerMove.offTrack {c c' : Client} {r : JvmReply} {w w' : Worker} {e : Event}
    (h : WorkerMove c r w c' w' e) (hw : w.Engaged) (htrack : ¬ w.OnTrack c) :
    (w'.Engaged → ¬ w'.OnTrack c') ∧ (¬ w'.Engaged → c'.isRunning = false) := by
  simp only [Worker.OnTrack, Worker.Engaged] at hw htrack ⊢
  cases h with
  | attachFailed _ hw' _ | report _ _ hw' | clear _ hw' => simp [hw']
  | attached hw₁ _ hok henv =>
      rw [hw₁] at htrack
      exact absurd ⟨hok, henv⟩ htrack
  | poll hpc _ _ | pollEnded hpc _ _ => simp [Worker.phase, hpc, Pc.phase] at htrack
  | attach hw₁ _ _ | call _ hw₁ _ _ | sleep _ hw₁ _ _ | lookupFailed _ hw₁ _ _ =>
      simp [hw₁] at htrack
  | detach hw₁ _ | ret hw₁ _ => simp [hw₁] at hw

/-- A worker at its loop test is on its track. -/
theorem Worker.onTrack_of_testRunning {c : Client} {w : Worker} (hpc : w.pc = .testRunning) :
    w.OnTrack c := by
  simp [OnTrack, phase_of_testRunning hpc]

/-- An engaged worker has not returned. -/
theorem Worker.Engaged.unfinished {w : Worker} (h : w.Engaged) : w.Unfinished := by
  intro hw
  simp [Engaged, hw] at h

/-- What is on its track has not returned. -/
theorem Worker.OnTrack.unfinished {c : Client} {w : Worker} (h : w.OnTrack c) :
    w.Unfinished := by
  intro hw
  simp [OnTrack, hw] at h

section Reaching

variable {κ α : Type} {controller : Agent κ → α → Option (Agent κ × Option Worker)} {calls : κ}

/-- What a worker's step leaves it to do: less than before, unless it found the flag
true. -/
theorem remaining_resume_lt_of_op {c : Client} {r : JvmReply} {w : Worker} {o : Op}
    (ho : w.op = some o) (htest : w.pc = .testRunning → c.isRunning = false) :
    (w.resume (o.answer c r)).remaining < w.remaining := by
  refine Worker.remaining_resume_lt (Option.ne_none_iff_exists'.mpr ⟨o, ho⟩) fun hpc => ?_
  rw [Op.answer_test _ _ ho hpc]
  exact htest hpc

variable (controller calls)

/-- A worker that has not returned can always take a step, whatever it is answered. -/
theorem exists_worker_step {s : StateOf κ} {i : ℕ} {w : Worker} (hi : s.threads[i]? = some w)
    (hw : w.Unfinished) (r : JvmReply) :
    ∃ c' w' e, (agentOf calls controller).lts.step s (.thread i r) =
        some ⟨{ s.shared with client := c' }, s.threads.set i w'⟩ ∧
      WorkerMove s.shared.client r w c' w' e ∧
      ((w.pc = .testRunning → s.shared.client.isRunning = false) →
        w'.remaining < w.remaining) := by
  obtain ⟨o, ho⟩ := Worker.op_isSome_of_ne (Worker.unfinished_iff.mp hw)
  exact ⟨_, _, _, step_worker.mpr ⟨w, o, hi, ho, rfl⟩, workerMove_of_op ho rfl,
    remaining_resume_lt_of_op ho⟩

/-- **Letting one worker run.** While only worker `i` moves and is answered `r`, let its
steps keep `I` until it meets `D`, and let it neither return nor find the flag true
before. Then it gets there, and meets `I` all the way. -/
theorem exists_run_until {r : JvmReply} {I : Client → Worker → Prop} {D : Worker → Prop}
    (hstep : ∀ c w, I c w → ¬ D w → w.Unfinished ∧
      (w.pc = .testRunning → c.isRunning = false) ∧
      ∀ c' w' e, WorkerMove c r w c' w' e → I c' w')
    {s : StateOf κ} {i : ℕ} {w : Worker} (hi : s.threads[i]? = some w)
    (hI : I s.shared.client w) :
    ∃ tr s' w', (agentOf calls controller).lts.Run s tr s' ∧
      Lts.Along (fun t a => a = .thread i r ∧
        ∃ u ∈ t.threads[i]?, I t.shared.client u ∧ ¬ D u) tr ∧
      s'.shared.calls = s.shared.calls ∧
      s'.threads = s.threads.set i w' ∧ I s'.shared.client w' ∧ D w' := by
  have hlen := ThreadPool.lt_length_of_getElem? hi
  obtain ⟨tr, s', hrun, hall, ⟨w', hthreads, hcalls, hI'⟩, hD⟩ :=
    (agentOf calls controller).lts.exists_run_of_descent
      (C := fun t a => a = .thread i r ∧ ∃ u ∈ t.threads[i]?, I t.shared.client u ∧ ¬ D u)
      (I := fun t => ∃ u, t.threads = s.threads.set i u ∧ t.shared.calls = s.shared.calls ∧
        I t.shared.client u)
      (D := fun t => ∀ u, t.threads[i]? = some u → D u)
      (m := fun t => totalOf Worker.remaining t.threads)
      (by
        rintro t ⟨u, hthreads, hcalls, hIu⟩ hnot
        have hu : t.threads[i]? = some u := by
          rw [hthreads, List.getElem?_set_self hlen]
        have hDu : ¬ D u := fun hD => hnot fun v hv => by
          rwa [Option.some.inj (hv.symm.trans hu)]
        obtain ⟨hunfinished, htest, hkeeps⟩ := hstep _ u hIu hDu
        obtain ⟨c', u', e, hst, hmove, hlt⟩ := exists_worker_step controller calls hu hunfinished r
        refine ⟨_, _, ⟨rfl, u, hu, hIu, hDu⟩, hst, ⟨u', ?_, hcalls, hkeeps _ _ _ hmove⟩, ?_⟩
        · simp only [hthreads, List.set_set]
        · have htotal := totalOf_set (m := Worker.remaining) (v := u') hu
          have := hlt htest
          simp only
          omega)
      ⟨w, (ThreadPool.set_of_getElem? hi).symm, rfl, hI⟩
  refine ⟨tr, s', w', hrun, hall, hcalls, hthreads, hI', hD w' ?_⟩
  rw [hthreads, List.getElem?_set_self hlen]

/-- A worker on its track reaches the loop test, if it alone moves and everything
succeeds; the flag stays as it is. -/
theorem exists_run_to_test {s : StateOf κ} {i : ℕ} {w : Worker} (hi : s.threads[i]? = some w)
    (htrack : w.OnTrack s.shared.client) :
    ∃ tr s' w', (agentOf calls controller).lts.Run s tr s' ∧
      Lts.Along (fun t a => a = .thread i .succeeding ∧
        ∃ u ∈ t.threads[i]?, u.OnTrack t.shared.client ∧ u.pc ≠ .testRunning) tr ∧
      s'.shared.calls = s.shared.calls ∧
      s'.shared.client.isRunning = s.shared.client.isRunning ∧
      s'.threads = s.threads.set i w' ∧ w'.pc = .testRunning := by
  obtain ⟨tr, s', w', hrun, hall, hcalls, hthreads, ⟨-, hflag⟩, hpc⟩ :=
    exists_run_until controller calls (r := .succeeding)
      (I := fun c w => w.OnTrack c ∧ c.isRunning = s.shared.client.isRunning)
      (D := fun w => w.pc = .testRunning) (fun c w ⟨htrack, hflag⟩ hpc =>
        ⟨htrack.unfinished, fun h => absurd h hpc, fun c' w' e hmove => by
          obtain ⟨htrack', hflag'⟩ := hmove.onTrack htrack hpc
          exact ⟨htrack', hflag'.trans hflag⟩⟩) hi ⟨htrack, rfl⟩
  refine ⟨tr, s', w', hrun, fun x hx => ?_, hcalls, hflag, hthreads, hpc⟩
  obtain ⟨ha, u, hu, ⟨hutrack, -⟩, hupc⟩ := hall x hx
  exact ⟨ha, u, hu, hutrack, hupc⟩

/-- A worker that has failed to attach clears the flag, if it alone moves. -/
theorem exists_run_to_clear {s : StateOf κ} {i : ℕ} {w : Worker} (hi : s.threads[i]? = some w)
    (hw : w.Engaged) (htrack : ¬ w.OnTrack s.shared.client) :
    ∃ tr s' w', (agentOf calls controller).lts.Run s tr s' ∧
      Lts.Along (fun _ a => a = .thread i .succeeding) tr ∧ s'.shared.calls = s.shared.calls ∧
      s'.shared.client.isRunning = false ∧ s'.threads = s.threads.set i w' := by
  obtain ⟨tr, s', w', hrun, hall, hcalls, hthreads, hI, hdone⟩ :=
    exists_run_until controller calls (r := .succeeding)
      (I := fun c w => (w.Engaged → ¬ w.OnTrack c) ∧ (¬ w.Engaged → c.isRunning = false))
      (D := fun w => ¬ w.Engaged) (fun c w ⟨htrack, _⟩ hdone => by
        have hw := not_not.mp hdone
        refine ⟨hw.unfinished, fun hpc => ?_, fun c' w' e hmove => hmove.offTrack hw (htrack hw)⟩
        exact absurd (Worker.onTrack_of_testRunning hpc) (htrack hw)) hi
      ⟨fun _ => htrack, fun h => absurd hw h⟩
  exact ⟨tr, s', w', hrun, fun x hx => (hall x hx).1, hcalls, hI.2 hdone, hthreads⟩

end Reaching

/-! ### Raising the flag -/

/-- How many steps of the calls it takes to raise a flag that is false: the call in progress
returns, and a start follows. -/
def stepsToRaise : Option Entry → ℕ
  | some (.init .createThread) => 7
  | some (.init .reportFailure) | some (.init .readThread) | some (.shutdown .testRunning) => 6
  | some (.init .resetRunning) | some (.init (.detachThread _))
  | some (.shutdown .clearRunning) => 5
  | some (.init .ret) | some (.shutdown .ret) => 4
  | none => 3
  | some (.init .testRunning) => 2
  | some (.init .setRunning) => 1

/-- While the flag is false, some step of the calls comes closer to raising it. -/
theorem exists_callMove_raise {c : Client} (hflag : c.isRunning = false) (k : Option Entry) :
    ∃ x c' k' o, CallMove c k x c' k' o ∧
      (if c'.isRunning then 0 else stepsToRaise k') < stepsToRaise k := by
  cases k with
  | none => exact ⟨_, _, _, _, .enter (.onAttach 0), by split <;> simp [stepsToRaise, Call.enter,
      agentOnAttach, startAgent, initializeRynoxClient]⟩
  | some e =>
      refine ⟨_, _, _, _, callMove_of_entry c { code := 1 } e, ?_⟩
      rcases e with pc | pc <;> cases pc <;>
        simp [Entry.op, EntryOp.exec, Entry.resume, stepsToRaise, hflag]

/-- From every state the calls can raise the flag, while no worker moves. -/
theorem exists_run_raise (s : State) :
    ∃ tr t, agent.lts.Run s tr t ∧ Lts.Along (fun _ a => ∃ x, a = .controller x) tr ∧
      t.shared.client.isRunning = true ∧ t.shared.client.env = s.shared.client.env ∧
      ∀ (i : ℕ) (w : Worker), s.threads[i]? = some w → t.threads[i]? = some w := by
  obtain ⟨tr, t, hrun, hall, ⟨henv, hthreads⟩, hflag⟩ :=
    agent.lts.exists_run_of_descent (C := fun _ a => ∃ x, a = .controller x)
      (I := fun t => t.shared.client.env = s.shared.client.env ∧
        ∀ (i : ℕ) (w : Worker), s.threads[i]? = some w → t.threads[i]? = some w)
      (D := fun t => t.shared.client.isRunning = true)
      (m := fun t => if t.shared.client.isRunning then 0 else stepsToRaise t.shared.calls)
      (by
        rintro ⟨⟨c, k⟩, ts⟩ ⟨henv, hthreads⟩ hflag
        have hfalse : c.isRunning = false := eq_false_of_ne_true hflag
        obtain ⟨x, c', k', o, hmove, hlt⟩ := exists_callMove_raise hfalse k
        refine ⟨_, _, ⟨x, rfl⟩, step_of_callMove hmove ts,
          ⟨hmove.env_eq.trans henv, fun i w hi => ?_⟩, by simpa [hfalse] using hlt⟩
        have hold := hthreads i w hi
        rwa [List.getElem?_append_left (ThreadPool.lt_length_of_getElem? hold)])
      ⟨rfl, fun _ _ hi => hi⟩
  exact ⟨tr, t, hrun, hall, hflag, henv, hthreads⟩

end Rynox
