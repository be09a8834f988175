import Rynox.Drain

/-!
# What Still Runs after `Agent_OnUnload`

`shutdownRynoxClient` clears the flag and returns; it does not wait for the worker, whose
thread is detached and cannot be joined. So when `Agent_OnUnload` has returned, workers may
still be anywhere in `runClient`, and the JVM that now takes itself down may still be called.

What can be said is how much: `Worker.jniBudget` is the number of JNI calls a worker still
makes, at most, once the flag is false. It is zero for a worker that has detached or failed
to attach, and at most 40 for any other (`quiescence`).
-/

namespace Rynox

/-- The calls into the JVM: through `Client::env`, and the attach and detach. -/
def Event.isJni : Event → Bool
  | attach _ _ | env _ _ _ _ | detach => true
  | _ => false

/-- The JNI calls a worker still makes, at most, if it does not find the flag true: three in
each round of the log loop, and four after it. -/
def Worker.jniBudget (w : Worker) : ℕ :=
  match w.pc with
  | .attach => 40
  | .checkAttach => if w.attachResult = jniOk then 39 else 0
  | .findLogManagerClass => 39
  | .getGetLoggerMethod => 38
  | .callGetLogger => 37
  | .getLoggerClass => 36
  | .getInfoMethod => 35
  | .newMessage => 7 + 3 * (9 - w.i)
  | .callInfo => 6 + 3 * (9 - w.i)
  | .deleteMessage => 5 + 3 * (9 - w.i)
  | .sleepLog => 4 + 3 * (9 - w.i)
  | .findMinecraftClass => 4
  | .getGetInstanceMethod => 3
  | .getPlayerField => 2
  | .testRunning => 1
  | .callGetInstance => 5
  | .getPlayer => 4
  | .deletePlayer => 3
  | .deleteMinecraft => 2
  | .sleepPoll => 1
  | .detach _ => 1
  | .reportAttachFailure | .clearRunning | .ret | .returned => 0

namespace Worker

/-- The head of the log loop has three calls to go for each round left, and four after. -/
theorem jniBudget_logLoop (w : Worker) : w.logLoop.jniBudget ≤ 4 + 3 * (10 - w.i) := by
  rw [logLoop]
  split
  · simp only [jniBudget, goto]
    omega
  · simp [jniBudget, goto]

/-- A worker that has detached or failed to attach has no budget, and no worker has more
than 40. -/
theorem jniBudget_le (w : Worker) : w.jniBudget ≤ if w.Active then 40 else 0 := by
  cases hpc : w.pc <;> simp only [jniBudget, hpc, Active, phase, Pc.phase]
  case checkAttach => split <;> simp
  all_goals simp; try omega

/-- Every JNI call is paid for out of the budget. -/
theorem isJni_add_jniBudget_le {c : Client} {r : JvmReply} {w : Worker} {o : Op}
    (ho : w.op = some o) (hflag : c.isRunning = false) :
    (if (o.event c r).isJni then 1 else 0) + (w.resume (o.answer c r)).jniBudget ≤
      w.jniBudget := by
  generalize ha : o.answer c r = a
  cases hpc : w.pc <;> simp only [op, hpc, Option.some.injEq, reduceCtorEq] at ho <;> subst ho <;>
    simp only [resume, hpc, Op.event, Event.isJni, Bool.false_eq_true, reduceIte]
  case attach =>
      simp only [jniBudget, hpc]
      split <;> simp
  case checkAttach =>
      split
      · simp [jniBudget, goto]
      · rename_i h
        simp [jniBudget, hpc, goto, not_not.mp (not_or.mp h).1]
  case getInfoMethod =>
      have hloop := jniBudget_logLoop { w with infoMethod := a.value, i := 0 }
      split
      · simp [jniBudget, hpc]
      · simp only [jniBudget, hpc] at hloop ⊢
        omega
  case sleepLog =>
      have hloop := jniBudget_logLoop { w with i := w.i + 1 }
      simp only [jniBudget, hpc] at hloop ⊢
      omega
  case testRunning =>
      have htest : a.test = false := by
        rw [← ha]
        exact hflag
      simp [jniBudget, hpc, goto, htest]
  all_goals
    try split
    all_goals simp only [jniBudget, hpc, goto]; try omega

end Worker

section Budget

variable {κ α : Type} {controller : Agent κ → α → Option (Agent κ × Option Worker)} {calls : κ}
  {Q : κ → Prop} {C : α → Prop} {s t : StateOf κ}

/-- In a run from a stopped state, what a worker has done and what it may still do stay
within the budget it started with. -/
theorem jniCalls_add_le (hspec : Stopping controller Q C) (h : Stopped Q s)
    {tr : List (StateOf κ × ActionOf α)} (hrun : (agentOf calls controller).lts.Run s tr t)
    (htr : Lts.Along (Only C) tr) {i : ℕ} {w : Worker} (hi : s.threads[i]? = some w) :
    ∃ u, t.threads[i]? = some u ∧
      (traceOf i tr).countP Event.isJni + u.jniBudget ≤ w.jniBudget := by
  have key : Stopped Q t ∧ ∃ u, t.threads[i]? = some u ∧
      (traceOf i tr).countP Event.isJni + u.jniBudget ≤ w.jniBudget := by
    refine hrun.induct_along (I := fun tr t => Stopped Q t ∧ ∃ u, t.threads[i]? = some u ∧
      (traceOf i tr).countP Event.isJni + u.jniBudget ≤ w.jniBudget) htr
      ⟨h, w, hi, by simp⟩ ?_
    rintro tr t a t' - ⟨hstopped, u, hu, hle⟩ ha hstep
    refine ⟨(stopped_step hspec hstopped ha hstep).1, ?_⟩
    cases a with
    | controller x =>
        obtain ⟨g, o, hx, rfl⟩ := ThreadPool.step_controller.mp hstep
        refine ⟨u, ThreadPool.getElem?_spawn.mpr (Or.inl hu), ?_⟩
        rwa [traceOf_snoc_of_none (moved_controller t x)]
    | thread j r =>
        obtain ⟨v, o, hj, ho, rfl⟩ := step_worker.mp hstep
        have he : moved ((t, .thread j r) : StateOf κ × ActionOf α) =
            some (j, o.event t.shared.client r) := by
          simp [moved, hj, ho]
        by_cases hij : i = j
        · subst hij
          obtain rfl : u = v := Option.some.inj (hu.symm.trans hj)
          have hpaid := Worker.isJni_add_jniBudget_le (r := r) ho hstopped.1
          refine ⟨_, (ThreadPool.getElem?_set hj).mpr (Or.inl ⟨rfl, rfl⟩), ?_⟩
          rw [traceOf_snoc_self he, List.countP_append, List.countP_singleton]
          omega
        · refine ⟨u, (ThreadPool.getElem?_set hj).mpr (Or.inr ⟨hij, hu⟩), ?_⟩
          rwa [traceOf_snoc_ne he hij]
  exact key.2

end Budget

/-! ### After the return of `Agent_OnUnload` -/

/-- The transition is the return of `Agent_OnUnload`. -/
def UnloadReturns : State × Action → Prop
  | (s, .controller (.step _)) => s.shared.calls = some (.shutdown .ret)
  | _ => False

instance : DecidablePred UnloadReturns
  | (s, .controller (.step _)) =>
      inferInstanceAs (Decidable (s.shared.calls = some (.shutdown .ret)))
  | (_, .controller (.call _)) => inferInstanceAs (Decidable False)
  | (_, .thread _ _) => inferInstanceAs (Decidable False)

/-- The step that leads a call to the return of `shutdownRynoxClient` leaves the flag
false. -/
theorem CallMove.isRunning_of_shutdownRet {c c' : Client} {k k' : Option Entry}
    {x : EntryAction} {o : Option Worker} (h : CallMove c k x c' k' o)
    (hk : k' = some (.shutdown .ret)) : c'.isRunning = false := by
  cases h with
  | shutdownSkips r hflag => exact hflag
  | clear r => rfl
  | enter f =>
      rw [f.enter_entry] at hk
      split at hk <;> cases hk
  | _ => cases hk

/-- `shutdownRynoxClient` returns with the flag false. -/
theorem isRunning_of_shutdownRet {s : State} (hs : agent.lts.Reachable s)
    (hcalls : s.shared.calls = some (.shutdown .ret)) : s.shared.client.isRunning = false := by
  refine hs.invariant (I := fun s => s.shared.calls = some (.shutdown .ret) →
    s.shared.client.isRunning = false) (by simp [agent, agentOf]) ?_ hcalls
  intro t a u hI hstep hcalls
  obtain ⟨x, c, k, o, rfl, hmove, rfl⟩ | ⟨i, r, w, c, w', e, rfl, hi, hmove, -, rfl⟩ :=
    agent_step_cases hstep
  · exact hmove.isRunning_of_shutdownRet hcalls
  · exact hmove.isRunning_eq_false (hI hcalls)

/-- The return of `Agent_OnUnload` leaves the library stopped, with the workers it had. -/
theorem stopped_of_unloadReturns {x : State × Action} {t : State}
    (hx : agent.lts.Reachable x.1) (hret : UnloadReturns x)
    (hstep : agent.lts.step x.1 x.2 = some t) :
    Stopped (fun k => ∀ e ∈ k, e.NotStarting) t ∧ t.threads = x.1.threads := by
  obtain ⟨s, a⟩ := x
  obtain ⟨x, c, k, o, rfl, hmove, rfl⟩ | ⟨i, r, w, c, w', e, rfl, -⟩ := agent_step_cases hstep
  · cases x with
    | call f => exact hret.elim
    | step r =>
        have hcalls : s.shared.calls = some (.shutdown .ret) := hret
        have hflag := isRunning_of_shutdownRet hx hcalls
        rw [hcalls] at hmove
        cases hmove with
        | shutdownRet r => exact ⟨⟨hflag, by simp⟩, by simp⟩
  · exact hret.elim

/-- **Quiescence after unload, as far as it goes.** After `Agent_OnUnload` has returned and
before a later call of `Agent_OnLoad` or `Agent_OnAttach`, the flag stays false, no worker
is created and none starts another poll iteration; a worker that had detached or failed to
attach makes no JNI call, and every other one at most 40. -/
theorem quiescence {before after : List (State × Action)} {x : State × Action} {s : State}
    (hrun : AgentRun (before ++ x :: after) s) (hret : UnloadReturns x)
    (hafter : Lts.Along (Only EntryAction.NoStart) after) :
    s.shared.client.isRunning = false ∧ s.threads.length = x.1.threads.length ∧
      (∀ y ∈ after, ∀ i, moved y ≠ some (i, .testRunning true)) ∧
      ∀ i w, x.1.threads[i]? = some w →
        (traceOf i after).countP Event.isJni ≤ if w.Active then 40 else 0 := by
  obtain ⟨hbefore, t, hstep, hrest⟩ := hrun.split_at
  obtain ⟨hstopped, hthreads⟩ := stopped_of_unloadReturns hbefore.reachable hret hstep
  obtain ⟨⟨hflag, -⟩, hlength, hpolls⟩ := stopped_run stopping_serialized hstopped hrest hafter
  refine ⟨hflag, hthreads ▸ hlength, hpolls, fun i w hi => ?_⟩
  obtain ⟨u, -, hle⟩ :=
    jniCalls_add_le stopping_serialized hstopped hrest hafter (hthreads.symm ▸ hi)
  have hbudget := w.jniBudget_le
  omega

/-- A run to which the theorem applies: a worker that is starting when `Agent_OnUnload`
returns attaches, finds no `LogManager` and detaches. -/
theorem quiescence_after_unload :
    ∃ before x after s, AgentRun (before ++ x :: after) s ∧ UnloadReturns x ∧
      (traceOf 0 after).countP Event.isJni = 3 ∧
      ∀ i w, x.1.threads[i]? = some w →
        (traceOf i after).countP Event.isJni ≤ if w.Active then 40 else 0 := by
  obtain ⟨tr, s, hrun, ⟨x, hx, hret⟩, hno, hcount⟩ := exists_agentRun
    (P := fun tr _ => (∃ x ∈ tr[10]?, UnloadReturns x) ∧
      Lts.Along (Only EntryAction.NoStart) (tr.drop 11) ∧
      (traceOf 0 (tr.drop 11)).countP Event.isJni = 3)
    (createdBy (.onLoad 0) ++ stoppedBy 0 ++ drivenBy 7 0 2 ++ List.replicate 3 (.thread 0 {}))
    (by decide)
  rw [Lts.eq_take_cons_drop hx] at hrun
  exact ⟨_, x, _, s, hrun, hret, hcount, (quiescence hrun hret hno).2.2.2⟩

/-- The worker need not be gone when `Agent_OnUnload` returns: here it has not even
attached, and does so afterwards. -/
theorem not_quiescence :
    ¬ ∀ before x after s, AgentRun (before ++ x :: after) s → UnloadReturns x →
      Lts.Along (Only EntryAction.NoStart) after →
      NoneOf Worker.Active s.threads ∧ ∀ i, ∀ e ∈ traceOf i after, e.isJni = false := by
  intro hclaim
  obtain ⟨tr, s, hrun, ⟨x, hx, hret⟩, hno, htrace⟩ := exists_agentRun
    (P := fun tr _ => (∃ x ∈ tr[10]?, UnloadReturns x) ∧
      Lts.Along (Only EntryAction.NoStart) (tr.drop 11) ∧
      traceOf 0 (tr.drop 11) = [.attach jniOk (some (some 7))])
    (createdBy (.onLoad 0) ++ stoppedBy 0 ++ drivenBy 7 0 1) (by decide)
  rw [Lts.eq_take_cons_drop hx] at hrun
  have hnone := (hclaim _ x _ s hrun hret hno).2 0
  rw [htrace] at hnone
  exact absurd (hnone _ (List.mem_singleton_self _)) (by decide)

end Rynox
