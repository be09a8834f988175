import Rynox.Progress

/-!
# The Stop Signal of a Session

A worker goes on polling while `Client::isRunning` is true. One flag serves all sessions:
each start sets it, each stop clears it, and so does a worker that fails to attach. What
a worker reads at its loop test is therefore its own session's signal only as long as
sessions do not overlap there. A worker that has not taken one of its exits is *engaged*
(`Worker.Engaged`): it may still test the flag or clear it. If every start sets the flag
when no worker is engaged, each loop test answers exactly whether the session has been
stopped (`testRunning_iff_of_run`); a start that sets it while a worker is engaged recalls the
stop that worker was sent.
-/

namespace Rynox

/-- `shutdownRynoxClient` has cleared the flag since worker `i` was created. Workers are
numbered in the order of their creation, so `i` exists in a state with more than `i` of
them. -/
def StoppedSince (tr : List (State × Action)) (i : ℕ) : Prop :=
  ∃ x ∈ tr, i < x.1.threads.length ∧ ShutdownClears x.1 x.2

instance (tr : List (State × Action)) (i : ℕ) : Decidable (StoppedSince tr i) :=
  inferInstanceAs (Decidable (∃ x ∈ tr, i < x.1.threads.length ∧ ShutdownClears x.1 x.2))

/-- In the state `s` worker `i` may evaluate the test of its polling loop, which answers
`b`. -/
def TestsLoop (s : State) (i : ℕ) (b : Bool) : Prop :=
  ∃ r, moved ((s, .thread i r) : State × Action) = some (i, .testRunning b)

/-- The step does not set the flag while a worker is engaged. -/
def StartsQuiet (s : State) : Action → Prop
  | .controller (.step _) =>
      s.shared.calls = some (.init .setRunning) → NoneOf Worker.Engaged s.threads
  | _ => True

instance (s : State) : (a : Action) → Decidable (StartsQuiet s a)
  | .controller (.step _) =>
      inferInstanceAs (Decidable (s.shared.calls = some (.init .setRunning) →
        NoneOf Worker.Engaged s.threads))
  | .controller (.call _) => inferInstanceAs (Decidable True)
  | .thread _ _ => inferInstanceAs (Decidable True)

/-- What the flag says while every start is quiet: one engaged worker at most, none while
a start is pending, and to that worker the flag tells whether it has been stopped. -/
structure SignalInv (tr : List (State × Action)) (c : Client) (k : Option Entry)
    (ts : List Worker) : Prop where
  guarded : k = some (.init .setRunning) → c.isRunning = false
  raised : k = some (.init .createThread) → c.isRunning = true
  pending : k.any Entry.pending = true → NoneOf Worker.Engaged ts
  atMostOne : AtMostOne Worker.Engaged ts
  signal : ∀ i w, ts[i]? = some w → w.Engaged → (c.isRunning = true ↔ ¬ StoppedSince tr i)

/-- A worker has been stopped before, or the last transition stops it. -/
theorem stoppedSince_snoc {tr : List (State × Action)} {x : State × Action} {i : ℕ} :
    StoppedSince (tr ++ [x]) i ↔
      StoppedSince tr i ∨ (i < x.1.threads.length ∧ ShutdownClears x.1 x.2) := by
  simp [StoppedSince, or_and_right, exists_or]

/-- A step that is no stop stops nobody. -/
theorem stoppedSince_snoc_of_not {tr : List (State × Action)} {x : State × Action} {i : ℕ}
    (h : ¬ ShutdownClears x.1 x.2) : StoppedSince (tr ++ [x]) i ↔ StoppedSince tr i := by
  simp [stoppedSince_snoc, h]

/-- A worker that is not created yet has not been stopped. -/
theorem not_stoppedSince_of_length_le {tr : List (State × Action)} {s : State}
    (hrun : AgentRun tr s) {i : ℕ} (hi : s.threads.length ≤ i) : ¬ StoppedSince tr i := by
  refine hrun.induct (I := fun tr s => s.threads.length ≤ i → ¬ StoppedSince tr i)
    (fun _ => by simp [StoppedSince]) ?_ hi
  intro tr s a s' _ ih hstep hle
  have hlen := Nat.le_trans (ThreadPool.length_le_of_step hstep) hle
  rw [stoppedSince_snoc, not_or]
  exact ⟨ih hlen, fun h => by have := h.1; simp only at this; omega⟩

namespace SignalInv

variable {tr : List (State × Action)} {c c' : Client} {k k' : Option Entry} {ts : List Worker}

/-- A step that neither creates a worker nor touches the flag keeps the invariant, if the
call it leads to is at no point the invariant says more about. -/
theorem quiet {a : Action} (h : SignalInv tr c k ts) (hflag : c'.isRunning = c.isRunning)
    (hclears : ¬ ShutdownClears ⟨⟨c, k⟩, ts⟩ a)
    (hguarded : k' = some (.init .setRunning) → c.isRunning = false)
    (hraised : k' = some (.init .createThread) → c.isRunning = true)
    (hpending : k'.any Entry.pending = true → k.any Entry.pending = true) :
    SignalInv (tr ++ [(⟨⟨c, k⟩, ts⟩, a)]) c' k' ts where
  guarded hk := hflag.trans (hguarded hk)
  raised hk := hflag.trans (hraised hk)
  pending hk := h.pending (hpending hk)
  atMostOne := h.atMostOne
  signal i w hi hw := by
    rw [hflag, stoppedSince_snoc_of_not hclears]
    exact h.signal i w hi hw

/-- A step of the JVM's side keeps the invariant, if it starts no session while a worker
is engaged. -/
theorem callMove {x : EntryAction} {o : Option Worker} (h : SignalInv tr c k ts)
    (hmove : CallMove c k x c' k' o) (hquiet : StartsQuiet ⟨⟨c, k⟩, ts⟩ (.controller x))
    (hnew : ¬ StoppedSince tr ts.length) :
    SignalInv (tr ++ [(⟨⟨c, k⟩, ts⟩, .controller x)]) c' k' (ts ++ o.toList) := by
  cases hmove with
  | set r =>
      have hnone : NoneOf Worker.Engaged ts := hquiet rfl
      simp only [Option.toList_none, List.append_nil]
      exact ⟨by simp, fun _ => rfl, fun _ => hnone, h.atMostOne,
        fun i w hi hw => absurd hw (hnone.not_of_getElem? hi)⟩
  | create r hcode =>
      have hnone := h.pending rfl
      refine ⟨by simp, by simp, by simp [Entry.pending], hnone.atMostOne_spawn, ?_⟩
      intro i w hi hw
      rcases ThreadPool.getElem?_spawn.mp hi with hi | ⟨rfl, -⟩
      · exact absurd hw (hnone.not_of_getElem? hi)
      · have hclears : ¬ ShutdownClears ⟨⟨c, some (.init .createThread)⟩, ts⟩
            (.controller (.step r)) := by simp [ShutdownClears]
        rw [stoppedSince_snoc_of_not hclears]
        exact iff_of_true (h.raised rfl) hnew
  | reset r =>
      have hnone := h.pending rfl
      simp only [Option.toList_none, List.append_nil]
      exact ⟨by simp, by simp, by simp [Entry.pending], h.atMostOne,
        fun i w hi hw => absurd hw (hnone.not_of_getElem? hi)⟩
  | clear r =>
      simp only [Option.toList_none, List.append_nil]
      refine ⟨by simp, by simp, by simp [Entry.pending], h.atMostOne, ?_⟩
      intro i w hi hw
      have hstopped : StoppedSince
          (tr ++ [(⟨⟨c, some (.shutdown .clearRunning)⟩, ts⟩, .controller (.step r))]) i :=
        stoppedSince_snoc.mpr (Or.inr ⟨ThreadPool.lt_length_of_getElem? hi, rfl⟩)
      simpa using hstopped
  | testPasses r hflag =>
      simp only [Option.toList_none, List.append_nil]
      exact h.quiet rfl (by simp [ShutdownClears]) (fun _ => hflag) (by simp)
        (by simp [Entry.pending])
  | enter f =>
      simp only [Option.toList_none, List.append_nil]
      refine h.quiet (f.enter_isRunning c) (by simp [ShutdownClears]) ?_ ?_ ?_ <;>
        cases f <;> simp [Call.enter_entry, Call.starts, initializeRynoxClient,
          shutdownRynoxClient, Entry.pending]
  | createFails r hcode | report r =>
      simp only [Option.toList_none, List.append_nil]
      exact h.quiet rfl (by simp [ShutdownClears]) (by simp) (by simp) fun _ => rfl
  | testSkips r hflag | read r | detach _ r | initRet r | shutdownSkips r hflag
  | shutdownPasses r hflag | shutdownRet r =>
      simp only [Option.toList_none, List.append_nil]
      exact h.quiet rfl (by simp [ShutdownClears]) (by simp) (by simp) (by simp [Entry.pending])

/-- Every step of a worker keeps the invariant: only an engaged worker clears the flag,
and then it is the one the flag speaks to. -/
theorem workerMove {i : ℕ} {r : JvmReply} {w w' : Worker} {e : Event} (h : SignalInv tr c k ts)
    (hi : ts[i]? = some w) (hmove : WorkerMove c r w c' w' e) :
    SignalInv (tr ++ [(⟨⟨c, k⟩, ts⟩, .thread i r)]) c' k (ts.set i w') := by
  have hclears : ¬ ShutdownClears ⟨⟨c, k⟩, ts⟩ (.thread i r) := by simp [ShutdownClears]
  have hpending : k.any Entry.pending = true → NoneOf Worker.Engaged (ts.set i w') := by
    intro hk
    have hnone := h.pending hk
    exact hnone.set fun hw' => hnone.not_of_getElem? hi (hmove.engaged_of_engaged hw')
  have hatMostOne : AtMostOne Worker.Engaged (ts.set i w') :=
    h.atMostOne.set hi hmove.engaged_of_engaged
  by_cases he : e = .clearRunning
  · subst he
    cases hmove with
    | clear hw hw' =>
        have hengaged : w.Engaged := by simp [Worker.Engaged, hw]
        refine ⟨fun _ => rfl, fun hk => ?_, hpending, hatMostOne, fun j u hj hu => ?_⟩
        · subst hk
          exact absurd hengaged ((h.pending rfl).not_of_getElem? hi)
        · rcases (ThreadPool.getElem?_set hi).mp hj with ⟨rfl, rfl⟩ | ⟨hne, hj⟩
          · simp [Worker.Engaged, hw'] at hu
          · exact absurd (h.atMostOne hj hi hu hengaged) hne
  · have hflag := hmove.isRunning_eq he
    refine ⟨fun hk => hflag.trans (h.guarded hk), fun hk => hflag.trans (h.raised hk),
      hpending, hatMostOne, fun j u hj hu => ?_⟩
    rw [hflag, stoppedSince_snoc_of_not hclears]
    rcases (ThreadPool.getElem?_set hi).mp hj with ⟨rfl, rfl⟩ | ⟨-, hj⟩
    · exact h.signal j w hi (hmove.engaged_of_engaged hu)
    · exact h.signal j u hj hu

end SignalInv

/-- While every start is quiet, the flag speaks to the one engaged worker. -/
theorem signalInv_of_run {tr : List (State × Action)} {s : State} (hrun : AgentRun tr s)
    (hquiet : Lts.Along StartsQuiet tr) :
    SignalInv tr s.shared.client s.shared.calls s.threads := by
  refine hrun.induct_along
    (I := fun tr s => SignalInv tr s.shared.client s.shared.calls s.threads) hquiet
    ⟨by simp [agent, agentOf], by simp [agent, agentOf], by simp [agent, agentOf],
      noneOf_nil.atMostOne, by simp⟩ ?_
  intro tr s a s' hpre hI ha hstep
  obtain ⟨x, c, k, o, rfl, hmove, rfl⟩ | ⟨i, r, w, c, w', e, rfl, hi, hmove, -, rfl⟩ :=
    agent_step_cases hstep
  · exact hI.callMove hmove ha (not_stoppedSince_of_length_le hpre (Nat.le_refl _))
  · exact hI.workerMove hi hmove

/-- A loop test answers the flag. -/
theorem TestsLoop.spec {s : State} {i : ℕ} {b : Bool} (h : TestsLoop s i b) :
    ∃ w, s.threads[i]? = some w ∧ w.pc = .testRunning ∧ b = s.shared.client.isRunning := by
  obtain ⟨r, h⟩ := h
  obtain ⟨_, w, o, -, hi, ho, hevent⟩ := exists_op_of_moved h
  obtain ⟨rfl, rfl⟩ := Op.eq_testRunning_of_event hevent
  exact ⟨w, hi, Worker.pc_eq_testRunning_of_op ho, rfl⟩

/-- While every start is quiet, a loop test succeeds exactly as long as the session has
not been stopped. -/
theorem testRunning_iff_of_run {tr : List (State × Action)} {s : State} (hrun : AgentRun tr s)
    (hquiet : Lts.Along StartsQuiet tr) {i : ℕ} {b : Bool} (h : TestsLoop s i b) :
    b = true ↔ ¬ StoppedSince tr i := by
  obtain ⟨w, hi, hpc, rfl⟩ := h.spec
  exact (signalInv_of_run hrun hquiet).signal i w hi (Worker.engaged_of_testRunning hpc)

/-! ### The condition is needed -/

/-- A loop test **misreads** the session: it succeeds after a stop, or fails without one. -/
def Misreads (tr : List (State × Action)) (s : State) : Prop :=
  ∃ i b, TestsLoop s i b ∧ ¬ (b = true ↔ ¬ StoppedSince tr i)

/-- A worker at its loop test misreads if the flag is not what its stops say. -/
theorem misreads_of_test {tr : List (State × Action)} {s : State} {i : ℕ} {w : Worker}
    (hi : s.threads[i]? = some w) (hpc : w.pc = .testRunning)
    (h : ¬ (s.shared.client.isRunning = true ↔ ¬ StoppedSince tr i)) : Misreads tr s :=
  ⟨i, s.shared.client.isRunning, ⟨{}, by simp [moved, hi, Worker.op, hpc, Op.event]⟩, h⟩

/-- Steps of workers stop nobody. -/
theorem stoppedSince_append_of_thread {tr tr' : List (State × Action)} {i j : ℕ} {r : JvmReply}
    (h : Lts.Along (fun _ a => a = .thread j r) tr') :
    StoppedSince (tr ++ tr') i ↔ StoppedSince tr i := by
  constructor
  · rintro ⟨x, hx, hlt, hclears⟩
    rcases List.mem_append.mp hx with hx | hx
    · exact ⟨x, hx, hlt, hclears⟩
    · rw [h x hx] at hclears
      simp [ShutdownClears] at hclears
  · rintro ⟨x, hx, hlt, hclears⟩
    exact ⟨x, List.mem_append_left _ hx, hlt, hclears⟩

/-- A worker that was stopped before a start set the flag again, and is still on its way
to the loop test, finds the flag true there. -/
theorem exists_misreads_of_onTrack {tr : List (State × Action)} {s : State} {i : ℕ} {w : Worker}
    (hi : s.threads[i]? = some w) (htrack : w.OnTrack s.shared.client)
    (hflag : s.shared.client.isRunning = true) (hstopped : StoppedSince tr i) :
    ∃ tr' s', agent.lts.Run s tr' s' ∧ Misreads (tr ++ tr') s' := by
  obtain ⟨tr', s', w', hrun, hall, -, hflag', hthreads, hpc⟩ :=
    exists_run_to_test serialized none hi htrack
  have hi' : s'.threads[i]? = some w' := by
    rw [hthreads]
    exact List.getElem?_set_self (ThreadPool.lt_length_of_getElem? hi)
  refine ⟨tr', s', hrun, misreads_of_test hi' hpc ?_⟩
  rw [hflag', hflag, stoppedSince_append_of_thread fun x hx => (hall x hx).1]
  simpa using hstopped

/-- A worker that fails to attach while a start is pending clears the flag for the worker
that start creates. -/
theorem exists_misreads_of_failing {tr : List (State × Action)} {s : State} {i : ℕ} {w : Worker}
    (hrun : AgentRun tr s) (hcalls : s.shared.calls = some (.init .createThread))
    (hi : s.threads[i]? = some w) (hw : w.Engaged) (htrack : ¬ w.OnTrack s.shared.client) :
    ∃ tr' s', agent.lts.Run s tr' s' ∧ Misreads (tr ++ tr') s' := by
  obtain ⟨tr₁, ⟨⟨c, k⟩, ts⟩, w₁, hrun₁, -, rfl, hflag, -⟩ :=
    exists_run_to_clear serialized none hi hw htrack
  have hcreate := step_of_callMove (.create (c := c) {} rfl) ts
  rw [← hcalls] at hcreate
  have hnew : (ts ++ [Worker.start])[ts.length]? = some Worker.start :=
    List.getElem?_concat_length
  obtain ⟨tr₂, s', w', hrun₂, hall, -, hflag', hthreads, hpc⟩ :=
    exists_run_to_test serialized none (i := ts.length)
      (s := ⟨⟨{ c with clientThread := some 0 }, some (.init .readThread)⟩,
        ts ++ [Worker.start]⟩) hnew (by simp [Worker.OnTrack])
  have hi' : s'.threads[ts.length]? = some w' := by
    rw [hthreads]
    exact List.getElem?_set_self (ThreadPool.lt_length_of_getElem? hnew)
  refine ⟨_, s', hrun₁.append (.cons hcreate hrun₂), misreads_of_test hi' hpc ?_⟩
  have hbefore := not_stoppedSince_of_length_le (hrun.append hrun₁) (Nat.le_refl _)
  rw [hflag', hflag, ← List.singleton_append, ← List.append_assoc, ← List.append_assoc,
    stoppedSince_append_of_thread (fun x hx => (hall x hx).1),
    stoppedSince_snoc_of_not (by simp [ShutdownClears, hcalls])]
  simpa using hbefore

/-- The step of a start that sets the flag. -/
theorem setRunning_step {s s' : State} {r : OsReply}
    (hstep : agent.lts.step s (.controller (.step r)) = some s')
    (hcalls : s.shared.calls = some (.init .setRunning)) :
    s'.shared.calls = some (.init .createThread) ∧ s'.shared.client.isRunning = true ∧
      s'.threads = s.threads := by
  obtain ⟨x, c, k, o, hx, hmove, rfl⟩ | ⟨i, r, w, c, w', e, hx, -⟩ := agent_step_cases hstep
  · cases hx
    rw [hcalls] at hmove
    cases hmove with
    | set r => simp
  · cases hx

/-- A start that sets the flag while a worker is engaged leads to a loop test that
misreads. -/
theorem exists_misreads_of_not_startsQuiet {tr : List (State × Action)} {s s' : State}
    {a : Action} (hrun : AgentRun tr s) (hquiet : Lts.Along StartsQuiet tr)
    (hstep : agent.lts.step s a = some s') (ha : ¬ StartsQuiet s a) :
    ∃ tr' s'', agent.lts.Run s' tr' s'' ∧ Misreads (tr ++ (s, a) :: tr') s'' := by
  have hinv := signalInv_of_run hrun hquiet
  obtain ⟨r, rfl, hset, hengaged⟩ : ∃ r, a = .controller (.step r) ∧
      s.shared.calls = some (.init .setRunning) ∧ ¬ NoneOf Worker.Engaged s.threads := by
    cases a with
    | thread i r => simp [StartsQuiet] at ha
    | controller x =>
        cases x with
        | call f => simp [StartsQuiet] at ha
        | step r => exact ⟨r, rfl, by simpa [StartsQuiet] using ha⟩
  obtain ⟨i, w, hi, hwe⟩ := exists_of_not_noneOf hengaged
  have hstopped : StoppedSince tr i := by
    by_contra hnot
    have hflag := (hinv.signal i w hi hwe).mpr hnot
    rw [hinv.guarded hset] at hflag
    cases hflag
  obtain ⟨hcalls', hflag', hthreads'⟩ := setRunning_step hstep hset
  rw [← hthreads'] at hi
  obtain ⟨tr', s'', hrun', hmis⟩ : ∃ tr' s'', agent.lts.Run s' tr' s'' ∧
      Misreads (tr ++ [(s, .controller (.step r))] ++ tr') s'' := by
    by_cases htrack : w.OnTrack s'.shared.client
    · exact exists_misreads_of_onTrack hi htrack hflag'
        (stoppedSince_snoc.mpr (Or.inl hstopped))
    · exact exists_misreads_of_failing (hrun.snoc hstep) hcalls' hi hwe htrack
  exact ⟨tr', s'', hrun', by simpa using hmis⟩

/-- **The stop signal.** In every run in which a start sets the flag only when no worker
is engaged, a loop test succeeds if and only if `shutdownRynoxClient` has not cleared the
flag since its worker was created. And a start that does set it then leads to a loop
test that misreads the session. -/
theorem stop_signal {tr : List (State × Action)} {s : State} (hrun : AgentRun tr s)
    (hquiet : Lts.Along StartsQuiet tr) :
    (∀ i b, TestsLoop s i b → (b = true ↔ ¬ StoppedSince tr i)) ∧
      ∀ a s', agent.lts.step s a = some s' → ¬ StartsQuiet s a →
        ∃ tr' s'', agent.lts.Run s' tr' s'' ∧ Misreads (tr ++ (s, a) :: tr') s'' :=
  ⟨fun _ _ => testRunning_iff_of_run hrun hquiet, fun _ _ =>
    exists_misreads_of_not_startsQuiet hrun hquiet⟩

/-- A run to which the theorem applies: the first worker is stopped and leaves its polling
loop, and the worker of the next session then finds the flag true. -/
theorem stop_signal_two_sessions :
    ∃ tr s, AgentRun tr s ∧ Lts.Along StartsQuiet tr ∧ StoppedSince tr 0 ∧
      TestsLoop s 1 true ∧ ¬ StoppedSince tr 1 := by
  obtain ⟨tr, s, hrun, hquiet, hstopped, hevent⟩ := exists_agentRun
    (P := fun tr s => Lts.Along StartsQuiet tr ∧ StoppedSince tr 0 ∧
      moved ((s, .thread 1 {}) : State × Action) = some (1, .testRunning true))
    (createdBy (.onLoad 0) ++ drivenBy 7 0 50 ++ stoppedBy 0 ++ drivenBy 7 0 1 ++
      createdBy (.onAttach 0) ++ drivenBy 8 1 50) (by decide)
  have htest : TestsLoop s 1 true := ⟨{}, hevent⟩
  exact ⟨tr, s, hrun, hquiet, hstopped, htest,
    ((stop_signal hrun hquiet).1 1 true htest).mp rfl⟩

/-- Without the condition it fails: the worker is stopped while it waits in its polling
loop, the next `Agent_OnAttach` sets the flag again, and the loop test succeeds. -/
theorem not_stop_signal :
    ¬ ∀ tr s, AgentRun tr s → ∀ i b, TestsLoop s i b → (b = true ↔ ¬ StoppedSince tr i) := by
  intro hclaim
  obtain ⟨tr, s, hrun, hstopped, hevent⟩ := exists_agentRun
    (P := fun tr s => StoppedSince tr 0 ∧
      moved ((s, .thread 0 {}) : State × Action) = some (0, .testRunning true))
    (createdBy (.onLoad 0) ++ drivenBy 7 0 50 ++ stoppedBy 0 ++ createdBy (.onAttach 0))
    (by decide)
  exact (hclaim tr s hrun 0 true ⟨{}, hevent⟩).mp rfl hstopped

end Rynox
