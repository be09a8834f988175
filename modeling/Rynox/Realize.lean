import Rynox.Lone

/-!
# Which Lives a Worker Can Have

The lone worker `Worker.lts` takes any answer at any time, so it has runs that no worker of
the library has: an attach may be reported as successful and `Client::env` be found null, a
sleep may answer a handle. The lives of a worker that is the only one are its runs in which
the answers fit: each says no more than the operation answers, and `Client::env` is found
set exactly if the attach succeeded (`lifeOf_iff`). So what is proved of the lone worker
under such answers is proved of the right runs, and a run of it on which something goes
wrong under them is a run of the library.

That every life fits takes an invariant of the agent; that every fitting run is a life, a
schedule: a start, then the steps of the worker, with a shutdown put in before the loop test
that is to fail.
-/

namespace Rynox

/-- The answer says no more than the operation of the worker answers, and tells of
`Client::env` what the attach has left there. -/
def Worker.Fits (w : Worker) (a : Answer) : Prop :=
  match w.op with
  | some .attach => a = { result := a.result }
  | some .checkEnv => a = { test := decide (w.attachResult = jniOk) }
  | some .testRunning => a = { test := a.test }
  | some (.env _) => a = { value := a.value, raised := a.raised }
  | _ => a = {}

/-- `Client::env` as the only worker finds it: null before the attach, and afterwards set
exactly if the attach succeeded. -/
structure EnvFits (c : Client) (w : Worker) : Prop where
  starting : w.phase = .starting → c.env = none
  checking : w.phase = .checking → (c.env ≠ none ↔ w.attachResult = jniOk)

/-- What fits depends on `Client::env` alone. -/
theorem EnvFits.congr {c c' : Client} {w : Worker} (h : EnvFits c w) (henv : c'.env = c.env) :
    EnvFits c' w :=
  ⟨fun hw => henv.trans (h.starting hw), fun hw => by rw [henv, h.checking hw]⟩

/-- What the worker reads where it tests the result of its attach. -/
theorem EnvFits.isSome_eq {c : Client} {w : Worker} (h : EnvFits c w)
    (ho : w.op = some .checkEnv) : c.env.isSome = decide (w.attachResult = jniOk) := by
  have hpc : w.phase = .checking := by
    cases hpc : w.pc <;> simp [Worker.op, hpc] at ho ⊢
    simp [Worker.phase, hpc, Pc.phase]
  rw [Bool.eq_iff_iff, Option.isSome_iff_ne_none, h.checking hpc, decide_eq_true_eq]

/-- A lawful step of the only worker leaves `Client::env` as the worker expects it. -/
theorem WorkerMove.envFits {c c' : Client} {r : JvmReply} {w w' : Worker} {e : Event}
    (h : WorkerMove c r w c' w' e) (hlaw : e.Lawful) (henv : EnvFits c w) : EnvFits c' w' := by
  cases h with
  | attach hw hw' hresult =>
      refine ⟨by simp [hw'], fun _ => ?_⟩
      have hnull := henv.starting hw
      rw [hresult]
      match hstored : r.stored with
      | none => simpa [hnull, hstored] using show r.result ≠ jniOk by rwa [hstored] at hlaw
      | some none => rw [hstored] at hlaw; exact hlaw.elim
      | some (some p) => simpa [hstored] using show r.result = jniOk by rwa [hstored] at hlaw
  | attached _ hw' _ _ | attachFailed _ hw' _ | report _ _ hw' | clear _ hw' | call _ _ hw' _
  | sleep _ _ hw' _ | poll _ hw' _ | pollEnded _ hw' _ | lookupFailed _ _ hw' _ | detach _ hw'
  | ret _ hw' => exact ⟨by simp [hw'], by simp [hw']⟩

/-- A worker that is still engaged after a step has left the flag alone. -/
theorem WorkerMove.isRunning_eq_of_engaged {c c' : Client} {r : JvmReply} {w w' : Worker}
    {e : Event} (h : WorkerMove c r w c' w' e) (hw' : w'.Engaged) :
    c'.isRunning = c.isRunning := by
  refine h.isRunning_eq fun he => ?_
  subst he
  cases h with
  | clear _ hfinish => simp [Worker.Engaged, hfinish] at hw'

/-! ### Every life fits -/

/-- What the library answers fits, if `Client::env` is as the worker expects it. -/
theorem Worker.fits_answered {κ : Type} {g : Agent κ} {w : Worker} (r : JvmReply)
    (henv : EnvFits g.client w) : w.Fits (w.answered g r) := by
  rw [Fits, answered]
  cases ho : w.op with
  | none => rfl
  | some o =>
      cases o with
      | checkEnv => simp only [Option.map_some, Option.getD_some, Op.answer, henv.isSome_eq ho]
      | _ => rfl

/-- While there is at most one worker, and the JVM keeps to its part, its life fits. -/
theorem fits_of_agentRun {tr : List (State × Action)} {s : State} (hrun : AgentRun tr s)
    (hlaw : Lts.Along JvmLawful tr) (hone : s.threads.length ≤ 1) :
    (s.threads = [] → s.shared.client.env = none) ∧
      (∀ w, s.threads[0]? = some w → EnvFits s.shared.client w) ∧
      Lts.Along Worker.Fits (lifeOf 0 tr) := by
  refine hrun.induct_along (I := fun tr s => s.threads.length ≤ 1 →
    (s.threads = [] → s.shared.client.env = none) ∧
      (∀ w, s.threads[0]? = some w → EnvFits s.shared.client w) ∧
      Lts.Along Worker.Fits (lifeOf 0 tr)) hlaw ?_ ?_ hone
  · exact fun _ => ⟨fun _ => rfl, by simp, Lts.along_nil⟩
  intro tr s a s' _ hI ha hstep hone
  have hbefore := hI (Nat.le_trans (ThreadPool.length_le_of_step hstep) hone)
  obtain ⟨hnull, henv, hfits⟩ := hbefore
  obtain ⟨x, c, k, o, rfl, hmove, rfl⟩ | ⟨i, r, w, c, w', e, rfl, hi, hmove, he, rfl⟩ :=
    agent_step_cases hstep
  · refine ⟨fun hnil => hmove.env_eq.trans (hnull ?_), fun w hw => ?_, ?_⟩
    · exact (List.append_eq_nil_iff.mp hnil).1
    · rcases ThreadPool.getElem?_spawn.mp hw with hw | ⟨hlen, ho⟩
      · exact (henv w hw).congr hmove.env_eq
      · obtain rfl := hmove.eq_start ho
        have hnil := List.eq_nil_of_length_eq_zero hlen.symm
        exact ⟨fun _ => hmove.env_eq.trans (hnull hnil), fun h => by cases h⟩
    · rwa [lifeOf_snoc_controller]
  · have hlt := ThreadPool.lt_length_of_getElem? hi
    rw [List.length_set] at hone
    obtain rfl : i = 0 := by omega
    refine ⟨fun hnil => ?_, fun u hu => ?_, ?_⟩
    · have hlen := congrArg List.length hnil
      rw [List.length_set, List.length_nil] at hlen
      omega
    · rcases (ThreadPool.getElem?_set hi).mp hu with ⟨-, rfl⟩ | ⟨hne, -⟩
      · exact hmove.envFits (ha _ he) (henv w hi)
      · exact absurd rfl hne
    · rw [lifeOf_snoc_self hi]
      exact Lts.along_append.mpr ⟨hfits, Lts.along_singleton.mpr (w.fits_answered r (henv w hi))⟩

/-! ### Every fitting run is a life -/

/-- A reply with which the JVM keeps to its part and that gives the answer. -/
def replyOf (a : Answer) : JvmReply where
  result := a.result
  stored := if a.result = jniOk then some (some 0) else none
  value := a.value
  raised := a.raised

/-- The reply is lawful. -/
theorem lawful_replyOf (c : Client) (o : Op) (a : Answer) : (o.event c (replyOf a)).Lawful := by
  cases o with
  | attach =>
      simp only [Op.event, replyOf]
      by_cases hok : a.result = jniOk
      · rw [if_pos hok]
        exact hok
      · rw [if_neg hok]
        exact hok
  | _ => trivial

/-- A fitting answer is the one the library gives to that reply, if the flag is what a loop
test is to find. -/
theorem Worker.answer_replyOf {c : Client} {w : Worker} {o : Op} {a : Answer}
    (ho : w.op = some o) (hfits : w.Fits a) (henv : EnvFits c w)
    (hflag : w.pc = .testRunning → c.isRunning = a.test) : o.answer c (replyOf a) = a := by
  rw [Fits, ho] at hfits
  cases o with
  | attach | env f =>
      rw [hfits]
      rfl
  | checkEnv =>
      rw [hfits, Op.answer, henv.isSome_eq ho]
  | testRunning =>
      rw [hfits, Op.answer, hflag (pc_eq_testRunning_of_op ho)]
  | _ =>
      rw [hfits]
      rfl

/-- A run of the agent, between two calls, in which the only worker has the given life. -/
structure Lives (life : List (Worker × Answer)) (w : Worker) (tr : List (State × Action))
    (s : State) : Prop where
  run : AgentRun tr s
  lawful : Lts.Along JvmLawful tr
  calls : s.shared.calls = none
  threads : s.threads = [w]
  life : lifeOf 0 tr = life
  envFits : EnvFits s.shared.client w

/-- The run a worker begins its life in. -/
theorem exists_lives_nil :
    ∃ tr s, Lives [] Worker.start tr s ∧ s.shared.client.isRunning = true := by
  obtain ⟨tr, s, hrun, hlaw, hcalls, hthreads, hlife, henv, hflag⟩ := exists_agentRun
    (P := fun tr s => Lts.Along JvmLawful tr ∧ s.shared.calls = none ∧
      s.threads = [Worker.start] ∧ lifeOf 0 tr = [] ∧ s.shared.client.env = none ∧
      s.shared.client.isRunning = true)
    (createdBy (.onLoad 0)) (by decide)
  exact ⟨tr, s, ⟨hrun, hlaw, hcalls, hthreads, hlife, ⟨fun _ => henv, fun h => by cases h⟩⟩, hflag⟩

namespace Lives

variable {life : List (Worker × Answer)} {w : Worker} {tr : List (State × Action)} {s : State}

/-- A step on the side of the JVM is in no life. -/
theorem callMove {c c' : Client} {k k' : Option Entry} {x : EntryAction}
    (h : AgentRun tr ⟨⟨c, k⟩, [w]⟩ ∧ Lts.Along JvmLawful tr ∧ lifeOf 0 tr = life)
    (hmove : CallMove c k x c' k' none) :
    ∃ tr', AgentRun tr' ⟨⟨c', k'⟩, [w]⟩ ∧ Lts.Along JvmLawful tr' ∧ lifeOf 0 tr' = life := by
  obtain ⟨hrun, hlaw, hlife⟩ := h
  have hstep := step_of_callMove hmove [w]
  rw [Option.toList_none, List.append_nil] at hstep
  refine ⟨_, hrun.snoc hstep, Lts.along_append.mpr ⟨hlaw, Lts.along_singleton.mpr ?_⟩, ?_⟩
  · simp [JvmLawful]
  · rwa [lifeOf_snoc_controller]

/-- `Agent_OnUnload` clears the flag, and the worker does not notice. -/
theorem unload (h : Lives life w tr s) (hflag : s.shared.client.isRunning = true) :
    ∃ tr' s', Lives life w tr' s' ∧ s'.shared.client.isRunning = false := by
  obtain ⟨⟨c, k⟩, ts⟩ := s
  obtain ⟨hrun, hlaw, rfl, rfl, hlife, henv⟩ := h
  obtain ⟨tr₁, h₁⟩ := callMove ⟨hrun, hlaw, hlife⟩ (.enter (.onUnload 0))
  obtain ⟨tr₂, h₂⟩ := callMove h₁ (.shutdownPasses {} hflag)
  obtain ⟨tr₃, h₃⟩ := callMove h₂ (.clear {})
  obtain ⟨tr₄, hrun₄, hlaw₄, hlife₄⟩ := callMove h₃ (.shutdownRet {})
  exact ⟨tr₄, _, ⟨hrun₄, hlaw₄, rfl, rfl, hlife₄, henv.congr rfl⟩, rfl⟩

/-- A step of the worker with a fitting answer, if the flag is what a loop test is to
find. -/
theorem snoc {w' : Worker} {a : Answer} (h : Lives life w tr s)
    (hstep : Worker.lts.step w a = some w') (hfits : w.Fits a)
    (hflag : w.pc = .testRunning → s.shared.client.isRunning = a.test) :
    ∃ tr' s', Lives (life ++ [(w, a)]) w' tr' s' ∧
      (w'.Engaged → w.Engaged ∧ s'.shared.client.isRunning = s.shared.client.isRunning) := by
  obtain ⟨ho, rfl⟩ := Worker.lts_step.mp hstep
  obtain ⟨o, ho⟩ := Option.ne_none_iff_exists'.mp ho
  have hi : s.threads[0]? = some w := by simp [h.threads]
  have hanswer := Worker.answer_replyOf ho hfits h.envFits hflag
  have hmove := workerMove_of_op (c := s.shared.client) (r := replyOf a) ho hanswer
  have he : moved ((s, .thread 0 (replyOf a)) : State × Action) =
      some (0, o.event s.shared.client (replyOf a)) := by
    simp [moved, hi, ho]
  have hlaw := lawful_replyOf s.shared.client o a
  have hstep' : agent.lts.step s (.thread 0 (replyOf a)) =
      some ⟨{ s.shared with client := o.exec s.shared.client (replyOf a) },
        s.threads.set 0 (w.resume a)⟩ :=
    step_worker.mpr ⟨w, o, hi, ho, by rw [hanswer]⟩
  refine ⟨_, _, ⟨h.run.snoc hstep', Lts.along_append.mpr ⟨h.lawful, Lts.along_singleton.mpr ?_⟩,
    h.calls, ?_, ?_, hmove.envFits hlaw h.envFits⟩,
    fun hw' => ⟨hmove.engaged_of_engaged hw', hmove.isRunning_eq_of_engaged hw'⟩⟩
  · intro m hm
    obtain rfl := Option.some.inj (he.symm.trans hm)
    exact hlaw
  · rw [h.threads, List.set_cons_zero]
  · rw [lifeOf_snoc_self hi, h.life, Worker.answered, ho, Option.map_some, Option.getD_some,
      hanswer]

end Lives

/-- Every run of the lone worker whose answers fit is a life, and the flag is true while the
worker is engaged. -/
theorem exists_lives {life : List (Worker × Answer)} {w : Worker}
    (hrun : Worker.lts.Run Worker.start life w) (hfits : Lts.Along Worker.Fits life) :
    ∃ tr s, Lives life w tr s ∧ (w.Engaged → s.shared.client.isRunning = true) := by
  refine hrun.induct_along (I := fun life w => ∃ tr s, Lives life w tr s ∧
    (w.Engaged → s.shared.client.isRunning = true)) hfits ?_ ?_
  · obtain ⟨tr, s, h, hflag⟩ := exists_lives_nil
    exact ⟨tr, s, h, fun _ => hflag⟩
  rintro life w a w' - ⟨tr, s, h, hflag⟩ ha hstep
  by_cases hend : w.pc = .testRunning ∧ a.test = false
  · -- the loop test is to fail, so the flag has to be cleared first
    obtain ⟨hpc, htest⟩ := hend
    obtain ⟨tr₁, s₁, h₁, hfalse⟩ := h.unload (hflag (Worker.engaged_of_testRunning hpc))
    obtain ⟨tr₂, s₂, h₂, -⟩ := h₁.snoc hstep ha fun _ => hfalse.trans htest.symm
    refine ⟨tr₂, s₂, h₂, fun hengaged => ?_⟩
    obtain ⟨-, rfl⟩ := Worker.lts_step.mp hstep
    simp [Worker.Engaged, Worker.phase, Worker.resume, hpc, htest, Worker.goto, Pc.phase]
      at hengaged
  · have htest : w.pc = .testRunning → s.shared.client.isRunning = a.test := by
      intro hpc
      rw [hflag (Worker.engaged_of_testRunning hpc)]
      simpa using (not_and.mp hend hpc)
    obtain ⟨tr₁, s₁, h₁, hkept⟩ := h.snoc hstep ha htest
    refine ⟨tr₁, s₁, h₁, fun hengaged => ?_⟩
    obtain ⟨hbefore, hsame⟩ := hkept hengaged
    exact hsame.trans (hflag hbefore)

/-- **Which lives a worker can have.** The lives of a worker that is the only one, in runs
of the agent in which the JVM keeps to its part, are exactly the runs of the lone worker
whose answers fit. -/
theorem lifeOf_iff {life : List (Worker × Answer)} {w : Worker} :
    (∃ tr s, AgentRun tr s ∧ Lts.Along JvmLawful tr ∧ s.threads = [w] ∧ lifeOf 0 tr = life) ↔
      Worker.lts.Run Worker.start life w ∧ Lts.Along Worker.Fits life := by
  constructor
  · rintro ⟨tr, s, hrun, hlaw, hthreads, rfl⟩
    have hi : s.threads[0]? = some w := by simp [hthreads]
    refine ⟨run_lifeOf ?_ hrun hi, (fits_of_agentRun hrun hlaw (by simp [hthreads])).2.2⟩
    intro g x g' o hx u ho
    exact (callMove_of_serialized hx).eq_start ho
  · rintro ⟨hrun, hfits⟩
    obtain ⟨tr, s, h, -⟩ := exists_lives hrun hfits
    exact ⟨tr, s, h.run, h.lawful, h.threads, h.life⟩

end Rynox
