import Rynox.Progress

/-!
# Is the Running Flag Ever Stuck?

While `Client::isRunning` is true, `initializeRynoxClient` creates no worker, so a flag that
nobody is left to clear keeps the client from ever starting again. Three things clear it:
`shutdownRynoxClient`, the failure branch of `initializeRynoxClient` and that of the attach.
The five exits of `runClient` for a failed lookup do not: the worker that takes one leaves
the flag as it finds it.

So the flag must be in other hands when a worker leaves by such an exit: another worker is
engaged, or the call in progress is about to clear the flag or to create a worker
(`Entry.settlesFlag`). If it always is, the flag is never stuck; one exit without it leads
to a state where every worker has returned, no call is in progress, and the flag is true
for good (`Stuck`).
-/

namespace Rynox

/-- The call in progress will clear the flag, or create a worker, if the flag is true. -/
def Entry.settlesFlag : Entry → Bool
  | init .setRunning | init .createThread | init .reportFailure | init .resetRunning
  | shutdown .testRunning | shutdown .clearRunning => true
  | _ => false

/-- Somebody is left to clear the flag: a call, or a worker among `ts`. -/
def InHands (k : Option Entry) (ts : List Worker) : Prop :=
  k.any Entry.settlesFlag = true ∨ ¬ NoneOf Worker.Engaged ts

instance (k : Option Entry) (ts : List Worker) : Decidable (InHands k ts) :=
  inferInstanceAs (Decidable (_ ∨ ¬ NoneOf Worker.Engaged ts))

/-- If the step takes a failed-lookup exit while the flag is true, the flag is in other
hands. -/
def HandsOver (s : State) : Action → Prop
  | .thread i r => ∀ w ∈ s.threads[i]?, w.LookupFails r → s.shared.client.isRunning = true →
      InHands s.shared.calls (s.threads.eraseIdx i)
  | _ => True

instance (s : State) (a : Action) : Decidable (HandsOver s a) := by
  cases a with
  | controller x => exact inferInstanceAs (Decidable True)
  | thread i r =>
      exact inferInstanceAs (Decidable (∀ w ∈ s.threads[i]?, w.LookupFails r →
        s.shared.client.isRunning = true → InHands s.shared.calls (s.threads.eraseIdx i)))

/-- The flag is **stuck**: true, with no call in progress and every worker returned. -/
def Stuck (s : State) : Prop :=
  s.shared.calls = none ∧ s.shared.client.isRunning = true ∧ NoneOf Worker.Unfinished s.threads

instance : DecidablePred Stuck := fun s =>
  inferInstanceAs (Decidable (_ ∧ _ ∧ NoneOf Worker.Unfinished s.threads))

section InHands

variable {c c' : Client} {k k' : Option Entry} {ts : List Worker}

/-- A step of the JVM's side leaves the flag in somebody's hands. -/
theorem CallMove.inHands {x : EntryAction} {o : Option Worker} (hmove : CallMove c k x c' k' o)
    (h : c.isRunning = true → InHands k ts) (hflag : c'.isRunning = true) :
    InHands k' (ts ++ o.toList) := by
  cases hmove with
  | set r | createFails r _ | report r | shutdownPasses r _ => exact Or.inl rfl
  | create r _ =>
      refine Or.inr fun hnone => hnone Worker.start ?_ trivial
      simp
  | reset r | clear r => cases hflag
  | testPasses r hfalse | shutdownSkips r hfalse =>
      rw [hfalse] at hflag
      cases hflag
  | enter f =>
      rw [f.enter_isRunning] at hflag
      rcases h hflag with hcall | hworker
      · cases hcall
      · exact Or.inr (by simpa using hworker)
  | testSkips r _ | read r | detach _ r | initRet r | shutdownRet r =>
      rcases h hflag with hcall | hworker
      · cases hcall
      · exact Or.inr (by simpa using hworker)

/-- A step of an engaged worker that stays engaged, or of one that was not, leaves the flag
in somebody's hands. -/
theorem InHands.set {i : ℕ} {w w' : Worker} (h : InHands k ts) (hi : ts[i]? = some w)
    (hkeeps : w.Engaged → w'.Engaged) : InHands k (ts.set i w') := by
  refine h.imp_right fun hsome hnone => hsome ?_
  obtain ⟨hw', hothers⟩ := (noneOf_set_iff hi).mp hnone
  exact (noneOf_iff hi).mpr ⟨fun hw => hw' (hkeeps hw), hothers⟩

/-- What is in the hands of the others stays there. -/
theorem InHands.of_eraseIdx {i : ℕ} {w w' : Worker} (h : InHands k (ts.eraseIdx i))
    (hi : ts[i]? = some w) : InHands k (ts.set i w') := by
  refine h.imp_right fun hsome hnone => hsome fun u hu => ?_
  obtain ⟨j, hji, hj⟩ := List.mem_eraseIdx_iff_getElem?.mp hu
  exact ((noneOf_set_iff hi).mp hnone).2 j u hji hj

/-- A step of a worker leaves the flag in somebody's hands, if a failed-lookup exit hands
it over. -/
theorem WorkerMove.inHands {i : ℕ} {r : JvmReply} {w w' : Worker} {e : Event}
    (hmove : WorkerMove c r w c' w' e) (hi : ts[i]? = some w)
    (h : c.isRunning = true → InHands k ts)
    (hover : w.LookupFails r → c.isRunning = true → InHands k (ts.eraseIdx i))
    (hflag : c'.isRunning = true) : InHands k (ts.set i w') := by
  have hold := hmove.isRunning_of hflag
  cases hmove with
  | lookupFailed _ _ _ hfail => exact (hover hfail hold).of_eraseIdx hi
  | clear _ _ => cases hflag
  | pollEnded _ _ hfalse =>
      rw [hfalse] at hold
      cases hold
  | attach _ hw' _ | attached _ hw' _ _ | attachFailed _ hw' _ | report _ _ hw'
  | call _ _ hw' _ | sleep _ _ hw' _ | poll _ hw' _ =>
      exact (h hold).set hi fun _ => by simp [Worker.Engaged, hw']
  | detach hw _ | ret hw _ =>
      exact (h hold).set hi fun hengaged => by simp [Worker.Engaged, hw] at hengaged

end InHands

/-- While every failed-lookup exit hands the flag over, a true flag is in somebody's
hands. -/
theorem inHands_of_run {tr : List (State × Action)} {s : State} (hrun : AgentRun tr s)
    (hover : Lts.Along HandsOver tr) (hflag : s.shared.client.isRunning = true) :
    InHands s.shared.calls s.threads := by
  refine hrun.induct_along (I := fun _ s => s.shared.client.isRunning = true →
    InHands s.shared.calls s.threads) hover (by simp [agent, agentOf]) ?_ hflag
  intro tr s a s' _ hI ha hstep
  obtain ⟨x, c, k, o, rfl, hmove, rfl⟩ | ⟨i, r, w, c, w', e, rfl, hi, hmove, -, rfl⟩ :=
    agent_step_cases hstep
  · exact hmove.inHands hI
  · exact hmove.inHands hi hI (ha w hi)

/-- While every failed-lookup exit hands the flag over, a true flag between calls means
that some worker has not returned. -/
theorem exists_unfinished_of_run {tr : List (State × Action)} {s : State} (hrun : AgentRun tr s)
    (hover : Lts.Along HandsOver tr) (hcalls : s.shared.calls = none)
    (hflag : s.shared.client.isRunning = true) : ∃ w ∈ s.threads, w.Unfinished := by
  rcases inHands_of_run hrun hover hflag with hcall | hworker
  · rw [hcalls] at hcall
    cases hcall
  · obtain ⟨i, w, hi, hengaged⟩ := exists_of_not_noneOf hworker
    exact ⟨w, List.mem_of_getElem? hi, hengaged.unfinished⟩

/-- When every worker has returned and the flag is not stuck, the next `Agent_OnAttach`
creates a worker. -/
theorem exists_run_onAttach {s : State} (hcalls : s.shared.calls = none)
    (hflag : s.shared.client.isRunning = false) (vm : ℕ) {r : OsReply} (hr : r.code = 0) :
    ∃ tr s', agent.lts.Run s tr s' ∧
      tr.map Prod.snd = [.controller (.call (.onAttach vm)), .controller (.step {}),
        .controller (.step {}), .controller (.step r)] ∧
      s'.threads = s.threads ++ [Worker.start] := by
  obtain ⟨⟨c, k⟩, ts⟩ := s
  obtain rfl : k = none := hcalls
  have hcall := step_of_callMove (.enter (c := c) (.onAttach vm)) ts
  simp only [Option.toList_none, List.append_nil] at hcall
  obtain ⟨tr, s', hrun, hactions, hthreads⟩ :=
    exists_run_create (c := { c with jvm := some vm }) hflag ts r hr
  exact ⟨_, s', .cons hcall hrun, by simp [hactions], hthreads⟩

/-! ### The condition is needed -/

/-- A call that does not settle a true flag returns and leaves it. -/
theorem exists_run_return {c : Client} {k : Option Entry} (hk : k.any Entry.settlesFlag = false)
    (hflag : c.isRunning = true) (ts : List Worker) :
    ∃ tr, agent.lts.Run ⟨⟨c, k⟩, ts⟩ tr ⟨⟨c, none⟩, ts⟩ := by
  have hret := step_of_callMove (.initRet (c := c) {}) ts
  simp only [Option.toList_none, List.append_nil] at hret
  match k with
  | none => exact ⟨[], .nil _⟩
  | some (.init .ret) => exact ⟨_, .single hret⟩
  | some (.init .testRunning) =>
      have hskip := step_of_callMove (.testSkips {} hflag) ts
      simp only [Option.toList_none, List.append_nil] at hskip
      exact ⟨_, .cons hskip (.single hret)⟩
  | some (.init .readThread) =>
      have hread := step_of_callMove (.read (c := c) {}) ts
      have hdetach := step_of_callMove (.detach (c := c) c.clientThread {}) ts
      simp only [Option.toList_none, List.append_nil] at hread hdetach
      exact ⟨_, .cons hread (.cons hdetach (.single hret))⟩
  | some (.init (.detachThread thread)) =>
      have hdetach := step_of_callMove (.detach (c := c) thread {}) ts
      simp only [Option.toList_none, List.append_nil] at hdetach
      exact ⟨_, .cons hdetach (.single hret)⟩
  | some (.shutdown .ret) =>
      have hret := step_of_callMove (.shutdownRet (c := c) {}) ts
      simp only [Option.toList_none, List.append_nil] at hret
      exact ⟨_, .single hret⟩

/-- When no call and no engaged worker is left, the others return and leave the flag. -/
theorem exists_run_stuck {s : State} (hcalls : s.shared.calls = none)
    (hflag : s.shared.client.isRunning = true) (hnone : NoneOf Worker.Engaged s.threads) :
    ∃ tr s', agent.lts.Run s tr s' ∧ Stuck s' := by
  obtain ⟨tr, s', hrun, -, ⟨hcalls, hflag, -⟩, hall⟩ :=
    agent.lts.exists_run_of_descent (C := fun _ _ => True)
      (I := fun t => t.shared.calls = none ∧ t.shared.client.isRunning = true ∧
        NoneOf Worker.Engaged t.threads)
      (D := fun t => NoneOf Worker.Unfinished t.threads)
      (m := fun t => totalOf Worker.remaining t.threads)
      (by
        rintro t ⟨hcalls, hflag, hnone⟩ hnot
        obtain ⟨i, w, hi, hunfinished⟩ := exists_of_not_noneOf hnot
        have hengaged := hnone.not_of_getElem? hi
        obtain ⟨c', w', e, hst, hmove, hlt⟩ :=
          exists_worker_step serialized none hi hunfinished {}
        obtain rfl := hmove.client_eq_of_not_engaged hengaged
        refine ⟨.thread i {}, _, trivial, hst, ⟨hcalls, hflag, ?_⟩, ?_⟩
        · exact hnone.set fun hw' => hengaged (hmove.engaged_of_engaged hw')
        · have htotal := totalOf_set (m := Worker.remaining) (v := w') hi
          have := hlt fun hpc => absurd (Worker.engaged_of_testRunning hpc) hengaged
          simp only
          omega)
      ⟨hcalls, hflag, hnone⟩
  exact ⟨tr, s', hrun, hcalls, hflag, hall⟩

/-- A failed-lookup exit that does not hand the flag over leads to a stuck flag. -/
theorem exists_stuck_of_not_handsOver {s s' : State} {a : Action}
    (hstep : agent.lts.step s a = some s') (ha : ¬ HandsOver s a) :
    ∃ tr s'', agent.lts.Run s' tr s'' ∧ Stuck s'' := by
  obtain ⟨x, c, k, o, rfl, hmove, rfl⟩ | ⟨i, r, w, c, w', e, rfl, hi, hmove, -, rfl⟩ :=
    agent_step_cases hstep
  · exact absurd trivial ha
  · obtain ⟨hfail, hflag, hhands⟩ : w.LookupFails r ∧ s.shared.client.isRunning = true ∧
        ¬ InHands s.shared.calls (s.threads.eraseIdx i) := by
      simpa [HandsOver, hi] using ha
    obtain ⟨hcall, hworker⟩ := not_or.mp hhands
    obtain ⟨hleaving, rfl⟩ := hmove.of_lookupFails hfail
    have hnone : NoneOf Worker.Engaged (s.threads.set i w') := by
      refine (noneOf_set_iff hi).mpr ⟨by simp [Worker.Engaged, hleaving], fun j u hne hj => ?_⟩
      exact not_not.mp hworker u (List.mem_eraseIdx_iff_getElem?.mpr ⟨j, hne, hj⟩)
    obtain ⟨tr₁, hrun₁⟩ := exists_run_return (eq_false_of_ne_true hcall) hflag
      (s.threads.set i w')
    obtain ⟨tr₂, s'', hrun₂, hstuck⟩ := exists_run_stuck (s := ⟨⟨_, none⟩, _⟩) rfl hflag hnone
    exact ⟨_, s'', hrun₁.append hrun₂, hstuck⟩

/-- **The running flag is not stuck, as long as it is handed over.** In every run in which
each failed-lookup exit leaves a true flag in other hands, a flag that is true between
calls means that some worker has not returned; and when all have, the next
`Agent_OnAttach` creates a worker. But one exit that does not hand it over leads to a
stuck flag. -/
theorem running_flag {tr : List (State × Action)} {s : State} (hrun : AgentRun tr s) :
    (Lts.Along HandsOver tr → s.shared.calls = none →
      (s.shared.client.isRunning = true → ∃ w ∈ s.threads, w.Unfinished) ∧
      (NoneOf Worker.Unfinished s.threads → ∀ vm, ∀ r : OsReply, r.code = 0 →
        ∃ tr' s', agent.lts.Run s tr' s' ∧
          tr'.map Prod.snd = [.controller (.call (.onAttach vm)), .controller (.step {}),
            .controller (.step {}), .controller (.step r)] ∧
          s'.threads = s.threads ++ [Worker.start])) ∧
      ∀ a s', agent.lts.step s a = some s' → ¬ HandsOver s a →
        ∃ tr' s'', agent.lts.Run s' tr' s'' ∧ Stuck s'' := by
  refine ⟨fun hover hcalls => ⟨exists_unfinished_of_run hrun hover hcalls, ?_⟩,
    fun a s' => exists_stuck_of_not_handsOver⟩
  intro hreturned vm r hr
  have hflag : s.shared.client.isRunning = false := by
    refine eq_false_of_ne_true fun hflag => ?_
    obtain ⟨w, hw, hunfinished⟩ := exists_unfinished_of_run hrun hover hcalls hflag
    exact hreturned w hw hunfinished
  exact exists_run_onAttach hcalls hflag vm hr

/-- A run to which the theorem applies: the worker finds no `LogManager` while the flag is
still true and `Agent_OnUnload` is about to clear it, and returns; the next `Agent_OnAttach`
creates another. -/
theorem running_flag_after_unload :
    ∃ tr s, AgentRun tr s ∧ Lts.Along HandsOver tr ∧
      (∃ x ∈ tr, x.1.shared.client.isRunning = true ∧ moved x = some (0, .env (some 7)
        (.findClass "org/apache/logging/log4j/LogManager") none false)) ∧
      s.threads.length = 1 ∧
      ∃ tr' s', agent.lts.Run s tr' s' ∧ s'.threads = s.threads ++ [Worker.start] := by
  obtain ⟨tr, s, hrun, hover, hfails, hcalls, hreturned, hlength⟩ := exists_agentRun
    (P := fun tr s => Lts.Along HandsOver tr ∧
      (∃ x ∈ tr, x.1.shared.client.isRunning = true ∧ moved x = some (0, .env (some 7)
        (.findClass "org/apache/logging/log4j/LogManager") none false)) ∧
      s.shared.calls = none ∧ NoneOf Worker.Unfinished s.threads ∧ s.threads.length = 1)
    (createdBy (.onLoad 0) ++ drivenBy 7 0 2 ++
      [.controller (.call (.onUnload 0)), .controller (.step {}), .thread 0 {},
        .controller (.step {}), .controller (.step {}), .thread 0 {}, .thread 0 {}])
    (by decide)
  obtain ⟨tr', s', hrun', -, hthreads⟩ :=
    ((running_flag hrun).1 hover hcalls).2 hreturned 0 {} rfl
  exact ⟨tr, s, hrun, hover, hfails, hlength, tr', s', hrun', hthreads⟩

/-- Without the condition it fails: the only worker attaches, finds no `LogManager` and
returns, and the flag stays true. -/
theorem not_running_flag :
    ¬ ∀ s, agent.lts.Reachable s → s.shared.calls = none → s.shared.client.isRunning = true →
      ∃ w ∈ s.threads, w.Unfinished := by
  intro hclaim
  obtain ⟨tr, s, hrun, hcalls, hflag, hnone⟩ := exists_agentRun (P := fun _ s => Stuck s)
    (createdBy (.onLoad 0) ++ drivenBy 7 0 2 ++ List.replicate 3 (.thread 0 {})) (by decide)
  obtain ⟨w, hw, hunfinished⟩ := hclaim s hrun.reachable hcalls hflag
  exact hnone w hw hunfinished

end Rynox
