import Rynox.Overlap
import Rynox.Progress

/-!
# Draining after a Stop

Once `Client::isRunning` is false, nothing but a start sets it again: not a worker, and not a
shutdown. So if no start is in progress and none is made, every worker finds the flag false
at its next loop test, and the workers together have a bounded number of steps left: at
most 53 for each that has not returned (`drain`). Until then none of them ever waits.

The facts hold whether the calls overlap or not; what they use of the calls is that one
which is not a start keeps the flag false and creates nobody (`Stopping`).
-/

namespace Rynox

/-- The transition is a step of a worker. -/
def isWorkerStep {κ α : Type} : StateOf κ × ActionOf α → Bool
  | (_, .thread _ _) => true
  | (_, .controller _) => false

/-- The controller steps in `C` do nothing but stop, while `Q` holds of the calls in
progress: they keep `Q`, leave a false flag false, and create no worker. -/
def Stopping {κ α : Type} (controller : Agent κ → α → Option (Agent κ × Option Worker))
    (Q : κ → Prop) (C : α → Prop) : Prop :=
  ∀ g x g' o, Q g.calls → C x → g.client.isRunning = false → controller g x = some (g', o) →
    Q g'.calls ∧ g'.client.isRunning = false ∧ o = none

/-- The controller steps of a run are all in `C`. -/
def Only {κ α : Type} (C : α → Prop) (_ : StateOf κ) : ActionOf α → Prop
  | .controller x => C x
  | .thread _ _ => True

/-- The state is **stopped**: the flag is false and `Q` holds of the calls in progress. -/
def Stopped {κ : Type} (Q : κ → Prop) (s : StateOf κ) : Prop :=
  s.shared.client.isRunning = false ∧ Q s.shared.calls

section Drain

variable {κ α : Type} {controller : Agent κ → α → Option (Agent κ × Option Worker)} {calls : κ}
  {Q : κ → Prop} {C : α → Prop} {s t : StateOf κ}

/-- A step of a worker in a stopped state lowers the measure. -/
theorem totalOf_lt_of_worker_step (hflag : s.shared.client.isRunning = false) {i : ℕ}
    {r : JvmReply} (hstep : (agentOf calls controller).lts.step s (.thread i r) = some t) :
    totalOf Worker.remaining t.threads < totalOf Worker.remaining s.threads := by
  obtain ⟨w, o, hi, ho, rfl⟩ := step_worker.mp hstep
  have hlt := remaining_resume_lt_of_op (c := s.shared.client) (r := r) ho fun _ => hflag
  have htotal := totalOf_set (m := Worker.remaining)
    (v := w.resume (o.answer s.shared.client r)) hi
  simp only
  omega

/-- A loop test in a stopped state fails. -/
theorem not_poll_of_stopped (hflag : s.shared.client.isRunning = false) {a : ActionOf α} {i : ℕ} :
    moved (s, a) ≠ some (i, .testRunning true) := by
  intro hmoved
  obtain ⟨r, w, o, -, -, -, hevent⟩ := exists_op_of_moved hmoved
  obtain ⟨-, htrue⟩ := Op.eq_testRunning_of_event hevent
  rw [hflag] at htrue
  cases htrue

/-- One step from a stopped state. -/
theorem stopped_step (hspec : Stopping controller Q C) (h : Stopped Q s) {a : ActionOf α}
    (ha : Only C s a) (hstep : (agentOf calls controller).lts.step s a = some t) :
    Stopped Q t ∧ t.threads.length = s.threads.length ∧
      (if isWorkerStep (s, a) then 1 else 0) + totalOf Worker.remaining t.threads ≤
        totalOf Worker.remaining s.threads := by
  obtain ⟨hflag, hcalls⟩ := h
  cases a with
  | controller x =>
      obtain ⟨g, o, hx, rfl⟩ := ThreadPool.step_controller.mp hstep
      obtain ⟨hcalls', hflag', rfl⟩ := hspec _ x g o hcalls ha hflag hx
      exact ⟨⟨hflag', hcalls'⟩, by simp, by simp [isWorkerStep]⟩
  | thread i r =>
      have hlt := totalOf_lt_of_worker_step hflag hstep
      obtain ⟨w, o, hi, ho, rfl⟩ := step_worker.mp hstep
      have hmove := workerMove_of_op (c := s.shared.client) (r := r) ho rfl
      refine ⟨⟨hmove.isRunning_eq_false hflag, hcalls⟩, by simp, ?_⟩
      simp only [isWorkerStep, if_true] at hlt ⊢
      omega

/-- What holds all along a run from a stopped state. -/
theorem stopped_run (hspec : Stopping controller Q C) (h : Stopped Q s)
    {tr : List (StateOf κ × ActionOf α)} (hrun : (agentOf calls controller).lts.Run s tr t)
    (htr : Lts.Along (Only C) tr) :
    Stopped Q t ∧ t.threads.length = s.threads.length ∧
      ∀ x ∈ tr, ∀ i, moved x ≠ some (i, .testRunning true) := by
  refine hrun.induct_along (I := fun tr t => Stopped Q t ∧ t.threads.length = s.threads.length ∧
    ∀ x ∈ tr, ∀ i, moved x ≠ some (i, .testRunning true)) htr ⟨h, rfl, by simp⟩ ?_
  rintro tr t a u - ⟨hstopped, hlength, hpolls⟩ ha hstep
  obtain ⟨hstopped', hlength', -⟩ := stopped_step hspec hstopped ha hstep
  refine ⟨hstopped', hlength'.trans hlength, fun x hx => ?_⟩
  rcases List.mem_append.mp hx with hx | hx
  · exact hpolls x hx
  · rw [List.mem_singleton.mp hx]
    exact fun i => not_poll_of_stopped hstopped.1

/-- The measure pays for the worker steps of a run from a stopped state. -/
theorem workerSteps_add_le (hspec : Stopping controller Q C) (h : Stopped Q s)
    {tr : List (StateOf κ × ActionOf α)} (hrun : (agentOf calls controller).lts.Run s tr t)
    (htr : Lts.Along (Only C) tr) :
    tr.countP isWorkerStep + totalOf Worker.remaining t.threads ≤
      totalOf Worker.remaining s.threads := by
  refine hrun.countP_add_le (I := Stopped Q) (m := fun s => totalOf Worker.remaining s.threads)
    htr h fun hstopped ha hstep => ?_
  obtain ⟨hstopped', -, hle⟩ := stopped_step hspec hstopped ha hstep
  exact ⟨hstopped', hle⟩

/-- The measure is at most 53 for each worker that has not returned. -/
theorem totalOf_remaining_le (l : List Worker) :
    totalOf Worker.remaining l ≤ 53 * l.countP (fun w => decide w.Unfinished) := by
  refine totalOf_le Worker.remaining_le fun w hw => ?_
  exact Worker.remaining_eq_zero_iff.mpr (of_decide_eq_false hw)

/-- What holds after a run `tr` from a stopped state `s` to `t`: the flag is still false and
no worker has started another poll iteration; every worker that has not returned can take
a step, whatever it is answered, and every such step lowers the measure; the workers made
at most 53 steps for each of them that had not returned in `s`; and when no worker can take
a step, all have returned. -/
structure Drains (L : Lts (StateOf κ) (ActionOf α)) (s : StateOf κ)
    (tr : List (StateOf κ × ActionOf α)) (t : StateOf κ) : Prop where
  flag : t.shared.client.isRunning = false
  no_poll : ∀ x ∈ tr, ∀ i, moved x ≠ some (i, .testRunning true)
  enabled : ∀ i w, t.threads[i]? = some w → w.pc ≠ .returned →
    ∀ r, ∃ t', L.step t (.thread i r) = some t'
  lowers : ∀ i r t', L.step t (.thread i r) = some t' →
    totalOf Worker.remaining t'.threads < totalOf Worker.remaining t.threads
  bounded : tr.countP isWorkerStep ≤ 53 * s.threads.countP (fun w => decide w.Unfinished)
  all_returned : (∀ i r, L.step t (.thread i r) = none) → ∀ w ∈ t.threads, w.pc = .returned

/-- From a stopped state the workers drain. -/
theorem drains_of_stopping (hspec : Stopping controller Q C) (h : Stopped Q s)
    {tr : List (StateOf κ × ActionOf α)} (hrun : (agentOf calls controller).lts.Run s tr t)
    (htr : Lts.Along (Only C) tr) : Drains (agentOf calls controller).lts s tr t := by
  obtain ⟨⟨hflag, -⟩, -, hpolls⟩ := stopped_run hspec h hrun htr
  have henabled : ∀ i w, t.threads[i]? = some w → w.pc ≠ .returned →
      ∀ r, ∃ t', (agentOf calls controller).lts.step t (.thread i r) = some t' := by
    intro i w hi hw r
    obtain ⟨c', w', e, hstep, -⟩ :=
      exists_worker_step controller calls hi (Worker.unfinished_iff.mpr hw) r
    exact ⟨_, hstep⟩
  refine ⟨hflag, hpolls, henabled, fun i r t' => totalOf_lt_of_worker_step hflag, ?_, ?_⟩
  · have hpaid := workerSteps_add_le hspec h hrun htr
    have hbound := totalOf_remaining_le s.threads
    omega
  · intro hnone w hw
    obtain ⟨i, hi⟩ := List.getElem?_of_mem hw
    by_contra hpc
    obtain ⟨t', hstep⟩ := henabled i w hi hpc {}
    rw [hnone i {}] at hstep
    cases hstep

end Drain

/-! ### Which calls only stop -/

/-- The call in progress is not inside `initializeRynoxClient`. -/
def Entry.NotStarting (e : Entry) : Prop :=
  e.initializing = false

/-- A call that is not a start keeps a false flag false and creates nobody. -/
theorem CallMove.stopping {c c' : Client} {k k' : Option Entry} {x : EntryAction}
    {o : Option Worker} (h : CallMove c k x c' k' o) (hk : ∀ e ∈ k, e.NotStarting)
    (hx : ∀ f, x = .call f → f.starts = false) (hflag : c.isRunning = false) :
    (∀ e ∈ k', e.NotStarting) ∧ c'.isRunning = false ∧ o = none := by
  cases h with
  | enter f =>
      have hstop : (f.enter c).2 = shutdownRynoxClient := by
        rw [f.enter_entry, hx f rfl]
        rfl
      refine ⟨?_, (f.enter_isRunning c).trans hflag, rfl⟩
      rintro e ⟨⟩
      rw [hstop]
      rfl
  | testSkips r h | shutdownPasses r h => simp [hflag] at h
  | testPasses r _ | set r | create r _ | createFails r _ | report r | reset r | read r
  | detach _ r =>
      simp [Entry.NotStarting, Entry.initializing] at hk
  | initRet r | shutdownRet r => exact ⟨by simp, hflag, rfl⟩
  | shutdownSkips r _ => exact ⟨by simp [Entry.NotStarting, Entry.initializing], hflag, rfl⟩
  | clear r => exact ⟨by simp [Entry.NotStarting, Entry.initializing], rfl, rfl⟩

/-- The step does not make a call of `Agent_OnLoad` or `Agent_OnAttach`. -/
def OverlapAction.NoStart : OverlapAction → Prop
  | call f => f.starts = false
  | step _ _ => True

/-- Overlapping calls of which none is a start only stop. -/
theorem stopping_overlapped :
    Stopping overlapped (fun calls => ∀ e ∈ calls, e.NotStarting) OverlapAction.NoStart := by
  intro g x g' o hcalls hx hflag h
  cases x with
  | call f =>
      simp only [overlapped, Option.some.injEq, Prod.mk.injEq] at h
      obtain ⟨rfl, rfl⟩ := h
      obtain ⟨hentry, hflag', -⟩ := (CallMove.enter (c := g.client) f).stopping (by simp)
        (by rintro f ⟨⟩; exact hx) hflag
      refine ⟨fun e he => ?_, hflag', rfl⟩
      rcases List.mem_append.mp he with he | he
      · exact hcalls e he
      · exact hentry e (by simpa using (List.mem_singleton.mp he).symm)
  | step k r =>
      simp only [overlapped, Option.map_eq_some_iff, Prod.mk.injEq] at h
      obtain ⟨e, he, rfl, rfl⟩ := h
      obtain ⟨hentry, hflag', hnone⟩ := (callMove_of_entry g.client r e).stopping
        (by rintro e' ⟨⟩; exact hcalls e (List.mem_of_getElem? he)) (by simp) hflag
      refine ⟨fun e' he' => ?_, hflag', hnone⟩
      cases hresume : e.resume g.client r with
      | some e'' =>
          simp only [hresume] at he'
          rcases List.mem_or_eq_of_mem_set he' with he' | rfl
          · exact hcalls e' he'
          · exact hentry e' hresume
      | none =>
          simp only [hresume] at he'
          exact hcalls e' (List.mem_of_mem_eraseIdx he')

/-- The step does not make a call of `Agent_OnLoad` or `Agent_OnAttach`. -/
def EntryAction.NoStart : EntryAction → Prop
  | call f => f.starts = false
  | step _ => True

/-- Serialized calls of which none is a start only stop. -/
theorem stopping_serialized :
    Stopping serialized (fun k => ∀ e ∈ k, e.NotStarting) EntryAction.NoStart := by
  intro g x g' o hcalls hx hflag h
  exact (callMove_of_serialized h).stopping hcalls (by rintro f rfl; exact hx) hflag

instance : DecidablePred OverlapAction.NoStart
  | .call f => inferInstanceAs (Decidable (f.starts = false))
  | .step _ _ => inferInstanceAs (Decidable True)

instance : DecidablePred EntryAction.NoStart
  | .call f => inferInstanceAs (Decidable (f.starts = false))
  | .step _ => inferInstanceAs (Decidable True)

instance {κ α : Type} (C : α → Prop) [DecidablePred C] (s : StateOf κ) :
    (a : ActionOf α) → Decidable (Only C s a)
  | .controller x => inferInstanceAs (Decidable (C x))
  | .thread _ _ => inferInstanceAs (Decidable True)

/-- **Drain after a stop.** From a state in which the flag is false and no call is inside
`initializeRynoxClient`, along every run without a further call of `Agent_OnLoad` or
`Agent_OnAttach`, the workers drain. -/
theorem drain {s t : OverlapState} (hflag : s.shared.client.isRunning = false)
    (hcalls : ∀ e ∈ s.shared.calls, e.NotStarting)
    {tr : List (OverlapState × ActionOf OverlapAction)} (hrun : overlap.lts.Run s tr t)
    (htr : Lts.Along (Only OverlapAction.NoStart) tr) : Drains overlap.lts s tr t :=
  drains_of_stopping stopping_overlapped ⟨hflag, hcalls⟩ hrun htr

/-- A run to which the theorem applies: two workers, one at its loop test and one not yet
attached, are stopped and return. -/
theorem drain_two_workers :
    ∃ s tr t, overlap.lts.Reachable s ∧ s.threads.length = 2 ∧ overlap.lts.Run s tr t ∧
      Drains overlap.lts s tr t ∧ ∀ w ∈ t.threads, w.pc = .returned := by
  obtain ⟨tr, t, hrun, ⟨x, hx, hflag, hcalls, hlength⟩, hno, hall⟩ := Lts.exists_run_of_exec
    (L := overlap.lts) (s := overlap.lts.init)
    (P := fun tr t => (∃ x ∈ tr[72]?, x.1.shared.client.isRunning = false ∧
        x.1.shared.calls = [] ∧ x.1.threads.length = 2) ∧
      Lts.Along (Only OverlapAction.NoStart) (tr.drop 72) ∧ ∀ w ∈ t.threads, w.pc = .returned)
    (calledAlone (.onLoad 0) 6 ++
      List.replicate 50 (.thread 0 { stored := some (some 7), value := some 1 }) ++
      calledAlone (.onUnload 0) 3 ++ calledAlone (.onAttach 0) 6 ++ calledAlone (.onUnload 0) 3 ++
      List.replicate 3 (.thread 0 {}) ++
      .thread 1 { result := -1 } :: List.replicate 4 (.thread 1 {})) (by decide)
  obtain ⟨hreach, hrest⟩ := hrun.split_getElem? hx
  exact ⟨x.1, tr.drop 72, t, hreach.reachable, hlength, hrest,
    drain hflag (by simp [hcalls]) hrest hno, hall⟩

/-- The same of the agent, whose calls are serialized. -/
theorem drain_of_agent {s t : State} (hflag : s.shared.client.isRunning = false)
    (hcalls : ∀ e ∈ s.shared.calls, e.NotStarting) {tr : List (State × Action)}
    (hrun : agent.lts.Run s tr t) (htr : Lts.Along (Only EntryAction.NoStart) tr) :
    Drains agent.lts s tr t :=
  drains_of_stopping stopping_serialized ⟨hflag, hcalls⟩ hrun htr

end Rynox
