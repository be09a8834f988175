import Rynox.Quiescence
import Rynox.Work

/-!
# What a Start Comes to

A call of `Agent_OnLoad` or `Agent_OnAttach` always returns `JNI_OK`, so its caller learns
nothing from it. When calls are made one at a time, what it has come to is one of three
things, whatever the workers do while it is in progress: it has created one worker; or
`pthread_create` failed, and the flag is false when it returns; or it found the flag true, and
the flag was true when it was made (`startOutcome_of_run`).

With such calls the flag stays false after `Agent_OnUnload` has returned until the next start.
So that start creates a worker if the system lets it (`restart`): the client can always be
started again, however the old workers may still be running. Neither holds of calls that
overlap, where another start may set the flag in between.

Without that `Agent_OnUnload` the client may be lost: where every worker has returned and the
flag is true, no number of starts gets it to work again, overlapping or not
(`stuck_of_run`).
-/

namespace Rynox

/-- The step makes no call. -/
def EntryAction.NoCall : EntryAction → Prop
  | call _ => False
  | step _ => True

instance : DecidablePred EntryAction.NoCall
  | .call _ => inferInstanceAs (Decidable False)
  | .step _ => inferInstanceAs (Decidable True)

/-- The step is a `pthread_create` that fails. -/
def CreateFails (s : State) : Action → Prop
  | .controller (.step r) => s.shared.calls = some (.init .createThread) ∧ r.code ≠ 0
  | _ => False

instance (s : State) : (a : Action) → Decidable (CreateFails s a)
  | .controller (.step r) =>
      inferInstanceAs (Decidable (s.shared.calls = some (.init .createThread) ∧ r.code ≠ 0))
  | .controller (.call _) => inferInstanceAs (Decidable False)
  | .thread _ _ => inferInstanceAs (Decidable False)

/-- A `pthread_create` has failed in the run. -/
def CreateFailed (tr : List (State × Action)) : Prop :=
  ∃ x ∈ tr, CreateFails x.1 x.2

instance (tr : List (State × Action)) : Decidable (CreateFailed tr) :=
  inferInstanceAs (Decidable (∃ x ∈ tr, CreateFails x.1 x.2))

/-- A `pthread_create` has failed in the run before, or does so now. -/
theorem createFailed_snoc {tr : List (State × Action)} {x : State × Action} :
    CreateFailed (tr ++ [x]) ↔ CreateFailed tr ∨ CreateFails x.1 x.2 := by
  simp [CreateFailed, or_and_right, exists_or]

/-- What a start has come to: it was made with `n` workers and the flag at `flag`, `failed`
says whether `pthread_create` has failed since, and there are `len` workers now. -/
inductive StartOutcome (n : ℕ) (flag failed : Prop) (c : Client) (len : ℕ) : Prop
  | created (hlen : len = n + 1) (hok : ¬ failed)
  | failed (hlen : len = n) (hfail : failed) (hflag : c.isRunning = false)
  | skipped (hlen : len = n) (hok : ¬ failed) (hflag : flag)

/-- What is known at each control point of a start. -/
def StartAt (n : ℕ) (flag failed : Prop) (c : Client) (len : ℕ) : Option Entry → Prop
  | some (.init .testRunning) => len = n ∧ ¬ failed ∧ (c.isRunning = true → flag)
  | some (.init .setRunning) | some (.init .createThread) => len = n ∧ ¬ failed
  | some (.init .reportFailure) | some (.init .resetRunning) => len = n ∧ failed
  | some (.init .readThread) | some (.init (.detachThread _)) => len = n + 1 ∧ ¬ failed
  | some (.init .ret) | none => StartOutcome n flag failed c len
  | some (.shutdown _) => False

section StartAt

variable {n len : ℕ} {flag failed : Prop} {c c' : Client} {k k' : Option Entry}

/-- What is known does not depend on how it is said that `pthread_create` has failed. -/
theorem StartAt.congr {failed' : Prop} (h : StartAt n flag failed c len k)
    (hiff : failed' ↔ failed) : StartAt n flag failed' c len k := by
  rwa [propext hiff]

/-- Nobody but the call disturbs what is known: the workers only lower the flag. -/
theorem StartAt.frame (h : StartAt n flag failed c len k)
    (hflag : c'.isRunning = true → c.isRunning = true) : StartAt n flag failed c' len k := by
  have houtcome : StartOutcome n flag failed c len → StartOutcome n flag failed c' len := by
    intro h
    cases h with
    | created hlen hok => exact .created hlen hok
    | skipped hlen hok hset => exact .skipped hlen hok hset
    | failed hlen hfail hfalse =>
        refine .failed hlen hfail ?_
        cases hc : c'.isRunning with
        | false => rfl
        | true => exact (hflag hc).symm.trans hfalse
  match k with
  | some (.init .testRunning) => exact ⟨h.1, h.2.1, fun hset => h.2.2 (hflag hset)⟩
  | some (.init .setRunning) | some (.init .createThread) | some (.init .reportFailure)
  | some (.init .resetRunning) | some (.init .readThread) | some (.init (.detachThread _)) =>
      exact h
  | some (.init .ret) | none => exact houtcome h
  | some (.shutdown _) => exact h

/-- The step of the call leads to what is known where it goes. -/
theorem CallMove.startAt {r : OsReply} {o : Option Worker} {ts : List Worker}
    (hmove : CallMove c k (.step r) c' k' o) (h : StartAt n flag failed c ts.length k) :
    StartAt n flag (failed ∨ CreateFails ⟨⟨c, k⟩, ts⟩ (.controller (.step r))) c'
      (ts ++ o.toList).length k' := by
  simp only [CreateFails]
  cases hmove with
  | testSkips r hset =>
      obtain ⟨hlen, hok, hflag⟩ := h
      exact .skipped (by simpa using hlen) (by simpa using hok) (hflag hset)
  | testPasses r hfalse =>
      obtain ⟨hlen, hok, -⟩ := h
      exact ⟨by simpa using hlen, by simpa using hok⟩
  | set r => exact ⟨by simpa using h.1, by simpa using h.2⟩
  | create r hcode => exact ⟨by simp [h.1], by simp [h.2, hcode]⟩
  | createFails r hcode => exact ⟨by simpa using h.1, Or.inr ⟨rfl, hcode⟩⟩
  | report r => exact ⟨by simpa using h.1, Or.inl h.2⟩
  | reset r => exact .failed (by simpa using h.1) (Or.inl h.2) rfl
  | read r => exact ⟨by simpa using h.1, by simpa using h.2⟩
  | detach _ r => exact .created (by simpa using h.1) (by simpa using h.2)
  | initRet r =>
      have houtcome : StartOutcome n flag failed c ts.length := h
      simpa [StartAt] using houtcome
  | shutdownSkips r _ | shutdownPasses r _ | clear r | shutdownRet r => exact h.elim

end StartAt

/-- What is known holds all along a start, whatever the workers do. -/
theorem startAt_of_run {s t : State} {n : ℕ} {flag : Prop} {seg : List (State × Action)}
    (hinit : StartAt n flag False s.shared.client s.threads.length s.shared.calls)
    (hrun : agent.lts.Run s seg t) (hseg : Lts.Along (Only EntryAction.NoCall) seg) :
    StartAt n flag (CreateFailed seg) t.shared.client t.threads.length t.shared.calls := by
  refine hrun.induct_along (I := fun seg t => StartAt n flag (CreateFailed seg) t.shared.client
    t.threads.length t.shared.calls) hseg (hinit.congr (by simp [CreateFailed])) ?_
  intro seg s a s' _ hI ha hstep
  obtain ⟨x, c, k, o, rfl, hmove, rfl⟩ | ⟨i, r, w, c, w', e, rfl, hi, hmove, -, rfl⟩ :=
    agent_step_cases hstep
  · cases x with
    | call f => exact ha.elim
    | step r => exact (hmove.startAt hI).congr createFailed_snoc
  · rw [List.length_set]
    refine (hI.frame hmove.isRunning_of).congr ?_
    rw [createFailed_snoc]
    simp [CreateFails]

/-- What is known all along a start that is made between calls. -/
theorem startAt_of_call {s t : State} {f : Call} {seg : List (State × Action)}
    (hf : f.starts = true) (hrun : agent.lts.Run s ((s, .controller (.call f)) :: seg) t)
    (hseg : Lts.Along (Only EntryAction.NoCall) seg) :
    StartAt s.threads.length (s.shared.client.isRunning = true) (CreateFailed seg)
      t.shared.client t.threads.length t.shared.calls := by
  obtain ⟨-, u, hcall, hrest⟩ := hrun.cons_inv
  refine startAt_of_run ?_ hrest hseg
  obtain ⟨x, c, k, o, hx, hmove, rfl⟩ | ⟨i, r, w, c, w', e, hx, -⟩ := agent_step_cases hcall
  · cases hx
    generalize s.shared.calls = idle at hmove
    cases hmove with
    | enter f =>
        rw [f.enter_entry, hf, if_pos rfl]
        refine ⟨by simp, not_false, fun hset => ?_⟩
        rwa [f.enter_isRunning] at hset
  · cases hx

/-- **What a start comes to.** Calls are made one at a time. When one of `Agent_OnLoad` or
`Agent_OnAttach` has returned, and no other was made since, it has created one worker and
`pthread_create` did not fail; or that failed, no worker was created, and the flag is false;
or it did not get there, no worker was created, and the flag was true when the call was
made. -/
theorem startOutcome_of_run {s t : State} {f : Call} {seg : List (State × Action)}
    (hf : f.starts = true) (hrun : agent.lts.Run s ((s, .controller (.call f)) :: seg) t)
    (hseg : Lts.Along (Only EntryAction.NoCall) seg) (hret : t.shared.calls = none) :
    StartOutcome s.threads.length (s.shared.client.isRunning = true) (CreateFailed seg)
      t.shared.client t.threads.length := by
  have hend := startAt_of_call hf hrun hseg
  rwa [hret] at hend

/-- A run to which the theorem applies: a start finds the flag true, and before it returns a
worker that has failed to attach clears the flag. -/
theorem startOutcome_of_run_skipped :
    ∃ s seg t, agent.lts.Reachable s ∧ t.shared.client.isRunning = false ∧
      agent.lts.Run s ((s, .controller (.call (.onAttach 0))) :: seg) t ∧
      StartOutcome s.threads.length (s.shared.client.isRunning = true) (CreateFailed seg)
        t.shared.client t.threads.length := by
  obtain ⟨tr, t, hrun, ⟨x, hx, hcall⟩, hseg, hret, hfalse⟩ := exists_agentRun
    (P := fun tr t => (∃ x ∈ tr[10]?, x.2 = .controller (.call (.onAttach 0))) ∧
      Lts.Along (Only EntryAction.NoCall) (tr.drop 11) ∧ t.shared.calls = none ∧
      t.shared.client.isRunning = false)
    (createdBy (.onLoad 0) ++
      [.thread 0 { result := -1 }, .thread 0 {}, .thread 0 {}, .controller (.call (.onAttach 0)),
        .controller (.step {}), .thread 0 {}, .controller (.step {})]) (by decide)
  rw [Lts.eq_take_cons_drop hx] at hrun
  obtain ⟨s, hbefore, hstart⟩ := hrun.split
  obtain ⟨y, a⟩ := x
  obtain rfl : a = .controller (.call (.onAttach 0)) := hcall
  obtain rfl := hstart.cons_inv.1
  exact ⟨y, _, t, hbefore.reachable, hfalse, hstart, startOutcome_of_run rfl hstart hseg hret⟩

/-- **The client can be started again.** Calls are made one at a time. After `Agent_OnUnload`
has returned, let the next call of `Agent_OnLoad` or `Agent_OnAttach` return with no call made
in between. If no `pthread_create` fails in it, it has created one worker, whatever the workers
of before do meanwhile. -/
theorem restart {before between seg : List (State × Action)} {x : State × Action} {s t : State}
    {f : Call} (hf : f.starts = true)
    (hrun : AgentRun (before ++ x :: (between ++ (s, .controller (.call f)) :: seg)) t)
    (hunload : UnloadReturns x) (hbetween : Lts.Along (Only EntryAction.NoStart) between)
    (hseg : Lts.Along (Only EntryAction.NoCall) seg) (hret : t.shared.calls = none)
    (hcreate : ¬ CreateFailed seg) :
    t.threads.length = s.threads.length + 1 := by
  obtain ⟨hbefore, u, hstep, hrest⟩ := hrun.split_at
  obtain ⟨hstopped, -⟩ := stopped_of_unloadReturns hbefore.reachable hunload hstep
  obtain ⟨v, hidle, hstart⟩ := hrest.split
  obtain ⟨⟨hflag, -⟩, -⟩ := stopped_run stopping_serialized hstopped hidle hbetween
  obtain rfl := hstart.cons_inv.1
  have hend := startAt_of_call hf hstart hseg
  rw [hret] at hend
  cases hend with
  | created hlen _ => exact hlen
  | failed _ hfail _ => exact absurd hfail hcreate
  | skipped _ _ hset =>
      rw [hflag] at hset
      cases hset

/-- A run to which the theorem applies: the old worker attaches while the next
`Agent_OnAttach` is in progress, and a second one is created. -/
theorem restart_two_workers :
    ∃ before x s seg t, AgentRun (before ++ x ::
        ([] ++ (s, .controller (.call (.onAttach 0))) :: seg)) t ∧ UnloadReturns x ∧
      s.threads.length = 1 ∧ t.threads.length = s.threads.length + 1 := by
  obtain ⟨tr, t, hrun, ⟨x, hx, hunload⟩, ⟨⟨s, a⟩, hs, hcall, hone⟩, hseg, hret, hcreate⟩ :=
    exists_agentRun
      (P := fun tr t => (∃ x ∈ tr[10]?, UnloadReturns x) ∧
        (∃ y ∈ (tr.drop 11)[0]?, y.2 = .controller (.call (.onAttach 0)) ∧
          y.1.threads.length = 1) ∧
        Lts.Along (Only EntryAction.NoCall) ((tr.drop 11).drop 1) ∧ t.shared.calls = none ∧
        ¬ CreateFailed ((tr.drop 11).drop 1))
      (createdBy (.onLoad 0) ++ stoppedBy 0 ++ [.controller (.call (.onAttach 0))] ++
        drivenBy 7 0 2 ++ List.replicate 6 (.controller (.step {}))) (by decide)
  obtain rfl : a = .controller (.call (.onAttach 0)) := hcall
  have hdrop := Lts.eq_take_cons_drop hs
  rw [List.take_zero] at hdrop
  rw [Lts.eq_take_cons_drop hx, hdrop] at hrun
  exact ⟨_, x, s, _, t, hrun, hunload, hone,
    restart rfl hrun hunload Lts.along_nil hseg hret hcreate⟩

/-! ### Never without an unload -/

/-- The step does not make a call of `Agent_OnUnload`. -/
def OverlapAction.NoUnload : OverlapAction → Prop
  | call f => f.starts = true
  | step _ _ => True

instance : DecidablePred OverlapAction.NoUnload
  | .call f => inferInstanceAs (Decidable (f.starts = true))
  | .step _ _ => inferInstanceAs (Decidable True)

/-- The call in progress does nothing more if the flag is true. -/
def Entry.Skips : Entry → Prop
  | init .testRunning | init .ret | shutdown .ret => True
  | _ => False

instance : DecidablePred Entry.Skips
  | .init .testRunning | .init .ret | .shutdown .ret => inferInstanceAs (Decidable True)
  | .init .setRunning | .init .createThread | .init .reportFailure | .init .resetRunning
  | .init .readThread | .init (.detachThread _) | .shutdown .testRunning
  | .shutdown .clearRunning =>
      inferInstanceAs (Decidable False)

/-- The client is **stuck for good**: the flag is true, no call in progress will change it,
and every worker has returned. -/
structure StuckForGood (s : OverlapState) : Prop where
  raised : s.shared.client.isRunning = true
  skips : ∀ e ∈ s.shared.calls, e.Skips
  returned : NoneOf Worker.Unfinished s.threads

/-- A call that skips leaves the flag true, goes on to skip, and creates no worker. -/
theorem Entry.Skips.step {e : Entry} (he : e.Skips) {c : Client} (r : OsReply)
    (hflag : c.isRunning = true) :
    (e.op.exec c r).isRunning = true ∧ e.op.spawn r = none ∧
      ∀ e' ∈ e.resume c r, e'.Skips := by
  match e with
  | .init .testRunning =>
      refine ⟨hflag, rfl, ?_⟩
      rw [resume, hflag]
      rintro e' ⟨⟩
      trivial
  | .init .ret | .shutdown .ret => exact ⟨hflag, rfl, by rintro e' ⟨⟩⟩

/-- Being stuck is kept by every step but a call of `Agent_OnUnload`, and no worker is
created. -/
theorem StuckForGood.step {s t : OverlapState} {a : ActionOf OverlapAction} (h : StuckForGood s)
    (ha : Only OverlapAction.NoUnload s a) (hstep : overlap.lts.step s a = some t) :
    StuckForGood t ∧ t.threads = s.threads := by
  obtain ⟨hflag, hskips, hreturned⟩ := h
  cases a with
  | thread i r =>
      obtain ⟨w, o, hi, ho, -⟩ := step_worker.mp hstep
      have hpc : w.pc = .returned := by
        simpa [Worker.unfinished_iff] using hreturned.not_of_getElem? hi
      rw [Worker.op, hpc] at ho
      cases ho
  | controller x =>
      cases x with
      | call f =>
          obtain rfl := step_overlapEnter.mp hstep
          have hf : f.starts = true := ha
          have hentry : (f.enter s.shared.client).2 = initializeRynoxClient := by
            rw [f.enter_entry, if_pos hf]
          refine ⟨⟨(f.enter_isRunning _).trans hflag, fun e he => ?_, hreturned⟩, rfl⟩
          rcases List.mem_append.mp he with he | he
          · exact hskips e he
          · rw [List.mem_singleton.mp he, hentry]
            trivial
      | step k r =>
          obtain ⟨e, he, rfl⟩ := step_overlapCall.mp hstep
          obtain ⟨hflag', hspawn, hnext⟩ := (hskips e (List.mem_of_getElem? he)).step r hflag
          have hthreads : s.threads ++ (e.op.spawn r).toList = s.threads := by simp [hspawn]
          refine ⟨⟨hflag', fun e' he' => ?_, by rwa [hthreads]⟩, hthreads⟩
          simp only at he'
          cases hresume : e.resume s.shared.client r with
          | none =>
              rw [hresume, Option.elim_none] at he'
              exact hskips e' (List.mem_of_mem_eraseIdx he')
          | some e'' =>
              rw [hresume, Option.elim_some] at he'
              rcases List.mem_or_eq_of_mem_set he' with he' | rfl
              · exact hskips e' he'
              · exact hnext e' hresume

/-- **Stuck for good.** Where the flag is true, every worker has returned and no call in
progress will change that, the client stays so along every run without a further call of
`Agent_OnUnload`: however many starts are made and however they overlap, none creates a
worker. -/
theorem stuck_of_run {s t : OverlapState} {seg : List (OverlapState × ActionOf OverlapAction)}
    (hstuck : StuckForGood s) (hrun : overlap.lts.Run s seg t)
    (hseg : Lts.Along (Only OverlapAction.NoUnload) seg) :
    StuckForGood t ∧ t.threads = s.threads := by
  refine hrun.induct_along (I := fun _ t => StuckForGood t ∧ t.threads = s.threads) hseg
    ⟨hstuck, rfl⟩ ?_
  rintro seg t a u - ⟨hI, hthreads⟩ ha hstep
  obtain ⟨hI', hthreads'⟩ := hI.step ha hstep
  exact ⟨hI', hthreads'.trans hthreads⟩

/-- A run to which the theorem applies: the only worker finds no `LogManager` and returns,
and two starts that overlap do nothing. -/
theorem stuck_of_run_two_starts :
    ∃ s seg t, overlap.lts.Reachable s ∧ overlap.lts.Run s seg t ∧ seg.countP isStartCall = 2 ∧
      s.threads.length = 1 ∧ StuckForGood t ∧ t.threads = s.threads := by
  obtain ⟨tr, t, hrun, ⟨⟨s, a⟩, hx, hflag, hskips, hreturned, hone⟩, hseg, hcount⟩ :=
    Lts.exists_run_of_exec (L := overlap.lts) (s := overlap.lts.init)
      (P := fun tr _ => (∃ x ∈ tr[12]?, x.1.shared.client.isRunning = true ∧
          (∀ e ∈ x.1.shared.calls, e.Skips) ∧ NoneOf Worker.Unfinished x.1.threads ∧
          x.1.threads.length = 1) ∧
        Lts.Along (Only OverlapAction.NoUnload) (tr.drop 12) ∧
        (tr.drop 12).countP isStartCall = 2)
      (calledAlone (.onLoad 0) 6 ++
        List.replicate 2 (.thread 0 { stored := some (some 7), value := some 1 }) ++
        List.replicate 3 (.thread 0 {}) ++
        [.controller (.call (.onAttach 0)), .controller (.call (.onAttach 0)),
          .controller (.step 1 {}), .controller (.step 0 {})]) (by decide)
  obtain ⟨hbefore, hrest⟩ := hrun.split_getElem? hx
  obtain ⟨hstuck, hthreads⟩ := stuck_of_run ⟨hflag, hskips, hreturned⟩ hrest hseg
  exact ⟨s, _, t, hbefore.reachable, hrest, hcount, hone, hstuck, hthreads⟩

end Rynox
