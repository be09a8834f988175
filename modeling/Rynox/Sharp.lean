import Rynox.Racing

/-!
# The Account Is Sharp

A run takes no more steps than its calls and polls pay for. For any numbers of starts and of
unloads, but at least one of each, and any number of polls, some run takes exactly as many
and leaves nothing to do (`length_le_of_overlapRun`).

In that run every start passes the guard before the first of them sets the flag, and creates
a worker. The first worker goes to its loop test and polls. Then every unload finds the flag
true before the first of them clears it, and at last every worker goes to its end. What is
looked up is found, so no step is wasted.
-/

namespace Rynox

/-! ### A worker with which everything succeeds -/

/-- The step wastes nothing and pays for nothing: it does some of what is left to do. -/
def Works (s : OverlapState) (a : ActionOf OverlapAction) : Prop :=
  NoWaste s a ∧ stepCredit (s, a) = 0

/-- Nothing is in the way of a worker: if it is about to check its attach, the check
succeeds. -/
def Worker.Smooth (c : Client) (w : Worker) : Prop :=
  w.phase = .checking → w.attachResult = jniOk ∧ c.env ≠ none

/-- Nothing is in the way of a worker on its track. -/
theorem Worker.OnTrack.smooth {c : Client} {w : Worker} (h : w.OnTrack c) : w.Smooth c := by
  intro hw
  rwa [OnTrack, hw] at h

/-- After a step with which everything succeeds, nothing is in the way. -/
theorem WorkerMove.smooth {c c' : Client} {w w' : Worker} {e : Event}
    (h : WorkerMove c .succeeding w c' w' e) : w'.Smooth c' := by
  intro hw
  cases h with
  | attach _ _ hresult => exact ⟨hresult, by simp [JvmReply.succeeding]⟩
  | _ => simp_all

/-- Nor does it come in the way of another worker. -/
theorem WorkerMove.smooth_other {c c' : Client} {w w' : Worker} {e : Event}
    (h : WorkerMove c .succeeding w c' w' e) {v : Worker} (hv : v.Smooth c) : v.Smooth c' := by
  intro hw
  refine ⟨(hv hw).1, ?_⟩
  cases h with
  | attach _ _ _ => simp [JvmReply.succeeding]
  | _ => exact (hv hw).2

/-- A worker with which everything succeeds does one step of what it has to do, unless it
finds the flag true. -/
theorem Worker.remaining_resume_succeeding {c : Client} {w : Worker} {o : Op}
    (ho : w.op = some o) (hw : w.Smooth c) (htest : w.pc = .testRunning → c.isRunning = false) :
    1 + (w.resume (o.answer c .succeeding)).remaining = w.remaining := by
  cases hpc : w.pc <;> simp only [op, hpc, Option.some.injEq, reduceCtorEq] at ho <;> subst ho
  case checkAttach =>
      obtain ⟨hok, henv⟩ := hw (by simp [phase, hpc, Pc.phase])
      obtain ⟨p, hp⟩ := Option.ne_none_iff_exists'.mp henv
      simp [resume, hpc, Op.answer, hok, hp, goto, remaining]
  case testRunning => simp [resume, hpc, Op.answer, htest hpc, goto, remaining]
  case getInfoMethod =>
      simp [resume, hpc, Op.answer, JvmReply.succeeding, logLoop, goto, remaining]
  case sleepLog =>
      by_cases hi : w.i + 1 < 10
      · simp only [resume, hpc, logLoop, hi, if_true, goto, remaining]
        omega
      · simp only [resume, hpc, logLoop, hi, if_false, goto, remaining]
        omega
  all_goals simp +arith [resume, hpc, Op.answer, JvmReply.succeeding, goto, remaining]

/-- So its step does some of what is left to do. -/
theorem works_succeeding {s : OverlapState} {i : ℕ} {w : Worker}
    (hi : s.threads[i]? = some w) (hunfinished : w.Unfinished) (hw : w.Smooth s.shared.client)
    (htest : w.pc = .testRunning → s.shared.client.isRunning = false) :
    Works s (.thread i .succeeding) := by
  obtain ⟨o, ho⟩ := Worker.op_isSome_of_ne (Worker.unfinished_iff.mp hunfinished)
  have hcredit : stepCredit (s, .thread i .succeeding) = 0 := by
    have hpoll : isPoll (s, .thread i .succeeding) = false := by
      refine Bool.eq_false_iff.mpr fun h => ?_
      obtain ⟨j, hj⟩ := isPoll_iff.mp h
      obtain ⟨o', ho', hevent⟩ := exists_op_of_moved_thread hi hj
      obtain ⟨rfl, hflag⟩ := Op.eq_testRunning_of_event hevent
      rw [htest (Worker.pc_eq_testRunning_of_op ho')] at hflag
      cases hflag
    simp [stepCredit, isStartCall, hpoll]
  refine ⟨noWaste_thread hi ho ?_, hcredit⟩
  rw [hcredit, Nat.zero_add]
  exact Worker.remaining_resume_succeeding ho hw htest

/-! ### A run that wastes nothing -/

/-- A run with `n` starts, `u` unloads and `p` polls that wastes nothing has led to this
state. -/
def Spent (n u p : ℕ) (s : OverlapState) : Prop :=
  ∃ tr, OverlapRun tr s ∧ Lts.Along NoWaste tr ∧ tr.countP isStartCall = n ∧
    tr.countP isUnloadCall = u ∧ tr.countP isPoll = p

namespace Spent

variable {n u p : ℕ} {s t : OverlapState}

/-- The run goes on with a step that wastes nothing. -/
theorem snoc {a : ActionOf OverlapAction} (h : Spent n u p s)
    (hstep : overlap.lts.step s a = some t) (hfull : NoWaste s a) :
    Spent (n + if isStartCall (s, a) then 1 else 0) (u + if isUnloadCall (s, a) then 1 else 0)
      (p + if isPoll (s, a) then 1 else 0) t := by
  obtain ⟨tr, hrun, halong, rfl, rfl, rfl⟩ := h
  refine ⟨_, hrun.snoc hstep, Lts.along_append.mpr ⟨halong, Lts.along_singleton.mpr hfull⟩, ?_⟩
  simp only [List.countP_append, List.countP_singleton, and_self]

/-- The run goes on with steps that only do what is left to do. -/
theorem run {tr : List (OverlapState × ActionOf OverlapAction)} (h : Spent n u p s)
    (hrun : overlap.lts.Run s tr t) (hworks : Lts.Along Works tr) : Spent n u p t := by
  refine hrun.induct_along (I := fun _ t => Spent n u p t) hworks h ?_
  rintro tr t a t' - ht ⟨hfull, hcredit⟩ hstep
  have hnone : isStartCall (t, a) = false ∧ isUnloadCall (t, a) = false ∧
      isPoll (t, a) = false := by
    simpa [stepCredit, and_assoc] using hcredit
  simpa [hnone] using ht.snoc hstep hfull

/-- Starts alone. -/
theorem of_raced {c : Client} {calls : List Entry} {ts : List Worker}
    (h : Raced n c calls ts) : Spent n 0 0 ⟨⟨c, calls⟩, ts⟩ := by
  obtain ⟨tr, hrun, halong, hfull, hcount⟩ := h
  have hquiet : ∀ x ∈ tr, isUnloadCall x = false ∧ isPoll x = false := by
    rintro ⟨s, (f | ⟨k, r⟩) | ⟨i, r⟩⟩ hx
    · have hf : f.starts = true := halong _ hx
      exact ⟨by simp [isUnloadCall, hf], rfl⟩
    · exact ⟨rfl, rfl⟩
    · exact (halong _ hx).elim
  refine ⟨tr, hrun, hfull, hcount, ?_, ?_⟩
  · exact List.countP_eq_zero.mpr fun x hx => by simp [(hquiet x hx).1]
  · exact List.countP_eq_zero.mpr fun x hx => by simp [(hquiet x hx).2]

/-- With nothing left to do, the run has taken all the steps that were paid for. -/
theorem length_eq (h : Spent n u p s) (hrest : remainingWork s = 0) :
    ∃ tr, OverlapRun tr s ∧ tr.countP isStartCall = n ∧ tr.countP isUnloadCall = u ∧
      tr.countP isPoll = p ∧ tr.length = 60 * n + 4 * u + 6 * p := by
  obtain ⟨tr, hrun, hfull, rfl, rfl, rfl⟩ := h
  have hlength := length_add_remainingWork_eq hrun hfull
  rw [hrest] at hlength
  exact ⟨tr, hrun, rfl, rfl, rfl, hlength⟩

end Spent

/-! ### Polling -/

/-- A worker on its track goes to its loop test, and only does what is left to do. -/
theorem exists_works_to_test {s : OverlapState} {i : ℕ} {w : Worker}
    (hi : s.threads[i]? = some w) (htrack : w.OnTrack s.shared.client) :
    ∃ tr t w', overlap.lts.Run s tr t ∧ Lts.Along Works tr ∧
      t.shared.calls = s.shared.calls ∧
      t.shared.client.isRunning = s.shared.client.isRunning ∧
      t.threads = s.threads.set i w' ∧ w'.pc = .testRunning := by
  obtain ⟨tr, t, w', hrun, hall, hcalls, hflag, hthreads, hpc⟩ :=
    exists_run_to_test overlapped [] hi htrack
  refine ⟨tr, t, w', hrun, fun x hx => ?_, hcalls, hflag, hthreads, hpc⟩
  obtain ⟨ha, v, hv, hvtrack, hvpc⟩ := hall x hx
  rw [ha]
  exact works_succeeding hv hvtrack.unfinished hvtrack.smooth fun h => absurd h hvpc

namespace Spent

variable {n u p : ℕ} {s : OverlapState}

/-- A worker at its loop test finds the flag true and comes back there. -/
theorem poll {i : ℕ} {w : Worker} (h : Spent n u p s) (hi : s.threads[i]? = some w)
    (hpc : w.pc = .testRunning) (hflag : s.shared.client.isRunning = true) :
    ∃ t w', Spent n u (p + 1) t ∧ t.shared.calls = s.shared.calls ∧
      t.shared.client.isRunning = true ∧ t.threads = s.threads.set i w' ∧
      w'.pc = .testRunning := by
  have hop : w.op = some .testRunning := by simp [Worker.op, hpc]
  have hgoto : w.resume (Op.testRunning.answer s.shared.client .succeeding) =
      w.goto .callGetInstance := by
    simp [Worker.resume, hpc, Op.answer, hflag]
  have hstep : overlap.lts.step s (.thread i .succeeding) = some
      ⟨s.shared, s.threads.set i (w.goto .callGetInstance)⟩ :=
    step_worker.mpr ⟨w, _, hi, hop, by rw [hgoto]; rfl⟩
  have hfull : NoWaste s (.thread i .succeeding) := by
    refine noWaste_thread hi hop ?_
    rw [hgoto, stepCredit_of_poll hi hpc hflag]
    simp [Worker.goto, Worker.remaining, hpc]
  have hpoll : isPoll (s, .thread i .succeeding) = true :=
    isPoll_iff.mpr ⟨i, by simp [moved, hi, hop, Op.event, hflag]⟩
  have hpolled : Spent n u (p + 1) ⟨s.shared, s.threads.set i (w.goto .callGetInstance)⟩ := by
    simpa [hpoll, isStartCall] using h.snoc hstep hfull
  obtain ⟨tr, t, w', hrun, hworks, hcalls, hflag', hthreads, hpc'⟩ :=
    exists_works_to_test (List.getElem?_set_self (ThreadPool.lt_length_of_getElem? hi))
      (w := w.goto .callGetInstance) (s := ⟨s.shared, s.threads.set i (w.goto .callGetInstance)⟩)
      (by simp [Worker.OnTrack, Worker.goto, Worker.phase, Pc.phase])
  refine ⟨t, w', hpolled.run hrun hworks, hcalls, hflag'.trans hflag, ?_, hpc'⟩
  rw [hthreads, List.set_set]

/-- It may do so any number of times. -/
theorem polls {i : ℕ} {w : Worker} (h : Spent n u p s) (hi : s.threads[i]? = some w)
    (hpc : w.pc = .testRunning) (hflag : s.shared.client.isRunning = true) (m : ℕ) :
    ∃ t w', Spent n u (p + m) t ∧ t.shared.calls = s.shared.calls ∧
      t.shared.client.isRunning = true ∧ t.threads = s.threads.set i w' ∧
      w'.pc = .testRunning := by
  induction m with
  | zero => exact ⟨s, w, h, rfl, hflag, (ThreadPool.set_of_getElem? hi).symm, hpc⟩
  | succ m ih =>
      obtain ⟨t, w', ht, hcalls, hflag', hthreads, hpc'⟩ := ih
      have hi' : t.threads[i]? = some w' := by
        rw [hthreads]
        exact List.getElem?_set_self (ThreadPool.lt_length_of_getElem? hi)
      obtain ⟨t', w'', ht', hcalls', hflag'', hthreads', hpc''⟩ := ht.poll hi' hpc' hflag'
      refine ⟨t', w'', ht', hcalls'.trans hcalls, hflag'', ?_, hpc''⟩
      rw [hthreads', hthreads, List.set_set]

/-! ### Stopping -/

variable {c : Client} {calls : List Entry} {ts : List Worker}

/-- A call in progress moves, and does one step of what is left of it. -/
theorem step (h : Spent n u p ⟨⟨c, calls⟩, ts⟩) {k : ℕ} {e : Entry} (r : OsReply)
    (he : calls[k]? = some e)
    (hone : totalOf Entry.remaining (e.resume c r).toList +
      totalOf Worker.remaining (e.op.spawn r).toList + 1 = e.remaining) :
    Spent n u p ⟨⟨e.op.exec c r, (e.resume c r).elim (calls.eraseIdx k) (calls.set k)⟩,
      ts ++ (e.op.spawn r).toList⟩ :=
  h.snoc (a := .controller (.step k r)) (step_overlapCall.mpr ⟨e, he, rfl⟩) (noWaste_step he hone)

/-- Any number of unloads may all find the flag true before the first of them clears it. -/
theorem unloads (h : Spent n u p ⟨⟨c, []⟩, ts⟩) (hflag : c.isRunning = true) (m : ℕ) :
    Spent n (u + m) p ⟨⟨c, List.replicate m (.shutdown .clearRunning)⟩, ts⟩ := by
  induction m with
  | zero => exact h
  | succ m ih =>
      have hcalled : Spent n (u + m + 1) p
          ⟨⟨c, List.replicate m (.shutdown .clearRunning) ++ [shutdownRynoxClient]⟩, ts⟩ :=
        ih.snoc (a := .controller (.call (.onUnload 0))) (step_overlapEnter.mpr rfl)
          (noWaste_call _ _)
      have htested := hcalled.step (k := m) (e := shutdownRynoxClient) {} (by simp)
        (by simp [shutdownRynoxClient, Entry.resume, Entry.op, EntryOp.spawn, hflag,
          Entry.remaining])
      simpa [shutdownRynoxClient, Entry.op, Entry.resume, EntryOp.exec, EntryOp.spawn, hflag,
        List.replicate_succ', Nat.add_assoc] using htested

/-- Then each of them clears it and returns. -/
theorem clears {m : ℕ}
    (h : Spent n u p ⟨⟨c, List.replicate m (.shutdown .clearRunning)⟩, ts⟩) :
    ∃ c' : Client, (c.isRunning = false ∨ m ≠ 0 → c'.isRunning = false) ∧
      Spent n u p ⟨⟨c', []⟩, ts⟩ := by
  induction m generalizing c with
  | zero => exact ⟨c, by simp, h⟩
  | succ m ih =>
      have hcleared := h.step (k := 0) {} rfl rfl
      have hreturned := hcleared.step (k := 0) {} rfl rfl
      obtain ⟨c', hflag, hall⟩ := ih (c := { c with isRunning := false })
        (by simpa [Entry.op, Entry.resume, EntryOp.exec, EntryOp.spawn,
          List.replicate_succ] using hreturned)
      exact ⟨c', fun _ => hflag (Or.inl rfl), hall⟩

/-- With the flag false and no call in progress, all workers go to their ends. -/
theorem rest (h : Spent n u p s) (hcalls : s.shared.calls = [])
    (hflag : s.shared.client.isRunning = false)
    (hsmooth : ∀ w ∈ s.threads, w.Smooth s.shared.client) :
    ∃ t, Spent n u p t ∧ remainingWork t = 0 := by
  obtain ⟨tr, t, hrun, hworks, -, hrest⟩ := overlap.lts.exists_run_of_descent (C := Works)
    (I := fun t => t.shared.calls = [] ∧ t.shared.client.isRunning = false ∧
      ∀ w ∈ t.threads, w.Smooth t.shared.client)
    (D := fun t => remainingWork t = 0) (m := remainingWork)
    (by
      rintro t ⟨hcalls, hflag, hsmooth⟩ hbusy
      have hunfinished : ¬ NoneOf Worker.Unfinished t.threads :=
        fun hnone => hbusy (remainingWork_eq_zero_iff.mpr ⟨hcalls, hnone⟩)
      obtain ⟨i, w, hi, hw⟩ := exists_of_not_noneOf hunfinished
      obtain ⟨c', w', e, hstep, hmove, -⟩ :=
        exists_worker_step overlapped [] hi hw .succeeding
      obtain ⟨hfull, hcredit⟩ := works_succeeding hi hw
        (hsmooth w (List.mem_of_getElem? hi)) fun _ => hflag
      have hspent := hfull hstep
      refine ⟨_, _, ⟨hfull, hcredit⟩, hstep,
        ⟨hcalls, hmove.isRunning_eq_false hflag, fun v hv => ?_⟩, by omega⟩
      rcases List.mem_or_eq_of_mem_set hv with hv | rfl
      · exact hmove.smooth_other (hsmooth v hv)
      · exact hmove.smooth)
    ⟨hcalls, hflag, hsmooth⟩
  exact ⟨t, h.run hrun hworks, hrest⟩

end Spent

/-- **All the work there is.** However the calls overlap and the workers interleave, and
whatever is answered, a run takes at most 60 steps for each call of `Agent_OnLoad` or
`Agent_OnAttach`, 4 for each of `Agent_OnUnload` and 6 for each poll, what is left to do
included. And for all numbers of these calls, of either kind at least one, and of polls,
some run takes exactly as many, with nothing left to do. -/
theorem length_le_of_overlapRun :
    (∀ tr s, OverlapRun tr s → tr.length + remainingWork s ≤
      60 * tr.countP isStartCall + 4 * tr.countP isUnloadCall + 6 * tr.countP isPoll) ∧
    ∀ n u p, ∃ tr s, OverlapRun tr s ∧ tr.countP isStartCall = n + 1 ∧
      tr.countP isUnloadCall = u + 1 ∧ tr.countP isPoll = p ∧ remainingWork s = 0 ∧
      tr.length = 60 * (n + 1) + 4 * (u + 1) + 6 * p := by
  refine ⟨fun tr s => length_add_remainingWork_le_init, fun n u p => ?_⟩
  obtain ⟨c, hflag, hraced⟩ := exists_raced_created (n + 1)
  -- the first worker polls
  have hstarted : (List.replicate (n + 1) Worker.start)[0]? = some Worker.start := rfl
  obtain ⟨tr₁, s₁, w₁, hrun₁, hworks, hcalls₁, hflag₁, hthreads₁, hpc₁⟩ :=
    exists_works_to_test (s := ⟨⟨c, []⟩, List.replicate (n + 1) Worker.start⟩) hstarted
      (by simp [Worker.OnTrack])
  have hi₁ : s₁.threads[0]? = some w₁ := by
    rw [hthreads₁]
    rfl
  obtain ⟨⟨⟨c₂, k₂⟩, ts⟩, w₂, hpolled, hcalls₂, hflag₂, hthreads₂, hpc₂⟩ :=
    ((Spent.of_raced hraced).run hrun₁ hworks).polls hi₁ hpc₁ (hflag₁.trans (hflag (by simp))) p
  obtain rfl : k₂ = [] := hcalls₂.trans hcalls₁
  -- the unloads stop everybody
  obtain ⟨c₃, hflag₃, hstopped⟩ := (hpolled.unloads hflag₂ (u + 1)).clears
  obtain ⟨t, hspent, hrest⟩ := hstopped.rest rfl (hflag₃ (Or.inr (by simp))) (by
    intro w hw
    have hw' : w ∈ (List.replicate (n + 1) Worker.start).set 0 w₂ := by
      have hw₂ : w ∈ s₁.threads.set 0 w₂ := hthreads₂ ▸ hw
      rwa [hthreads₁, List.set_set] at hw₂
    rcases List.mem_or_eq_of_mem_set hw' with hstart | rfl
    · rw [List.eq_of_mem_replicate hstart]
      simp [Worker.Smooth]
    · simp [Worker.Smooth, Worker.phase_of_testRunning hpc₂])
  obtain ⟨tr, hrun, hn, hu, hp, hlength⟩ := hspent.length_eq hrest
  simp only [Nat.zero_add] at hu hp hlength
  exact ⟨tr, t, hrun, hn, hu, hp, hrest, hlength⟩

end Rynox
