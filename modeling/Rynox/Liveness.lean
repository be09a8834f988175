import Rynox.Drain
import Rynox.Fairness
import Rynox.Pacing
import Rynox.Reduction
import Rynox.Work

/-!
# What Must Happen

No step of the library waits for another party, so a worker that is given its turn again and
again gets somewhere: it returns, or it polls without end, and then the flag is true again and
again (`returns_iff`). There is no third way; in particular no worker is caught in its start,
in the log loop or inside a poll iteration.

So stopping the client works. Once the flag is false, no start is in progress and none is
made any more, every worker returns, and the flag is false from then on
(`all_return_of_stopped`). All this is about executions that are fair to each worker, with
calls that overlap as they like.
-/

namespace Rynox

/-- The steps of worker `i`. -/
def StepOf (i : ℕ) (a : ActionOf OverlapAction) : Prop := ThreadPool.mover a = some i

instance (i : ℕ) : DecidablePred (StepOf i) := fun a =>
  inferInstanceAs (Decidable (ThreadPool.mover a = some i))

/-- Worker `i` has returned. -/
def HasReturned (i : ℕ) (s : OverlapState) : Prop :=
  ∃ w ∈ s.threads[i]?, w.pc = .returned

section Steps

variable {s t : OverlapState} {tr : List (OverlapState × ActionOf OverlapAction)} {i : ℕ}

/-- A worker that has not returned has a step to take. -/
theorem enabled_of_not_hasReturned (hi : i < s.threads.length) (h : ¬ HasReturned i s) :
    Lts.Enabled overlap.lts (StepOf i) s := by
  have hworker : s.threads[i]? = some s.threads[i] := List.getElem?_eq_getElem hi
  have hunfinished : s.threads[i].Unfinished :=
    Worker.unfinished_iff.mpr fun hpc => h ⟨_, hworker, hpc⟩
  obtain ⟨c', w', e, hstep, -⟩ := exists_worker_step overlapped [] hworker hunfinished {}
  exact ⟨.thread i {}, _, rfl, hstep⟩

/-- A worker that has returned, or does not exist, has none. -/
theorem not_enabled_of_returned (h : ∀ w ∈ s.threads[i]?, w.pc = .returned) :
    ¬ Lts.Enabled overlap.lts (StepOf i) s := by
  rintro ⟨a, u, ha, hstep⟩
  cases a with
  | controller x => cases ha
  | thread j r =>
      obtain rfl : j = i := Option.some.inj ha
      obtain ⟨w, o, hi, ho, -⟩ := step_worker.mp hstep
      rw [Worker.op, h w hi] at ho
      cases ho

/-- A worker that has returned has no step to take. -/
theorem HasReturned.not_enabled (h : HasReturned i s) :
    ¬ Lts.Enabled overlap.lts (StepOf i) s := by
  obtain ⟨w, hi, hpc⟩ := h
  refine not_enabled_of_returned fun w' hi' => ?_
  rwa [← Option.mem_unique hi hi']

/-- A worker that has returned stays so. -/
theorem HasReturned.run (h : HasReturned i s) (hrun : overlap.lts.Run s tr t) :
    HasReturned i t := by
  refine hrun.induct (I := fun _ t => HasReturned i t) h ?_
  intro tr t a u _ hI hstep
  have hother : ¬ StepOf i a := fun ha => hI.not_enabled ⟨a, u, ha, hstep⟩
  obtain ⟨w, hi, hpc⟩ := hI
  exact ⟨w, (ThreadPool.step_pulled hother hi hstep w).1, hpc⟩

/-- A loop test that succeeds has found the flag true. -/
theorem isRunning_of_startsPoll {w : Worker} {g : Agent (List Entry)} {r : JvmReply}
    (h : startsPoll (w, w.answered g r) = true) : g.client.isRunning = true := by
  cases ho : w.op with
  | none => simp [startsPoll, ho] at h
  | some o => cases o <;> simp_all [startsPoll, Worker.answered, Op.answer]

/-- A step adds a poll to the life of a worker only if it finds the flag true. -/
theorem polls_lifeOf_snoc_le (a : ActionOf OverlapAction) :
    polls (lifeOf i (tr ++ [(s, a)])) ≤
      polls (lifeOf i tr) + if s.shared.client.isRunning then 1 else 0 := by
  have hadded : ∀ o : Option (Worker × Answer),
      (∀ x, o = some x → startsPoll x = true → s.shared.client.isRunning = true) →
      polls (lifeOf i tr ++ o.toList) ≤
        polls (lifeOf i tr) + if s.shared.client.isRunning then 1 else 0 := by
    intro o ho
    rw [polls, List.countP_append, ← polls]
    cases o with
    | none => simp
    | some x =>
        rw [Option.toList_some, List.countP_singleton]
        by_cases hpoll : startsPoll x = true
        · rw [ho x rfl hpoll]
          exact Nat.add_le_add_left (by split <;> simp) _
        · rw [if_neg hpoll]
          exact Nat.add_le_add_left (Nat.zero_le _) _
  rw [lifeOf, ThreadPool.localRun_snoc, ← lifeOf]
  refine hadded _ fun x hx hpoll => ?_
  cases a with
  | controller y => cases hx
  | thread j r =>
      rw [ThreadPool.localStep] at hx
      split at hx
      · obtain ⟨w, -, rfl⟩ := Option.map_eq_some_iff.mp hx
        exact isRunning_of_startsPoll hpoll
      · cases hx

end Steps

/-- A life is as long as it takes to return, and six steps more for each poll, at most. -/
theorem Worker.length_add_remaining_le {tr : List (Worker × Answer)} {w : Worker}
    (hrun : lts.Run start tr w) : tr.length + w.remaining ≤ 53 + 6 * polls tr := by
  have hpaid : totalOf (fun _ => 1) tr + w.remaining ≤
      totalOf (fun x => if startsPoll x then 6 else 0) tr + start.remaining :=
    hrun.totalOf_add_le Lts.along_true fun {_ w a w'} _ _ _ hstep => by
      obtain ⟨hop, rfl⟩ := lts_step.mp hstep
      by_cases hpoll : w.pc = .testRunning ∧ a.test = true
      · obtain ⟨hpc, htest⟩ := hpoll
        have hcredit : startsPoll (w, a) = true := by
          simp [startsPoll, op, hpc, htest]
        have hbefore : w.remaining = 3 := by
          simp [remaining, hpc]
        have hafter := remaining_resume_testRunning hpc a
        rw [if_pos hcredit]
        omega
      · have hlt := remaining_resume_lt (a := a) hop fun hpc => by
          simpa using fun htest => hpoll ⟨hpc, htest⟩
        omega
  rw [totalOf_one, totalOf_ite, ← polls] at hpaid
  have hstart : start.remaining = 53 := rfl
  omega

/-! ### Fair executions -/

section Executions

variable {e : overlap.lts.Execution} {i n m : ℕ}

/-- No worker is ever removed. -/
theorem length_threads_mono (hle : n ≤ m) :
    (e.state n).threads.length ≤ (e.state m).threads.length := by
  obtain ⟨seg, -, hrun, -⟩ := Lts.Execution.exists_run (e := e) hle
  exact ThreadPool.length_le_of_run hrun

/-- A worker that has returned stays so. -/
theorem hasReturned_mono (hle : n ≤ m) (h : HasReturned i (e.state n)) :
    HasReturned i (e.state m) := by
  obtain ⟨seg, -, hrun, -⟩ := Lts.Execution.exists_run (e := e) hle
  exact h.run hrun

/-- The steps of a worker by some moment are its life by then. -/
theorem length_lifeOf_upTo (n : ℕ) :
    (lifeOf i (e.upTo n)).length = (e.upTo n).countP fun x => decide (StepOf i x.2) :=
  ThreadPool.length_localRun (Lts.Execution.run_upTo n)

/-- A poll that was made stays made. -/
theorem polls_upTo_mono (hle : n ≤ m) :
    polls (lifeOf i (e.upTo n)) ≤ polls (lifeOf i (e.upTo m)) := by
  obtain ⟨seg, hsplit, -⟩ := Lts.Execution.exists_run (e := e) hle
  rw [hsplit, lifeOf, lifeOf, ThreadPool.localRun, ThreadPool.localRun, Lts.observe_append, polls,
    polls, List.countP_append]
  exact Nat.le_add_right _ _

/-- While the flag is false nobody polls. -/
theorem polls_upTo_le (hle : n ≤ m)
    (hflag : ∀ k, n ≤ k → k < m → (e.state k).shared.client.isRunning = false) :
    polls (lifeOf i (e.upTo m)) ≤ polls (lifeOf i (e.upTo n)) := by
  induction hle with
  | refl => exact Nat.le_refl _
  | @step m hle ih =>
      have hbefore := ih fun k hnk hkm => hflag k hnk (Nat.lt_succ_of_lt hkm)
      have hnow := hflag m hle (Nat.lt_succ_self m)
      rw [Lts.Execution.upTo_succ]
      cases ha : e.action m with
      | none => simpa using hbefore
      | some a =>
          have hlast : polls (lifeOf i (e.upTo m ++ [(e.state m, a)])) ≤ _ :=
            polls_lifeOf_snoc_le a
          rw [hnow, if_neg Bool.false_ne_true] at hlast
          exact Nat.le_trans hlast hbefore

/-- A worker that is given its turn again and again returns, or polls without end over a flag
that is true again and again. -/
theorem worker_returns_or_polls (hfair : e.Fair (StepOf i)) (hi : i < (e.state n).threads.length) :
    (∃ m, n ≤ m ∧ HasReturned i (e.state m)) ∨
      ((∀ k, ∃ m, n ≤ m ∧ k ≤ polls (lifeOf i (e.upTo m))) ∧
        ∀ k, ∃ m, k ≤ m ∧ (e.state m).shared.client.isRunning = true) := by
  have hexists : ∀ m, n ≤ m → i < (e.state m).threads.length :=
    fun m hnm => Nat.lt_of_lt_of_le hi (length_threads_mono hnm)
  rcases hfair.exists_or_count (D := HasReturned i) (n := n) (fun m hnm hnot =>
    enabled_of_not_hasReturned (hexists m hnm) hnot) with hreturns | hmoves
  · exact Or.inl hreturns
  · have hpolls : ∀ k, ∃ m, n ≤ m ∧ k ≤ polls (lifeOf i (e.upTo m)) := by
      intro k
      obtain ⟨m, hnm, hcount⟩ := hmoves (53 + 6 * k)
      have hrun := Lts.Execution.run_upTo (e := e) m
      have hlife := run_lifeOf_overlap hrun (List.getElem?_eq_getElem (hexists m hnm))
      have hlength := Worker.length_add_remaining_le hlife
      rw [length_lifeOf_upTo] at hlength
      exact ⟨m, hnm, by omega⟩
    refine Or.inr ⟨hpolls, fun k => ?_⟩
    by_contra hnever
    have hfalse : ∀ m, k ≤ m → (e.state m).shared.client.isRunning = false :=
      fun m hkm => eq_false_of_ne_true fun hflag => hnever ⟨m, hkm, hflag⟩
    obtain ⟨m, -, hmany⟩ := hpolls (polls (lifeOf i (e.upTo k)) + 1)
    rcases Nat.le_total m k with hmk | hkm
    · have hmono := polls_upTo_mono (e := e) (i := i) hmk
      omega
    · have hle := polls_upTo_le (e := e) (i := i) hkm fun j hkj _ => hfalse j hkj
      omega

/-- A worker that has returned takes no further step. -/
theorem countP_stepOf_eq (h : HasReturned i (e.state n)) (hle : n ≤ m) :
    (e.upTo m).countP (fun x => decide (StepOf i x.2)) =
      (e.upTo n).countP fun x => decide (StepOf i x.2) := by
  induction hle with
  | refl => rfl
  | @step m hle ih =>
      have hreturned := hasReturned_mono hle h
      rw [Lts.Execution.upTo_succ]
      cases ha : e.action m with
      | none => simpa using ih
      | some a =>
          have hother : ¬ StepOf i a := fun hstep =>
            hreturned.not_enabled ⟨a, e.state (m + 1), hstep, e.moves m a ha⟩
          rw [Option.map_some, Option.toList_some, List.countP_append, List.countP_singleton, ih,
            if_neg (by simpa using hother), Nat.add_zero]

/-- **A worker returns or polls.** In every execution that is fair to a worker, from the
moment it exists: it returns exactly if there is a bound on its polls; and it does if the flag
is false from some moment on. -/
theorem returns_iff (hfair : e.Fair (StepOf i)) (hi : i < (e.state n).threads.length) :
    ((∃ m, n ≤ m ∧ HasReturned i (e.state m)) ↔
      ∃ K, ∀ m, polls (lifeOf i (e.upTo m)) ≤ K) ∧
    ((∃ k, ∀ m, k ≤ m → (e.state m).shared.client.isRunning = false) →
      ∃ m, n ≤ m ∧ HasReturned i (e.state m)) := by
  have halternative := worker_returns_or_polls hfair hi
  refine ⟨⟨?_, ?_⟩, ?_⟩
  · rintro ⟨m, -, hreturned⟩
    refine ⟨(e.upTo m).countP fun x => decide (StepOf i x.2), fun k => ?_⟩
    have hlength : polls (lifeOf i (e.upTo k)) ≤ (lifeOf i (e.upTo k)).length :=
      List.countP_le_length
    rw [length_lifeOf_upTo] at hlength
    rcases Nat.le_total m k with hmk | hkm
    · rwa [countP_stepOf_eq hreturned hmk] at hlength
    · exact Nat.le_trans hlength (Lts.Execution.countP_upTo_le hkm _)
  · rintro ⟨K, hbound⟩
    rcases halternative with hreturns | ⟨hpolls, -⟩
    · exact hreturns
    · obtain ⟨m, -, hmany⟩ := hpolls (K + 1)
      have := hbound m
      omega
  · rintro ⟨k, hfalse⟩
    rcases halternative with hreturns | ⟨-, hagain⟩
    · exact hreturns
    · obtain ⟨m, hkm, htrue⟩ := hagain k
      rw [hfalse m hkm] at htrue
      cases htrue

/-- An execution to which the theorem applies at a moment when the worker is in the middle of
a poll iteration: it is stopped later and returns, and then nothing happens any more. -/
theorem returns_iff_one_poll :
    ∃ (e : overlap.lts.Execution) (n : ℕ), e.Fair (StepOf 0) ∧
      (e.state n).shared.client.isRunning = true ∧
      (∃ w ∈ (e.state n).threads[0]?, w.pc = .deletePlayer) ∧
      ∃ m, n ≤ m ∧ HasReturned 0 (e.state m) := by
  obtain ⟨tr, t, hrun, ⟨x, hx, htrue, hpolling⟩, hflag, hall⟩ := Lts.exists_run_of_exec
    (L := overlap.lts) (s := overlap.lts.init)
    (P := fun tr t => (∃ x ∈ tr[60]?, x.1.shared.client.isRunning = true ∧
        ∃ w ∈ x.1.threads[0]?, w.pc = .deletePlayer) ∧
      t.shared.client.isRunning = false ∧ ∀ w ∈ t.threads, w.pc = .returned)
    polledOnce (by decide)
  have hfair : (Lts.Execution.ofRun hrun).Fair (StepOf 0) :=
    Lts.Execution.fair_ofRun
      (not_enabled_of_returned fun w hi => hall w (List.mem_of_getElem? hi))
  have hlast : ∀ m, tr.length ≤ m → (Lts.Execution.ofRun hrun).state m = t :=
    fun _ => Lts.Execution.state_ofRun
  have hstate : (Lts.Execution.ofRun hrun).state 60 = x.1 :=
    Lts.Execution.state_ofRun_of_getElem? hx
  have hexists : 0 < ((Lts.Execution.ofRun hrun).state 60).threads.length := by
    obtain ⟨w, hw, -⟩ := hpolling
    rw [hstate]
    exact ThreadPool.lt_length_of_getElem? hw
  refine ⟨_, 60, hfair, by rwa [hstate], by rwa [hstate],
    (returns_iff hfair hexists).2 ⟨tr.length, fun m hle => ?_⟩⟩
  rw [hlast m hle, hflag]

/-- From a stopped moment on, while no start is made, the flag is false and no worker is
created. -/
theorem stopped_mono (hflag : (e.state n).shared.client.isRunning = false)
    (hcalls : ∀ c ∈ (e.state n).shared.calls, c.NotStarting)
    (hno : ∀ m, n ≤ m → ∀ a ∈ e.action m, Only OverlapAction.NoStart (e.state m) a)
    (hle : n ≤ m) :
    (e.state m).shared.client.isRunning = false ∧
      (e.state m).threads.length = (e.state n).threads.length := by
  obtain ⟨seg, -, hrun, hmoments⟩ := Lts.Execution.exists_run (e := e) hle
  have halong : Lts.Along (Only OverlapAction.NoStart) seg := by
    intro x hx
    obtain ⟨k, hnk, -, hstate, haction⟩ := hmoments x hx
    rw [hstate]
    exact hno k hnk x.2 haction
  obtain ⟨⟨hflag', -⟩, hlength, -⟩ := stopped_run stopping_overlapped ⟨hflag, hcalls⟩ hrun halong
  exact ⟨hflag', hlength⟩

/-- What happens to each worker in its time has happened to all of them at some time. -/
theorem exists_all_returned {N : ℕ}
    (h : ∀ i, i < N → ∃ m, n ≤ m ∧ HasReturned i (e.state m)) :
    ∃ m, n ≤ m ∧ ∀ i, i < N → HasReturned i (e.state m) := by
  induction N with
  | zero => exact ⟨n, Nat.le_refl n, fun i hi => absurd hi (Nat.not_lt_zero i)⟩
  | succ N ih =>
      obtain ⟨m, hnm, hall⟩ := ih fun i hi => h i (Nat.lt_succ_of_lt hi)
      obtain ⟨k, -, hlast⟩ := h N (Nat.lt_succ_self N)
      refine ⟨max m k, Nat.le_trans hnm (Nat.le_max_left m k), fun i hi => ?_⟩
      rcases Nat.lt_succ_iff_lt_or_eq.mp hi with hi | rfl
      · exact hasReturned_mono (Nat.le_max_left m k) (hall i hi)
      · exact hasReturned_mono (Nat.le_max_right m k) hlast

/-- **Stopping works.** In every execution that is fair to each worker: if at some moment the
flag is false and no start is in progress, and from then on none is made, then every worker
returns, and from some moment on all have returned and the flag is false. -/
theorem all_return_of_stopped (hfair : ∀ i, e.Fair (StepOf i))
    (hflag : (e.state n).shared.client.isRunning = false)
    (hcalls : ∀ c ∈ (e.state n).shared.calls, c.NotStarting)
    (hno : ∀ m, n ≤ m → ∀ a ∈ e.action m, Only OverlapAction.NoStart (e.state m) a) :
    ∃ m, n ≤ m ∧ ∀ k, m ≤ k → (e.state k).shared.client.isRunning = false ∧
      NoneOf Worker.Unfinished (e.state k).threads := by
  have heach : ∀ i, i < (e.state n).threads.length →
      ∃ m, n ≤ m ∧ HasReturned i (e.state m) := by
    intro i hi
    rcases worker_returns_or_polls (hfair i) hi with hreturns | ⟨-, hagain⟩
    · exact hreturns
    · obtain ⟨m, hnm, htrue⟩ := hagain n
      rw [(stopped_mono hflag hcalls hno hnm).1] at htrue
      cases htrue
  obtain ⟨m, hnm, hall⟩ := exists_all_returned heach
  refine ⟨m, hnm, fun k hmk => ?_⟩
  obtain ⟨hfalse, hlength⟩ := stopped_mono hflag hcalls hno (Nat.le_trans hnm hmk)
  refine ⟨hfalse, fun w hw => ?_⟩
  obtain ⟨i, hi⟩ := List.getElem?_of_mem hw
  have hlt : i < (e.state n).threads.length := by
    rw [← hlength]
    exact ThreadPool.lt_length_of_getElem? hi
  obtain ⟨w', hi', hpc⟩ := hasReturned_mono hmk (hall i hlt)
  rw [Worker.unfinished_iff, ← Option.mem_unique hi' hi, hpc]
  exact not_not.mpr rfl

/-- An execution to which the theorem applies: after `Agent_OnUnload` has returned a worker is
still in the middle of a poll iteration. -/
theorem all_return_of_stopped_one_poll :
    ∃ (e : overlap.lts.Execution) (n : ℕ), (∀ i, e.Fair (StepOf i)) ∧
      ¬ NoneOf Worker.Unfinished (e.state n).threads ∧
      ∃ m, n ≤ m ∧ ∀ k, m ≤ k → (e.state k).shared.client.isRunning = false ∧
        NoneOf Worker.Unfinished (e.state k).threads := by
  obtain ⟨tr, t, hrun, ⟨x, hx, hflag, hcalls, hbusy⟩, hno, hall⟩ := Lts.exists_run_of_exec
    (L := overlap.lts) (s := overlap.lts.init)
    (P := fun tr t => (∃ x ∈ tr[67]?, x.1.shared.client.isRunning = false ∧
        x.1.shared.calls = [] ∧ ¬ NoneOf Worker.Unfinished x.1.threads) ∧
      Lts.Along (Only OverlapAction.NoStart) (tr.drop 67) ∧ ∀ w ∈ t.threads, w.pc = .returned)
    polledOnce (by decide)
  have hfair : ∀ i, (Lts.Execution.ofRun hrun).Fair (StepOf i) := fun i =>
    Lts.Execution.fair_ofRun
      (not_enabled_of_returned fun w hi => hall w (List.mem_of_getElem? hi))
  have hstate : (Lts.Execution.ofRun hrun).state 67 = x.1 :=
    Lts.Execution.state_ofRun_of_getElem? hx
  refine ⟨_, 67, hfair, by rwa [hstate], all_return_of_stopped hfair (by rwa [hstate]) ?_ ?_⟩
  · rw [hstate, hcalls]
    simp
  · intro m hle a ha
    obtain ⟨y, hy, rfl⟩ := Option.map_eq_some_iff.mp ha
    rw [Lts.Execution.state_ofRun_of_getElem? hy]
    refine hno y (List.mem_of_getElem? (i := m - 67) ?_)
    rw [List.getElem?_drop, Nat.add_sub_cancel' hle]
    exact hy

end Executions

end Rynox
