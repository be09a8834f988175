import Rynox.Drain
import Rynox.Work

/-!
# Bringing the Library to Rest

The library never waits for anything, so whoever decides who moves next can bring it to
rest from wherever it is: let the calls in progress return, call `Agent_OnUnload` if the
flag is true then, and let the workers run. `settle` is that schedule. It looks at the
state alone and leaves all answers to the JVM and the system; a run that follows it makes
at most one further call, takes at most four steps more than what was left to do, and never
gets stuck before everything has returned and the flag is false (`settles_of_run`).

The state it starts from is any state, also one that only calls which overlap lead to.
-/

namespace Rynox

/-- Who moves next: the JVM makes a call, a call in progress, or a worker. -/
inductive Mover
  | call (f : Call)
  | step (k : ℕ)
  | worker (i : ℕ)
  deriving DecidableEq, Repr

/-- Who moves in a step, whatever is answered. -/
def moverOf : ActionOf OverlapAction → Mover
  | .controller (.call f) => .call f
  | .controller (.step k _) => .step k
  | .thread i _ => .worker i

/-- The schedule that brings the library to rest, `vm` being the JVM that calls
`Agent_OnUnload`. -/
def settle (vm : ℕ) (s : OverlapState) : Option Mover :=
  match s.shared.calls with
  | _ :: _ => some (.step 0)
  | [] =>
      if s.shared.client.isRunning then some (.call (.onUnload vm))
      else (s.threads.findIdx? fun w => decide w.Unfinished).map .worker

/-- The step follows the schedule. -/
def Follows (vm : ℕ) (s : OverlapState) (a : ActionOf OverlapAction) : Prop :=
  settle vm s = some (moverOf a)

instance (vm : ℕ) (s : OverlapState) (a : ActionOf OverlapAction) : Decidable (Follows vm s a) :=
  inferInstanceAs (Decidable (settle vm s = some (moverOf a)))

/-- The library is **at rest**: no call is in progress, the flag is false, and every worker
has returned. -/
def AtRest (s : OverlapState) : Prop :=
  s.shared.calls = [] ∧ s.shared.client.isRunning = false ∧
    NoneOf Worker.Unfinished s.threads

instance : DecidablePred AtRest := fun s =>
  inferInstanceAs (Decidable (_ ∧ _ ∧ NoneOf Worker.Unfinished s.threads))

variable {vm : ℕ} {s t : OverlapState} {a : ActionOf OverlapAction}

/-- What the schedule does: a call in progress moves, or `Agent_OnUnload` is called, or a
worker moves over a false flag. -/
theorem follows_cases (h : Follows vm s a) :
    (∃ e rest q, s.shared.calls = e :: rest ∧ a = .controller (.step 0 q)) ∨
    (s.shared.calls = [] ∧ s.shared.client.isRunning = true ∧
      a = .controller (.call (.onUnload vm))) ∨
    (s.shared.calls = [] ∧ s.shared.client.isRunning = false ∧
      ∃ i r, a = .thread i r) := by
  rw [Follows, settle] at h
  split at h
  · rename_i e rest hcalls
    rcases a with (f | ⟨k, q⟩) | ⟨i, r⟩ <;>
      simp only [moverOf, Option.some.injEq, reduceCtorEq, Mover.step.injEq] at h
    subst h
    exact Or.inl ⟨e, rest, q, hcalls, rfl⟩
  · rename_i hcalls
    split at h
    · rename_i hflag
      rcases a with (f | ⟨k, q⟩) | ⟨i, r⟩ <;>
        simp only [moverOf, Option.some.injEq, reduceCtorEq, Mover.call.injEq] at h
      subst h
      exact Or.inr (Or.inl ⟨hcalls, hflag, rfl⟩)
    · rename_i hflag
      obtain ⟨i, -, hi⟩ := Option.map_eq_some_iff.mp h
      rcases a with (f | ⟨k, q⟩) | ⟨j, r⟩ <;> simp only [moverOf, reduceCtorEq] at hi
      exact Or.inr (Or.inr ⟨hcalls, Bool.eq_false_iff.mpr hflag, j, r, rfl⟩)

/-- The schedule ends exactly at rest. -/
theorem settle_eq_none_iff : settle vm s = none ↔ AtRest s := by
  rw [settle]
  split
  · rename_i e rest hcalls
    simp [AtRest, hcalls]
  · rename_i hcalls
    split
    · rename_i hflag
      simp [AtRest, hflag]
    · rename_i hflag
      simp [AtRest, hcalls, Bool.eq_false_iff.mpr hflag, NoneOf, List.findIdx?_eq_none_iff]

/-- Who is scheduled can move, whatever is answered. -/
theorem exists_step_of_follows (h : Follows vm s a) : ∃ t, overlap.lts.step s a = some t := by
  have hsettle := h
  rcases follows_cases h with ⟨e, rest, q, hcalls, rfl⟩ | ⟨-, -, rfl⟩ |
    ⟨hcalls, hflag, i, r, rfl⟩
  · exact ⟨_, step_overlapCall.mpr ⟨e, by simp [hcalls], rfl⟩⟩
  · exact ⟨_, step_overlapEnter.mpr rfl⟩
  · simp only [Follows, settle, hcalls, hflag, Bool.false_eq_true, if_false, moverOf] at hsettle
    obtain ⟨j, hj, heq⟩ := Option.map_eq_some_iff.mp hsettle
    obtain rfl := Mover.worker.inj heq
    obtain ⟨hlt, hunfinished, -⟩ := List.findIdx?_eq_some_iff_getElem.mp hj
    obtain ⟨c', w', e, hstep, -⟩ := exists_worker_step overlapped []
      (List.getElem?_eq_getElem hlt) (of_decide_eq_true hunfinished) r
    exact ⟨_, hstep⟩

/-! ### What the schedule still owes -/

/-- The flag is false and stays so, or the only call in progress is about to clear it. -/
def WindsDown (s : OverlapState) : Prop :=
  s.shared.calls = [.shutdown .testRunning] ∨ s.shared.calls = [.shutdown .clearRunning] ∨
    (s.shared.client.isRunning = false ∧ ∀ e ∈ s.shared.calls, e.initializing = false)

instance : DecidablePred WindsDown := fun s =>
  inferInstanceAs (Decidable (_ ∨ _ ∨ (_ ∧ ∀ e ∈ s.shared.calls, e.initializing = false)))

/-- The steps of the `Agent_OnUnload` that may still have to be called. -/
def owed (s : OverlapState) : ℕ :=
  if WindsDown s then 0 else 4

/-- A call in progress that winds down alone goes on to do so. -/
theorem windsDown_of_step {q : OsReply} (h : WindsDown s)
    (hstep : overlap.lts.step s (.controller (.step 0 q)) = some t) : WindsDown t := by
  rcases h with hcalls | hcalls | ⟨hflag, hcalls⟩
  · obtain ⟨e, he, rfl⟩ := step_overlapCall.mp hstep
    obtain rfl : Entry.shutdown .testRunning = e := by simpa [hcalls] using he
    cases hflag : s.shared.client.isRunning <;>
      simp [WindsDown, hcalls, Entry.resume, Entry.op, EntryOp.exec, Entry.initializing, hflag]
  · obtain ⟨e, he, rfl⟩ := step_overlapCall.mp hstep
    obtain rfl : Entry.shutdown .clearRunning = e := by simpa [hcalls] using he
    simp [WindsDown, hcalls, Entry.resume, Entry.op, EntryOp.exec, Entry.initializing]
  · obtain ⟨g, o, hx, rfl⟩ := ThreadPool.step_controller.mp hstep
    have hno : OverlapAction.NoStart (.step 0 q) := trivial
    obtain ⟨hcalls', hflag', -⟩ := stopping_overlapped _ _ _ _ hcalls hno hflag hx
    exact Or.inr (Or.inr ⟨hflag', hcalls'⟩)

/-- The schedule makes no start call, and lets nobody poll. -/
theorem isPoll_eq_false_of_follows (h : Follows vm s a) :
    isStartCall (s, a) = false ∧ isPoll (s, a) = false := by
  rcases follows_cases h with ⟨e, rest, q, -, rfl⟩ | ⟨-, -, rfl⟩ | ⟨-, hflag, i, r, rfl⟩
  · exact ⟨rfl, rfl⟩
  · exact ⟨rfl, rfl⟩
  · refine ⟨rfl, Bool.eq_false_iff.mpr fun hpoll => ?_⟩
    obtain ⟨j, hmoved⟩ := isPoll_iff.mp hpoll
    exact not_poll_of_stopped hflag hmoved

/-- What the schedule makes the JVM call is owed. -/
theorem owed_step (h : Follows vm s a) (hstep : overlap.lts.step s a = some t) :
    stepCredit (s, a) + owed t ≤ owed s := by
  obtain ⟨hstart, hpoll⟩ := isPoll_eq_false_of_follows h
  simp only [stepCredit, hstart, hpoll, Bool.false_eq_true, if_false, Nat.add_zero, Nat.zero_add]
  rcases follows_cases h with ⟨e, rest, q, hcalls, rfl⟩ | ⟨hcalls, hflag, rfl⟩ |
    ⟨hcalls, hflag, i, r, rfl⟩
  · have hdown : WindsDown s → WindsDown t := fun hdown => windsDown_of_step hdown hstep
    rw [isUnloadCall_step, if_neg Bool.false_ne_true, Nat.zero_add, owed, owed]
    by_cases hs : WindsDown s
    · simp [hs, hdown hs]
    · rw [if_neg hs]
      split <;> omega
  · obtain rfl := step_overlapEnter.mp hstep
    have hnot : ¬ WindsDown s := by
      simp [WindsDown, hcalls, hflag]
    have hdown : WindsDown ⟨⟨((Call.onUnload vm).enter s.shared.client).1,
        s.shared.calls ++ [((Call.onUnload vm).enter s.shared.client).2]⟩, s.threads⟩ :=
      Or.inl (by rw [hcalls]; rfl)
    rw [owed, owed, if_neg hnot, if_pos hdown]
    exact Nat.le_refl 4
  · obtain ⟨w, o, hi, ho, rfl⟩ := step_worker.mp hstep
    have hmove := workerMove_of_op (c := s.shared.client) (r := r) ho rfl
    have hdown : WindsDown ⟨{ s.shared with client := o.exec s.shared.client r },
        s.threads.set i (w.resume (o.answer s.shared.client r))⟩ :=
      Or.inr (Or.inr ⟨hmove.isRunning_eq_false hflag, by simp [hcalls]⟩)
    rw [isUnloadCall_thread, if_neg Bool.false_ne_true, owed, if_pos hdown]
    exact Nat.zero_le _

/-! ### Following the schedule -/

/-- What holds after a run `tr` from `s` to `t` that follows the schedule: it made no start
call and at most one of `Agent_OnUnload`, and no worker polled; it took at most four steps
more than what was left to do in `s`; and `t` is at rest, unless somebody is scheduled, who
can move whatever is answered. -/
structure Settles (vm : ℕ) (s : OverlapState)
    (tr : List (OverlapState × ActionOf OverlapAction)) (t : OverlapState) : Prop where
  no_start : ∀ x ∈ tr, isStartCall x = false
  one_unload : tr.countP isUnloadCall ≤ 1
  no_poll : ∀ x ∈ tr, isPoll x = false
  bounded : tr.length + remainingWork t ≤ remainingWork s + 4
  goes_on : AtRest t ∨ ∃ mv, settle vm t = some mv ∧
    ∀ a, moverOf a = mv → ∃ t', overlap.lts.step t a = some t'

/-- **Coming to rest.** From every state, every run that follows the schedule settles,
whatever the JVM and the system answer: it makes at most one further call, of
`Agent_OnUnload`, it is bounded by what was left to do, and it can go on until the library
is at rest. -/
theorem settles_of_run {tr : List (OverlapState × ActionOf OverlapAction)}
    (hrun : overlap.lts.Run s tr t) (hfollows : Lts.Along (Follows vm) tr) :
    Settles vm s tr t := by
  have howed : totalOf stepCredit tr + owed t ≤ totalOf (fun _ => 0) tr + owed s :=
    hrun.totalOf_add_le hfollows fun _ _ ha hstep => by
      have := owed_step ha hstep
      omega
  have hzero : totalOf (fun _ => 0) tr = 0 := totalOf_eq_zero_iff.mpr fun _ _ => rfl
  have hfour : owed s ≤ 4 := by
    rw [owed]
    split <;> omega
  have hwork := length_add_remainingWork_le hrun
  refine ⟨fun x hx => (isPoll_eq_false_of_follows (hfollows x hx)).1, ?_,
    fun x hx => (isPoll_eq_false_of_follows (hfollows x hx)).2, by omega, ?_⟩
  · rw [totalOf_stepCredit] at howed
    omega
  · cases hmv : settle vm t with
    | none => exact Or.inl (settle_eq_none_iff.mp hmv)
    | some mv =>
        refine Or.inr ⟨mv, rfl, fun a ha => ?_⟩
        have hfollow : Follows vm t a := by
          rw [Follows, hmv, ha]
        exact exists_step_of_follows hfollow

/-- A run to which the theorem applies: two starts overlap and have created two workers when
the schedule takes over, lets the calls return, calls `Agent_OnUnload`, and brings the
library to rest. -/
theorem settles_of_run_two_workers :
    ∃ s tr t, overlap.lts.Reachable s ∧ s.shared.calls.length = 2 ∧ s.threads.length = 2 ∧
      overlap.lts.Run s tr t ∧ Settles 0 s tr t ∧ AtRest t := by
  obtain ⟨tr, t, hrun, ⟨x, hx, hcalls, hthreads⟩, hfollows, hrest⟩ := Lts.exists_run_of_exec
    (L := overlap.lts) (s := overlap.lts.init)
    (P := fun tr t => (∃ x ∈ tr[10]?, x.1.shared.calls.length = 2 ∧ x.1.threads.length = 2) ∧
      Lts.Along (Follows 0) (tr.drop 10) ∧ AtRest t)
    ([.controller (.call (.onLoad 0)), .controller (.call (.onAttach 0))] ++
      (List.replicate 3 [.controller (.step 0 {}), .controller (.step 1 {})]).flatten ++
      [.thread 0 { stored := some (some 7) }, .thread 0 {}] ++
      List.replicate 6 (.controller (.step 0 {})) ++ calledAlone (.onUnload 0) 3 ++
      List.replicate 3 (.thread 0 {}) ++ .thread 1 { result := -1 } ::
      List.replicate 4 (.thread 1 {})) (by decide)
  obtain ⟨hreach, hrun'⟩ := hrun.split_getElem? hx
  exact ⟨x.1, tr.drop 10, t, hreach.reachable, hcalls, hthreads, hrun',
    settles_of_run hrun' hfollows, hrest⟩

end Rynox
