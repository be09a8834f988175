import Rynox.Monitor

/-!
# Sessions One at a Time

What a service that works in the background promises to whoever starts and stops it. It
works in *sessions*: a session is started, works until it is told to stop, and finishes,
which it may also do of its own accord. The next one starts only when the last has
finished. Telling the service to stop when nothing runs does nothing.

The promise is a monitor of what happens to the sessions, each known by its place in the
order of their starts.

## Main results

* `Sessions.count_start_le`: every start but the last has been followed by a finish.
* `Sessions.work_last`: only the session started last works.
* `Sessions.start_mem_of_work_after_stop`: a service that was stopped works again only
  after a further start.
-/

namespace Sessions

/-- What the session started last is doing; `idle` when it has finished, and before the
first one. -/
inductive Stage
  | idle
  | running
  | stopping
  deriving DecidableEq, Repr

/-- The number of sessions started so far, and the stage of the last one. -/
structure State where
  started : ℕ := 0
  stage : Stage := .idle
  deriving DecidableEq, Repr

/-- What happens to the service: it starts a session, session `n` works, the service is told
to stop, session `n` finishes. -/
inductive Action
  | start
  | work (n : ℕ)
  | stop
  | finish (n : ℕ)
  deriving DecidableEq, Repr

/-- Whether a session finishes. -/
def Action.isFinish : Action → Bool
  | finish _ => true
  | _ => false

/-- The promise. -/
def promise : Monitor Action State where
  start := {}
  next s
    | .start => if s.stage = .idle then some ⟨s.started + 1, .running⟩ else none
    | .work n => if n + 1 = s.started ∧ s.stage = .running then some s else none
    | .stop => some { s with stage := if s.stage = .running then .stopping else s.stage }
    | .finish n =>
        if n + 1 = s.started ∧ s.stage ≠ .idle then some { s with stage := .idle } else none

variable {s s' : State} {l : List Action}

/-- A session may start when none is there. -/
theorem next_start : promise.next s .start = some s' ↔
    s.stage = .idle ∧ s' = ⟨s.started + 1, .running⟩ := by
  simp [promise, eq_comm]

/-- The session that works is the latest, and it has not been stopped. -/
theorem next_work {n : ℕ} : promise.next s (.work n) = some s' ↔
    n + 1 = s.started ∧ s.stage = .running ∧ s' = s := by
  simp [promise, and_assoc, eq_comm]

/-- A stop is always allowed, and stops what is running. -/
theorem next_stop : promise.next s .stop = some s' ↔
    s' = { s with stage := if s.stage = .running then .stopping else s.stage } := by
  simp [promise, eq_comm]

/-- The session that finishes is the latest, and it has not finished before. -/
theorem next_finish {n : ℕ} : promise.next s (.finish n) = some s' ↔
    n + 1 = s.started ∧ s.stage ≠ .idle ∧ s' = { s with stage := .idle } := by
  simp [promise, and_assoc, eq_comm]

/-- The state counts the starts, and each has been followed by a finish, but for the
session that is not idle. -/
theorem started_eq (h : promise.after l = some s) :
    l.count .start = s.started ∧
      s.started = l.countP Action.isFinish + (if s.stage = .idle then 0 else 1) := by
  refine Monitor.after_induct (I := fun l s => l.count .start = s.started ∧
    s.started = l.countP Action.isFinish + (if s.stage = .idle then 0 else 1)) ⟨rfl, rfl⟩ ?_ h
  rintro l s e s' ⟨hstarts, hfinishes⟩ hnext
  rw [List.count_append, List.countP_append, hstarts]
  cases e with
  | start =>
      obtain ⟨hidle, rfl⟩ := next_start.mp hnext
      rw [if_pos hidle] at hfinishes
      simp [Action.isFinish, hfinishes]
  | work n =>
      obtain ⟨-, -, rfl⟩ := next_work.mp hnext
      simpa [Action.isFinish] using hfinishes
  | stop =>
      rw [next_stop] at hnext
      subst hnext
      cases hstage : s.stage <;> simpa [Action.isFinish, hstage] using hfinishes
  | finish n =>
      obtain ⟨-, hbusy, rfl⟩ := next_finish.mp hnext
      rw [if_neg hbusy] at hfinishes
      simpa [Action.isFinish] using hfinishes

/-- Every start but the last has been followed by a finish. -/
theorem count_start_le (h : promise.after l = some s) :
    l.count .start ≤ l.countP Action.isFinish + 1 := by
  obtain ⟨hstarts, hfinishes⟩ := started_eq h
  split at hfinishes <;> omega

/-- Only the session started last works. -/
theorem work_last {before rest : List Action} {n : ℕ}
    (h : promise.after (before ++ .work n :: rest) = some s) : n + 1 = before.count .start := by
  obtain ⟨m, m', hm, hnext⟩ := Monitor.after_prefix h
  rw [(started_eq hm).1]
  exact (next_work.mp hnext).1

/-- While a session runs, no stop has come since its start. -/
theorem start_mem_of_running (h : promise.after l = some s) (hrunning : s.stage = .running)
    {before between : List Action} (hl : l = before ++ .stop :: between) : .start ∈ between := by
  refine Monitor.after_induct (I := fun l s => s.stage = .running → ∀ before between,
    l = before ++ .stop :: between → .start ∈ between) (by simp [promise]) ?_ h hrunning _ _ hl
  intro l s e s' hI hnext hrunning before between hl
  rcases List.eq_nil_or_concat between with rfl | ⟨between', e', rfl⟩
  · obtain ⟨-, rfl⟩ := List.append_singleton_inj.mp hl
    rw [next_stop] at hnext
    subst hnext
    cases hstage : s.stage <;> simp [hstage] at hrunning
  · rw [List.concat_eq_append, ← List.cons_append, ← List.append_assoc] at hl
    obtain ⟨rfl, rfl⟩ := List.append_singleton_inj.mp hl
    rw [List.concat_eq_append, List.mem_append]
    cases e with
    | start => exact Or.inr (List.mem_singleton_self _)
    | work n =>
        obtain ⟨-, hs, -⟩ := next_work.mp hnext
        exact Or.inl (hI hs _ _ rfl)
    | stop =>
        rw [next_stop] at hnext
        subst hnext
        cases hstage : s.stage <;> simp [hstage] at hrunning
    | finish n =>
        obtain ⟨-, -, rfl⟩ := next_finish.mp hnext
        cases hrunning

/-- A service that was stopped works again only after a further start. -/
theorem start_mem_of_work_after_stop {before between rest : List Action} {n : ℕ}
    (h : promise.after (before ++ .stop :: (between ++ .work n :: rest)) = some s) :
    .start ∈ between := by
  have h' : promise.after ((before ++ .stop :: between) ++ .work n :: rest) = some s := by
    simpa using h
  obtain ⟨m, m', hm, hnext⟩ := Monitor.after_prefix h'
  obtain ⟨-, hrunning, -⟩ := next_work.mp hnext
  exact start_mem_of_running hm hrunning rfl

end Sessions
