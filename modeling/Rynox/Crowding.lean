import Rynox.Amortized
import Rynox.SingleWorker

/-!
# How Many Workers at Once

While the guard of `initializeRynoxClient` never misses, at most one worker is active. Each
time it misses there may be one more, and no more than one: with `n` misses in a run, at most
`n + 1` workers are active, and for every `n` there is a run that gets there
(`active_le_misses`). So the number of workers at once has no bound, but each further one
takes a start of its own that found the flag false with a worker active.
-/

namespace Rynox

/-- How often the guard missed in a run. -/
def misses (tr : List (State × Action)) : ℕ :=
  tr.countP fun x => decide (¬ GuardHolds x.1 x.2)

/-- Whether the last transition is one miss more. -/
theorem misses_snoc {tr : List (State × Action)} {x : State × Action} :
    misses (tr ++ [x]) = misses tr + if GuardHolds x.1 x.2 then 0 else 1 := by
  rw [misses, List.countP_append, List.countP_singleton, ← misses]
  by_cases h : GuardHolds x.1 x.2 <;> simp [h]

/-- How many of the workers are active. -/
def activeCount (ts : List Worker) : ℕ :=
  ts.countP fun w => decide w.Active

/-- The worker that a call past the guard is about to create. -/
def creatingCount (k : Option Entry) : ℕ :=
  if k.any Entry.creating then 1 else 0

/-- Where nobody is active the count is zero. -/
theorem activeCount_of_noneOf {ts : List Worker} (h : NoneOf Worker.Active ts) :
    activeCount ts = 0 := by
  rw [activeCount, List.countP_eq_zero]
  intro w hw
  simpa using h w hw

/-- A step that creates no worker leaves the count as it is. -/
@[simp] theorem activeCount_append_nil (ts : List Worker) :
    activeCount (ts ++ (none : Option Worker).toList) = activeCount ts := by
  simp

/-- A new worker is active. -/
theorem activeCount_append_start (ts : List Worker) :
    activeCount (ts ++ (some Worker.start).toList) = activeCount ts + 1 := by
  rw [activeCount, List.countP_append]
  rfl

/-- A step that makes no worker active does not raise the count. -/
theorem activeCount_set_le {ts : List Worker} {i : ℕ} {w w' : Worker} (hi : ts[i]? = some w)
    (hactive : w'.Active → w.Active) : activeCount (ts.set i w') ≤ activeCount ts := by
  have hset := countP_set_add (p := fun u : Worker => decide u.Active) (v := w') hi
  have hle : (if decide w'.Active then 1 else 0) ≤ if decide w.Active then 1 else 0 := by
    by_cases h : w'.Active
    · simp [h, hactive h]
    · simp [h]
  rw [activeCount, activeCount]
  omega

/-! ### One more for each miss -/

section Bound

variable {c c' : Client} {k k' : Option Entry} {ts : List Worker}

/-- A step on the side of the JVM keeps the account: who is active, and who is about to be
created, is paid for by the misses. -/
theorem CallMove.crowd {x : EntryAction} {o : Option Worker} {n : ℕ}
    (hmove : CallMove c k x c' k' o) (h : activeCount ts + creatingCount k ≤ n + 1) :
    activeCount (ts ++ o.toList) + creatingCount k' ≤
      n + (if GuardHolds ⟨⟨c, k⟩, ts⟩ (.controller x) then 0 else 1) + 1 := by
  cases hmove with
  | testPasses r hflag =>
      rw [activeCount_append_nil]
      have hone : creatingCount (some (.init .setRunning)) = 1 := rfl
      have hnone : creatingCount (some (.init .testRunning)) = 0 := rfl
      by_cases hactive : NoneOf Worker.Active ts
      · have hzero := activeCount_of_noneOf hactive
        omega
      · have hmiss : ¬ GuardHolds ⟨⟨c, some (.init .testRunning)⟩, ts⟩ (.controller (.step r)) :=
          fun hholds => hholds ⟨rfl, hflag, hactive⟩
        rw [if_neg hmiss]
        omega
  | create r _ =>
      rw [activeCount_append_start]
      have hone : creatingCount (some (.init .createThread)) = 1 := rfl
      have hnone : creatingCount (some (.init .readThread)) = 0 := rfl
      omega
  | enter f =>
      rw [activeCount_append_nil]
      have hnone : creatingCount (some (f.enter c).2) = 0 := by
        rw [f.enter_entry]
        split <;> rfl
      have hidle : creatingCount none = 0 := rfl
      omega
  | _ =>
      rw [activeCount_append_nil]
      simp only [creatingCount, Option.any_some, Option.any_none, Entry.creating] at h ⊢
      simp only [Bool.false_eq_true, if_false, if_true] at h ⊢
      omega

end Bound

/-- In every run there are at most as many workers active, and about to be created, as the
guard has missed, and one more. -/
theorem crowd_of_run {tr : List (State × Action)} {s : State} (hrun : AgentRun tr s) :
    activeCount s.threads + creatingCount s.shared.calls ≤ misses tr + 1 := by
  refine hrun.induct (I := fun tr s => activeCount s.threads + creatingCount s.shared.calls ≤
    misses tr + 1) (Nat.zero_le _) ?_
  intro tr s a s' _ hI hstep
  rw [misses_snoc]
  obtain ⟨x, c, k, o, rfl, hmove, rfl⟩ | ⟨i, r, w, c, w', e, rfl, hi, hmove, -, rfl⟩ :=
    agent_step_cases hstep
  · exact hmove.crowd hI
  · have hle := activeCount_set_le hi hmove.active_of_active
    simp only
    omega

/-! ### Every number is reached -/

/-- A run of the agent has led to this state, and the guard has missed `n` times in it. -/
def Crowd (n : ℕ) (c : Client) (k : Option Entry) (ts : List Worker) : Prop :=
  ∃ tr, AgentRun tr ⟨⟨c, k⟩, ts⟩ ∧ misses tr = n

/-- The run goes on with a step on the side of the JVM. -/
theorem Crowd.callMove {n : ℕ} {c c' : Client} {k k' : Option Entry} {x : EntryAction}
    {o : Option Worker} {ts : List Worker} (h : Crowd n c k ts) (hmove : CallMove c k x c' k' o) :
    Crowd (n + if GuardHolds ⟨⟨c, k⟩, ts⟩ (.controller x) then 0 else 1) c' k'
      (ts ++ o.toList) := by
  obtain ⟨tr, hrun, hmisses⟩ := h
  exact ⟨_, hrun.snoc (step_of_callMove hmove ts), by rw [misses_snoc, hmisses]⟩

/-- A step that does not take the guard costs no miss. -/
theorem Crowd.quietMove {n : ℕ} {c c' : Client} {k k' : Option Entry} {x : EntryAction}
    {o : Option Worker} {ts : List Worker} (h : Crowd n c k ts) (hmove : CallMove c k x c' k' o)
    (hk : k ≠ some (.init .testRunning)) : Crowd n c' k' (ts ++ o.toList) := by
  have hholds : GuardHolds ⟨⟨c, k⟩, ts⟩ (.controller x) := by
    cases x with
    | call f => exact trivial
    | step r => exact fun hmisses => hk hmisses.1
  have hnext := h.callMove hmove
  rwa [if_pos hholds] at hnext

/-- The guard passes with a worker active, and that is one more miss. -/
theorem Crowd.missed {n : ℕ} {c : Client} {ts : List Worker} (r : OsReply)
    (h : Crowd n c (some (.init .testRunning)) ts) (hflag : c.isRunning = false)
    (hactive : ¬ NoneOf Worker.Active ts) : Crowd (n + 1) c (some (.init .setRunning)) ts := by
  have hmisses : ¬ GuardHolds ⟨⟨c, some (.init .testRunning)⟩, ts⟩ (.controller (.step r)) :=
    fun hholds => hholds ⟨rfl, hflag, hactive⟩
  have hnext := h.callMove (.testPasses r hflag)
  rw [if_neg hmisses] at hnext
  simpa using hnext

/-- An unload between two calls: the flag is false when it has returned, and nobody has
moved. -/
theorem Crowd.unload {n : ℕ} {c : Client} {ts : List Worker} (h : Crowd n c none ts)
    (hflag : c.isRunning = true) : Crowd n { c with isRunning := false } none ts := by
  have hcalled : Crowd n c (some shutdownRynoxClient) (ts ++ []) :=
    h.quietMove (.enter (.onUnload 0)) (by simp)
  have htested := hcalled.quietMove (.shutdownPasses {} hflag) (by decide)
  have hcleared := htested.quietMove (.clear {}) (by simp)
  have hreturned := hcleared.quietMove (.shutdownRet {}) (by simp)
  simpa using hreturned

/-- An attach that finds the flag false with a worker active: one more miss, and one more
worker. -/
theorem Crowd.attach {n : ℕ} {c : Client} {ts : List Worker} (h : Crowd n c none ts)
    (hflag : c.isRunning = false) (hactive : ¬ NoneOf Worker.Active ts) :
    ∃ c' : Client, c'.isRunning = true ∧ Crowd (n + 1) c' none (ts ++ [Worker.start]) := by
  have hcalled := h.quietMove (.enter (.onAttach 0)) (by simp)
  have htested := hcalled.missed {} hflag (by simpa using hactive)
  have hset := htested.quietMove (.set {}) (by simp)
  have hcreated := hset.quietMove (.create {} rfl) (by simp)
  have hread := hcreated.quietMove (.read {}) (by simp)
  have hdetached := hread.quietMove (.detach _ {}) (by simp)
  have hreturned := hdetached.quietMove (.initRet {}) (by simp)
  exact ⟨_, rfl, by simpa using hreturned⟩

/-- For every `n`, a run with `n` misses leaves `n + 1` workers at their start: each unload
that is followed by an attach, with no step of a worker in between, adds one. -/
theorem exists_crowd (n : ℕ) :
    ∃ c : Client, c.isRunning = true ∧ Crowd n c none (List.replicate (n + 1) Worker.start) := by
  induction n with
  | zero =>
      obtain ⟨tr, ⟨⟨c, k⟩, ts⟩, hrun, hmisses, rfl, rfl, hflag⟩ := exists_agentRun
        (P := fun tr s => misses tr = 0 ∧ s.shared.calls = none ∧
          s.threads = [Worker.start] ∧ s.shared.client.isRunning = true)
        (createdBy (.onLoad 0)) (by decide)
      exact ⟨c, hflag, tr, hrun, hmisses⟩
  | succ n ih =>
      obtain ⟨c, hflag, hcrowd⟩ := ih
      have hactive : ¬ NoneOf Worker.Active (List.replicate (n + 1) Worker.start) := by
        intro hnone
        exact hnone Worker.start (by simp) (by decide)
      rw [List.replicate_succ']
      exact (hcrowd.unload hflag).attach rfl hactive

/-- **How many workers at once.** In every run of the agent at most as many workers are
active as the guard of `initializeRynoxClient` has missed, and one more; and for every
number of misses some run has that many. -/
theorem active_le_misses :
    (∀ tr s, AgentRun tr s → activeCount s.threads ≤ misses tr + 1) ∧
      ∀ n, ∃ tr s, AgentRun tr s ∧ misses tr = n ∧ activeCount s.threads = n + 1 := by
  constructor
  · intro tr s hrun
    have hcrowd := crowd_of_run hrun
    omega
  · intro n
    obtain ⟨c, -, tr, hrun, hmisses⟩ := exists_crowd n
    refine ⟨tr, _, hrun, hmisses, ?_⟩
    rw [activeCount, List.countP_replicate, if_pos (by decide)]

end Rynox
