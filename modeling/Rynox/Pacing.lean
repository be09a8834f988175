import Rynox.Amortized
import Rynox.Lone

/-!
# How Fast a Worker Goes

A worker waits 50 ms after each message it logs and 100 ms in each poll iteration, whatever
the JVM answers in it. So the time it has slept is known from what it has done, up to the
one wait that is still due (`slept_add_due`); and it logs ten messages or, when it does not
get as far, none (`rounds_of_run`).

`Worker.due` is the wait that is due, and nothing else is needed: it is a potential, and every
step balances it exactly.
-/

namespace Rynox

/-- The step logs a message. -/
def logsMessage (x : Worker × Answer) : Bool :=
  match x.1.op with
  | some (.env (.callVoidMethod _ _ _)) => true
  | _ => false

/-- The step is a loop test that succeeds. -/
def startsPoll (x : Worker × Answer) : Bool :=
  match x.1.op with
  | some .testRunning => x.2.test
  | _ => false

/-- The time the step sleeps, in milliseconds. -/
def sleptBy (x : Worker × Answer) : ℕ :=
  match x.1.op with
  | some (.sleep ms) => ms
  | _ => 0

/-- The time slept in a run, in milliseconds. -/
def slept (tr : List (Worker × Answer)) : ℕ := totalOf sleptBy tr

/-- The messages logged in a run. -/
def messages (tr : List (Worker × Answer)) : ℕ := tr.countP logsMessage

/-- The poll iterations begun in a run. -/
def polls (tr : List (Worker × Answer)) : ℕ := tr.countP startsPoll

namespace Worker

/-- The wait that is due, for a message just logged or a poll iteration under way. -/
def due (w : Worker) : ℕ :=
  match w.pc with
  | .deleteMessage | .sleepLog => 50
  | .callGetInstance | .getPlayer | .deletePlayer | .deleteMinecraft | .sleepPoll => 100
  | _ => 0

variable {w : Worker} {a : Answer} {tr : List (Worker × Answer)}

/-- No more than one wait is due. -/
theorem due_le (w : Worker) : w.due ≤ 100 := by
  rw [due]
  split <;> omega

/-- At the head of the log loop no wait is due. -/
theorem due_logLoop (w : Worker) : w.logLoop.due = 0 := by
  rw [logLoop]
  split <;> rfl

/-- Every step balances what is due: a message and a poll iteration add a wait to it, and a
sleep takes one off. -/
theorem sleptBy_add_due (w : Worker) (a : Answer) :
    sleptBy (w, a) + (w.resume a).due =
      ((if logsMessage (w, a) then 50 else 0) + if startsPoll (w, a) then 100 else 0) + w.due := by
  cases hpc : w.pc <;> simp only [sleptBy, logsMessage, startsPoll, op, hpc, resume,
    Bool.false_eq_true, if_false, if_true]
  case getInfoMethod =>
      split
      · simp [due, hpc]
      · rw [due_logLoop]
        simp [due, hpc]
  case sleepLog =>
      rw [due_logLoop]
      simp [due, hpc]
  case testRunning =>
      cases a.test <;> simp [due, hpc, goto]
  all_goals
    try split
    all_goals simp [due, hpc, goto]

/-- **The time slept** is 50 ms for each message and 100 ms for each poll iteration, but for
the wait that is due. -/
theorem slept_add_due (hrun : lts.Run start tr w) :
    slept tr + w.due = 50 * messages tr + 100 * polls tr := by
  have hbalance : totalOf sleptBy tr + w.due =
      totalOf (fun x => (if logsMessage x then 50 else 0) + if startsPoll x then 100 else 0) tr +
        start.due :=
    hrun.totalOf_add_eq Lts.along_true fun _ _ _ hstep => by
      obtain ⟨-, rfl⟩ := lts_step.mp hstep
      exact sleptBy_add_due _ _
  rw [totalOf_add, totalOf_ite, totalOf_ite] at hbalance
  exact hbalance

/-! ### Ten messages or none -/

/-- How many messages have been logged at each control point, and how often the log loop has
gone round. -/
def Rounds (n p : ℕ) (w : Worker) : Prop :=
  match w.pc with
  | .newMessage | .callInfo => n = w.i ∧ w.i < 10 ∧ p = 0
  | .deleteMessage | .sleepLog => n = w.i + 1 ∧ w.i < 10 ∧ p = 0
  | .findMinecraftClass | .getGetInstanceMethod | .getPlayerField => n = 10 ∧ p = 0
  | .testRunning | .callGetInstance | .getPlayer | .deletePlayer | .deleteMinecraft
  | .sleepPoll => n = 10
  | .detach .minecraftClass | .detach .pollingEnded => n = 10
  | .ret | .returned => n = 10 ∨ (n = 0 ∧ p = 0)
  | _ => n = 0 ∧ p = 0

/-- The head of the log loop, with one message for each round made. -/
theorem rounds_logLoop {n : ℕ} (hn : n = w.i) (hi : w.i ≤ 10) : w.logLoop.Rounds n 0 := by
  rw [logLoop]
  split
  · exact ⟨hn, by assumption, rfl⟩
  · have hdone : n = 10 := by omega
    exact ⟨hdone, rfl⟩

/-- Every step keeps the count. -/
theorem rounds_resume {n p : ℕ} (h : w.Rounds n p) :
    (w.resume a).Rounds (n + if logsMessage (w, a) then 1 else 0)
      (p + if startsPoll (w, a) then 1 else 0) := by
  cases hpc : w.pc <;> simp only [Rounds, hpc] at h <;>
    simp only [logsMessage, startsPoll, op, hpc, resume, Bool.false_eq_true, if_false, if_true,
      Nat.add_zero]
  case attach | reportAttachFailure => exact h
  case clearRunning => exact Or.inr h
  case getInfoMethod =>
      split
      · exact h
      · rw [h.2]
        exact rounds_logLoop h.1 (Nat.zero_le 10)
  case callInfo =>
      obtain ⟨hn, hi, hp⟩ := h
      exact ⟨by rw [hn]; rfl, hi, hp⟩
  case sleepLog =>
      obtain ⟨hn, hi, rfl⟩ := h
      exact rounds_logLoop hn hi
  case findMinecraftClass =>
      split
      · exact h.1
      · exact h
  case getPlayerField => exact h.1
  case testRunning => split <;> exact h
  case detach exit =>
      cases exit <;> simp_all [Rounds, goto]
  case returned => simpa only [Rounds, hpc] using h
  all_goals
    try split
    all_goals exact h

/-- What holds of the messages and polls of a run. -/
theorem rounds_of_run (hrun : lts.Run start tr w) : w.Rounds (messages tr) (polls tr) := by
  refine hrun.induct (I := fun tr w => w.Rounds (messages tr) (polls tr)) ⟨rfl, rfl⟩ ?_
  rintro tr w a w' - hI hstep
  obtain ⟨-, rfl⟩ := lts_step.mp hstep
  rw [messages, polls, List.countP_append, List.countP_append, List.countP_singleton,
    List.countP_singleton]
  exact rounds_resume hI

/-- A worker logs ten messages at most, and all ten before it polls. -/
theorem messages_of_rounds {n p : ℕ} (h : w.Rounds n p) : n ≤ 10 ∧ (0 < p → n = 10) := by
  rw [Rounds] at h
  split at h <;> omega

/-- A worker that has returned has logged ten messages or none. -/
theorem messages_of_returned {n p : ℕ} (h : w.Rounds n p) (hpc : w.pc = .returned) :
    n = 10 ∨ n = 0 := by
  rw [Rounds, hpc] at h
  omega

end Worker

/-- **Pacing.** In every run of the library a worker logs ten messages at most, and all of
them before its first poll; it has slept 50 ms for each message and 100 ms for each poll, but
for one wait of 100 ms at most; and when it has returned it has logged ten messages or none,
and slept exactly as long. -/
structure Paced (life : List (Worker × Answer)) (w : Worker) : Prop where
  messages_le : messages life ≤ 10
  messages_first : 0 < polls life → messages life = 10
  slept_le : slept life ≤ 50 * messages life + 100 * polls life
  le_slept : 50 * messages life + 100 * polls life ≤ slept life + 100
  returned : w.pc = .returned → (messages life = 10 ∨ messages life = 0) ∧
    slept life = 50 * messages life + 100 * polls life

/-- Every worker is paced, however the calls overlap and the workers interleave, and whatever
the JVM answers. -/
theorem paced_of_overlapRun {tr : List (OverlapState × ActionOf OverlapAction)}
    {s : OverlapState} {i : ℕ} {w : Worker} (hrun : OverlapRun tr s) (hi : s.threads[i]? = some w) :
    Paced (lifeOf i tr) w := by
  have hlife := run_lifeOf_overlap hrun hi
  have hrounds := Worker.rounds_of_run hlife
  have hslept := Worker.slept_add_due hlife
  have hdue := w.due_le
  obtain ⟨hten, hfirst⟩ := Worker.messages_of_rounds hrounds
  refine ⟨hten, hfirst, by omega, by omega, fun hpc => ⟨?_, ?_⟩⟩
  · exact Worker.messages_of_returned hrounds hpc
  · have hzero : w.due = 0 := by
      rw [Worker.due, hpc]
    omega

/-- A run to which the theorem applies: a worker logs ten messages, polls once and returns,
after 600 ms of sleep. -/
theorem paced_of_overlapRun_one_poll :
    ∃ tr s w, OverlapRun tr s ∧ s.threads[0]? = some w ∧ Paced (lifeOf 0 tr) w ∧
      messages (lifeOf 0 tr) = 10 ∧ polls (lifeOf 0 tr) = 1 ∧ slept (lifeOf 0 tr) = 600 := by
  obtain ⟨tr, s, hrun, ⟨w, hi, hret⟩, hmessages, hpolls⟩ := Lts.exists_run_of_exec
    (L := overlap.lts) (s := overlap.lts.init)
    (P := fun tr s => (∃ w ∈ s.threads[0]?, w.pc = .returned) ∧
      messages (lifeOf 0 tr) = 10 ∧ polls (lifeOf 0 tr) = 1)
    polledOnce (by decide)
  have hpaced := paced_of_overlapRun hrun hi
  have hslept := (hpaced.returned hret).2
  exact ⟨tr, s, w, hrun, hi, hpaced, hmessages, hpolls, by omega⟩

end Rynox
