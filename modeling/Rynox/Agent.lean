import Rynox.Entry
import Rynox.ThreadPool

/-!
# The Agent

The whole library at work: the variables of `Client`, the calls of the JVM, and all
worker threads created so far, interleaved step by step in any order and under all
answers of the JVM and of the system. It is a `ThreadPool` whose shared memory is the
client with the call in progress, whose threads are the workers, and whose controller is
the JVM calling the entry points.

Calls are made one at a time: a new one begins only when none is in progress.

What a worker does is seen as an `Event`, which carries the operation with the values
read and received; `traceOf i` is everything worker `i` did in a run.
-/

namespace Rynox

/-- What the JVM answers in one step of a worker. An attach takes `result` and `stored`,
the pointer it writes to `Client::env`, or `none` when it writes nothing; a call through
`Client::env` takes `value` and `raised`. -/
structure JvmReply where
  result : JInt := 0
  stored : Option EnvPtr := none
  value : Option ℕ := none
  raised : Bool := false
  deriving DecidableEq, Repr

/-- An operation of a worker with the values it saw. -/
inductive Event
  | attach (result : JInt) (stored : Option EnvPtr)
  | checkEnv (env : EnvPtr)
  | cerr (message : String)
  | clearRunning
  | env (env : EnvPtr) (f : EnvCall) (value : Option ℕ) (raised : Bool)
  | sleep (ms : ℕ)
  | testRunning (test : Bool)
  | detach
  | ret
  deriving DecidableEq, Repr

namespace Op

variable (c : Client) (r : JvmReply)

/-- The effect of an operation on the variables of `Client`. -/
def exec : Op → Client
  | attach => { c with env := r.stored.getD c.env }
  | clearRunning => { c with isRunning := false }
  | _ => c

/-- What the worker learns from an operation: the shared variables give the tests, the
JVM the rest. -/
def answer : Op → Answer
  | attach => { result := r.result }
  | checkEnv => { test := c.env.isSome }
  | testRunning => { test := c.isRunning }
  | env _ => { value := r.value, raised := r.raised }
  | _ => {}

/-- The operation as it is seen. -/
def event : Op → Event
  | attach => .attach r.result r.stored
  | checkEnv => .checkEnv c.env
  | cerr m => .cerr m
  | clearRunning => .clearRunning
  | env f => .env c.env f r.value r.raised
  | sleep ms => .sleep ms
  | testRunning => .testRunning c.isRunning
  | detach => .detach
  | ret => .ret

/-- At the loop test a worker learns the flag. -/
theorem answer_test {w : Worker} {o : Op} (ho : w.op = some o) (hpc : w.pc = .testRunning) :
    (o.answer c r).test = c.isRunning := by
  simp only [Worker.op, hpc, Option.some.injEq] at ho
  rw [← ho, answer]

/-- Only a loop test is seen as one. -/
theorem eq_testRunning_of_event {c : Client} {r : JvmReply} {o : Op} {b : Bool}
    (h : o.event c r = .testRunning b) : o = .testRunning ∧ c.isRunning = b := by
  cases o with
  | testRunning => exact ⟨rfl, Event.testRunning.inj h⟩
  | _ => cases h

/-- Only a call through `Client::env` is seen as one. -/
theorem eq_env_of_event {c : Client} {r : JvmReply} {o : Op} {p : EnvPtr} {f : EnvCall}
    {v : Option ℕ} {x : Bool} (h : o.event c r = .env p f v x) : o = .env f := by
  cases o with
  | env f' => rw [(Event.env.inj h).2.1]
  | _ => cases h

end Op

/-- The shared memory: the variables of `Client` and the calls in progress, in whatever
form the caller keeps them. -/
structure Agent (κ : Type) where
  client : Client := {}
  calls : κ
  deriving DecidableEq, Repr

/-- One step of a worker. -/
def Agent.work {κ : Type} (g : Agent κ) (w : Worker) (r : JvmReply) :
    Option (Agent κ × Worker) :=
  w.op.map fun o => ({ g with client := o.exec g.client r }, w.resume (o.answer g.client r))

/-- A step on the side of the JVM: it makes a call, or the call in progress moves. -/
inductive EntryAction
  | call (f : Call)
  | step (r : OsReply)
  deriving DecidableEq, Repr

/-- Serialized calls: at most one is in progress. -/
def serialized (g : Agent (Option Entry)) :
    EntryAction → Option (Agent (Option Entry) × Option Worker)
  | .call f =>
      match g.calls with
      | none => some (⟨(f.enter g.client).1, some (f.enter g.client).2⟩, none)
      | some _ => none
  | .step r =>
      match g.calls with
      | none => none
      | some e =>
          some (⟨e.op.exec g.client r, e.resume g.client r⟩, e.op.spawn r)

/-- The library over a given way for the JVM to make its calls: the steps of the calls
interleaved with the steps of all workers. -/
def agentOf {κ α : Type} (calls : κ)
    (controller : Agent κ → α → Option (Agent κ × Option Worker)) :
    ThreadPool (Agent κ) Worker α JvmReply where
  start := { calls := calls }
  controller := controller
  thread := Agent.work

/-- The agent: serialized calls interleaved with the steps of all workers. -/
def agent : ThreadPool (Agent (Option Entry)) Worker EntryAction JvmReply :=
  agentOf none serialized

/-- A state of the library when calls are kept as a `κ`. -/
abbrev StateOf (κ : Type) := ThreadPool.State (Agent κ) Worker

/-- A step of the library when the controller takes the steps `α`. -/
abbrev ActionOf (α : Type) := ThreadPool.Action α JvmReply

/-- A state of the agent. -/
abbrev State := StateOf (Option Entry)

/-- A step of the agent. -/
abbrev Action := ActionOf EntryAction

/-- `AgentRun tr s`: the transitions `tr` lead the agent from its start to `s`. -/
abbrev AgentRun (tr : List (State × Action)) (s : State) : Prop :=
  agent.lts.Run agent.lts.init tr s

/-- A whole call of `Agent_OnLoad` or `Agent_OnAttach` that creates a worker, in one go. -/
def createdBy (f : Call) : List Action :=
  .controller (.call f) :: List.replicate 6 (.controller (.step {}))

/-- A whole call of `Agent_OnUnload` that clears the flag, in one go. -/
def stoppedBy (vm : ℕ) : List Action :=
  .controller (.call (.onUnload vm)) :: List.replicate 3 (.controller (.step {}))

/-- Worker `i` makes `n` steps in which everything succeeds: it attaches with the pointer
`p` and finds what it looks up. -/
def drivenBy (p i n : ℕ) : List Action :=
  List.replicate n (.thread i { stored := some (some p), value := some 1 })

/-- A decidable property of an evaluated schedule is a property of some run. -/
theorem exists_agentRun {P : List (State × Action) → State → Prop} [∀ tr s, Decidable (P tr s)]
    (as : List Action)
    (h : (agent.lts.exec agent.lts.init as).any (fun x => decide (P x.1 x.2)) = true) :
    ∃ tr s, AgentRun tr s ∧ P tr s :=
  Lts.exists_run_of_exec as h

section Observations

variable {κ α : Type}

/-- The worker that moves in a transition, and what it does. -/
def moved : StateOf κ × ActionOf α → Option (ℕ × Event)
  | (s, .thread i r) =>
      s.threads[i]?.bind fun w => w.op.map fun o => (i, o.event s.shared.client r)
  | (_, .controller _) => none

/-- Who moves is a worker that stands at the operation it is seen to do. -/
theorem exists_op_of_moved {s : StateOf κ} {a : ActionOf α} {i : ℕ} {e : Event}
    (h : moved (s, a) = some (i, e)) :
    ∃ r w o, a = .thread i r ∧ s.threads[i]? = some w ∧ w.op = some o ∧
      o.event s.shared.client r = e := by
  cases a with
  | controller a => cases h
  | thread j r =>
      obtain ⟨w, hj, hw⟩ := Option.bind_eq_some_iff.mp h
      obtain ⟨o, ho, hevent⟩ := Option.map_eq_some_iff.mp hw
      obtain ⟨rfl, rfl⟩ := Prod.mk.inj hevent
      exact ⟨r, w, o, rfl, hj, ho, rfl⟩

/-- A worker that moves is seen to do its next operation. -/
theorem exists_op_of_moved_thread {s : StateOf κ} {i j : ℕ} {r : JvmReply} {w : Worker}
    {e : Event} (hi : s.threads[i]? = some w)
    (h : moved ((s, .thread i r) : StateOf κ × ActionOf α) = some (j, e)) :
    ∃ o, w.op = some o ∧ o.event s.shared.client r = e := by
  obtain ⟨r', u, o, ha, hj, ho, hevent⟩ := exists_op_of_moved h
  obtain ⟨rfl, rfl⟩ := ThreadPool.Action.thread.inj ha
  obtain rfl : w = u := Option.some.inj (hi.symm.trans hj)
  exact ⟨o, ho, hevent⟩

/-- What worker `i` does in a transition, if it is the one to move. -/
def workerEvent (i : ℕ) (x : StateOf κ × ActionOf α) : Option Event :=
  (moved x).bind fun m => if m.1 = i then some m.2 else none

/-- Everything worker `i` did in a run, oldest first. -/
def traceOf (i : ℕ) (tr : List (StateOf κ × ActionOf α)) : List Event :=
  Lts.observe (workerEvent i) tr

/-- Nobody has done anything at the start. -/
@[simp] theorem traceOf_nil (i : ℕ) : traceOf i ([] : List (StateOf κ × ActionOf α)) = [] := rfl

/-- The trace grows by what the worker does in the last transition. -/
theorem traceOf_snoc (i : ℕ) (tr : List (StateOf κ × ActionOf α)) (x : StateOf κ × ActionOf α) :
    traceOf i (tr ++ [x]) = traceOf i tr ++ (workerEvent i x).toList := by
  simp only [traceOf, Lts.observe_append, Lts.observe_singleton]

/-- A step on the side of the JVM moves no worker. -/
@[simp] theorem moved_controller (s : StateOf κ) (a : α) : moved (s, .controller a) = none := rfl

/-- What a worker did is what it was seen to do in some transition. -/
theorem mem_traceOf {i : ℕ} {tr : List (StateOf κ × ActionOf α)} {e : Event} :
    e ∈ traceOf i tr ↔ ∃ x ∈ tr, moved x = some (i, e) := by
  simp only [traceOf, Lts.observe, List.mem_filterMap, workerEvent, Option.bind_eq_some_iff]
  constructor
  · rintro ⟨x, hx, ⟨j, e'⟩, hm, he⟩
    split at he
    · rename_i hji
      obtain rfl : j = i := hji
      obtain rfl : e' = e := Option.some.inj he
      exact ⟨x, hx, hm⟩
    · cases he
  · rintro ⟨x, hx, hm⟩
    exact ⟨x, hx, (i, e), hm, by simp⟩

/-- A step that is nobody's leaves every trace as it is. -/
theorem traceOf_snoc_of_none {x : StateOf κ × ActionOf α} (h : moved x = none) (i : ℕ)
    (tr : List (StateOf κ × ActionOf α)) : traceOf i (tr ++ [x]) = traceOf i tr := by
  simp [traceOf_snoc, workerEvent, h]

/-- A step of worker `i` appends what it does to the trace of `i`. -/
theorem traceOf_snoc_self {x : StateOf κ × ActionOf α} {i : ℕ} {e : Event}
    (h : moved x = some (i, e)) (tr : List (StateOf κ × ActionOf α)) :
    traceOf i (tr ++ [x]) = traceOf i tr ++ [e] := by
  simp [traceOf_snoc, workerEvent, h]

/-- A step of worker `i` leaves every other trace as it is. -/
theorem traceOf_snoc_ne {x : StateOf κ × ActionOf α} {i j : ℕ} {e : Event}
    (h : moved x = some (i, e)) (hne : j ≠ i) (tr : List (StateOf κ × ActionOf α)) :
    traceOf j (tr ++ [x]) = traceOf j tr := by
  simp [traceOf_snoc, workerEvent, h, hne.symm]

/-- Runs in which the same workers move in the same way have the same traces. -/
theorem traceOf_eq_of_observe {κ' α' : Type} {tr : List (StateOf κ × ActionOf α)}
    {tr' : List (StateOf κ' × ActionOf α')} (h : Lts.observe moved tr' = Lts.observe moved tr)
    {i : ℕ} : traceOf i tr' = traceOf i tr := by
  have hpick : ∀ {κ α : Type} (tr : List (StateOf κ × ActionOf α)), traceOf i tr =
      (Lts.observe moved tr).filterMap fun m => if m.1 = i then some m.2 else none := by
    intro κ α tr
    simp only [traceOf, Lts.observe, List.filterMap_filterMap]
    rfl
  rw [hpick tr, hpick tr', h]

end Observations

/-! ### What the JVM promises -/

/-- A successful attach stores a pointer that is not null, and a failed one stores
nothing. -/
def Event.Lawful : Event → Prop
  | attach result (some (some _)) => result = jniOk
  | attach _ (some none) => False
  | attach result none => result ≠ jniOk
  | _ => True

instance : DecidablePred Event.Lawful
  | .attach result (some (some _)) => inferInstanceAs (Decidable (result = jniOk))
  | .attach _ (some none) => inferInstanceAs (Decidable False)
  | .attach result none => inferInstanceAs (Decidable (result ≠ jniOk))
  | .checkEnv _ | .cerr _ | .clearRunning | .env _ _ _ _ | .sleep _ | .testRunning _ | .detach
  | .ret => inferInstanceAs (Decidable True)

/-- A lawful attach that succeeds stores a pointer. -/
theorem Event.Lawful.stored_of_ok {result : JInt} {stored : Option EnvPtr}
    (h : (Event.attach result stored).Lawful) (hok : result = jniOk) :
    ∃ p, stored = some (some p) := by
  match stored with
  | none => exact absurd hok h
  | some none => exact h.elim
  | some (some p) => exact ⟨p, rfl⟩

/-- The JVM keeps to its part in the step. -/
def JvmLawful {κ α : Type} (s : StateOf κ) (a : ActionOf α) : Prop :=
  ∀ m ∈ moved (s, a), m.2.Lawful

instance {κ α : Type} (s : StateOf κ) (a : ActionOf α) : Decidable (JvmLawful s a) :=
  inferInstanceAs (Decidable (∀ m ∈ moved (s, a), m.2.Lawful))

/-- Whether the JVM keeps to its part shows in what the workers do. -/
theorem along_jvmLawful_iff {κ α : Type} {tr : List (StateOf κ × ActionOf α)} :
    Lts.Along JvmLawful tr ↔ ∀ m ∈ Lts.observe moved tr, m.2.Lawful := by
  simp only [Lts.Along, JvmLawful, Lts.observe, List.mem_filterMap, Option.mem_def]
  constructor
  · rintro h m ⟨x, hx, hm⟩
    exact h x hx m hm
  · intro h x hx m hm
    exact h m ⟨x, hx, hm⟩

end Rynox
