import Rynox.Creation
import Rynox.Work

/-!
# Overlapping Starts

The guard of `initializeRynoxClient` tests the flag in one step and sets it in another, so
starts that overlap may all pass it. A start creates one worker at most, and that is all
that can be said: for every `n` there is a run with `n` starts and nothing else that leaves
`n` workers. With calls made one at a time, starts alone never leave more than one
(`created_le_starts`).

What overlapping starts cannot do is to let a worker run without a JVM: `Client::jvm` is what
the latest store `Client::jvm = vm` has left there, and no worker comes before the first
(`jvm_of_overlapRun`).
-/

namespace Rynox

/-- How many workers a call in progress may still create. -/
def Entry.mayCreate : Entry → ℕ
  | init .testRunning | init .setRunning | init .createThread => 1
  | _ => 0

/-- A call in progress creates a worker only where it may, and then no other. -/
theorem Entry.mayCreate_resume_le (e : Entry) (c : Client) (r : OsReply) :
    totalOf mayCreate (e.resume c r).toList + (e.op.spawn r).toList.length ≤
      e.mayCreate := by
  rcases e with pc | pc <;> cases pc <;>
    simp only [Entry.resume, Entry.op, EntryOp.spawn, Option.toList_some, Option.toList_none,
      totalOf_cons, totalOf_nil, List.length_nil]
  case init.createThread =>
      by_cases hcode : r.code = 0
      · simp [hcode, mayCreate]
      · simp [hcode, mayCreate]
  all_goals
    try cases c.isRunning
    all_goals simp [mayCreate]

/-- The workers created and those still to be created are paid for by the starts. -/
theorem created_of_overlapRun {tr : List (OverlapState × ActionOf OverlapAction)}
    {s : OverlapState} (hrun : OverlapRun tr s) :
    s.threads.length + totalOf Entry.mayCreate s.shared.calls ≤ tr.countP isStartCall := by
  refine hrun.induct (I := fun tr s =>
    s.threads.length + totalOf Entry.mayCreate s.shared.calls ≤ tr.countP isStartCall)
    (Nat.le_refl 0) ?_
  intro tr s a t _ hI hstep
  rw [List.countP_append, List.countP_singleton]
  cases a with
  | thread i r =>
      obtain ⟨w, o, hi, ho, rfl⟩ := step_worker.mp hstep
      rw [List.length_set]
      exact Nat.le_add_right_of_le hI
  | controller x =>
      cases x with
      | call f =>
          obtain rfl := step_overlapEnter.mp hstep
          have hpaid : (f.enter s.shared.client).2.mayCreate =
              if isStartCall (s, .controller (.call f)) then 1 else 0 := by
            cases f <;> rfl
          simp only [totalOf_append, totalOf_cons, totalOf_nil]
          omega
      | step k r =>
          obtain ⟨e, he, rfl⟩ := step_overlapCall.mp hstep
          have hle := e.mayCreate_resume_le s.shared.client r
          have hcalls := totalOf_replace (m := Entry.mayCreate)
            (o := e.resume s.shared.client r) he
          simp only [List.length_append]
          omega

/-! ### Every start may create a worker -/

/-- The step is one of a start: it makes one, or a call in progress moves. -/
def StartsOnly : OverlapState → ActionOf OverlapAction → Prop
  | _, .controller (.call f) => f.starts = true
  | _, .controller (.step _ _) => True
  | _, .thread _ _ => False

/-- A run in which nothing but `n` starts is made, and no step is wasted, has led to this
state. -/
def Raced (n : ℕ) (c : Client) (calls : List Entry) (ts : List Worker) : Prop :=
  ∃ tr, OverlapRun tr ⟨⟨c, calls⟩, ts⟩ ∧ Lts.Along StartsOnly tr ∧ Lts.Along NoWaste tr ∧
    tr.countP isStartCall = n

namespace Raced

variable {n : ℕ} {c : Client} {calls : List Entry} {ts : List Worker}

/-- A further start is made. -/
theorem call (h : Raced n c calls ts) :
    Raced (n + 1) { c with jvm := some 0 } (calls ++ [initializeRynoxClient]) ts := by
  obtain ⟨tr, hrun, halong, hfull, hcount⟩ := h
  have hstep : overlap.lts.step ⟨⟨c, calls⟩, ts⟩ (.controller (.call (.onAttach 0))) =
      some ⟨⟨{ c with jvm := some 0 }, calls ++ [initializeRynoxClient]⟩, ts⟩ :=
    step_overlapEnter.mpr rfl
  refine ⟨_, hrun.snoc hstep, Lts.along_append.mpr ⟨halong, Lts.along_singleton.mpr rfl⟩,
    Lts.along_append.mpr ⟨hfull, Lts.along_singleton.mpr (noWaste_call _ _)⟩, ?_⟩
  rw [List.countP_append, hcount]
  rfl

/-- A call in progress moves, and does one step of what is left of it. -/
theorem step (h : Raced n c calls ts) {k : ℕ} {e : Entry} (r : OsReply) (he : calls[k]? = some e)
    (hone : totalOf Entry.remaining (e.resume c r).toList +
      totalOf Worker.remaining (e.op.spawn r).toList + 1 = e.remaining) :
    Raced n (e.op.exec c r) ((e.resume c r).elim (calls.eraseIdx k) (calls.set k))
      (ts ++ (e.op.spawn r).toList) := by
  obtain ⟨tr, hrun, halong, hfull, hcount⟩ := h
  have hstep : overlap.lts.step ⟨⟨c, calls⟩, ts⟩ (.controller (.step k r)) = some
      ⟨⟨e.op.exec c r, (e.resume c r).elim (calls.eraseIdx k) (calls.set k)⟩,
        ts ++ (e.op.spawn r).toList⟩ :=
    step_overlapCall.mpr ⟨e, he, rfl⟩
  refine ⟨_, hrun.snoc hstep, Lts.along_append.mpr ⟨halong, Lts.along_singleton.mpr trivial⟩,
    Lts.along_append.mpr ⟨hfull, Lts.along_singleton.mpr (noWaste_step he hone)⟩, ?_⟩
  rw [List.countP_append, hcount]
  rfl

/-- One of the calls that have passed the guard goes on, sets the flag, creates a worker and
returns. -/
theorem create (h : Raced n c (.init .setRunning :: calls) ts) :
    ∃ c' : Client, c'.isRunning = true ∧ Raced n c' calls (ts ++ [Worker.start]) := by
  have hset : Raced n { c with isRunning := true } (.init .createThread :: calls) (ts ++ []) :=
    h.step (k := 0) {} rfl rfl
  rw [List.append_nil] at hset
  have hcreated : Raced n { c with isRunning := true, clientThread := some 0 }
      (.init .readThread :: calls) (ts ++ [Worker.start]) :=
    hset.step (k := 0) {} rfl rfl
  have hread : Raced n { c with isRunning := true, clientThread := some 0 }
      (.init (.detachThread (some 0)) :: calls) ((ts ++ [Worker.start]) ++ []) :=
    hcreated.step (k := 0) {} rfl rfl
  have hdetached : Raced n { c with isRunning := true, clientThread := some 0 }
      (.init .ret :: calls) (((ts ++ [Worker.start]) ++ []) ++ []) :=
    hread.step (k := 0) {} rfl rfl
  have hreturned : Raced n { c with isRunning := true, clientThread := some 0 }
      calls ((((ts ++ [Worker.start]) ++ []) ++ []) ++ []) :=
    hdetached.step (k := 0) {} rfl rfl
  simp only [List.append_nil] at hreturned
  exact ⟨_, rfl, hreturned⟩

/-- So do all of them, one after the other. -/
theorem createAll {m : ℕ} (h : Raced n c (List.replicate m (.init .setRunning)) ts) :
    ∃ c' : Client, (c.isRunning = true ∨ m ≠ 0 → c'.isRunning = true) ∧
      Raced n c' [] (ts ++ List.replicate m Worker.start) := by
  induction m generalizing c ts with
  | zero => exact ⟨c, by simp, by simpa using h⟩
  | succ m ih =>
      obtain ⟨c', hflag, hcreated⟩ := h.create
      obtain ⟨c'', hflag', hall⟩ := ih hcreated
      refine ⟨c'', fun _ => hflag' (Or.inl hflag), ?_⟩
      rwa [List.append_assoc, List.singleton_append, ← List.replicate_succ] at hall

end Raced

/-- Any number of starts may all pass the guard before the first of them sets the flag. -/
theorem exists_raced (n : ℕ) :
    ∃ c : Client, c.isRunning = false ∧
      Raced n c (List.replicate n (.init .setRunning)) [] := by
  induction n with
  | zero => exact ⟨{}, rfl, [], .nil _, Lts.along_nil, Lts.along_nil, rfl⟩
  | succ n ih =>
      obtain ⟨c, hflag, hraced⟩ := ih
      have hpassed := hraced.call.step (k := n) (e := initializeRynoxClient) {} (by simp)
        (by simp [initializeRynoxClient, Entry.resume, Entry.op, EntryOp.spawn, hflag,
          Entry.remaining])
      refine ⟨{ c with jvm := some 0 }, hflag, ?_⟩
      simpa [initializeRynoxClient, Entry.op, Entry.resume, EntryOp.exec, EntryOp.spawn, hflag,
        List.replicate_succ'] using hpassed

/-- Then each of them creates a worker. -/
theorem exists_raced_created (n : ℕ) :
    ∃ c : Client, (n ≠ 0 → c.isRunning = true) ∧
      Raced n c [] (List.replicate n Worker.start) := by
  obtain ⟨c, -, hraced⟩ := exists_raced n
  obtain ⟨c', hflag, hall⟩ := hraced.createAll
  exact ⟨c', fun hn => hflag (Or.inr hn), hall⟩

/-! ### One start at a time -/

/-- The step is one of a start, when calls are made one at a time. -/
def SerializedStartsOnly : State → Action → Prop
  | _, .controller (.call f) => f.starts = true
  | _, .controller (.step _) => True
  | _, .thread _ _ => False

/-- While there are only starts, nobody clears the flag but a start that has failed. -/
theorem clears_eq_zero {tr : List (State × Action)} {s : State} (hrun : AgentRun tr s)
    (honly : Lts.Along SerializedStartsOnly tr) :
    clears tr = 0 ∧ ∀ pc, s.shared.calls ≠ some (.shutdown pc) := by
  refine hrun.induct_along (I := fun tr s =>
    clears tr = 0 ∧ ∀ pc, s.shared.calls ≠ some (.shutdown pc)) honly
    ⟨rfl, by simp [agent, agentOf]⟩ ?_
  rintro tr s a t - ⟨hclears, hstarts⟩ ha hstep
  have hquiet : ¬ ClearsFlag s a := by
    rintro ⟨-, hshutdown | ⟨m, hm, -⟩⟩
    · rcases a with (f | r) | ⟨i, r⟩
      · exact hshutdown
      · exact hstarts _ hshutdown
      · exact hshutdown
    · rcases a with x | ⟨i, r⟩
      · cases hm
      · exact ha
  refine ⟨by simp [hclears, hquiet], fun pc => ?_⟩
  obtain ⟨x, c, k, o, rfl, hmove, rfl⟩ | ⟨i, r, w, c, w', e, rfl, -⟩ := agent_step_cases hstep
  · generalize s.shared.calls = call at hmove hstarts
    cases hmove with
    | enter f =>
        have hf : f.starts = true := ha
        rw [f.enter_entry, if_pos hf]
        rintro ⟨⟩
    | shutdownSkips r _ | shutdownPasses r _ | clear r => exact absurd rfl (hstarts _)
    | _ => rintro ⟨⟩
  · exact ha.elim

/-- Then they create one worker at most: the account has nothing else to pay with. -/
theorem length_le_one_of_startsOnly {tr : List (State × Action)} {s : State}
    (hrun : AgentRun tr s) (honly : Lts.Along SerializedStartsOnly tr) :
    s.threads.length ≤ 1 := by
  obtain ⟨-, haccount⟩ := account_run guarded_init hrun
  have hinit : booked agent.lts.init.shared.calls agent.lts.init.threads = 0 := rfl
  have hbooked : s.threads.length ≤ booked s.shared.calls s.threads := Nat.le_add_right _ _
  have hflag := Bool.toNat_le s.shared.client.isRunning
  rw [hinit, (clears_eq_zero hrun honly).1] at haccount
  omega

/-- **Overlapping starts.** However calls overlap, a run creates at most as many workers as
it makes calls of `Agent_OnLoad` and `Agent_OnAttach`; and for every number of these there is
a run in which nothing else happens, all calls return, and each has created a worker. When
calls are made one at a time, a run in which nothing but starts happens creates at most one
worker, however many they are. -/
theorem created_le_starts :
    (∀ tr s, OverlapRun tr s → s.threads.length ≤ tr.countP isStartCall) ∧
      (∀ n, ∃ tr s, OverlapRun tr s ∧ Lts.Along StartsOnly tr ∧ tr.countP isStartCall = n ∧
        s.shared.calls = [] ∧ s.threads.length = n) ∧
      ∀ tr s, AgentRun tr s → Lts.Along SerializedStartsOnly tr → s.threads.length ≤ 1 := by
  refine ⟨fun tr s hrun => ?_, fun n => ?_, fun tr s => length_le_one_of_startsOnly⟩
  · have hpaid := created_of_overlapRun hrun
    omega
  · obtain ⟨c, -, tr, hrun, halong, -, hcount⟩ := exists_raced_created n
    exact ⟨tr, _, hrun, halong, hcount, rfl, List.length_replicate⟩

/-! ### The JVM a worker calls -/

/-- The JVM that a start stores in `Client::jvm`. -/
def jvmStored : OverlapState × ActionOf OverlapAction → Option ℕ
  | (_, .controller (.call (.onLoad vm))) | (_, .controller (.call (.onAttach vm))) => some vm
  | _ => none

/-- The JVMs that the starts of a run have stored in `Client::jvm`, oldest store first. -/
def jvmsOf (tr : List (OverlapState × ActionOf OverlapAction)) : List ℕ :=
  Lts.observe jvmStored tr

/-- A call changes `Client::jvm` only by its first step. -/
theorem EntryOp.exec_jvm (o : EntryOp) (c : Client) (r : OsReply) : (o.exec c r).jvm = c.jvm := by
  cases o with
  | createThread =>
      rw [exec]
      split <;> rfl
  | _ => rfl

/-- No worker touches `Client::jvm`. -/
theorem Op.exec_jvm (o : Op) (c : Client) (r : JvmReply) : (o.exec c r).jvm = c.jvm := by
  cases o <;> rfl

/-- `Client::jvm` is what the latest store has left there. -/
theorem jvm_eq_of_overlapRun {tr : List (OverlapState × ActionOf OverlapAction)}
    {s : OverlapState} (hrun : OverlapRun tr s) :
    s.shared.client.jvm = (jvmsOf tr).getLast? := by
  refine hrun.induct (I := fun tr s => s.shared.client.jvm = (jvmsOf tr).getLast?) rfl ?_
  intro tr s a t _ hI hstep
  have hquiet : jvmStored (s, a) = none → t.shared.client.jvm = s.shared.client.jvm →
      t.shared.client.jvm = (jvmsOf (tr ++ [(s, a)])).getLast? := by
    intro hnone hsame
    rw [jvmsOf, Lts.observe_append, Lts.observe_singleton, hnone, Option.toList_none,
      List.append_nil, hsame, hI, jvmsOf]
  cases a with
  | thread i r =>
      obtain ⟨w, o, hi, ho, rfl⟩ := step_worker.mp hstep
      exact hquiet rfl (o.exec_jvm s.shared.client r)
  | controller x =>
      cases x with
      | step k r =>
          obtain ⟨e, he, rfl⟩ := step_overlapCall.mp hstep
          exact hquiet rfl (e.op.exec_jvm s.shared.client r)
      | call f =>
          obtain rfl := step_overlapEnter.mp hstep
          cases f with
          | onUnload vm => exact hquiet rfl rfl
          | onLoad vm | onAttach vm =>
              rw [jvmsOf, Lts.observe_append, Lts.observe_singleton]
              exact List.getLast?_concat.symm

/-- Every start stores a JVM. -/
theorem length_jvmsOf (tr : List (OverlapState × ActionOf OverlapAction)) :
    (jvmsOf tr).length = tr.countP isStartCall := by
  rw [jvmsOf, Lts.observe, List.length_filterMap_eq_countP]
  refine List.countP_congr fun x _ => ?_
  obtain ⟨s, (f | ⟨k, r⟩) | ⟨i, r⟩⟩ := x
  · cases f <;> simp [jvmStored, isStartCall, Call.starts]
  · simp [jvmStored, isStartCall]
  · simp [jvmStored, isStartCall]

/-- **No worker is without a JVM.** However calls overlap, when a worker takes a step
`Client::jvm` is not null and is what the latest of the stores by `Agent_OnLoad` and
`Agent_OnAttach` has left there. So it is when the worker attaches and when it detaches. -/
theorem jvm_of_overlapRun {before after : List (OverlapState × ActionOf OverlapAction)}
    {x : OverlapState × ActionOf OverlapAction} {s : OverlapState} {i : ℕ} {e : Event}
    (hrun : OverlapRun (before ++ x :: after) s) (hmoved : moved x = some (i, e)) :
    ∃ vm, x.1.shared.client.jvm = some vm ∧ (jvmsOf before).getLast? = some vm := by
  obtain ⟨hbefore, -⟩ := hrun.split_at
  have hjvm := jvm_eq_of_overlapRun hbefore
  have hworker : 0 < x.1.threads.length := by
    obtain ⟨t, a⟩ := x
    obtain ⟨r, w, o, -, hi, -⟩ := exists_op_of_moved hmoved
    exact Nat.lt_of_le_of_lt (Nat.zero_le i) (List.getElem?_eq_some_iff.mp hi).1
  have hstarts := created_of_overlapRun hbefore
  rw [← length_jvmsOf] at hstarts
  have hne : jvmsOf before ≠ [] := List.ne_nil_of_length_pos (by omega)
  rw [hjvm]
  exact ⟨_, List.getLast?_eq_some_getLast hne, List.getLast?_eq_some_getLast hne⟩

/-- A run to which the theorem applies: a second start stores another JVM, through which the
worker of the first attaches. -/
theorem jvm_of_overlapRun_two_starts :
    ∃ before x after s i e, OverlapRun (before ++ x :: after) s ∧ moved x = some (i, e) ∧
      e = .attach jniOk (some (some 7)) ∧
      ∃ vm, x.1.shared.client.jvm = some vm ∧ (jvmsOf before).getLast? = some vm := by
  obtain ⟨tr, s, hrun, x, hx, hmoved⟩ := Lts.exists_run_of_exec
    (L := overlap.lts) (s := overlap.lts.init)
    (P := fun tr _ => ∃ x ∈ tr[8]?, moved x = some (0, .attach jniOk (some (some 7))))
    (calledAlone (.onLoad 3) 6 ++
      [.controller (.call (.onAttach 4)), .thread 0 { stored := some (some 7) }]) (by decide)
  rw [Lts.eq_take_cons_drop hx] at hrun
  exact ⟨_, x, _, s, 0, _, hrun, hmoved, rfl, jvm_of_overlapRun hrun hmoved⟩

end Rynox
