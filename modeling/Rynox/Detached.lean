import Mathlib.Data.List.Perm.Basic
import Rynox.Overlap
import Rynox.Resources

/-!
# Every Thread Is Detached Once

A thread that `pthread_create` has made keeps its stack and its name until it is detached.
`initializeRynoxClient` detaches the thread that it reads from `Client::clientThread`, which is
the one it created itself as long as nobody writes there in between. Calls that are made one
at a time never do, so every thread is detached exactly once, before the call that created it
returns (`detached_of_run`).

Overlapping calls may. If a thread is created while another call stands between its
`pthread_create` and its read of the variable, both calls read the same thread and detach it
twice, which `pthread_detach` does not allow, and another thread is never detached. A
`pthread_create` that fails may do the same harm, since what it leaves in the variable is up to
the system. If that does not happen while a call is about to read it, the race between the
creations is the only way to go wrong (`detached_iff`).
-/

namespace Rynox

/-- What the step of a call does with threads: `pthread_create` hands out the name of one,
and `pthread_detach` gives back the one it is called with. -/
def Entry.threadAccess (e : Entry) (r : OsReply) : Option (Access (Option ℕ)) :=
  match e.op with
  | .createThread => if r.code = 0 then some (.acquire (some r.thread)) else none
  | .detachThread thread => some (.release thread)
  | _ => none

/-- The thread that a call in progress is going to detach, as things stand: the one it has
read, or the one it finds in `Client::clientThread` if it is about to read it. -/
def Entry.owes (c : Client) : Entry → Option (Option ℕ)
  | init .readThread => some c.clientThread
  | init (.detachThread thread) => some thread
  | _ => none

/-- The threads that the calls in progress are going to detach, as things stand. -/
def owedThreads (c : Client) (calls : List Entry) : List (Option ℕ) :=
  calls.filterMap (Entry.owes c)

/-- If the step of the call creates a thread, none of the calls is about to read
`Client::clientThread`. -/
def Entry.CreatesAlone (e : Entry) (r : OsReply) (calls : List Entry) : Prop :=
  e = .init .createThread → r.code = 0 → .init .readThread ∉ calls

/-- If the step of the call is a failed `pthread_create` that writes to `Client::clientThread`
all the same, none of the calls is about to read it. -/
def Entry.SpoilsAlone (e : Entry) (r : OsReply) (calls : List Entry) : Prop :=
  e = .init .createThread → r.code ≠ 0 → r.spoiled ≠ none → .init .readThread ∉ calls

instance (e : Entry) (r : OsReply) (calls : List Entry) : Decidable (e.CreatesAlone r calls) :=
  inferInstanceAs (Decidable (_ → _ → _))

instance (e : Entry) (r : OsReply) (calls : List Entry) : Decidable (e.SpoilsAlone r calls) :=
  inferInstanceAs (Decidable (_ → _ → _ → _))

section Owed

variable {c c' : Client} {calls others : List Entry}

/-- What is owed changes with `Client::clientThread` only if a call is about to read it. -/
theorem owedThreads_congr
    (h : c'.clientThread = c.clientThread ∨ .init .readThread ∉ calls) :
    owedThreads c' calls = owedThreads c calls := by
  refine List.filterMap_congr fun e he => ?_
  rcases e with pc | pc
  · cases pc with
    | readThread => rw [Entry.owes, Entry.owes, h.resolve_right (not_not.mpr he)]
    | _ => rfl
  · rfl

/-- How many threads are owed does not depend on which. -/
theorem length_owedThreads (c c' : Client) (calls : List Entry) :
    (owedThreads c' calls).length = (owedThreads c calls).length := by
  rw [owedThreads, owedThreads, List.length_filterMap_eq_countP, List.length_filterMap_eq_countP]
  refine List.countP_congr fun e _ => ?_
  rcases e with pc | pc
  · cases pc <;> rfl
  · rfl

/-- A call that is about to read `Client::clientThread` owes what it finds there. -/
theorem mem_owedThreads (h : .init .readThread ∈ calls) :
    c.clientThread ∈ owedThreads c calls :=
  List.mem_filterMap.mpr ⟨_, h, rfl⟩

/-- Of a call and the others, what each owes. -/
theorem owedThreads_append (o : Option Entry) :
    owedThreads c (o.toList ++ calls) = (o.bind (Entry.owes c)).toList ++ owedThreads c calls := by
  rw [owedThreads, List.filterMap_append]
  cases o with
  | none => rfl
  | some e => cases h : e.owes c <;> simp [owedThreads, h]

/-- A step that is no access to a thread: what the call owes does not change. -/
theorem Entry.debtStep_silent {e : Entry} {o : Option Entry} {r : OsReply}
    (hne : e ≠ .init .createThread) (hthread : c'.clientThread = c.clientThread)
    (howes : o.bind (Entry.owes c') = e.owes c) :
    DebtStep (owedThreads c (e :: others)) (owedThreads c' (o.toList ++ others))
      (e.SpoilsAlone r others) (e.CreatesAlone r others) none := by
  have hsame : owedThreads c' (o.toList ++ others) = owedThreads c (e :: others) := by
    rw [owedThreads_append, howes, owedThreads_congr (Or.inl hthread)]
    exact (owedThreads_append (some e)).symm
  exact .silent (fun _ => by rw [hsame]) (by rw [hsame]) fun he => absurd he hne

/-- `pthread_create`: the call owes the thread it has created, and so does every other that is
about to read `Client::clientThread`. If it fails, the others may find another name there. -/
theorem Entry.debtStep_createThread (c : Client) (r : OsReply) (others : List Entry) :
    DebtStep (owedThreads c (.init .createThread :: others))
      (owedThreads (EntryOp.createThread.exec c r)
        ((Entry.resume c r (.init .createThread)).toList ++ others))
      ((Entry.init .createThread).SpoilsAlone r others)
      ((Entry.init .createThread).CreatesAlone r others)
      ((Entry.init .createThread).threadAccess r) := by
  by_cases hcode : r.code = 0
  · simp only [EntryOp.exec, resume, threadAccess, op, hcode, ne_eq, not_true_eq_false, if_false,
      if_true]
    refine .acquire (some r.thread) (fun halone => ?_) (fun hrace => ?_) ?_
    · have hothers : owedThreads { c with clientThread := some r.thread } others =
          owedThreads c others := owedThreads_congr (Or.inr (halone rfl hcode))
      exact .of_eq (congrArg (some r.thread :: ·) hothers)
    · have hreads : .init .readThread ∈ others := by
        simpa [CreatesAlone, hcode] using hrace
      exact fun hnodup => (List.nodup_cons.mp hnodup).1 (mem_owedThreads hreads)
    · exact congrArg (· + 1) (length_owedThreads _ _ others)
  · simp only [EntryOp.exec, resume, threadAccess, op, hcode, ne_eq, not_false_eq_true, if_false,
      if_true]
    refine .silent (fun hquiet => ?_) (length_owedThreads _ _ others)
      fun _ hzero => absurd hzero hcode
    have hothers : owedThreads { c with clientThread := r.spoiled.or c.clientThread } others =
        owedThreads c others := by
      refine owedThreads_congr ?_
      cases hspoiled : r.spoiled with
      | none => exact Or.inl rfl
      | some t => exact Or.inr (hquiet rfl hcode (by simp [hspoiled]))
    exact .of_eq hothers

/-- What a step of a call does with the threads, whatever the other calls are. -/
theorem Entry.debtStep (e : Entry) (c : Client) (r : OsReply) (others : List Entry) :
    DebtStep (owedThreads c (e :: others))
      (owedThreads (e.op.exec c r) ((e.resume c r).toList ++ others))
      (e.SpoilsAlone r others) (e.CreatesAlone r others) (e.threadAccess r) := by
  rcases e with pc | pc
  · cases pc with
    | createThread => exact Entry.debtStep_createThread c r others
    | detachThread thread => exact .release thread (.refl _) (by simp [CreatesAlone])
    | testRunning =>
        refine Entry.debtStep_silent (by simp) rfl ?_
        rw [resume]
        split <;> rfl
    | setRunning | reportFailure | resetRunning | readThread | ret =>
        exact Entry.debtStep_silent (by simp) rfl rfl
  · cases pc <;> exact Entry.debtStep_silent (by simp) rfl rfl

end Owed

/-- No worker touches `Client::clientThread`. -/
theorem Op.exec_clientThread (o : Op) (c : Client) (r : JvmReply) :
    (o.exec c r).clientThread = c.clientThread := by
  cases o <;> rfl

/-- Making a call does not touch `Client::clientThread`. -/
theorem enter_clientThread (f : Call) (c : Client) :
    (f.enter c).1.clientThread = c.clientThread := by
  cases f <;> rfl

/-- A call that has just been made owes no thread yet. -/
theorem owes_enter (f : Call) (c : Client) : (f.enter c).2.owes (f.enter c).1 = none := by
  cases f <;> rfl

/-! ### Calls one at a time -/

/-- What a transition does with the threads, under serialized calls. -/
def threadAccess : State × Action → Option (Access (Option ℕ))
  | (s, .controller (.step r)) => s.shared.calls.bind fun e => e.threadAccess r
  | _ => none

/-- The threads created and detached in a run. -/
def threadLedger (tr : List (State × Action)) : List (Access (Option ℕ)) :=
  Lts.observe threadAccess tr

/-- What a step of the agent does with the threads. There is no other call to notice. -/
theorem agent_debtStep (s : State) (a : Action) (t : State) (hstep : agent.lts.step s a = some t) :
    DebtStep (owedThreads s.shared.client s.shared.calls.toList)
      (owedThreads t.shared.client t.shared.calls.toList) True True (threadAccess (s, a)) := by
  cases a with
  | thread i r =>
      obtain ⟨w, o, hi, ho, rfl⟩ := step_worker.mp hstep
      have hsame : owedThreads (o.exec s.shared.client r) s.shared.calls.toList =
          owedThreads s.shared.client s.shared.calls.toList :=
        owedThreads_congr (Or.inl (o.exec_clientThread s.shared.client r))
      exact .silent (fun _ => .of_eq hsame) (congrArg List.length hsame) trivial
  | controller x =>
      obtain ⟨g, o, hx, rfl⟩ := ThreadPool.step_controller.mp hstep
      obtain ⟨⟨c, k⟩, ts⟩ := s
      cases x with
      | call f =>
          cases k with
          | some e => simp [agent, agentOf, serialized] at hx
          | none =>
              simp only [agent, agentOf, serialized, Option.some.injEq, Prod.mk.injEq] at hx
              obtain ⟨rfl, rfl⟩ := hx
              have hnone : owedThreads (f.enter c).1 [(f.enter c).2] = [] :=
                List.filterMap_cons_none (owes_enter f c)
              exact .silent (fun _ => .of_eq hnone) (congrArg List.length hnone) trivial
      | step r =>
          cases k with
          | none => simp [agent, agentOf, serialized] at hx
          | some e =>
              simp only [agent, agentOf, serialized, Option.some.injEq, Prod.mk.injEq] at hx
              obtain ⟨rfl, rfl⟩ := hx
              have hstep := e.debtStep c r []
              rw [List.append_nil] at hstep
              exact hstep.congr (by simp [Entry.SpoilsAlone]) (by simp [Entry.CreatesAlone])

/-- **Every thread is detached once.** When calls are made one at a time, every
`pthread_detach` is of a thread that was created and not yet detached; and no thread waits to
be detached but the one that the call in progress is about to detach. -/
theorem detached_of_run {tr : List (State × Action)} {s : State} (hrun : AgentRun tr s) :
    Lts.Historically Resources.Live (threadLedger tr) ∧
      Resources.held (threadLedger tr) =
        (s.shared.calls.bind (Entry.owes s.shared.client)).toList := by
  obtain ⟨hlive, hperm⟩ := Resources.settled_of_run agent_debtStep hrun rfl Lts.along_true
    Lts.along_true
  refine ⟨hlive, ?_⟩
  have howed : owedThreads s.shared.client s.shared.calls.toList =
      (s.shared.calls.bind (Entry.owes s.shared.client)).toList := by
    rw [← List.append_nil s.shared.calls.toList, owedThreads_append, owedThreads,
      List.filterMap_nil, List.append_nil]
  rw [howed] at hperm
  cases hcalls : s.shared.calls.bind (Entry.owes s.shared.client) with
  | none =>
      rw [hcalls] at hperm
      exact hperm.symm.eq_nil
  | some th =>
      rw [hcalls] at hperm
      exact hperm.symm.eq_singleton

/-- A run to which the theorem applies: two threads are created, and the second is not yet
detached. -/
theorem detached_of_run_two_threads :
    ∃ tr s, AgentRun tr s ∧ s.threads.length = 2 ∧
      Resources.held (threadLedger tr) = [some 9] := by
  obtain ⟨tr, s, hrun, hlength, howes⟩ := exists_agentRun
    (P := fun _ s => s.threads.length = 2 ∧
      s.shared.calls.bind (Entry.owes s.shared.client) = some (some 9))
    (createdBy (.onLoad 0) ++ stoppedBy 0 ++
      [.controller (.call (.onAttach 0)), .controller (.step {}), .controller (.step {}),
        .controller (.step { thread := 9 })]) (by decide)
  obtain ⟨-, hheld⟩ := detached_of_run hrun
  rw [howes] at hheld
  exact ⟨tr, s, hrun, hlength, hheld⟩

/-! ### Overlapping calls -/

/-- What a transition does with the threads, under overlapping calls. -/
def overlapThreadAccess : OverlapState × ActionOf OverlapAction → Option (Access (Option ℕ))
  | (s, .controller (.step k r)) => s.shared.calls[k]?.bind fun e => e.threadAccess r
  | _ => none

/-- The threads created and detached in a run under overlapping calls. -/
def overlapThreadLedger (tr : List (OverlapState × ActionOf OverlapAction)) :
    List (Access (Option ℕ)) :=
  Lts.observe overlapThreadAccess tr

/-- If the step creates a thread, no other call stands between its `pthread_create` and its
read of `Client::clientThread`. -/
def CreatesAlone (s : OverlapState) : ActionOf OverlapAction → Prop
  | .controller (.step k r) =>
      ∀ e ∈ s.shared.calls[k]?, e.CreatesAlone r (s.shared.calls.eraseIdx k)
  | _ => True

/-- If the step is a failed `pthread_create` that writes to `Client::clientThread` all the
same, no other call stands between its `pthread_create` and its read of the variable. -/
def SpoilsAlone (s : OverlapState) : ActionOf OverlapAction → Prop
  | .controller (.step k r) =>
      ∀ e ∈ s.shared.calls[k]?, e.SpoilsAlone r (s.shared.calls.eraseIdx k)
  | _ => True

instance (s : OverlapState) : (a : ActionOf OverlapAction) → Decidable (CreatesAlone s a)
  | .controller (.step k r) =>
      inferInstanceAs (Decidable (∀ e ∈ s.shared.calls[k]?, e.CreatesAlone r _))
  | .controller (.call _) => inferInstanceAs (Decidable True)
  | .thread _ _ => inferInstanceAs (Decidable True)

instance (s : OverlapState) : (a : ActionOf OverlapAction) → Decidable (SpoilsAlone s a)
  | .controller (.step k r) =>
      inferInstanceAs (Decidable (∀ e ∈ s.shared.calls[k]?, e.SpoilsAlone r _))
  | .controller (.call _) => inferInstanceAs (Decidable True)
  | .thread _ _ => inferInstanceAs (Decidable True)

/-- What a step does with the threads, under overlapping calls. -/
theorem overlap_debtStep (s : OverlapState) (a : ActionOf OverlapAction) (t : OverlapState)
    (hstep : overlap.lts.step s a = some t) :
    DebtStep (owedThreads s.shared.client s.shared.calls)
      (owedThreads t.shared.client t.shared.calls) (SpoilsAlone s a) (CreatesAlone s a)
      (overlapThreadAccess (s, a)) := by
  cases a with
  | thread i r =>
      obtain ⟨w, o, hi, ho, rfl⟩ := step_worker.mp hstep
      have hsame : owedThreads (o.exec s.shared.client r) s.shared.calls =
          owedThreads s.shared.client s.shared.calls :=
        owedThreads_congr (Or.inl (o.exec_clientThread s.shared.client r))
      exact .silent (fun _ => .of_eq hsame) (congrArg List.length hsame) trivial
  | controller x =>
      cases x with
      | call f =>
          obtain rfl := step_overlapEnter.mp hstep
          have hsame : owedThreads (f.enter s.shared.client).1
              (s.shared.calls ++ [(f.enter s.shared.client).2]) =
              owedThreads s.shared.client s.shared.calls := by
            rw [owedThreads, List.filterMap_append, List.filterMap_cons_none (owes_enter _ _),
              List.filterMap_nil, List.append_nil]
            exact owedThreads_congr (Or.inl (enter_clientThread f s.shared.client))
          exact .silent (fun _ => .of_eq hsame) (congrArg List.length hsame) trivial
      | step k r =>
          obtain ⟨e, he, rfl⟩ := step_overlapCall.mp hstep
          obtain ⟨hlt, hk⟩ := List.getElem?_eq_some_iff.mp he
          have haccess : overlapThreadAccess (s, .controller (.step k r)) = e.threadAccess r := by
            simp [overlapThreadAccess, he]
          have hbefore : s.shared.calls.Perm (e :: s.shared.calls.eraseIdx k) := by
            rw [← hk]
            exact (List.getElem_cons_eraseIdx_perm hlt).symm
          have hafter : ((e.resume s.shared.client r).elim (s.shared.calls.eraseIdx k)
              (s.shared.calls.set k)).Perm
              ((e.resume s.shared.client r).toList ++ s.shared.calls.eraseIdx k) := by
            cases e.resume s.shared.client r with
            | none => exact .refl _
            | some e' => exact List.set_perm_cons_eraseIdx hlt e'
          rw [haccess]
          refine ((e.debtStep s.shared.client r (s.shared.calls.eraseIdx k)).perm
            (hbefore.filterMap _) (hafter.filterMap _)).congr ?_ ?_
          · simp [SpoilsAlone, he]
          · simp [CreatesAlone, he]

/-- **When overlapping calls detach as they should.** Let every thread get a name that no
thread has that is not yet detached, and let all calls have returned. Then every
`pthread_detach` was of a thread created and not yet detached exactly if no thread is left that
was never detached. And if no failed `pthread_create` has written to `Client::clientThread`
while another call stood between its `pthread_create` and its read of the variable, this is so
exactly if no thread was created then either. -/
theorem detached_iff {tr : List (OverlapState × ActionOf OverlapAction)} {s : OverlapState}
    (hrun : OverlapRun tr s) (hfresh : Lts.Historically Resources.Fresh (overlapThreadLedger tr))
    (hreturned : s.shared.calls = []) :
    (Lts.Historically Resources.Live (overlapThreadLedger tr) ↔
        Resources.held (overlapThreadLedger tr) = []) ∧
      (Lts.Along SpoilsAlone tr →
        (Lts.Historically Resources.Live (overlapThreadLedger tr) ↔
          Lts.Along CreatesAlone tr)) :=
  Resources.live_iff_of_run overlap_debtStep hrun rfl (by rw [hreturned]; rfl) hfresh

/-- A run to which the theorem applies: two starts pass the guard together and create a
thread each, and one of the threads is detached twice. -/
theorem detached_iff_two_starts :
    ∃ tr s, OverlapRun tr s ∧ s.shared.calls = [] ∧ Lts.Along SpoilsAlone tr ∧
      ¬ Lts.Along CreatesAlone tr ∧
      ¬ Lts.Historically Resources.Live (overlapThreadLedger tr) ∧
      Resources.held (overlapThreadLedger tr) ≠ [] := by
  obtain ⟨tr, s, hrun, hfresh, hreturned, hspoils, halone⟩ := Lts.exists_run_of_exec
    (L := overlap.lts) (s := overlap.lts.init)
    (P := fun tr s => Lts.Historically Resources.Fresh (overlapThreadLedger tr) ∧
      s.shared.calls = [] ∧ Lts.Along SpoilsAlone tr ∧ ¬ Lts.Along CreatesAlone tr)
    ([.controller (.call (.onLoad 0)), .controller (.call (.onAttach 0)),
      .controller (.step 0 {}), .controller (.step 1 {}),
      .controller (.step 0 {}), .controller (.step 1 {}),
      .controller (.step 0 { thread := 8 }), .controller (.step 1 { thread := 9 }),
      .controller (.step 0 {}), .controller (.step 1 {}),
      .controller (.step 0 {}), .controller (.step 1 {}),
      .controller (.step 0 {}), .controller (.step 0 {})]) (by decide)
  obtain ⟨hheld, hlive⟩ := detached_iff hrun hfresh hreturned
  have hwrong := mt (hlive hspoils).mp halone
  exact ⟨tr, s, hrun, hreturned, hspoils, halone, hwrong, mt hheld.mpr hwrong⟩

/-- The proviso is needed: one start creates a thread, another fails to and leaves some other
name in `Client::clientThread`, and that is what the first one detaches. -/
theorem not_live_of_createsAlone :
    ∃ tr s, OverlapRun tr s ∧ Lts.Historically Resources.Fresh (overlapThreadLedger tr) ∧
      s.shared.calls = [] ∧ Lts.Along CreatesAlone tr ∧
      ¬ Lts.Historically Resources.Live (overlapThreadLedger tr) :=
  Lts.exists_run_of_exec
    ([.controller (.call (.onLoad 0)), .controller (.call (.onAttach 0)),
      .controller (.step 0 {}), .controller (.step 1 {}),
      .controller (.step 0 {}), .controller (.step 1 {}),
      .controller (.step 0 { thread := 8 }),
      .controller (.step 1 { code := 11, spoiled := some 9 }),
      .controller (.step 0 {}), .controller (.step 0 {}), .controller (.step 0 {}),
      .controller (.step 0 {}), .controller (.step 0 {}), .controller (.step 0 {})]) (by decide)

end Rynox
