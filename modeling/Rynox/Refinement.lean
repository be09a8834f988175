import Rynox.Sessions
import Rynox.StopSignal

/-!
# When the Client Keeps the Promise of Sessions

What the client is for is a service with sessions one at a time (`Sessions.promise`): a
worker is a session, `Agent_OnLoad` and `Agent_OnAttach` start one, `Agent_OnUnload` tells
it to stop, and a poll iteration is its work. A session has finished when its worker has
taken an exit; the way from there to the return of `runClient` concerns nobody.

The client keeps that promise as long as no start sets the flag while a worker is engaged:
then every run looks like one of the service (`tracks_of_run`), so the results about the
promise hold of the client (`length_le_exits`, `poll_last`, `created_of_poll_after_stop`).
-/

namespace Rynox

/-- What a step means to the sessions. -/
def sessionAction : State × Action → Option Sessions.Action
  | (s, .controller (.step r)) =>
      if s.shared.calls = some (.init .createThread) ∧ r.code = 0 then some .start
      else if s.shared.calls = some (.shutdown .clearRunning) then some .stop
      else none
  | (_, .controller (.call _)) => none
  | (s, .thread i r) =>
      (moved ((s, .thread i r) : State × Action)).bind fun m =>
        match m.2 with
        | .testRunning test => some (if test then .work i else .finish i)
        | .clearRunning => some (.finish i)
        | .env _ _ _ _ =>
            if ∃ w ∈ s.threads[i]?, w.LookupFails r then some (.finish i) else none
        | _ => none

/-- The sessions of a run. -/
def sessionsOf (tr : List (State × Action)) : List Sessions.Action :=
  Lts.observe sessionAction tr

/-- The actions of two runs in a row. -/
theorem sessionsOf_append {tr₁ tr₂ : List (State × Action)} :
    sessionsOf (tr₁ ++ tr₂) = sessionsOf tr₁ ++ sessionsOf tr₂ :=
  Lts.observe_append sessionAction

/-- The actions of a run whose first transition is one. -/
theorem sessionsOf_cons {x : State × Action} {tr : List (State × Action)} {e : Sessions.Action}
    (hx : sessionAction x = some e) : sessionsOf (x :: tr) = e :: sessionsOf tr := by
  simp [sessionsOf, Lts.observe, hx]

/-- A poll is the work of a session. -/
theorem sessionAction_of_poll {x : State × Action} {i : ℕ}
    (hpoll : moved x = some (i, .testRunning true)) : sessionAction x = some (.work i) := by
  obtain ⟨s, a⟩ := x
  obtain ⟨r, w, o, rfl, -⟩ := exists_op_of_moved hpoll
  simp [sessionAction, hpoll]

/-- A shutdown that clears the flag is a stop. -/
theorem sessionAction_of_shutdownClears {x : State × Action} (h : ShutdownClears x.1 x.2) :
    sessionAction x = some .stop := by
  obtain ⟨s, a⟩ := x
  cases a with
  | thread i r => exact h.elim
  | controller a =>
      cases a with
      | call f => exact h.elim
      | step r =>
          have hcalls : s.shared.calls = some (.shutdown .clearRunning) := h
          simp [sessionAction, hcalls]

/-- A step that is not a quiet start sets the flag while a worker is engaged. -/
theorem not_startsQuiet_iff {s : State} {a : Action} :
    ¬ StartsQuiet s a ↔ ∃ r, a = .controller (.step r) ∧
      s.shared.calls = some (.init .setRunning) ∧ ¬ NoneOf Worker.Engaged s.threads := by
  cases a with
  | thread i r => simp [StartsQuiet]
  | controller x =>
      cases x with
      | call f => simp [StartsQuiet]
      | step r => simp [StartsQuiet]

/-- How the variables and the workers represent the state of the service: the engaged worker
is the session started last, and the flag is its stop signal. -/
structure Represents (c : Client) (ts : List Worker) (m : Sessions.State) : Prop where
  started : m.started = ts.length
  engaged : ∀ i w, ts[i]? = some w → w.Engaged →
    i + 1 = ts.length ∧ m.stage ≠ .idle ∧ (c.isRunning = true ↔ m.stage = .running)
  idle : NoneOf Worker.Engaged ts → m.stage = .idle

namespace Represents

variable {c c' : Client} {ts : List Worker} {m : Sessions.State} {i : ℕ} {w w' : Worker}

/-- The flag matters only while a worker is engaged. -/
theorem frame (h : Represents c ts m)
    (hflag : c'.isRunning = c.isRunning ∨ NoneOf Worker.Engaged ts) : Represents c' ts m := by
  refine ⟨h.started, fun i w hi hw => ?_, h.idle⟩
  rcases hflag with hflag | hnone
  · rw [hflag]
    exact h.engaged i w hi hw
  · exact absurd hw (hnone.not_of_getElem? hi)

/-- When nobody is engaged and the flag is true, a new worker is a new session. -/
theorem start (h : Represents c ts m) (hnone : NoneOf Worker.Engaged ts)
    (hflag : c'.isRunning = true) :
    ∃ m', Sessions.promise.next m .start = some m' ∧
      Represents c' (ts ++ [Worker.start]) m' := by
  refine ⟨_, Sessions.next_start.mpr ⟨h.idle hnone, rfl⟩, ⟨?_, fun i w hi hw => ?_, ?_⟩⟩
  · simp [h.started]
  · rcases ThreadPool.getElem?_spawn (o := some Worker.start).mp hi with hi | ⟨rfl, -⟩
    · exact absurd hw (hnone.not_of_getElem? hi)
    · simp [hflag]
  · intro hnone'
    exact absurd trivial (hnone' Worker.start (by simp))

/-- Clearing the flag tells the session to stop. -/
theorem stop (h : Represents c ts m) (hflag : c'.isRunning = false) :
    ∃ m', Sessions.promise.next m .stop = some m' ∧ Represents c' ts m' := by
  refine ⟨_, Sessions.next_stop.mpr rfl, ⟨h.started, fun i w hi hw => ?_, fun hnone => ?_⟩⟩
  · obtain ⟨hlast, hbusy, -⟩ := h.engaged i w hi hw
    refine ⟨hlast, ?_, ?_⟩ <;> cases hstage : m.stage <;> simp_all
  · simp [h.idle hnone]

/-- An engaged worker that finds the flag true is the session that works. -/
theorem work (h : Represents c ts m) (hi : ts[i]? = some w) (hw : w.Engaged)
    (hflag : c.isRunning = true) : Sessions.promise.next m (.work i) = some m := by
  obtain ⟨hlast, -, hrunning⟩ := h.engaged i w hi hw
  exact Sessions.next_work.mpr ⟨by rw [hlast, h.started], hrunning.mp hflag, rfl⟩

/-- The others do not notice a step of a worker that stays as engaged as it was. -/
theorem set (h : Represents c ts m) (hi : ts[i]? = some w) (hiff : w'.Engaged ↔ w.Engaged) :
    Represents c (ts.set i w') m := by
  refine ⟨by rw [List.length_set, h.started], fun j u hj hu => ?_, fun hnone => ?_⟩
  · rw [List.length_set]
    rcases (ThreadPool.getElem?_set hi).mp hj with ⟨rfl, rfl⟩ | ⟨-, hj⟩
    · exact h.engaged j w hi (hiff.mp hu)
    · exact h.engaged j u hj hu
  · obtain ⟨hw', hothers⟩ := (noneOf_set_iff hi).mp hnone
    exact h.idle ((noneOf_iff hi).mpr ⟨fun hw => hw' (hiff.mpr hw), hothers⟩)

/-- An exit of an engaged worker finishes the session. -/
theorem finish (h : Represents c ts m) (hi : ts[i]? = some w) (hw : w.Engaged)
    (hw' : ¬ w'.Engaged) :
    ∃ m', Sessions.promise.next m (.finish i) = some m' ∧ Represents c' (ts.set i w') m' := by
  obtain ⟨hlast, hbusy, -⟩ := h.engaged i w hi hw
  have hnone : NoneOf Worker.Engaged (ts.set i w') := by
    refine (noneOf_set_iff hi).mpr ⟨hw', fun j u hne hj hengaged => ?_⟩
    have := (h.engaged j u hj hengaged).1
    omega
  refine ⟨_, Sessions.next_finish.mpr ⟨by rw [hlast, h.started], hbusy, rfl⟩,
    ⟨by simp [h.started], fun j u hj hu => ?_, fun _ => rfl⟩⟩
  exact absurd hu (hnone.not_of_getElem? hj)

end Represents

/-- The sessions of a run are as promised, and the state represents where the service is. -/
def Tracks (tr : List (State × Action)) (c : Client) (ts : List Worker) : Prop :=
  ∃ m, Sessions.promise.after (sessionsOf tr) = some m ∧ Represents c ts m

namespace Tracks

variable {tr : List (State × Action)} {c c' : Client} {k k' : Option Entry}
  {ts ts' : List Worker} {x : State × Action}

/-- A step that means nothing to the sessions. -/
theorem silent (h : Tracks tr c ts) (hx : sessionAction x = none)
    (hrep : ∀ m, Represents c ts m → Represents c' ts' m) : Tracks (tr ++ [x]) c' ts' := by
  obtain ⟨m, hm, hold⟩ := h
  refine ⟨m, ?_, hrep m hold⟩
  have hnone : sessionsOf [x] = [] := by simp [sessionsOf, hx]
  rw [sessionsOf_append, hnone, List.append_nil, hm]

/-- A step that is an action of the service. -/
theorem follow {e : Sessions.Action} (h : Tracks tr c ts) (hx : sessionAction x = some e)
    (hrep : ∀ m, Represents c ts m →
      ∃ m', Sessions.promise.next m e = some m' ∧ Represents c' ts' m') :
    Tracks (tr ++ [x]) c' ts' := by
  obtain ⟨m, hm, hold⟩ := h
  obtain ⟨m', hnext, hnew⟩ := hrep m hold
  refine ⟨m', ?_, hnew⟩
  rw [sessionsOf_append, sessionsOf_cons hx]
  exact Monitor.after_snoc_eq_some.mpr ⟨m, hm, hnext⟩

/-- A step of the JVM's side is an action of the service or none. -/
theorem callMove {a : EntryAction} {o : Option Worker} (h : Tracks tr c ts)
    (hsignal : SignalInv tr c k ts) (hmove : CallMove c k a c' k' o)
    (hquiet : StartsQuiet ⟨⟨c, k⟩, ts⟩ (.controller a)) :
    Tracks (tr ++ [(⟨⟨c, k⟩, ts⟩, .controller a)]) c' (ts ++ o.toList) := by
  cases hmove with
  | create r hcode =>
      refine h.follow (e := .start) (by simp [sessionAction, hcode]) fun m hrep => ?_
      exact hrep.start (hsignal.pending rfl) (hsignal.raised rfl)
  | clear r =>
      simp only [Option.toList_none, List.append_nil]
      exact h.follow (e := .stop) (by simp [sessionAction]) fun m hrep => hrep.stop rfl
  | set r =>
      simp only [Option.toList_none, List.append_nil]
      exact h.silent (by simp [sessionAction]) fun m hrep => hrep.frame (Or.inr (hquiet rfl))
  | reset r =>
      simp only [Option.toList_none, List.append_nil]
      exact h.silent (by simp [sessionAction]) fun m hrep =>
        hrep.frame (Or.inr (hsignal.pending rfl))
  | createFails r hcode =>
      simp only [Option.toList_none, List.append_nil]
      exact h.silent (by simp [sessionAction, hcode]) fun m hrep => hrep.frame (Or.inl rfl)
  | enter f =>
      simp only [Option.toList_none, List.append_nil]
      exact h.silent rfl fun m hrep => hrep.frame (Or.inl (f.enter_isRunning c))
  | testSkips r _ | testPasses r _ | report r | read r | detach _ r | initRet r
  | shutdownSkips r _ | shutdownPasses r _ | shutdownRet r =>
      simp only [Option.toList_none, List.append_nil]
      exact h.silent (by simp [sessionAction]) fun m hrep => hrep

/-- A step of a worker is an action of the service or none. -/
theorem workerMove {i : ℕ} {r : JvmReply} {w w' : Worker} {e : Event} (h : Tracks tr c ts)
    (hi : ts[i]? = some w) (hmove : WorkerMove c r w c' w' e)
    (he : moved ((⟨⟨c, k⟩, ts⟩, .thread i r) : State × Action) = some (i, e)) :
    Tracks (tr ++ [(⟨⟨c, k⟩, ts⟩, .thread i r)]) c' (ts.set i w') := by
  cases hmove with
  | poll hpc hw' hflag =>
      have hw := Worker.engaged_of_testRunning hpc
      refine h.follow (e := .work i) (by simp [sessionAction, he]) fun m hrep => ?_
      refine ⟨m, hrep.work hi hw hflag, hrep.set hi (iff_of_true ?_ hw)⟩
      simp [Worker.Engaged, hw']
  | pollEnded hpc hw' _ =>
      refine h.follow (e := .finish i) (by simp [sessionAction, he]) fun m hrep => ?_
      exact hrep.finish hi (Worker.engaged_of_testRunning hpc) (by simp [Worker.Engaged, hw'])
  | clear hw hw' =>
      refine h.follow (e := .finish i) (by simp [sessionAction, he]) fun m hrep => ?_
      exact hrep.finish hi (by simp [Worker.Engaged, hw]) (by simp [Worker.Engaged, hw'])
  | lookupFailed f hw hw' hfail =>
      refine h.follow (e := .finish i) (by simp [sessionAction, he, hi, hfail]) fun m hrep => ?_
      exact hrep.finish hi (by simp [Worker.Engaged, hw]) (by simp [Worker.Engaged, hw'])
  | call f hw hw' hok =>
      refine h.silent (by simp [sessionAction, he, hi, hok]) fun m hrep => hrep.set hi ?_
      simp [Worker.Engaged, hw, hw']
  | attach hw hw' _ =>
      refine h.silent (by simp [sessionAction, he]) fun m hrep => ?_
      refine (hrep.set hi ?_).frame (Or.inl rfl)
      simp [Worker.Engaged, hw, hw']
  | attached hw hw' _ _ | attachFailed hw hw' _ | report _ hw hw' | sleep _ hw hw' _
  | detach hw hw' | ret hw hw' =>
      refine h.silent (by simp [sessionAction, he]) fun m hrep => hrep.set hi ?_
      simp [Worker.Engaged, hw, hw']

end Tracks

section Run

variable {tr : List (State × Action)} {s : State}

/-- **Refinement.** While every start is quiet, the client keeps its sessions as promised. -/
theorem tracks_of_run (hrun : AgentRun tr s) (hquiet : Lts.Along StartsQuiet tr) :
    Tracks tr s.shared.client s.threads := by
  have key : Lts.Along StartsQuiet tr ∧ Tracks tr s.shared.client s.threads := by
    refine hrun.induct_along
      (I := fun tr s => Lts.Along StartsQuiet tr ∧ Tracks tr s.shared.client s.threads) hquiet
      ⟨Lts.along_nil, {}, rfl, ⟨rfl, by simp, fun _ => rfl⟩⟩ ?_
    rintro tr s a s' hpre ⟨hbefore, hI⟩ ha hstep
    refine ⟨Lts.along_append.mpr ⟨hbefore, Lts.along_singleton.mpr ha⟩, ?_⟩
    obtain ⟨x, c, k, o, rfl, hmove, rfl⟩ | ⟨i, r, w, c, w', e, rfl, hi, hmove, he, rfl⟩ :=
      agent_step_cases hstep
    · exact hI.callMove (signalInv_of_run hpre hbefore) hmove ha
    · exact hI.workerMove hi hmove he
  exact key.2

/-- While every start is quiet, every worker but the last has taken one of its exits. -/
theorem length_le_exits (hrun : AgentRun tr s) (hquiet : Lts.Along StartsQuiet tr) :
    s.threads.length ≤ (sessionsOf tr).countP Sessions.Action.isFinish + 1 := by
  obtain ⟨m, hm, hrep⟩ := tracks_of_run hrun hquiet
  rw [← hrep.started, ← (Sessions.started_eq hm).1]
  exact Sessions.count_start_le hm

/-- While every start is quiet, only the worker created last polls. -/
theorem poll_last {before after : List (State × Action)} {x : State × Action} {i : ℕ}
    (hrun : AgentRun (before ++ x :: after) s)
    (hquiet : Lts.Along StartsQuiet (before ++ x :: after))
    (hpoll : moved x = some (i, .testRunning true)) : i + 1 = x.1.threads.length := by
  obtain ⟨hbefore, hquiet'⟩ := Lts.along_append.mp hquiet
  obtain ⟨m, hm, hrep⟩ := tracks_of_run hrun.split_at.1 hbefore
  obtain ⟨m', hm', -⟩ := tracks_of_run hrun hquiet
  rw [sessionsOf_append, sessionsOf_cons (sessionAction_of_poll hpoll)] at hm'
  rw [Sessions.work_last hm', (Sessions.started_eq hm).1, hrep.started]

/-- While every start is quiet, a poll after a shutdown comes only after a further worker
was created. -/
theorem created_of_poll_after_stop {before between after : List (State × Action)}
    {x y : State × Action} {i : ℕ}
    (hrun : AgentRun (before ++ x :: (between ++ y :: after)) s)
    (hquiet : Lts.Along StartsQuiet (before ++ x :: (between ++ y :: after)))
    (hstop : ShutdownClears x.1 x.2) (hpoll : moved y = some (i, .testRunning true)) :
    .start ∈ sessionsOf between := by
  obtain ⟨m, hm, -⟩ := tracks_of_run hrun hquiet
  rw [sessionsOf_append, sessionsOf_cons (sessionAction_of_shutdownClears hstop),
    sessionsOf_append, sessionsOf_cons (sessionAction_of_poll hpoll)] at hm
  exact Sessions.start_mem_of_work_after_stop hm

/-- **The promise of sessions.** While every start is quiet, the sessions of a run are as
promised, and the variables and the workers represent where the service is. And a start that
is not quiet can go on to create its worker at once, a session that the service could not
have started. -/
theorem refines_promise (hrun : AgentRun tr s) (hquiet : Lts.Along StartsQuiet tr) :
    (∃ m, Sessions.promise.after (sessionsOf tr) = some m ∧
      Represents s.shared.client s.threads m) ∧
    ∀ a s', agent.lts.step s a = some s' → ¬ StartsQuiet s a →
      ∃ tr' s'', agent.lts.Run s' tr' s'' ∧
        Sessions.promise.after (sessionsOf (tr ++ (s, a) :: tr')) = none := by
  obtain ⟨m, hm, hrep⟩ := tracks_of_run hrun hquiet
  refine ⟨⟨m, hm, hrep⟩, fun a s' hstep ha => ?_⟩
  obtain ⟨r, rfl, hset, hengaged⟩ := not_startsQuiet_iff.mp ha
  obtain ⟨hcreate, -, -⟩ := setRunning_step hstep hset
  obtain ⟨⟨c', k'⟩, ts'⟩ := s'
  obtain rfl : k' = some (.init .createThread) := hcreate
  refine ⟨_, _, .single (step_of_callMove (.create {} rfl) ts'), ?_⟩
  obtain ⟨i, w, hi, hw⟩ := exists_of_not_noneOf hengaged
  have hbusy : m.stage ≠ .idle := (hrep.engaged i w hi hw).2.1
  have hsilent : sessionsOf [(s, .controller (.step r))] = [] := by
    simp [sessionsOf, Lts.observe, sessionAction, hset]
  rw [← List.singleton_append, sessionsOf_append, sessionsOf_append, hsilent, List.nil_append,
    sessionsOf_cons (e := .start) (by simp [sessionAction])]
  refine Monitor.after_snoc.trans ?_
  rw [hm, Option.bind_some]
  exact if_neg hbusy

/-- A run to which the theorem applies: two sessions, one after the other, and the second
has polled. -/
theorem refines_promise_two_sessions :
    ∃ tr s, AgentRun tr s ∧ sessionsOf tr = [.start, .stop, .finish 0, .start, .work 1] ∧
      ∃ m, Sessions.promise.after (sessionsOf tr) = some m ∧
        Represents s.shared.client s.threads m := by
  obtain ⟨tr, s, hrun, hquiet, hsessions⟩ := exists_agentRun
    (P := fun tr _ => Lts.Along StartsQuiet tr ∧
      sessionsOf tr = [.start, .stop, .finish 0, .start, .work 1])
    (createdBy (.onLoad 0) ++ drivenBy 7 0 50 ++ stoppedBy 0 ++ drivenBy 7 0 1 ++
      createdBy (.onAttach 0) ++ drivenBy 8 1 51) (by decide)
  exact ⟨tr, s, hrun, hsessions, (refines_promise hrun hquiet).1⟩

end Run

end Rynox
