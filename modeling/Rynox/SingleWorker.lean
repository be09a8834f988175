import Rynox.Lifecycle

/-!
# At Most One Active Worker

`initializeRynoxClient` creates a worker only when it finds `Client::isRunning` false. The
flag says whether a worker *should* run, and `shutdownRynoxClient` clears it without
waiting for the worker that does, so a start that follows a stop may find the flag false
while the old worker is anywhere in `runClient`: then two workers are active.

That is the only way it happens. A run in which the guard never opens on an active
worker has at most one active worker in every state (`atMostOne_active`), and wherever
the guard is about to open on one, two more steps of the call and a successful
`pthread_create` make two.
-/

namespace Rynox

/-- The guard of `initializeRynoxClient` **misses**: the call in progress is about to test
`Client::isRunning`, the flag is false, and yet a worker is active. -/
def GuardMisses (s : State) : Prop :=
  s.shared.calls = some initializeRynoxClient ∧ s.shared.client.isRunning = false ∧
    ¬ NoneOf Worker.Active s.threads

instance : DecidablePred GuardMisses := fun s =>
  inferInstanceAs (Decidable (_ ∧ _ ∧ ¬ NoneOf Worker.Active s.threads))

/-- The step does not take the guard where it misses. -/
def GuardHolds (s : State) : Action → Prop
  | .controller (.step _) => ¬ GuardMisses s
  | _ => True

instance (s : State) : (a : Action) → Decidable (GuardHolds s a)
  | .controller (.step _) => inferInstanceAs (Decidable (¬ GuardMisses s))
  | .controller (.call _) => inferInstanceAs (Decidable True)
  | .thread _ _ => inferInstanceAs (Decidable True)

/-- The control points of `initializeRynoxClient` from its guard to `pthread_create`. -/
def Entry.creating : Entry → Bool
  | init .setRunning | init .createThread => true
  | _ => false

/-- The protocol the guard enforces while it does not miss: at most one worker is active,
and none while a call is past the guard and has not created its worker. -/
structure OneSession (k : Option Entry) (ts : List Worker) : Prop where
  atMostOne : AtMostOne Worker.Active ts
  creating : k.any Entry.creating = true → NoneOf Worker.Active ts

/-- No step makes a worker active. -/
theorem WorkerMove.active_of_active {c c' : Client} {r : JvmReply} {w w' : Worker} {e : Event}
    (h : WorkerMove c r w c' w' e) (hw' : w'.Active) : w.Active := by
  simp only [Worker.Active] at hw' ⊢
  cases h with
  | attach h _ _ => simp [h]
  | attached h _ hok _ => simp [h, hok]
  | attachFailed _ h' _ => simp [h'] at hw'
  | report _ _ h' => simp [h'] at hw'
  | clear _ h' => simp [h'] at hw'
  | call _ h _ _ => simp [h]
  | sleep _ h _ _ => simp [h]
  | poll h _ _ => simp [Worker.phase, Pc.phase, h]
  | pollEnded h _ _ => simp [Worker.phase, Pc.phase, h]
  | lookupFailed _ h _ _ => simp [h]
  | detach _ h' => simp [h'] at hw'
  | ret _ h' => simp [h'] at hw'

namespace OneSession

variable {c c' : Client} {k k' : Option Entry} {ts : List Worker}

/-- A step of the JVM's side keeps the protocol, if it does not take the guard where it
misses. -/
theorem callMove {x : EntryAction} {o : Option Worker} (h : OneSession k ts)
    (hmove : CallMove c k x c' k' o) (hguard : GuardHolds ⟨⟨c, k⟩, ts⟩ (.controller x)) :
    OneSession k' (ts ++ o.toList) := by
  cases hmove with
  | testPasses r hrun =>
      have hnone : NoneOf Worker.Active ts := by
        by_contra hactive
        exact hguard ⟨rfl, hrun, hactive⟩
      exact ⟨by simpa using h.atMostOne, fun _ => by simpa using hnone⟩
  | set r =>
      have hnone := h.creating rfl
      exact ⟨by simpa using h.atMostOne, fun _ => by simpa using hnone⟩
  | create r hcode => exact ⟨(h.creating rfl).atMostOne_spawn, by simp [Entry.creating]⟩
  | enter f =>
      refine ⟨by simpa using h.atMostOne, ?_⟩
      cases f <;> simp [Call.enter, agentOnLoad, agentOnAttach, agentOnUnload, startAgent,
        initializeRynoxClient, shutdownRynoxClient, Entry.creating]
  | _ => exact ⟨by simpa using h.atMostOne, by simp [Entry.creating]⟩

/-- Every step of a worker keeps the protocol. -/
theorem workerMove {i : ℕ} {r : JvmReply} {w w' : Worker} {e : Event} (h : OneSession k ts)
    (hi : ts[i]? = some w) (hmove : WorkerMove c r w c' w' e) : OneSession k (ts.set i w') where
  atMostOne := h.atMostOne.set hi hmove.active_of_active
  creating hk := (h.creating hk).set fun hw' =>
    (h.creating hk).not_of_getElem? hi (hmove.active_of_active hw')

end OneSession

/-- While the guard does not miss, the protocol holds. -/
theorem oneSession_of_run {tr : List (State × Action)} {s : State} (hrun : AgentRun tr s)
    (hguard : Lts.Along GuardHolds tr) : OneSession s.shared.calls s.threads := by
  refine hrun.induct_along (I := fun _ s => OneSession s.shared.calls s.threads) hguard
    ⟨noneOf_nil.atMostOne, by simp [agent, agentOf]⟩ ?_
  intro tr s a s' _ hI ha hstep
  obtain ⟨x, c, k, o, rfl, hmove, rfl⟩ | ⟨i, r, w, c, w', e, rfl, hi, hmove, -, rfl⟩ :=
    agent_step_cases hstep
  · exact hI.callMove hmove ha
  · exact hI.workerMove hi hmove

/-- Where the guard misses, the call goes on to create a second active worker. -/
theorem GuardMisses.exists_run {s : State} (h : GuardMisses s) :
    ∃ tr s', agent.lts.Run s tr s' ∧ ¬ AtMostOne Worker.Active s'.threads := by
  obtain ⟨⟨c, k⟩, ts⟩ := s
  obtain ⟨rfl, hflag, hactive⟩ := h
  obtain ⟨i, w, hi, hwa⟩ := exists_of_not_noneOf hactive
  have hlt : i < ts.length := ThreadPool.lt_length_of_getElem? hi
  obtain ⟨tr, s', hrun, -, hs'⟩ := exists_run_create hflag ts {} rfl
  refine ⟨tr, s', hrun, fun hone => ?_⟩
  rw [hs'] at hone
  have heq : i = ts.length :=
    hone (List.getElem?_append_left hlt ▸ hi) List.getElem?_concat_length hwa trivial
  omega

/-- **At most one active worker, as far as the guard goes.** In every run in which no call
takes the guard of `initializeRynoxClient` where it misses, at most one worker is active;
and from any state where it is about to miss, the agent can go on to two. -/
theorem atMostOne_active {tr : List (State × Action)} {s : State} (hrun : AgentRun tr s) :
    (Lts.Along GuardHolds tr → AtMostOne Worker.Active s.threads) ∧
      (GuardMisses s → ∃ tr' s', agent.lts.Run s tr' s' ∧
        ¬ AtMostOne Worker.Active s'.threads) :=
  ⟨fun hguard => (oneSession_of_run hrun hguard).atMostOne, GuardMisses.exists_run⟩

/-- A run to which the theorem applies: the first worker fails to attach and clears the
flag, and the next `Agent_OnAttach` creates a second one. -/
theorem atMostOne_active_two_sessions :
    ∃ tr s, AgentRun tr s ∧ Lts.Along GuardHolds tr ∧ s.threads.length = 2 ∧
      AtMostOne Worker.Active s.threads := by
  obtain ⟨tr, s, hrun, hguard, hlength⟩ := exists_agentRun
    (P := fun tr s => Lts.Along GuardHolds tr ∧ s.threads.length = 2)
    (createdBy (.onLoad 0) ++
      [.thread 0 { result := -1 }, .thread 0 {}, .thread 0 {}, .thread 0 {}] ++
      createdBy (.onAttach 0)) (by decide)
  exact ⟨tr, s, hrun, hguard, hlength, (atMostOne_active hrun).1 hguard⟩

/-- Without the condition it fails: `Agent_OnUnload` clears the flag while the worker is
starting, and the next `Agent_OnAttach` creates another. -/
theorem not_atMostOne_active :
    ¬ ∀ s, agent.lts.Reachable s → AtMostOne Worker.Active s.threads := by
  intro hclaim
  obtain ⟨tr, s, hrun, htwo⟩ := exists_agentRun
    (P := fun _ s => s.threads.countP (fun w => decide w.Active) = 2)
    (createdBy (.onLoad 0) ++ stoppedBy 0 ++ createdBy (.onAttach 0)) (by decide)
  have hone : AtMostOne (fun w => decide (Worker.Active w) = true) s.threads := by
    simpa using hclaim s hrun.reachable
  have := hone.countP_le_one
  omega

end Rynox
