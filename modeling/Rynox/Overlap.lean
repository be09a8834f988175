import Rynox.Lifecycle

/-!
# Overlapping Calls

Nothing in the client keeps the JVM, or a tool that attaches, from making a call while
another is still in progress. Here any number of calls are under way at once and their
steps interleave freely. Runs of the agent, which makes its calls one at a time, are among
the runs here and look the same (`exists_overlapRun`), so what holds of the trace of every
worker under overlapping calls holds under serialized ones (`traceOf_eq_of_observe`).
-/

namespace Rynox

/-- A step on the side of the JVM: it makes a call, or the `k`-th call in progress moves. -/
inductive OverlapAction
  | call (f : Call)
  | step (k : ℕ) (r : OsReply)
  deriving DecidableEq, Repr

/-- Overlapping calls: a list of those in progress, of which any may move. -/
def overlapped (g : Agent (List Entry)) :
    OverlapAction → Option (Agent (List Entry) × Option Worker)
  | .call f => some (⟨(f.enter g.client).1, g.calls ++ [(f.enter g.client).2]⟩, none)
  | .step k r =>
      g.calls[k]?.map fun e =>
        (⟨e.op.exec g.client r,
          match e.resume g.client r with
          | some e' => g.calls.set k e'
          | none => g.calls.eraseIdx k⟩, e.op.spawn r)

/-- The library under overlapping calls. -/
def overlap : ThreadPool (Agent (List Entry)) Worker OverlapAction JvmReply :=
  agentOf [] overlapped

/-- A state of the library under overlapping calls. -/
abbrev OverlapState := StateOf (List Entry)

/-- `OverlapRun tr s`: the transitions `tr` lead the library from its start to `s`, under
overlapping calls. -/
abbrev OverlapRun (tr : List (OverlapState × ActionOf OverlapAction)) (s : OverlapState) : Prop :=
  overlap.lts.Run overlap.lts.init tr s

/-- A call made while no other is in progress, and its first `n` steps, in one go. -/
def calledAlone (f : Call) (n : ℕ) : List (ActionOf OverlapAction) :=
  .controller (.call f) :: List.replicate n (.controller (.step 0 {}))

/-- A worker is created, finds everything, polls once, is stopped and returns. -/
def polledOnce : List (ActionOf OverlapAction) :=
  calledAlone (.onLoad 0) 6 ++
    List.replicate 56 (.thread 0 { stored := some (some 7), value := some 1 }) ++
    calledAlone (.onUnload 0) 3 ++ List.replicate 3 (.thread 0 {})

/-- What a call does to `Client::env`, and which worker it creates, does not depend on the
other calls in progress. -/
theorem overlapped_spec {g g' : Agent (List Entry)} {x : OverlapAction} {o : Option Worker}
    (h : overlapped g x = some (g', o)) :
    g'.client.env = g.client.env ∧ ∀ u, o = some u → u = Worker.start := by
  cases x with
  | call f =>
      simp only [overlapped, Option.some.injEq, Prod.mk.injEq] at h
      obtain ⟨rfl, rfl⟩ := h
      exact ⟨f.enter_env g.client, by simp⟩
  | step k r =>
      simp only [overlapped, Option.map_eq_some_iff, Prod.mk.injEq] at h
      obtain ⟨e, -, rfl, rfl⟩ := h
      have hmove := callMove_of_entry g.client r e
      exact ⟨hmove.env_eq, fun u => hmove.eq_start⟩

/-- Making a call under overlapping calls: it is appended to those in progress. -/
theorem step_overlapEnter {s t : OverlapState} {f : Call} :
    overlap.lts.step s (.controller (.call f)) = some t ↔
      t = ⟨⟨(f.enter s.shared.client).1, s.shared.calls ++ [(f.enter s.shared.client).2]⟩,
        s.threads⟩ := by
  rw [ThreadPool.step_controller]
  simp [overlap, agentOf, overlapped]

/-- A step of the `k`-th call in progress: its operation takes effect, and it goes on or is
gone. -/
theorem step_overlapCall {s t : OverlapState} {k : ℕ} {r : OsReply} :
    overlap.lts.step s (.controller (.step k r)) = some t ↔
      ∃ e, s.shared.calls[k]? = some e ∧
        t = ⟨⟨e.op.exec s.shared.client r, (e.resume s.shared.client r).elim
          (s.shared.calls.eraseIdx k) (s.shared.calls.set k)⟩,
          s.threads ++ (e.op.spawn r).toList⟩ := by
  rw [ThreadPool.step_controller]
  simp only [overlap, agentOf, overlapped, Option.map_eq_some_iff, Prod.mk.injEq]
  constructor
  · rintro ⟨_, _, ⟨e, he, rfl, rfl⟩, rfl⟩
    refine ⟨e, he, ?_⟩
    cases hresume : e.resume s.shared.client r <;> rfl
  · rintro ⟨e, he, rfl⟩
    refine ⟨_, _, ⟨e, he, rfl, rfl⟩, ?_⟩
    cases hresume : e.resume s.shared.client r <;> rfl

/-! ### Serialized calls are a special case -/

/-- The state of the library under overlapping calls that matches one of the agent. -/
def overlapping (s : State) : OverlapState :=
  ⟨⟨s.shared.client, s.shared.calls.toList⟩, s.threads⟩

/-- A step of the agent is a step under overlapping calls, and looks the same. -/
theorem exists_overlap_step {s s' : State} {a : Action} (h : agent.lts.step s a = some s') :
    ∃ b, overlap.lts.step (overlapping s) b = some (overlapping s') ∧
      moved ((overlapping s, b) : OverlapState × ActionOf OverlapAction) = moved (s, a) := by
  cases a with
  | thread i r =>
      refine ⟨.thread i r, ?_, rfl⟩
      obtain ⟨w, o, hi, ho, rfl⟩ := step_worker.mp h
      exact step_worker.mpr ⟨w, o, hi, ho, rfl⟩
  | controller x =>
      obtain ⟨g, o, hx, rfl⟩ := ThreadPool.step_controller.mp h
      obtain ⟨⟨c, k⟩, ts⟩ := s
      cases x with
      | call f =>
          cases k with
          | some e => simp [agent, agentOf, serialized] at hx
          | none =>
              simp only [agent, agentOf, serialized, Option.some.injEq, Prod.mk.injEq] at hx
              obtain ⟨rfl, rfl⟩ := hx
              exact ⟨.controller (.call f), rfl, rfl⟩
      | step r =>
          cases k with
          | none => simp [agent, agentOf, serialized] at hx
          | some e =>
              simp only [agent, agentOf, serialized, Option.some.injEq, Prod.mk.injEq] at hx
              obtain ⟨rfl, rfl⟩ := hx
              refine ⟨.controller (.step 0 r), ?_, rfl⟩
              refine ThreadPool.step_controller.mpr ⟨_, _, rfl, ?_⟩
              cases hresume : e.resume c r <;> simp [overlapping, hresume]

/-- Every run of the agent is a run under overlapping calls in which every worker does the
same. -/
theorem exists_overlapRun {tr : List (State × Action)} {s : State} (hrun : AgentRun tr s) :
    ∃ tr', OverlapRun tr' (overlapping s) ∧
      Lts.observe moved tr' = Lts.observe moved tr := by
  obtain ⟨tr', t, hrun', rfl, hobs⟩ : ∃ tr' t, OverlapRun tr' t ∧ t = overlapping s ∧
      Lts.observe moved tr' = Lts.observe moved tr := by
    refine hrun.simulation (R := fun s t => t = overlapping s) rfl ?_
    rintro s a s' t rfl hstep
    obtain ⟨b, hstep', hmoved⟩ := exists_overlap_step hstep
    exact ⟨[(overlapping s, b)], (overlapping s'), .single hstep', rfl, by simp [hmoved]⟩
  exact ⟨tr', hrun', hobs⟩

end Rynox
