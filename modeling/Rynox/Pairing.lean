import Rynox.Monitor
import Rynox.Overlap

/-!
# Attaching and Detaching

Every worker attaches once, works through `Client::env` while it is attached, and detaches
on each of its six exits. Whether it may call through `Client::env` it learns from the
result of its own attach and from a look at `Client::env`, a variable that other workers
write; so that a worker which attached never takes the failure branch, and leaves attached,
rests on no attach ever storing null.

The attachment of a worker is a resource in the sense of `Monitor.bracket`, and its trace is
well bracketed in every run, even if the JVM's calls overlap (`attach_detach_pairing`); so it
is when they do not (`pairing_of_agentRun`).
-/

namespace Rynox

open Monitor (Token Stage WellBracketed bracket)

/-- What an event means to the attachment of the worker. -/
def Event.token : Event → Option Token
  | attach result _ => some (if result = jniOk then .opened else .refused)
  | env _ _ _ _ => some .used
  | detach => some .closed
  | _ => none

/-- Which stage of its attachment a worker may be in. A worker that has attached and not
yet tested the result will find `Client::env` set. -/
def AtStage (c : Client) (w : Worker) (b : Stage) : Prop :=
  match w.phase with
  | .starting => b = .fresh
  | .checking =>
      (w.attachResult = jniOk ∧ b = .inside ∧ c.env ≠ none) ∨
        (w.attachResult ≠ jniOk ∧ b = .refused)
  | .reporting | .clearing => b = .refused
  | .running | .leaving => b = .inside
  | .finishing | .returned => b = .refused ∨ b = .closed

/-- The invariant: the monitor has accepted what a worker did, and is in a stage the worker
may be in. -/
def Paired (c : Client) (w : Worker) (l : List Event) : Prop :=
  ∃ b, (bracket Event.token).after l = some b ∧ AtStage c w b

/-- A lawful step never takes `Client::env` back. -/
theorem WorkerMove.env_ne_none {c c' : Client} {r : JvmReply} {w w' : Worker} {e : Event}
    (h : WorkerMove c r w c' w' e) (hlaw : e.Lawful) (henv : c.env ≠ none) : c'.env ≠ none := by
  cases h with
  | attach _ _ _ =>
      cases hstored : r.stored with
      | none => simpa [hstored] using henv
      | some env => cases env <;> simp_all [Event.Lawful]
  | _ => exact henv

namespace Paired

variable {c c' : Client} {r : JvmReply} {w w' : Worker} {e : Event} {l : List Event}

/-- The invariant of a worker that has just been created. -/
theorem start : Paired c Worker.start [] :=
  ⟨.fresh, rfl, rfl⟩

/-- A step that leaves `Client::env` set keeps the invariant of a worker that does not
move. -/
theorem frame (h : Paired c w l) (henv : c.env ≠ none → c'.env ≠ none) : Paired c' w l := by
  obtain ⟨b, hb, hstage⟩ := h
  refine ⟨b, hb, ?_⟩
  simp only [AtStage] at hstage ⊢
  split at hstage
  case h_2 hphase =>
      rcases hstage with ⟨hok, hin, hset⟩ | hfail
      · simp [hok, hin, henv hset]
      · simp [hfail]
  all_goals simp_all

/-- The monitor follows a step. -/
theorem follow {b d : Stage} (hb : (bracket Event.token).after l = some b)
    (hnext : (bracket Event.token).next b e = some d) (hstage : AtStage c' w' d) :
    Paired c' w' (l ++ [e]) :=
  ⟨d, Monitor.after_snoc_eq_some.mpr ⟨b, hb, hnext⟩, hstage⟩

/-- The worker's own step keeps the invariant. -/
theorem own (h : Paired c w l) (hlaw : e.Lawful) (hmove : WorkerMove c r w c' w' e) :
    Paired c' w' (l ++ [e]) := by
  obtain ⟨b, hb, hstage⟩ := h
  simp only [AtStage] at hstage
  cases hmove with
  | attach hw hw' hresult =>
      rw [hw] at hstage
      subst hstage
      by_cases hok : r.result = jniOk
      · obtain ⟨p, hp⟩ := hlaw.stored_of_ok hok
        refine follow (d := .inside) hb ?_ ?_
        · simp [bracket, Event.token, hok, Stage.next]
        · simp [AtStage, hw', hresult, hok, hp]
      · refine follow (d := .refused) hb ?_ ?_
        · simp [bracket, Event.token, hok, Stage.next]
        · simp [AtStage, hw', hresult, hok]
  | attached hw hw' hok henv =>
      rw [hw] at hstage
      rcases hstage with ⟨-, rfl, -⟩ | ⟨hfail, -⟩
      · exact follow hb rfl (by simp [AtStage, hw'])
      · exact absurd hok hfail
  | attachFailed hw hw' hfail =>
      rw [hw] at hstage
      rcases hstage with ⟨hok, -, henv⟩ | ⟨-, rfl⟩
      · exact absurd hfail (not_or.mpr ⟨not_not.mpr hok, henv⟩)
      · exact follow hb rfl (by simp [AtStage, hw'])
  | report m hw hw' =>
      rw [hw] at hstage
      exact follow hb rfl (by simpa [AtStage, hw'] using hstage)
  | clear hw hw' =>
      rw [hw] at hstage
      exact follow hb rfl (by simpa [AtStage, hw'] using Or.inl hstage)
  | call f hw hw' _ | lookupFailed f hw hw' _ =>
      rw [hw] at hstage
      subst hstage
      exact follow hb rfl (by simp [AtStage, hw'])
  | sleep ms hw hw' _ =>
      rw [hw] at hstage
      exact follow hb rfl (by simpa [AtStage, hw'] using hstage)
  | poll hpc hw' _ | pollEnded hpc hw' _ =>
      rw [Worker.phase_of_testRunning hpc] at hstage
      exact follow hb rfl (by simpa [AtStage, hw'] using hstage)
  | detach hw hw' =>
      rw [hw] at hstage
      subst hstage
      exact follow hb rfl (by simp [AtStage, hw'])
  | ret hw hw' =>
      rw [hw] at hstage
      exact follow hb rfl (by simpa [AtStage, hw'] using hstage)

end Paired

section Run

variable {κ α : Type} {controller : Agent κ → α → Option (Agent κ × Option Worker)} {calls : κ}

/-- The invariant holds of every worker in every lawful run, whatever the controller does,
if it leaves `Client::env` alone and creates workers at their start. -/
theorem paired_of_run
    (hspec : ∀ g x g' o, controller g x = some (g', o) →
      g'.client.env = g.client.env ∧ ∀ u, o = some u → u = Worker.start)
    {tr : List (StateOf κ × ActionOf α)} {s : StateOf κ}
    (hrun : (agentOf calls controller).lts.Run (agentOf calls controller).lts.init tr s)
    (hlaw : Lts.Along JvmLawful tr) {i : ℕ} {w : Worker} (hi : s.threads[i]? = some w) :
    Paired s.shared.client w (traceOf i tr) := by
  refine hrun.induct_along (I := fun tr s => ∀ j u, s.threads[j]? = some u →
    Paired s.shared.client u (traceOf j tr)) hlaw (by simp) ?_ i w hi
  intro tr s a s' hpre hI hlaw hstep
  cases agentMove_of_step hstep with
  | @controller x g o hx =>
      obtain ⟨henv, hstart⟩ := hspec _ _ _ _ hx
      intro j u hj
      refine histories_controller (Q := fun _ u l => Paired g.client u l) (fun j u hj => ?_)
        (traceOf_eq_nil hpre (Nat.le_refl _)) (fun u ho => ?_) hj
      · exact (hI j u hj).frame fun hset => henv ▸ hset
      · rw [hstart u ho]
        exact Paired.start
  | @worker i r w w' c e hi hmove he =>
      have hlawe : e.Lawful := hlaw _ he
      intro j u hj
      exact histories_worker (Q := fun _ u l => Paired c u l) hi he
        ((hI i w hi).own hlawe hmove)
        (fun j u _ hj => (hI j u hj).frame (hmove.env_ne_none hlawe)) hj

end Run

/-- A worker that has returned from a successful attach has closed the bracket. -/
theorem Paired.closed {c : Client} {w : Worker} {l : List Event} (h : Paired c w l)
    (hret : w.phase = .returned) (hok : ∃ a ∈ l, a.token = some .opened) :
    (bracket Event.token).after l = some .closed := by
  obtain ⟨b, hb, hstage⟩ := h
  simp only [AtStage, hret] at hstage
  rcases hstage with rfl | rfl
  · obtain ⟨a, ha, hopened⟩ := hok
    exact absurd hopened (Monitor.bracket_tells hb a ha).1
  · exact hb

/-- What attach/detach pairing says of the trace of one worker: it is well bracketed, and
if the worker attached and has returned, it has detached exactly once. -/
structure Pairing (l : List Event) (w : Worker) : Prop where
  wellBracketed : WellBracketed Event.token l
  detached : w.pc = .returned → (∃ a ∈ l, a.token = some .opened) → l.count .detach = 1

/-- What closes is the detach. -/
theorem Event.token_eq_closed_iff {e : Event} : e.token = some .closed ↔ e = .detach := by
  cases e with
  | attach result stored =>
      simp only [token, reduceCtorEq, iff_false]
      split <;> simp
  | _ => simp [token]

/-- The invariant gives every part of the result. -/
theorem Paired.pairing {c : Client} {w : Worker} {l : List Event} (h : Paired c w l) :
    Pairing l w where
  wellBracketed := by
    obtain ⟨b, hb, -⟩ := h
    exact Monitor.bracket_wellBracketed hb
  detached hret hok := by
    have hphase : w.phase = .returned := by
      rw [Worker.phase, hret, Pc.phase]
    rw [← Monitor.countP_closed_eq_one (h.closed hphase hok), List.count_eq_countP]
    congr 1
    funext e
    simp only [Event.token_eq_closed_iff, beq_eq_decide]

/-- **Attach/detach pairing.** Let every attach that succeeds store a pointer that is not
null, and one that fails nothing. In every run, however the steps of the calls and of the
workers are interleaved, the trace of every worker is well bracketed, and a worker that
attached has detached exactly once when it has returned. -/
theorem attach_detach_pairing {tr : List (OverlapState × ActionOf OverlapAction)}
    {s : OverlapState} (hrun : OverlapRun tr s) (hlaw : Lts.Along JvmLawful tr) {i : ℕ}
    {w : Worker} (hi : s.threads[i]? = some w) : Pairing (traceOf i tr) w :=
  (paired_of_run (fun _ _ _ _ => overlapped_spec) hrun hlaw hi).pairing

/-- A run to which the theorem applies: two calls overlap, both create a worker, and the
first worker attaches, finds no `LogManager`, detaches and returns. -/
theorem attach_detach_pairing_overlapping :
    ∃ tr s w, OverlapRun tr s ∧ Lts.Along JvmLawful tr ∧ s.threads.length = 2 ∧
      s.threads[0]? = some w ∧ Pairing (traceOf 0 tr) w ∧
      (traceOf 0 tr).count .detach = 1 := by
  obtain ⟨tr, s, hrun, hlaw, hlength, w, hi, hret, hok⟩ := Lts.exists_run_of_exec
    (L := overlap.lts) (s := overlap.lts.init)
    (P := fun tr s => Lts.Along JvmLawful tr ∧ s.threads.length = 2 ∧
      ∃ w ∈ s.threads[0]?, w.pc = .returned ∧ ∃ a ∈ traceOf 0 tr, a.token = some .opened)
    ([.controller (.call (.onLoad 0)), .controller (.call (.onAttach 0))] ++
      (List.replicate 4 [.controller (.step 0 {}), .controller (.step 1 {})]).flatten ++
      [.thread 0 { stored := some (some 7) }, .thread 0 {}, .thread 0 {}, .thread 0 {},
        .thread 0 {}]) (by decide)
  have hpairing := attach_detach_pairing hrun hlaw hi
  exact ⟨tr, s, w, hrun, hlaw, hlength, hi, hpairing, hpairing.detached hret hok⟩

/-- The same of the agent, whose calls are serialized. -/
theorem pairing_of_agentRun {tr : List (State × Action)} {s : State} (hrun : AgentRun tr s)
    (hlaw : Lts.Along JvmLawful tr) {i : ℕ} {w : Worker} (hi : s.threads[i]? = some w) :
    Pairing (traceOf i tr) w := by
  obtain ⟨tr', hrun', hobs⟩ := exists_overlapRun hrun
  have htrace : traceOf i tr' = traceOf i tr := traceOf_eq_of_observe hobs
  rw [← htrace]
  refine (paired_of_run (fun _ _ _ _ => overlapped_spec) hrun' ?_ hi).pairing
  rw [along_jvmLawful_iff, hobs]
  exact along_jvmLawful_iff.mp hlaw

end Rynox
