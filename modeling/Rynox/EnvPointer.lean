import Rynox.Progress

/-!
# Whose `JNIEnv` a Worker Uses

A `JNIEnv` pointer belongs to the thread that attached. The client keeps it in one
process-wide variable, `Client::env`, which every worker reads again for each call and
every successful attach overwrites. So a worker calls through its own pointer exactly as
long as nobody attaches behind its back: in a run in which no attach succeeds while
another worker may still call through `Client::env`, every call uses the caller's own
pointer, while the caller is attached (`confined_of_run`). An attach against the condition
takes some worker's pointer away, and the run can go on to a call of that worker through
the pointer of another thread (`exists_run_not_confined`).

The attach of the JVM is trusted to be `Event.Lawful`: it stores a pointer when, and only
when, it succeeds.
-/

namespace Rynox

namespace Event

/-- The pointer a successful attach stores. -/
def pointer : Event → Option ℕ
  | attach result (some (some p)) => if result = jniOk then some p else none
  | _ => none

/-- A successful attach. -/
def AttachOk : Event → Prop
  | attach result _ => result = jniOk
  | _ => False

instance : DecidablePred AttachOk
  | .attach result _ => inferInstanceAs (Decidable (result = jniOk))
  | .checkEnv _ | .cerr _ | .clearRunning | .env _ _ _ _ | .sleep _ | .testRunning _ | .detach
  | .ret => inferInstanceAs (Decidable False)

end Event

/-- The pointers of all successful attaches of a run, oldest first. -/
def attachedPointers (tr : List (State × Action)) : List ℕ :=
  Lts.observe (fun x => (moved x).bind fun m => m.2.pointer) tr

/-- A worker **relies on `Client::env`** from its successful attach to its last call. -/
def Worker.UsesEnv (w : Worker) : Prop :=
  match w.phase with
  | .running => True
  | .checking => w.attachResult = jniOk
  | _ => False

/-- The workers that rely on `Client::env`, by their phases. -/
theorem Worker.usesEnv_iff {w : Worker} :
    w.UsesEnv ↔ w.phase = .running ∨ (w.phase = .checking ∧ w.attachResult = jniOk) := by
  cases h : w.phase <;> simp [Worker.UsesEnv, h]

instance : DecidablePred Worker.UsesEnv := fun _ =>
  decidable_of_iff _ Worker.usesEnv_iff.symm

/-- The step is not an attach that succeeds while another worker relies on
`Client::env`. -/
def AttachAlone (s : State) (a : Action) : Prop :=
  ∀ m ∈ moved (s, a), m.2.AttachOk → NoneOf Worker.UsesEnv s.threads

instance (s : State) (a : Action) : Decidable (AttachAlone s a) :=
  inferInstanceAs (Decidable (∀ m ∈ moved (s, a), m.2.AttachOk → NoneOf Worker.UsesEnv s.threads))

/-- A worker with history `before` **holds** the pointer `p`: its own attach returned it,
and it has not detached since. -/
def HoldsPointer (before : List Event) (p : ℕ) : Prop :=
  .attach jniOk (some (some p)) ∈ before ∧ .detach ∉ before

/-- Every call a worker makes through `Client::env` uses the pointer it holds. -/
def Confined (l : List Event) : Prop :=
  Lts.Historically (fun before e => ∀ env f v x, e = .env env f v x →
    ∃ p, env = some p ∧ HoldsPointer before p) l

/-- The invariant: a worker that relies on `Client::env` finds there the pointer it holds,
and its calls so far were confined. -/
structure OwnsEnv (c : Client) (w : Worker) (l : List Event) : Prop where
  fresh : w.phase = .starting → l = []
  holds : w.UsesEnv → ∃ p, c.env = some p ∧ HoldsPointer l p
  confined : Confined l

/-- A worker holds its pointer until it detaches. -/
theorem HoldsPointer.snoc {l : List Event} {p : ℕ} {e : Event} (h : HoldsPointer l p)
    (he : e ≠ .detach) : HoldsPointer (l ++ [e]) p := by
  refine ⟨List.mem_append_left _ h.1, fun hmem => ?_⟩
  rcases List.mem_append.mp hmem with hl | hnew
  · exact h.2 hl
  · exact he (List.mem_singleton.mp hnew).symm

/-- An event that is no call through `Client::env` keeps a history confined. -/
theorem Confined.snoc_of_ne {l : List Event} {e : Event} (h : Confined l)
    (he : ∀ env f v x, e ≠ .env env f v x) : Confined (l ++ [e]) :=
  Lts.historically_snoc.mpr ⟨h, fun env f v x heq => absurd heq (he env f v x)⟩

/-- A call through the pointer the worker holds keeps its history confined. -/
theorem Confined.snoc_env {l : List Event} {p : ℕ} {env : EnvPtr} {f : EnvCall} {v : Option ℕ}
    {x : Bool} (h : Confined l) (henv : env = some p) (hp : HoldsPointer l p) :
    Confined (l ++ [.env env f v x]) := by
  refine Lts.historically_snoc.mpr ⟨h, fun env' f' v' x' heq => ⟨p, ?_, hp⟩⟩
  rw [← henv]
  exact (Event.env.inj heq).1.symm

namespace OwnsEnv

variable {c c' : Client} {r : JvmReply} {w w' : Worker} {e : Event} {l : List Event}

/-- A step after which the worker no longer relies on `Client::env`. -/
theorem leave (h : OwnsEnv c w l) (huses : ¬ w'.UsesEnv) (hstart : w'.phase ≠ .starting)
    (hcall : ∀ env f v x, e ≠ .env env f v x) : OwnsEnv c' w' (l ++ [e]) :=
  ⟨fun h' => absurd h' hstart, fun h' => absurd h' huses, h.confined.snoc_of_ne hcall⟩

/-- A step that is no call, of a worker that goes on relying on `Client::env`. -/
theorem keep (h : OwnsEnv c w l) (huses : w.UsesEnv) (hstart : w'.phase ≠ .starting)
    (hcall : ∀ env f v x, e ≠ .env env f v x) (hdetach : e ≠ .detach) :
    OwnsEnv c w' (l ++ [e]) := by
  obtain ⟨p, hp, hheld⟩ := h.holds huses
  exact ⟨fun h' => absurd h' hstart, fun _ => ⟨p, hp, hheld.snoc hdetach⟩,
    h.confined.snoc_of_ne hcall⟩

/-- A call through `Client::env`. -/
theorem call {f : EnvCall} {v : Option ℕ} {x : Bool} (h : OwnsEnv c w l)
    (hrunning : w.phase = .running) (hstart : w'.phase ≠ .starting) :
    OwnsEnv c w' (l ++ [.env c.env f v x]) := by
  obtain ⟨p, hp, hheld⟩ := h.holds (by simp [Worker.UsesEnv, hrunning])
  exact ⟨fun h' => absurd h' hstart, fun _ => ⟨p, hp, hheld.snoc (by simp)⟩,
    h.confined.snoc_env hp hheld⟩

/-- The attach: when it succeeds, the pointer it stored is the worker's. -/
theorem attach (hw' : w'.phase = .checking) (hresult : w'.attachResult = r.result)
    (hlaw : (Event.attach r.result r.stored).Lawful) :
    OwnsEnv { c with env := r.stored.getD c.env } w' [.attach r.result r.stored] := by
  refine ⟨by simp [hw'], fun huses => ?_, ?_⟩
  · have hok : r.result = jniOk := by
      simpa [Worker.UsesEnv, hw', hresult] using huses
    cases hstored : r.stored with
    | none => exact absurd hok (by simpa [Event.Lawful, hstored] using hlaw)
    | some env =>
        cases env with
        | none => simp [Event.Lawful, hstored] at hlaw
        | some p => exact ⟨p, by simp, by simp [HoldsPointer, hok]⟩
  · exact Lts.historically_snoc (l := []).mpr ⟨Lts.historically_nil _, by simp⟩

/-- The worker's own step keeps the invariant. -/
theorem own (h : OwnsEnv c w l) (hlaw : e.Lawful) (hmove : WorkerMove c r w c' w' e) :
    OwnsEnv c' w' (l ++ [e]) := by
  cases hmove with
  | attach hw hw' hresult =>
      rw [h.fresh hw]
      exact attach hw' hresult hlaw
  | call f hw hw' _ => exact h.call hw (by simp [hw'])
  | lookupFailed f hw hw' _ => exact h.call hw (by simp [hw'])
  | attached hw hw' hok _ =>
      exact h.keep (by simp [Worker.UsesEnv, hw, hok]) (by simp [hw']) (by simp) (by simp)
  | sleep ms hw hw' _ =>
      exact h.keep (by simp [Worker.UsesEnv, hw]) (by simp [hw']) (by simp) (by simp)
  | poll hpc hw' _ =>
      have hw : w.phase = .running := by simp [Worker.phase, hpc, Pc.phase]
      exact h.keep (by simp [Worker.UsesEnv, hw]) (by simp [hw']) (by simp) (by simp)
  | attachFailed _ hw' _ | report _ _ hw' | clear _ hw' | pollEnded _ hw' _ | detach _ hw'
  | ret _ hw' =>
      exact h.leave (by simp [Worker.UsesEnv, hw']) (by simp [hw']) (by simp)

/-- A step that leaves `Client::env` alone, or comes when the worker does not rely on it,
keeps the invariant of a worker that does not move. -/
theorem frame (h : OwnsEnv c w l) (henv : w.UsesEnv → c'.env = c.env) : OwnsEnv c' w l where
  fresh := h.fresh
  holds hw := by
    obtain ⟨p, hp, hheld⟩ := h.holds hw
    exact ⟨p, (henv hw).trans hp, hheld⟩
  confined := h.confined

/-- The invariant of a worker that has just been created. -/
theorem start : OwnsEnv c Worker.start [] :=
  ⟨fun _ => rfl, fun h => absurd h (by decide), Lts.historically_nil _⟩

end OwnsEnv

/-- A lawful attach that fails, like any other step, leaves `Client::env` alone. -/
theorem WorkerMove.env_eq_of_lawful {c c' : Client} {r : JvmReply} {w w' : Worker} {e : Event}
    (h : WorkerMove c r w c' w' e) (hlaw : e.Lawful) (hfail : ¬ e.AttachOk) :
    c'.env = c.env := by
  cases h with
  | attach _ _ _ =>
      cases hstored : r.stored with
      | none => simp
      | some env => cases env <;> simp_all [Event.Lawful, Event.AttachOk]
  | _ => rfl

/-- The invariant holds of every worker in every run the condition allows. -/
theorem ownsEnv_of_run {tr : List (State × Action)} {s : State} (hrun : AgentRun tr s)
    (hlaw : Lts.Along JvmLawful tr) (halone : Lts.Along AttachAlone tr) {i : ℕ} {w : Worker}
    (hi : s.threads[i]? = some w) : OwnsEnv s.shared.client w (traceOf i tr) := by
  have hC : Lts.Along (fun s a => JvmLawful s a ∧ AttachAlone s a) tr :=
    fun x hx => ⟨hlaw x hx, halone x hx⟩
  refine hrun.induct_along (I := fun tr s => ∀ j u, s.threads[j]? = some u →
    OwnsEnv s.shared.client u (traceOf j tr)) hC (by simp) ?_ i w hi
  rintro tr s a s' hpre hI ⟨hlaw, halone⟩ hstep
  obtain ⟨x, c, k, o, rfl, hmove, rfl⟩ | ⟨i, r, w, c, w', e, rfl, hi, hmove, he, rfl⟩ :=
    agent_step_cases hstep
  · intro j u hj
    refine histories_controller (Q := fun _ u l => OwnsEnv c u l) (fun j u hj => ?_)
      (traceOf_eq_nil hpre (Nat.le_refl _)) (fun u ho => ?_) hj
    · exact (hI j u hj).frame fun _ => hmove.env_eq
    · rw [hmove.eq_start ho]
      exact OwnsEnv.start
  · have hlawe : e.Lawful := hlaw _ he
    intro j u hj
    refine histories_worker (Q := fun _ u l => OwnsEnv c u l) hi he
      ((hI i w hi).own hlawe hmove) (fun j u _ hj => (hI j u hj).frame fun huses => ?_) hj
    refine hmove.env_eq_of_lawful hlawe fun hok => ?_
    exact (halone _ he hok).not_of_getElem? hj huses

/-- In every run the condition allows, every call through `Client::env` is confined. -/
theorem confined_of_run {tr : List (State × Action)} {s : State} (hrun : AgentRun tr s)
    (hlaw : Lts.Along JvmLawful tr) (halone : Lts.Along AttachAlone tr) (i : ℕ) :
    Confined (traceOf i tr) := by
  by_cases hi : i < s.threads.length
  · exact (ownsEnv_of_run hrun hlaw halone (List.getElem?_eq_getElem hi)).confined
  · rw [traceOf_eq_nil hrun (Nat.le_of_not_lt hi)]
    exact Lts.historically_nil _

/-! ### The condition is needed -/

/-- A pointer some worker holds is one a successful attach of the run returned. -/
theorem HoldsPointer.mem_attachedPointers {tr : List (State × Action)} {j p : ℕ}
    (h : HoldsPointer (traceOf j tr) p) : p ∈ attachedPointers tr := by
  obtain ⟨x, hx, hmoved⟩ := mem_traceOf.mp h.1
  refine List.mem_filterMap.mpr ⟨x, hx, Option.bind_eq_some_iff.mpr ⟨_, hmoved, ?_⟩⟩
  simp [Event.pointer]

/-- An attach that succeeds while another worker relies on `Client::env` leaves that
worker with a pointer it does not hold. -/
theorem exists_lost_of_not_attachAlone {tr : List (State × Action)} {s s' : State} {a : Action}
    (hstep : agent.lts.step s a = some s') (hlaw : JvmLawful s a)
    (hfresh : (attachedPointers (tr ++ [(s, a)])).Nodup) (halone : ¬ AttachAlone s a) :
    ∃ j w q, s'.threads[j]? = some w ∧ w.UsesEnv ∧ s'.shared.client.env = some q ∧
      ¬ HoldsPointer (traceOf j (tr ++ [(s, a)])) q := by
  obtain ⟨m, hm, hok, hused⟩ : ∃ m ∈ moved (s, a), m.2.AttachOk ∧
      ¬ NoneOf Worker.UsesEnv s.threads := by
    simpa [AttachAlone] using halone
  obtain ⟨x, c, k, o, rfl, hmove, rfl⟩ | ⟨i, r, w, c, w', e, rfl, hi, hmove, he, rfl⟩ :=
    agent_step_cases hstep
  · simp at hm
  obtain rfl : (i, e) = m := Option.some.inj (he.symm.trans hm)
  obtain ⟨j, u, hj, huses⟩ := exists_of_not_noneOf hused
  cases hmove with
  | attach hw _ _ =>
      have hne : j ≠ i := by
        rintro rfl
        obtain rfl : w = u := Option.some.inj (hi.symm.trans hj)
        simp [Worker.UsesEnv, hw] at huses
      obtain ⟨q, hq⟩ : ∃ q, r.stored = some (some q) := by
        have hlawe : (Event.attach r.result r.stored).Lawful := hlaw _ he
        have hresult : r.result = jniOk := hok
        cases hstored : r.stored with
        | none => simp [Event.Lawful, hstored, hresult] at hlawe
        | some env => cases env <;> simp_all [Event.Lawful]
      refine ⟨j, u, q, (ThreadPool.getElem?_set hi).mpr (Or.inr ⟨hne, hj⟩), huses,
        by simp [hq], fun hheld => ?_⟩
      rw [traceOf_snoc_ne he hne] at hheld
      have hnew : attachedPointers (tr ++ [(s, .thread i r)]) = attachedPointers tr ++ [q] := by
        have hresult : r.result = jniOk := hok
        simp [attachedPointers, he, Event.pointer, hq, hresult]
      rw [hnew, List.nodup_append] at hfresh
      exact hfresh.2.2 q hheld.mem_attachedPointers q (List.mem_singleton_self q) rfl
  | _ => simp [Event.AttachOk] at hok

/-- The step is no attach. -/
def NoAttach (s : State) (a : Action) : Prop :=
  ∀ m ∈ moved (s, a), ∀ result stored, m.2 ≠ .attach result stored

/-- A step that is no attach has nothing the JVM could break. -/
theorem NoAttach.jvmLawful {s : State} {a : Action} (h : NoAttach s a) : JvmLawful s a := by
  intro m hm
  cases he : m.2 with
  | attach result stored => exact absurd he (h m hm result stored)
  | _ => trivial

/-- Without an attach no pointer comes in. -/
theorem attachedPointers_eq_nil {tr : List (State × Action)} (h : Lts.Along NoAttach tr) :
    attachedPointers tr = [] := by
  refine List.filterMap_eq_nil_iff.mpr fun x hx => Option.bind_eq_none_iff.mpr fun m hm => ?_
  cases he : m.2 with
  | attach result stored => exact absurd he (h x hx m hm result stored)
  | _ => rfl

/-- A worker that relies on `Client::env` does not attach. -/
theorem Worker.UsesEnv.noAttach {s : State} {i : ℕ} {r : JvmReply} {w : Worker}
    (hi : s.threads[i]? = some w) (hw : w.UsesEnv) : NoAttach s (.thread i r) := by
  rintro m hm result stored he
  obtain ⟨o, ho, hevent⟩ := exists_op_of_moved_thread (j := m.1) (e := m.2) hi hm
  obtain rfl : o = .attach := by
    cases o <;> simp [Op.event, he] at hevent ⊢
  have hpc : w.pc = .attach := by
    cases hpc : w.pc <;> simp [Worker.op, hpc] at ho ⊢
  simp [Worker.UsesEnv, Worker.phase, hpc, Pc.phase] at hw

/-- A pointer is not come by without an attach. -/
theorem HoldsPointer.of_append {tr tr' : List (State × Action)} {j p : ℕ}
    (h : HoldsPointer (traceOf j (tr ++ tr')) p) (hno : Lts.Along NoAttach tr') :
    HoldsPointer (traceOf j tr) p := by
  obtain ⟨hattach, hdetach⟩ := h
  simp only [traceOf, Lts.observe_append, List.mem_append] at hattach hdetach
  refine ⟨hattach.resolve_right fun hmem => ?_, fun hmem => hdetach (Or.inl hmem)⟩
  obtain ⟨x, hx, hmoved⟩ := mem_traceOf.mp hmem
  exact hno x hx _ hmoved _ _ rfl

/-- A worker that relies on `Client::env` goes on relying on it while everything succeeds,
and does not write it, unless it leaves the polling loop. -/
theorem WorkerMove.usesEnv {c c' : Client} {w w' : Worker} {e : Event}
    (h : WorkerMove c .succeeding w c' w' e) (hw : w.UsesEnv) (henv : c.env ≠ none)
    (hpc : w.pc ≠ .testRunning) : w'.UsesEnv ∧ c'.env = c.env := by
  simp only [Worker.UsesEnv] at hw ⊢
  cases h with
  | attached _ hw' _ _ | call _ _ hw' _ | sleep _ _ hw' _ => simp [hw']
  | attachFailed hw₁ _ hfail =>
      rw [hw₁] at hw
      exact absurd hfail (not_or.mpr ⟨not_not.mpr hw, henv⟩)
  | poll hw₁ _ _ | pollEnded hw₁ _ _ => exact absurd hw₁ hpc
  | lookupFailed _ _ _ hfail => exact absurd hfail w.not_lookupFails_succeeding
  | attach hw₁ _ _ | report _ hw₁ _ | clear hw₁ _ | detach hw₁ _ | ret hw₁ _ => simp [hw₁] at hw

/-- What relies on `Client::env` has not returned. -/
theorem Worker.UsesEnv.unfinished {w : Worker} (h : w.UsesEnv) : w.Unfinished := by
  intro hw
  simp [UsesEnv, hw] at h

/-- A worker at its loop test gets to the call behind it: a start raises the flag. -/
theorem exists_run_past_test {s : State} {i : ℕ} {w : Worker} (hi : s.threads[i]? = some w)
    (hpc : w.pc = .testRunning) :
    ∃ tr t u, agent.lts.Run s tr t ∧ Lts.Along NoAttach tr ∧ t.threads[i]? = some u ∧
      u.call ≠ none ∧ t.shared.client.env = s.shared.client.env := by
  obtain ⟨tr, t, hrun, hall, hflag, henv, hthreads⟩ := exists_run_raise s
  have hi' := hthreads i w hi
  have hstep : agent.lts.step t (.thread i {}) = some _ :=
    step_worker.mpr ⟨w, .testRunning, hi', by simp [Worker.op, hpc], rfl⟩
  have huses : w.UsesEnv := by simp [Worker.UsesEnv, Worker.phase, hpc, Pc.phase]
  refine ⟨_, _, _, hrun.snoc hstep, Lts.along_append.mpr ⟨fun x hx => ?_, ?_⟩,
    List.getElem?_set_self (ThreadPool.lt_length_of_getElem? hi'), ?_, henv⟩
  · obtain ⟨x', hx'⟩ := hall x hx
    simp [NoAttach, hx']
  · exact Lts.along_singleton.mpr (huses.noAttach hi')
  · simp [Worker.resume, hpc, Op.answer, hflag, Worker.goto, Worker.call, Worker.op]

/-- A worker that relies on `Client::env` gets to a call through it, and nobody attaches
before. -/
theorem exists_run_to_call {s : State} {i q : ℕ} {w : Worker} (hi : s.threads[i]? = some w)
    (hw : w.UsesEnv) (henv : s.shared.client.env = some q) :
    ∃ tr t u, agent.lts.Run s tr t ∧ Lts.Along NoAttach tr ∧ t.threads[i]? = some u ∧
      u.call ≠ none ∧ t.shared.client.env = some q := by
  obtain ⟨tr, t, u, hrun, hall, -, hthreads, ⟨-, henv'⟩, hdone⟩ :=
    exists_run_until serialized none (r := .succeeding)
      (I := fun c w => w.UsesEnv ∧ c.env = some q)
      (D := fun w => w.call ≠ none ∨ w.pc = .testRunning) (fun c w ⟨hw, henv⟩ hdone => by
        obtain ⟨-, hpc⟩ := not_or.mp hdone
        refine ⟨hw.unfinished, fun h => absurd h hpc, fun c' w' e hmove => ?_⟩
        obtain ⟨hw', henv'⟩ := hmove.usesEnv hw (by simp [henv]) hpc
        exact ⟨hw', henv'.trans henv⟩) hi ⟨hw, henv⟩
  have hi' : t.threads[i]? = some u := by
    rw [hthreads]
    exact List.getElem?_set_self (ThreadPool.lt_length_of_getElem? hi)
  have hno : Lts.Along NoAttach tr := by
    rintro ⟨t', a⟩ hx
    obtain ⟨rfl, v, hv, ⟨hv', -⟩, -⟩ := hall _ hx
    exact hv'.noAttach hv
  rcases hdone with hcall | hpc
  · exact ⟨tr, t, u, hrun, hno, hi', hcall, henv'⟩
  · obtain ⟨tr₂, t₂, u₂, hrun₂, hno₂, hi₂, hcall, henv₂⟩ := exists_run_past_test hi' hpc
    exact ⟨tr ++ tr₂, t₂, u₂, hrun.append hrun₂, Lts.along_append.mpr ⟨hno, hno₂⟩, hi₂, hcall,
      henv₂.trans henv'⟩

/-- A worker that relies on `Client::env` and finds a pointer there that it does not hold
goes on to a call through that pointer. -/
theorem exists_run_not_confined {tr : List (State × Action)} {s : State} {i q : ℕ} {w : Worker}
    (hi : s.threads[i]? = some w) (hw : w.UsesEnv) (henv : s.shared.client.env = some q)
    (hlost : ¬ HoldsPointer (traceOf i tr) q) :
    ∃ tr' t, agent.lts.Run s tr' t ∧ Lts.Along NoAttach tr' ∧
      ¬ Confined (traceOf i (tr ++ tr')) := by
  obtain ⟨tr', t, u, hrun, hno, hi', hcall, henv'⟩ := exists_run_to_call hi hw henv
  obtain ⟨f, hf⟩ : ∃ f, u.op = some (.env f) := by
    rw [Worker.call] at hcall
    split at hcall
    · exact ⟨_, ‹_›⟩
    · exact absurd rfl hcall
  have hstep : agent.lts.step t (.thread i {}) = some _ :=
    step_worker.mpr ⟨u, .env f, hi', hf, rfl⟩
  have hmoved : moved (t, (.thread i {} : Action)) =
      some (i, .env (some q) f none false) := by
    simp [moved, hi', hf, Op.event, henv']
  refine ⟨_, _, hrun.snoc hstep, Lts.along_append.mpr ⟨hno, Lts.along_singleton.mpr ?_⟩, ?_⟩
  · intro m hm
    obtain rfl := Option.some.inj (hmoved.symm.trans hm)
    simp
  · intro hconf
    rw [← List.append_assoc, traceOf_snoc_self hmoved] at hconf
    obtain ⟨p, hp, hheld⟩ := (Lts.historically_snoc.mp hconf).2 _ _ _ _ rfl
    obtain rfl : q = p := Option.some.inj hp
    exact hlost (hheld.of_append hno)

/-- **JNIEnv confinement.** Let every successful attach store a pointer that is not null,
and a failed one nothing. In every run in which no attach succeeds while another worker
relies on `Client::env`, every call of every worker through `Client::env` uses the pointer
its own attach returned, before it detaches. And an attach that does succeed then, with a
pointer not seen before, leaves a worker that relies on `Client::env` without its own, and
the run goes on, with nobody attaching, to a call of that worker that is not confined. -/
theorem env_confined {tr : List (State × Action)} {s : State} (hrun : AgentRun tr s)
    (hlaw : Lts.Along JvmLawful tr) :
    (Lts.Along AttachAlone tr → ∀ i, Confined (traceOf i tr)) ∧
      ∀ a s', agent.lts.step s a = some s' → JvmLawful s a →
        (attachedPointers (tr ++ [(s, a)])).Nodup → ¬ AttachAlone s a →
        ∃ j w, s'.threads[j]? = some w ∧ w.UsesEnv ∧
          (∀ p, HoldsPointer (traceOf j (tr ++ [(s, a)])) p → s'.shared.client.env ≠ some p) ∧
          ∃ tr' t, agent.lts.Run s' tr' t ∧ Lts.Along JvmLawful tr' ∧
            attachedPointers tr' = [] ∧ ¬ Confined (traceOf j (tr ++ (s, a) :: tr')) := by
  refine ⟨confined_of_run hrun hlaw, fun a s' hstep hlaw' hfresh halone => ?_⟩
  obtain ⟨j, w, q, hj, huses, henv, hlost⟩ :=
    exists_lost_of_not_attachAlone hstep hlaw' hfresh halone
  obtain ⟨tr', t, hrun', hno, hconf⟩ := exists_run_not_confined hj huses henv hlost
  refine ⟨j, w, hj, huses, fun p hheld hp => ?_, tr', t, hrun', fun x hx => (hno x hx).jvmLawful,
    attachedPointers_eq_nil hno, by simpa using hconf⟩
  obtain rfl : q = p := Option.some.inj (henv.symm.trans hp)
  exact hlost hheld

/-- A run to which the theorem applies: the first worker finds no `LogManager` and
detaches, then a second session attaches and makes its first call. -/
theorem env_confined_two_sessions :
    ∃ tr s, AgentRun tr s ∧ Lts.Along JvmLawful tr ∧ Lts.Along AttachAlone tr ∧
      attachedPointers tr = [7, 8] ∧ ∀ i, Confined (traceOf i tr) := by
  obtain ⟨tr, s, hrun, hlaw, halone, hpointers⟩ := exists_agentRun
    (P := fun tr _ => Lts.Along JvmLawful tr ∧ Lts.Along AttachAlone tr ∧
      attachedPointers tr = [7, 8])
    (createdBy (.onLoad 0) ++
      [.thread 0 { stored := some (some 7) }, .thread 0 {}, .thread 0 {}, .thread 0 {}] ++
      stoppedBy 0 ++ createdBy (.onAttach 0) ++
      [.thread 1 { stored := some (some 8) }, .thread 1 {}, .thread 1 { value := some 1 }])
    (by decide)
  exact ⟨tr, s, hrun, hlaw, halone, hpointers, (env_confined hrun hlaw).1 halone⟩

/-- Without the condition it fails: the second session's worker attaches while the first
one is still looking up its first class, and that call then uses the other's pointer. -/
theorem not_env_confined :
    ¬ ∀ tr s, AgentRun tr s → Lts.Along JvmLawful tr → (attachedPointers tr).Nodup →
      ∀ i, Confined (traceOf i tr) := by
  intro hclaim
  obtain ⟨tr, s, hrun, hlaw, hfresh, htrace⟩ := exists_agentRun
    (P := fun tr _ => Lts.Along JvmLawful tr ∧ (attachedPointers tr).Nodup ∧
      traceOf 0 tr =
        [.attach jniOk (some (some 7)), .checkEnv (some 7),
          .env (some 8) (.findClass "org/apache/logging/log4j/LogManager") none false])
    (createdBy (.onLoad 0) ++ [.thread 0 { stored := some (some 7) }, .thread 0 {}] ++
      stoppedBy 0 ++ createdBy (.onAttach 0) ++
      [.thread 1 { stored := some (some 8) }, .thread 0 {}])
    (by decide)
  have hconf := hclaim tr s hrun hlaw hfresh 0
  rw [htrace] at hconf
  obtain ⟨p, hp, hheld⟩ := hconf [.attach jniOk (some (some 7)), .checkEnv (some 7)] _ [] rfl
    _ _ _ _ rfl
  obtain rfl : 8 = p := Option.some.inj hp
  simp [HoldsPointer] at hheld

end Rynox
