import Rynox.Exceptions
import Rynox.LocalRefs
import Rynox.Overlap

/-!
# The Lone Worker in the Library

The lone worker `Worker.lts` takes its answers as they come. In the library they come from
the shared variables and from the JVM, and between two steps of a worker the calls and the
other workers move. Forgetting everything but the steps of one worker leaves a run of the
lone worker (`run_lifeOf`); so what was proved of that worker under all answers holds of
each worker of the library, however the steps interleave.

The null handles are the case in point: whether a worker hands one to JNI depends on what it
found and on nothing the others do (`nullSafe_of_run`).
-/

namespace Rynox

/-- What a worker learns from the operation it stands at. -/
def Worker.answered {κ : Type} (g : Agent κ) (w : Worker) (r : JvmReply) : Answer :=
  (w.op.map fun o => o.answer g.client r).getD {}

section Life

variable {κ α : Type} {controller : Agent κ → α → Option (Agent κ × Option Worker)} {calls : κ}
  {tr : List (StateOf κ × ActionOf α)} {s : StateOf κ} {i : ℕ} {w : Worker}

/-- The steps of worker `i` in a run, as the worker sees them. -/
def lifeOf (i : ℕ) (tr : List (StateOf κ × ActionOf α)) : List (Worker × Answer) :=
  ThreadPool.localRun Worker.answered i tr

/-- The steps of the controller are in no life. -/
theorem lifeOf_snoc_controller {x : α} :
    lifeOf i (tr ++ [(s, .controller x)]) = lifeOf i tr := by
  simp [lifeOf, ThreadPool.localRun_snoc, ThreadPool.localStep]

/-- A step of worker `i` is appended to its life. -/
theorem lifeOf_snoc_self {r : JvmReply} (hi : s.threads[i]? = some w) :
    lifeOf i (tr ++ [(s, .thread i r)]) = lifeOf i tr ++ [(w, w.answered s.shared r)] := by
  simp [lifeOf, ThreadPool.localRun_snoc, ThreadPool.localStep, hi]

/-- The life of a worker is a run of the lone worker, if workers are created at their
start. -/
theorem run_lifeOf
    (hspawn : ∀ g x g' o, controller g x = some (g', o) → ∀ u, o = some u → u = Worker.start)
    (hrun : (agentOf calls controller).lts.Run (agentOf calls controller).lts.init tr s)
    (hi : s.threads[i]? = some w) : Worker.lts.Run Worker.start (lifeOf i tr) w := by
  refine ThreadPool.run_localRun (fun g x g' u hx => hspawn g x g' _ hx u rfl) ?_ hrun hi
  intro g u r g' u' hu
  obtain ⟨o, ho, hmoved⟩ := Option.map_eq_some_iff.mp hu
  obtain ⟨-, rfl⟩ := Prod.mk.inj hmoved
  refine Worker.lts_step.mpr ⟨Option.ne_none_iff_exists'.mpr ⟨o, ho⟩, ?_⟩
  rw [Worker.answered, ho, Option.map_some, Option.getD_some]

/-- A call seen in the trace of a worker is one it makes in its life. -/
theorem exists_mem_lifeOf {p : EnvPtr} {f : EnvCall} {v : Option ℕ} {x : Bool}
    (h : Event.env p f v x ∈ traceOf i tr) : ∃ y ∈ lifeOf i tr, y.1.call = some f := by
  obtain ⟨⟨s, a⟩, hz, hmoved⟩ := mem_traceOf.mp h
  obtain ⟨r, w, o, rfl, hi, ho, hevent⟩ := exists_op_of_moved hmoved
  obtain rfl := Op.eq_env_of_event hevent
  refine ⟨(w, w.answered s.shared r), List.mem_filterMap.mpr ⟨_, hz, ?_⟩, ?_⟩
  · simp [ThreadPool.localStep, hi]
  · simp [Worker.call, ho]

end Life

/-- The life of a worker under overlapping calls. -/
theorem run_lifeOf_overlap {tr : List (OverlapState × ActionOf OverlapAction)} {s : OverlapState}
    {i : ℕ} {w : Worker} (hrun : OverlapRun tr s) (hi : s.threads[i]? = some w) :
    Worker.lts.Run Worker.start (lifeOf i tr) w :=
  run_lifeOf (fun _ _ _ _ hx => (overlapped_spec hx).2) hrun hi

/-- **Null handles in the library.** A worker hands no null to JNI, whatever the calls and
the other workers do, if it enters no poll iteration when its lookup of
`Minecraft.getInstance` had answered null, and gets no instance from the game when that of
`player` had. -/
theorem nullSafe_of_run {tr : List (OverlapState × ActionOf OverlapAction)} {s : OverlapState}
    {i : ℕ} {w : Worker} (hrun : OverlapRun tr s) (hi : s.threads[i]? = some w)
    (hclass : Lts.Along Worker.ClassOfObject (lifeOf i tr))
    (hfound : Lts.Along Worker.GameMembersFound (lifeOf i tr)) :
    ∀ p f v x, .env p f v x ∈ traceOf i tr → f.NullSafe := by
  obtain ⟨hcalls, -⟩ := (Worker.found_of_run (run_lifeOf_overlap hrun hi) hclass).2.mpr hfound
  intro p f v x hevent
  obtain ⟨y, hy, hcall⟩ := exists_mem_lifeOf hevent
  exact hcalls y hy f hcall

/-- **Pending exceptions in the library.** Nor does it make a forbidden call while an
exception that one of its own calls has raised is pending, under the condition on the lone
worker. -/
theorem mayCall_of_run {tr : List (OverlapState × ActionOf OverlapAction)} {s : OverlapState}
    {i : ℕ} {w : Worker} (hrun : OverlapRun tr s) (hi : s.threads[i]? = some w)
    (hjvm : Lts.Along Worker.LookupsSucceed (lifeOf i tr))
    (hcontained : Lts.Historically
      (fun before x => x.1.Contained (pending before) x.2) (lifeOf i tr)) :
    Lts.Historically (fun before x => x.1.MayCall (pending before)) (lifeOf i tr) :=
  ((Worker.pendingAt_of_run (run_lifeOf_overlap hrun hi) hjvm).1.mpr hcontained).1

/-- **Local references in the library.** While a worker calls through its own pointer, the
references its answers brought it are in its variables, and never more than six are live,
however long the run and whatever the others do. -/
theorem refsAt_lifeOf {tr : List (OverlapState × ActionOf OverlapAction)} {s : OverlapState}
    {i : ℕ} {w : Worker} (hrun : OverlapRun tr s) (hi : s.threads[i]? = some w)
    (hfresh : Lts.Historically Resources.Fresh (accessesOf (lifeOf i tr))) :
    w.RefsAt (liveRefs (lifeOf i tr)) ∧ (liveRefs (lifeOf i tr)).length ≤ 6 := by
  obtain ⟨hrefs, -⟩ := Worker.refsAt_of_run (run_lifeOf_overlap hrun hi) hfresh
  exact ⟨hrefs, Worker.length_le_of_refsAt hrefs⟩

end Rynox
