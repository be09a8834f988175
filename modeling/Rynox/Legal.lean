import Rynox.EnvPointer
import Rynox.Typing

/-!
# Legal Calls

JNI checks none of its arguments: a call through another thread's pointer, with a null or a
deleted handle, with an ID of another class, or with an exception pending does whatever it
happens to do. `LegalCall` is all that JNI demands of one call in the library at work.

Each demand has its own reason to be met. What one worker's calls get depends on its own
answers; whose pointer `Client::env` holds depends on the others. Put together: where no
attach succeeds while another worker relies on `Client::env`, every call is legal that a
worker makes whose lookups succeed and whose exceptions stay contained (`legal_of_run`).
-/

namespace Rynox

namespace Worker

/-- What is known of the two lookups that `runClient` does not test, when they succeed. -/
def Members (w : Worker) : Prop :=
  match w.pc with
  | .getPlayerField => w.getInstanceMethod ≠ none
  | .testRunning | .callGetInstance | .getPlayer | .deletePlayer | .deleteMinecraft | .sleepPoll =>
      w.getInstanceMethod ≠ none ∧ w.playerField ≠ none
  | _ => True

variable {w : Worker} {a : Answer}

/-- `GetObjectClass` is one of the lookups. -/
theorem classOfObject_of_lookupsSucceed (h : w.LookupsSucceed a) : w.ClassOfObject a := by
  rw [ClassOfObject]
  split
  · rename_i hcall
    exact h.1 _ hcall rfl
  · trivial

/-- The head of the log loop is before the lookups of the game. -/
theorem members_logLoop : w.logLoop.Members := by
  rw [logLoop]
  split <;> trivial

/-- The polling loop keeps what the lookups found. -/
theorem members_resume (h : w.Members) (hlookup : w.LookupsSucceed a) : (w.resume a).Members := by
  obtain ⟨hfound, -⟩ := hlookup
  cases hpc : w.pc <;> simp only [Members, hpc] at h <;> simp only [resume, hpc]
  case getGetInstanceMethod =>
      have hcall : w.call = some (.getStaticMethodID w.minecraftClass "getInstance"
          "()Lnet/minecraft/client/Minecraft;") := by
        simp [call, op, hpc]
      exact hfound _ hcall rfl
  case getPlayerField =>
      have hcall : w.call = some (.getFieldID w.minecraftClass "player"
          "Lnet/minecraft/client/player/LocalPlayer;") := by
        simp [call, op, hpc]
      exact ⟨h, hfound _ hcall rfl⟩
  case sleepLog => exact members_logLoop
  case getInfoMethod =>
      split
      · trivial
      · exact members_logLoop
  all_goals
    try split
    all_goals simp_all [Members, goto]

/-- With these found, no call gets a null where it must not. -/
theorem callsNullSafe_of_members (hfound : w.Found) (h : w.Members) : w.CallsNullSafe := by
  rw [callsNullSafe_iff hfound]
  constructor
  · intro hpc
    simp only [Members, hpc] at h
    exact h.1
  · intro hpc
    simp only [Members, hpc] at h
    exact h.2

/-- While the lookups of a run succeed, its calls get no null. -/
theorem callsNullSafe_of_run {tr : List (Worker × Answer)} (hrun : lts.Run start tr w)
    (hlookups : Lts.Along LookupsSucceed tr) : w.CallsNullSafe := by
  have hclass : Lts.Along ClassOfObject tr :=
    fun x hx => classOfObject_of_lookupsSucceed (hlookups x hx)
  have hmembers : w.Members := by
    refine hrun.induct_along (I := fun _ w => w.Members) hlookups trivial ?_
    rintro tr w a w' - hI hlookup hstep
    obtain ⟨-, rfl⟩ := lts_step.mp hstep
    exact members_resume hI hlookup
  exact callsNullSafe_of_members (found_of_run hrun hclass).1 hmembers

/-- A worker that calls through `Client::env` relies on it. -/
theorem usesEnv_of_call {f : EnvCall} (hf : w.call = some f) : w.UsesEnv := by
  have hphase : w.phase = w.pc.phase := rfl
  refine usesEnv_iff.mpr (Or.inl ?_)
  cases hpc : w.pc <;> simp only [call, op, hpc, reduceCtorEq] at hf <;> rw [hphase, hpc] <;> rfl

end Worker

/-- The call `f` of worker `i` **is legal** after the run `tr`, when `Client::env` is `env`:
the worker's own pointer is there, and the worker is attached; what must not be null is not;
the handles have the types that `f` needs; no exception is pending, or `f` is allowed then;
and the references it is given are live. -/
structure LegalCall {κ α : Type} (tr : List (StateOf κ × ActionOf α)) (i : ℕ) (env : EnvPtr)
    (f : EnvCall) : Prop where
  own : ∃ p, env = some p ∧ HoldsPointer (traceOf i tr) p
  nonnull : f.NullSafe
  typed : WellTyped (answeredOf (lifeOf i tr)) f
  clear : pending (lifeOf i tr) = true → f.allowedPending = true
  live : ∀ n ∈ f.references.reduceOption, n ∈ liveRefs (lifeOf i tr)

/-- **Every call is legal.** In every run of the agent in which each successful attach stores
a pointer and none succeeds while another worker relies on `Client::env`: let the lookups of a
worker succeed, let it meet no exception it does not contain, and let the references it is
answered be new to it. Then whatever it is about to call is legal, whatever the others did
and do. -/
theorem legal_of_run {tr : List (State × Action)} {s : State} {i : ℕ} {w : Worker} {f : EnvCall}
    (hrun : AgentRun tr s) (hlaw : Lts.Along JvmLawful tr) (halone : Lts.Along AttachAlone tr)
    (hlookups : Lts.Along Worker.LookupsSucceed (lifeOf i tr))
    (hcontained : Lts.Historically
      (fun before x => x.1.Contained (pending before) x.2) (lifeOf i tr))
    (hfresh : Lts.Historically Resources.Fresh (accessesOf (lifeOf i tr)))
    (hi : s.threads[i]? = some w) (hf : w.call = some f) :
    LegalCall tr i s.shared.client.env f := by
  have hlife : Worker.lts.Run Worker.start (lifeOf i tr) w :=
    run_lifeOf (fun _ _ _ _ hx _ ho => (callMove_of_serialized hx).eq_start ho) hrun hi
  have howns := ownsEnv_of_run hrun hlaw halone hi
  have hmay := (Worker.pendingAt_of_run hlife hlookups).1.mpr hcontained
  have htyped := (Worker.wellTyped_of_run hlife).1
  have hrefs := (Worker.refsAt_of_run hlife hfresh).1
  exact {
    own := howns.holds (Worker.usesEnv_of_call hf)
    nonnull := Worker.callsNullSafe_of_run hlife hlookups f hf
    typed := Worker.wellTyped_of_typedAt htyped f hf
    clear := fun hpending => hmay.2 hpending f hf
    live := Worker.passed_live hrefs f hf }

/-- A run to which the theorem applies: `LogManager.getLogger` has raised for the worker of
the first session, which has detached, and that of the second is about to print. -/
theorem legal_of_run_two_sessions :
    ∃ tr s f, AgentRun tr s ∧ f = .callVoidMethod (some 2) (some 11) (some 4) ∧
      LegalCall tr 1 s.shared.client.env f := by
  obtain ⟨tr, s, hrun, hlaw, halone, hlookups, hcontained, hfresh, w, hi, f, hf, hinfo⟩ :=
    exists_agentRun
      (P := fun tr s => Lts.Along JvmLawful tr ∧ Lts.Along AttachAlone tr ∧
        Lts.Along Worker.LookupsSucceed (lifeOf 1 tr) ∧
        Lts.Historically (fun before x => x.1.Contained (pending before) x.2) (lifeOf 1 tr) ∧
        Lts.Historically Resources.Fresh (accessesOf (lifeOf 1 tr)) ∧
        ∃ w ∈ s.threads[1]?, ∃ f ∈ w.call, f = .callVoidMethod (some 2) (some 11) (some 4))
      (createdBy (.onLoad 0) ++ drivenBy 7 0 4 ++
        [.thread 0 { raised := true }, .thread 0 {}, .thread 0 {}] ++
        stoppedBy 0 ++ createdBy (.onAttach 0) ++ drivenBy 8 1 3 ++
        [.thread 1 { value := some 10 }, .thread 1 { value := some 2 },
          .thread 1 { value := some 3 }, .thread 1 { value := some 11 },
          .thread 1 { value := some 4 }])
      (by decide)
  exact ⟨tr, s, f, hrun, hinfo,
    legal_of_run hrun hlaw halone hlookups hcontained hfresh hi hf⟩

end Rynox
