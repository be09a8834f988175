import Rynox.Worker

/-!
# Pending Exceptions

A Java method that raises leaves its exception pending on the thread, and while one is
pending only a few JNI calls may be made. `runClient` never asks for a pending exception and
never clears one. What it does do is leave for `DetachCurrentThread` when a call answers
null before the log loop, and skip the rest of the iteration when the game has no instance.

That keeps it clear of forbidden calls when `LogManager.getLogger` raises, and when
`Minecraft.getInstance` does in the last iteration. It does not when `NewStringUTF` raises,
when `Logger.info` does and the worker goes on after the pause, and when `Minecraft.getInstance`
does and another iteration follows: those three are all there is (`no_call_pending`).
-/

namespace Rynox

/-- An exception is pending after the run: some call has raised one. Nothing clears it. -/
def pending (tr : List (Worker × Answer)) : Bool :=
  tr.any fun x => x.2.raised

/-- Nothing is pending at the start. -/
@[simp] theorem pending_nil : pending [] = false := rfl

/-- The last step may raise a further exception, and clears none. -/
@[simp] theorem pending_snoc (tr : List (Worker × Answer)) (x : Worker × Answer) :
    pending (tr ++ [x]) = (pending tr || x.2.raised) := by
  simp [pending]

namespace Worker

/-- With the exception status `p`, the worker's next call through `Client::env`, if there is
one, is allowed. -/
def MayCall (p : Bool) (w : Worker) : Prop :=
  p = true → ∀ f ∈ w.call, f.allowedPending = true

/-- The JVM's part: every lookup succeeds and raises nothing, and only the calls that may
raise do, which then answer null where they answer a reference. -/
def LookupsSucceed (w : Worker) (a : Answer) : Prop :=
  (∀ f ∈ w.call, f.isLookup = true → a.value ≠ none) ∧
    (a.raised = true → ∃ f ∈ w.call, f.mayRaise = true ∧
      (f.answersReference = true → a.value = none))

instance (w : Worker) (a : Answer) : Decidable (w.LookupsSucceed a) :=
  inferInstanceAs (Decidable ((∀ f ∈ w.call, _ → _) ∧ (_ → ∃ f ∈ w.call, _ ∧ _)))

/-- The step does not lead to a forbidden call, given the exception status before it: no
`NewStringUTF` raises, the worker does not go on after the pause of the log loop with an
exception pending, and no loop test succeeds with one. -/
def Contained (p : Bool) (w : Worker) (a : Answer) : Prop :=
  (w.pc = .newMessage → a.raised = false) ∧ (w.pc = .sleepLog → p = false) ∧
    (w.pc = .testRunning → a.test = true → p = false)

instance (p : Bool) (w : Worker) (a : Answer) : Decidable (w.Contained p a) :=
  inferInstanceAs (Decidable ((_ → _) ∧ (_ → _) ∧ (_ → _ → p = false)))

/-- The control points with an exception pending: in the log loop from the deletion of the
message to the pause, between polls, and on the way out. -/
def PendingAt (w : Worker) : Prop :=
  match w.pc with
  | .deleteMessage | .sleepLog | .sleepPoll | .testRunning | .detach _ | .ret | .returned => True
  | _ => False

variable {w : Worker} {a : Answer} {p : Bool}

/-- With nothing pending a worker may make any call. -/
@[simp] theorem mayCall_false : w.MayCall false :=
  fun h => absurd h (by decide)

/-- A worker that calls nothing through `Client::env` next may have anything pending. -/
theorem mayCall_of_call (h : w.call = none) : w.MayCall p := by
  intro _ f hf
  simp [h] at hf

/-- A forbidden call is next. -/
theorem not_mayCall_of_call {f : EnvCall} (hf : w.call = some f)
    (hforbidden : f.allowedPending = false) : ¬ w.MayCall true := by
  intro hmay
  rw [hmay rfl f hf] at hforbidden
  cases hforbidden

/-- Where an exception may be raised. -/
theorem pc_of_raised (h : w.LookupsSucceed a) (hraised : a.raised = true) :
    w.pc = .newMessage ∨ w.pc = .callInfo ∨
      ((w.pc = .callGetLogger ∨ w.pc = .callGetInstance) ∧ a.value = none) := by
  obtain ⟨f, hf, hmay, hnull⟩ := h.2 hraised
  cases hpc : w.pc <;> simp only [call, op, hpc, Option.mem_def, Option.some.injEq,
    reduceCtorEq] at hf <;> subst hf <;> simp_all [EnvCall.mayRaise, EnvCall.answersReference]

/-- The head of the log loop calls something that is forbidden while an exception is
pending. -/
theorem not_mayCall_logLoop : ¬ w.logLoop.MayCall true := by
  rw [logLoop]
  split
  · exact not_mayCall_of_call (f := .newStringUTF "[Rynox] Rynox hook bypass") rfl rfl
  · exact not_mayCall_of_call (f := .findClass "net/minecraft/client/Minecraft") rfl rfl

/-- A step with an exception pending before it. -/
theorem mayCall_resume_of_pending (h : w.PendingAt) :
    ((w.resume a).MayCall true ↔ w.Contained true a) ∧
      ((w.resume a).MayCall true → (w.resume a).PendingAt) := by
  cases hpc : w.pc <;> simp only [PendingAt, hpc] at h <;>
    simp only [resume, hpc, Contained, reduceCtorEq, false_imp_iff, true_and, and_true]
  case sleepLog =>
      simp only [imp_false, not_true_eq_false, iff_false]
      exact ⟨not_mayCall_logLoop, fun hmay => absurd hmay not_mayCall_logLoop⟩
  case testRunning =>
      cases a.test with
      | true =>
          have hforbidden : ¬ (w.goto .callGetInstance).MayCall true :=
            not_mayCall_of_call (f := .callStaticObjectMethod w.minecraftClass w.getInstanceMethod)
              rfl rfl
          simp [hforbidden]
      | false =>
          have hallowed : (w.goto (.detach .pollingEnded)).MayCall true :=
            mayCall_of_call (by simp [goto, call, op])
          simpa [PendingAt, goto] using hallowed
  case returned =>
      have hallowed : w.MayCall true := mayCall_of_call (by simp [call, op, hpc])
      exact ⟨iff_of_true hallowed (by simp), fun _ => by simp [PendingAt, hpc]⟩
  case deleteMessage | sleepPoll | detach | ret =>
      refine ⟨iff_of_true (mayCall_of_call (by simp [goto, call, op])) (by simp), fun _ => ?_⟩
      simp [PendingAt, goto]

/-- A step that raises an exception. -/
theorem mayCall_resume_of_raised (h : w.LookupsSucceed a) (hraised : a.raised = true) :
    ((w.resume a).MayCall true ↔ w.Contained false a) ∧
      ((w.resume a).MayCall true → (w.resume a).PendingAt) := by
  rcases pc_of_raised h hraised with hpc | hpc | ⟨hpc | hpc, hnull⟩
  · have hforbidden : ¬ (w.resume a).MayCall true :=
      not_mayCall_of_call (f := .callVoidMethod w.rootLogger w.infoMethod a.value)
        (by simp [resume, call, op, hpc]) rfl
    exact ⟨iff_of_false hforbidden (by simp [Contained, hpc, hraised]),
      fun hmay => absurd hmay hforbidden⟩
  · have hallowed : (w.resume a).MayCall true := by
      intro _ f hf
      obtain rfl : EnvCall.deleteLocalRef w.message = f := by
        simpa [resume, hpc, goto, call, op] using hf
      rfl
    exact ⟨iff_of_true hallowed (by simp [Contained, hpc]),
      fun _ => by simp [PendingAt, resume, hpc, goto]⟩
  · have hallowed : (w.resume a).MayCall true :=
      mayCall_of_call (by simp [resume, call, op, hpc, hnull])
    exact ⟨iff_of_true hallowed (by simp [Contained, hpc]),
      fun _ => by simp [PendingAt, resume, hpc, hnull]⟩
  · have hallowed : (w.resume a).MayCall true :=
      mayCall_of_call (by simp [resume, call, op, hpc, hnull])
    exact ⟨iff_of_true hallowed (by simp [Contained, hpc]),
      fun _ => by simp [PendingAt, resume, hpc, hnull]⟩

/-- Whether the next call is allowed was settled by the step that led to it. -/
theorem mayCall_resume (hpending : p = true → w.PendingAt) (h : w.LookupsSucceed a) :
    ((w.resume a).MayCall (p || a.raised) ↔ w.Contained p a) ∧
      ((w.resume a).MayCall (p || a.raised) → (p || a.raised) = true →
        (w.resume a).PendingAt) := by
  cases hp : p with
  | true =>
      obtain ⟨hiff, hat⟩ := mayCall_resume_of_pending (a := a) (hpending hp)
      rw [Bool.true_or]
      exact ⟨hiff, fun hmay _ => hat hmay⟩
  | false =>
      cases hraised : a.raised with
      | true =>
          obtain ⟨hiff, hat⟩ := mayCall_resume_of_raised h hraised
          exact ⟨hiff, fun hmay _ => hat hmay⟩
      | false => simp [Contained, hraised]

/-- The calls of a run are allowed exactly when the condition holds of it, and while they
are, the worker stands where an exception may be pending if one is. -/
theorem pendingAt_of_run {tr : List (Worker × Answer)} (hrun : lts.Run start tr w)
    (hjvm : Lts.Along LookupsSucceed tr) :
    ((Lts.Historically (fun before x => x.1.MayCall (pending before)) tr ∧
        w.MayCall (pending tr)) ↔
      Lts.Historically (fun before x => x.1.Contained (pending before) x.2) tr) ∧
      (Lts.Historically (fun before x => x.1.MayCall (pending before)) tr ∧
        w.MayCall (pending tr) → pending tr = true → w.PendingAt) := by
  refine hrun.induct_along (I := fun tr w =>
    ((Lts.Historically (fun before x => x.1.MayCall (pending before)) tr ∧
        w.MayCall (pending tr)) ↔
      Lts.Historically (fun before x => x.1.Contained (pending before) x.2) tr) ∧
      (Lts.Historically (fun before x => x.1.MayCall (pending before)) tr ∧
        w.MayCall (pending tr) → pending tr = true → w.PendingAt))
    hjvm ⟨by simp, by simp⟩ ?_
  rintro tr t a u - ⟨hiff, hat⟩ hjvm hstep
  obtain ⟨-, rfl⟩ := lts_step.mp hstep
  rw [Lts.historically_snoc, Lts.historically_snoc, pending_snoc]
  constructor
  · constructor
    · rintro ⟨hsafe, hmay⟩
      exact ⟨hiff.mp hsafe, (mayCall_resume (hat hsafe) hjvm).1.mp hmay⟩
    · rintro ⟨hcontained, hstep⟩
      have hsafe := hiff.mpr hcontained
      exact ⟨hsafe, (mayCall_resume (hat hsafe) hjvm).1.mpr hstep⟩
  · rintro ⟨hsafe, hmay⟩
    exact (mayCall_resume (hat hsafe) hjvm).2 hmay

/-- **No call with an exception pending, as far as it goes.** Let every lookup succeed, and
let only `NewStringUTF`, `Logger.info`, `LogManager.getLogger` and `Minecraft.getInstance`
raise exceptions. Then in a run of one worker, every call through `Client::env` that it
makes or comes to make with an exception pending is allowed, if and only if no
`NewStringUTF` raises, the worker does not go on after a pause of the log loop with an
exception pending, and no loop test succeeds with one. -/
theorem no_call_pending {tr : List (Worker × Answer)} (hrun : lts.Run start tr w)
    (hjvm : Lts.Along LookupsSucceed tr) :
    (Lts.Historically (fun before x => x.1.MayCall (pending before)) tr ∧
        w.MayCall (pending tr)) ↔
      Lts.Historically (fun before x => x.1.Contained (pending before) x.2) tr :=
  (pendingAt_of_run hrun hjvm).1

/-- A run to which the theorem applies: `Minecraft.getInstance` raises in the last poll
iteration, and the worker detaches and returns with the exception pending. -/
theorem no_call_pending_last_poll :
    ∃ tr w, lts.Run start tr w ∧ w.pc = .returned ∧ pending tr = true ∧
      Lts.Historically (fun before x => x.1.MayCall (pending before)) tr := by
  obtain ⟨tr, w, hrun, hjvm, hcontained, hpc, hpending⟩ := Lts.exists_run_of_exec
    (L := lts) (s := start)
    (P := fun tr w => Lts.Along LookupsSucceed tr ∧
      Lts.Historically (fun before x => x.1.Contained (pending before) x.2) tr ∧
      w.pc = .returned ∧ pending tr = true)
    (List.replicate 51 succeeding ++ { raised := true } :: List.replicate 4 failing) (by decide)
  exact ⟨tr, w, hrun, hpc, hpending, ((no_call_pending hrun hjvm).mpr hcontained).1⟩

/-- Without the condition it fails: `Minecraft.getInstance` raises, and the next poll
iteration calls it again with the exception pending. -/
theorem not_no_call_pending :
    ¬ ∀ tr w, lts.Run start tr w → Lts.Along LookupsSucceed tr →
      Lts.Historically (fun before x => x.1.MayCall (pending before)) tr ∧
        w.MayCall (pending tr) := by
  intro hclaim
  obtain ⟨tr, w, hrun, hjvm, hpending, hcall⟩ := Lts.exists_run_of_exec (L := lts) (s := start)
    (P := fun tr w => Lts.Along LookupsSucceed tr ∧ pending tr = true ∧
      w.call = some (.callStaticObjectMethod (some 1) (some 1)))
    (List.replicate 51 succeeding ++ [{ raised := true }, failing, succeeding]) (by decide)
  have hmay := (hclaim tr w hrun hjvm).2
  rw [hpending] at hmay
  exact absurd (hmay rfl _ hcall) (by decide)

end Worker

end Rynox
