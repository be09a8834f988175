import Rynox.Worker

/-!
# Null Handles

A class, a receiver object, a method ID or a field ID handed to JNI must not be null.
`runClient` tests five of its seven lookups, and both of the objects it fetches in a poll
iteration, before it uses what they answered. It does not test the last two lookups, of
`Minecraft.getInstance` and of the field `player`, and it uses them in the polling loop.

`Worker.Found` is what the null checks establish at each control point. It leaves exactly
two calls in doubt (`Worker.callsNullSafe_iff`), so a run hands no null to JNI if and only
if it enters no poll iteration with a null `getInstanceMethod` and gets no instance from the
game with a null `playerField` (`handles_nonnull`).
-/

namespace Rynox

namespace Worker

/-- The worker's next call through `Client::env`, if there is one, gets no null where it must
not. -/
def CallsNullSafe (w : Worker) : Prop :=
  ∀ f ∈ w.call, f.NullSafe

/-- What is known not to be null at each control point. -/
def Found (w : Worker) : Prop :=
  match w.pc with
  | .getGetLoggerMethod => w.logManagerClass ≠ none
  | .callGetLogger => w.logManagerClass ≠ none ∧ w.getLoggerMethod ≠ none
  | .getLoggerClass => w.rootLogger ≠ none
  | .getInfoMethod => w.rootLogger ≠ none ∧ w.loggerClass ≠ none
  | .newMessage | .callInfo | .deleteMessage | .sleepLog =>
      w.rootLogger ≠ none ∧ w.infoMethod ≠ none
  | .getGetInstanceMethod | .getPlayerField | .testRunning | .callGetInstance | .deletePlayer
  | .deleteMinecraft | .sleepPoll => w.minecraftClass ≠ none
  | .getPlayer => w.minecraftClass ≠ none ∧ w.minecraftInstance ≠ none
  | _ => True

/-- `GetObjectClass` of an object that is not null does not answer null. -/
def ClassOfObject (w : Worker) (a : Answer) : Prop :=
  match w.call with
  | some (.getObjectClass (some _)) => a.value ≠ none
  | _ => True

instance (w : Worker) (a : Answer) : Decidable (w.ClassOfObject a) := by
  rw [ClassOfObject]; split <;> infer_instance

/-- The step neither enters a poll iteration when the lookup of `Minecraft.getInstance` had
answered null, nor gets an instance when the lookup of `player` had. -/
def GameMembersFound (w : Worker) (a : Answer) : Prop :=
  (w.pc = .testRunning → a.test = true → w.getInstanceMethod ≠ none) ∧
    (w.pc = .callGetInstance → a.value ≠ none → w.playerField ≠ none)

instance (w : Worker) (a : Answer) : Decidable (w.GameMembersFound a) :=
  inferInstanceAs (Decidable (_ ∧ (_ → _ → w.playerField ≠ none)))

variable {w : Worker} {a : Answer}

/-- A worker that has just been created needs nothing yet. -/
theorem found_start : start.Found := trivial

/-- The head of the log loop keeps what the log loop needs. -/
theorem found_logLoop (hlogger : w.rootLogger ≠ none) (hinfo : w.infoMethod ≠ none) :
    w.logLoop.Found := by
  rw [logLoop]
  split
  · exact ⟨hlogger, hinfo⟩
  · trivial

/-- Every step keeps what is known not to be null. -/
theorem found_resume (h : w.Found) (hclass : w.ClassOfObject a) : (w.resume a).Found := by
  cases hpc : w.pc <;> simp only [Found, hpc] at h <;> simp only [resume, hpc]
  case getLoggerClass =>
      obtain ⟨n, hn⟩ := Option.ne_none_iff_exists'.mp h
      refine ⟨h, ?_⟩
      simpa [ClassOfObject, call, op, hpc, hn] using hclass
  case sleepLog => exact found_logLoop h.1 h.2
  case getInfoMethod =>
      split
      · trivial
      · rename_i hinfo
        exact found_logLoop h.1 hinfo
  all_goals
    try split
    all_goals simp_all [Found, goto]

/-- Of the calls a worker makes only the two that use the untested lookups may hand a null
to JNI. -/
theorem callsNullSafe_iff (h : w.Found) :
    w.CallsNullSafe ↔ (w.pc = .callGetInstance → w.getInstanceMethod ≠ none) ∧
      (w.pc = .getPlayer → w.playerField ≠ none) := by
  cases hpc : w.pc <;> simp only [Found, hpc] at h <;>
    simp_all [CallsNullSafe, call, op, EnvCall.nullSafe_iff, EnvCall.handles]

/-- A poll iteration is entered from the loop test only. -/
theorem resume_pc_eq_callGetInstance_iff :
    (w.resume a).pc = .callGetInstance ↔ w.pc = .testRunning ∧ a.test = true := by
  cases hpc : w.pc <;> simp only [resume, hpc, reduceCtorEq, false_and, iff_false]
  case testRunning => split <;> simp_all [goto]
  case sleepLog | getInfoMethod => simp only [logLoop]; repeat' split <;> simp [goto]
  all_goals
    try split
    all_goals simp [goto]

/-- The player is fetched only from an instance that is not null. -/
theorem resume_pc_eq_getPlayer_iff :
    (w.resume a).pc = .getPlayer ↔ w.pc = .callGetInstance ∧ a.value ≠ none := by
  cases hpc : w.pc <;> simp only [resume, hpc, reduceCtorEq, false_and, iff_false]
  case callGetInstance => split <;> simp_all
  case sleepLog | getInfoMethod => simp only [logLoop]; repeat' split <;> simp [goto]
  all_goals
    try split
    all_goals simp [goto]

/-- The loop test and the call of `Minecraft.getInstance` keep what the lookups found. -/
theorem resume_members (h : w.pc = .testRunning ∨ w.pc = .callGetInstance) :
    (w.resume a).getInstanceMethod = w.getInstanceMethod ∧
      (w.resume a).playerField = w.playerField := by
  rcases h with hpc | hpc <;> simp only [resume, hpc] <;> split <;> exact ⟨rfl, rfl⟩

/-- Whether the next call is safe was settled by the step that led to it. -/
theorem callsNullSafe_resume_iff (h : w.Found) (hclass : w.ClassOfObject a) :
    (w.resume a).CallsNullSafe ↔ w.GameMembersFound a := by
  rw [callsNullSafe_iff (found_resume h hclass), resume_pc_eq_callGetInstance_iff,
    resume_pc_eq_getPlayer_iff, GameMembersFound]
  constructor
  · rintro ⟨hmethod, hfield⟩
    refine ⟨fun hpc htest => ?_, fun hpc hvalue => ?_⟩
    · rw [← (resume_members (Or.inl hpc)).1]
      exact hmethod ⟨hpc, htest⟩
    · rw [← (resume_members (Or.inr hpc)).2]
      exact hfield ⟨hpc, hvalue⟩
  · rintro ⟨hmethod, hfield⟩
    refine ⟨fun ⟨hpc, htest⟩ => ?_, fun ⟨hpc, hvalue⟩ => ?_⟩
    · rw [(resume_members (Or.inl hpc)).1]
      exact hmethod hpc htest
    · rw [(resume_members (Or.inr hpc)).2]
      exact hfield hpc hvalue

/-- Nothing is called before the attach. -/
theorem callsNullSafe_start : start.CallsNullSafe := by
  intro f hf
  simp [start, call, op] at hf

/-- What is known not to be null is so after every run, and the calls of the run are safe
exactly when the condition holds of it. -/
theorem found_of_run {tr : List (Worker × Answer)} (hrun : lts.Run start tr w)
    (hclass : Lts.Along ClassOfObject tr) :
    w.Found ∧
      (((∀ x ∈ tr, x.1.CallsNullSafe) ∧ w.CallsNullSafe) ↔ Lts.Along GameMembersFound tr) := by
  refine hrun.induct_along (I := fun tr w => w.Found ∧
    (((∀ x ∈ tr, x.1.CallsNullSafe) ∧ w.CallsNullSafe) ↔ Lts.Along GameMembersFound tr))
    hclass ⟨found_start, by simp [callsNullSafe_start]⟩ ?_
  rintro tr t a u - ⟨hfound, hiff⟩ hclass hstep
  obtain ⟨-, rfl⟩ := lts_step.mp hstep
  refine ⟨found_resume hfound hclass, ?_⟩
  rw [Lts.along_append, Lts.along_singleton, ← hiff, callsNullSafe_resume_iff hfound hclass]
  simp [or_imp, forall_and]

/-- **No null handle, as far as the lookups of the game are found.** Let `GetObjectClass` of
an object that is not null answer a class. Then in a run of one worker, every call through
`Client::env` that it makes or comes to make gets no null where it must not, if and only if
no poll iteration is entered when the lookup of `Minecraft.getInstance` had answered null,
and no instance is got from the game when the lookup of `player` had. -/
theorem handles_nonnull {tr : List (Worker × Answer)} (hrun : lts.Run start tr w)
    (hclass : Lts.Along ClassOfObject tr) :
    ((∀ x ∈ tr, x.1.CallsNullSafe) ∧ w.CallsNullSafe) ↔ Lts.Along GameMembersFound tr :=
  (found_of_run hrun hclass).2

/-- A run to which the theorem applies: everything is found, and a whole poll iteration is
made. -/
theorem handles_nonnull_one_poll :
    ∃ tr w, lts.Run start tr w ∧ w.pc = .deletePlayer ∧
      (∀ x ∈ tr, x.1.CallsNullSafe) ∧ w.CallsNullSafe := by
  obtain ⟨tr, w, hrun, hclass, hfound, hpc⟩ := Lts.exists_run_of_exec (L := lts) (s := start)
    (P := fun tr w => Lts.Along ClassOfObject tr ∧ Lts.Along GameMembersFound tr ∧
      w.pc = .deletePlayer)
    (List.replicate 53 succeeding) (by decide)
  obtain ⟨hvisited, hlast⟩ := (handles_nonnull hrun hclass).mpr hfound
  exact ⟨tr, w, hrun, hpc, hvisited, hlast⟩

/-- Without the condition it fails: `Minecraft` has no static method `getInstance`, and the
first poll iteration calls it all the same. -/
theorem not_handles_nonnull :
    ¬ ∀ tr w, lts.Run start tr w → Lts.Along ClassOfObject tr →
      (∀ x ∈ tr, x.1.CallsNullSafe) ∧ w.CallsNullSafe := by
  intro hclaim
  obtain ⟨tr, w, hrun, hclass, hcall⟩ := Lts.exists_run_of_exec (L := lts) (s := start)
    (P := fun tr w => Lts.Along ClassOfObject tr ∧
      w.call = some (.callStaticObjectMethod (some 1) none))
    (List.replicate 48 succeeding ++ [failing] ++ List.replicate 2 succeeding) (by decide)
  have hsafe := (hclaim tr w hrun hclass).2 _ hcall
  exact absurd hsafe (by decide)

end Worker

end Rynox
