import Mathlib.Data.List.ReduceOption
import Rynox.Handles
import Rynox.Resources

/-!
# Local References

Five of the calls `runClient` makes answer a local reference, and the thread, which never
returns to Java, keeps each until it deletes it. The worker deletes what it gets in a round
of the log loop and in a poll iteration, and keeps the classes and the logger.

The references are `Resources`: the JVM hands one out with an answer that is not null, the
worker uses those it passes to a call, and `DeleteLocalRef` gives one back.
`Worker.localRefs` is the list of those that are live at each control point; it is exact
in every run, over any number of iterations (`refsAt_of_run`), and never longer than six.
-/

namespace Rynox

open Resources (held Fresh Live)

namespace EnvCall

/-- The references a call passes, null ones included. -/
def references : EnvCall → List JObject
  | findClass _ => []
  | getStaticMethodID clazz _ _ => [clazz]
  | getMethodID clazz _ _ => [clazz]
  | getFieldID clazz _ _ => [clazz]
  | callStaticObjectMethod clazz _ => [clazz]
  | callVoidMethod obj _ arg => [obj, arg]
  | getObjectClass obj => [obj]
  | getObjectField obj _ => [obj]
  | newStringUTF _ => []
  | deleteLocalRef ref => [ref]

/-- What a call does with a reference passed to it. -/
def access : EnvCall → ℕ → Access ℕ
  | deleteLocalRef _ => .release
  | _ => .use

/-- What a call answered `value` does with local references: it uses or deletes those passed
to it, as far as they are not null, and the one it answers is handed out. -/
def accesses (f : EnvCall) (value : Option ℕ) : List (Access ℕ) :=
  f.references.reduceOption.map f.access ++
    if f.answersReference then value.toList.map .acquire else []

/-- The live references after a call. -/
def update (value : Option ℕ) (live : List ℕ) : EnvCall → List ℕ
  | deleteLocalRef none => live
  | deleteLocalRef (some n) => live.erase n
  | f => if f.answersReference then live ++ value.toList else live

variable {f : EnvCall} {value : Option ℕ} {l : List (Access ℕ)}

/-- Deleting a reference gives it back, and deleting null does nothing. -/
theorem accesses_deleteLocalRef (ref : JObject) :
    (deleteLocalRef ref).accesses value = ref.toList.map .release := by
  cases ref <;> rfl

/-- A call that deletes nothing uses what is passed to it. -/
theorem accesses_of_ne (hf : ∀ ref, f ≠ deleteLocalRef ref) :
    f.accesses value = f.references.reduceOption.map .use ++
      if f.answersReference then value.toList.map .acquire else [] := by
  cases f with
  | deleteLocalRef ref => exact absurd rfl (hf ref)
  | _ => rfl

/-- What a call does to the live references is what its accesses do. -/
theorem held_accesses : held (l ++ f.accesses value) = f.update value (held l) := by
  by_cases hf : ∃ ref, f = deleteLocalRef ref
  · obtain ⟨ref, rfl⟩ := hf
    rw [accesses_deleteLocalRef]
    cases ref with
    | none => simp [update]
    | some n => exact Resources.held_snoc
  · have hf' : ∀ ref, f ≠ deleteLocalRef ref := fun ref h => hf ⟨ref, h⟩
    have hupdate : f.update value (held l) =
        if f.answersReference then held l ++ value.toList else held l := by
      cases f with
      | deleteLocalRef ref => exact absurd rfl (hf' ref)
      | _ => rfl
    rw [accesses_of_ne hf', hupdate, ← List.append_assoc]
    split
    · cases value with
      | none => simp
      | some n =>
          refine Resources.held_snoc.trans ?_
          rw [Resources.held_append_use]
          rfl
    · simp

/-- A call touches only live references if those passed to it are live. -/
theorem live_accesses (hl : Lts.Historically Live l)
    (hpassed : ∀ n ∈ f.references.reduceOption, n ∈ held l) :
    Lts.Historically Live (l ++ f.accesses value) := by
  by_cases hf : ∃ ref, f = deleteLocalRef ref
  · obtain ⟨ref, rfl⟩ := hf
    rw [accesses_deleteLocalRef]
    cases ref with
    | none => simpa using hl
    | some n => exact Lts.historically_snoc.mpr ⟨hl, hpassed n (by simp [references])⟩
  · rw [accesses_of_ne fun ref h => hf ⟨ref, h⟩, ← List.append_assoc]
    have huses := (Resources.live_append_use _).mpr ⟨hl, hpassed⟩
    split
    · cases value with
      | none => simpa using huses
      | some n => exact Lts.historically_snoc.mpr ⟨huses, trivial⟩
    · simpa using huses

end EnvCall

namespace Worker

/-- What a step does with local references. -/
def accesses : Worker × Answer → List (Access ℕ)
  | (w, a) => (w.call.map fun f => f.accesses a.value).getD []

/-- The live references after a step. -/
def update (w : Worker) (a : Answer) (live : List ℕ) : List ℕ :=
  (w.call.map fun f => f.update a.value live).getD live

/-- The variables that hold the live references at each control point, up to the detach. -/
def localRefs (w : Worker) : List JObject :=
  match w.pc with
  | .getGetLoggerMethod | .callGetLogger | .detach .getLoggerMethod | .detach .rootLogger =>
      [w.logManagerClass]
  | .getLoggerClass => [w.logManagerClass, w.rootLogger]
  | .getInfoMethod | .newMessage | .sleepLog | .findMinecraftClass | .detach .infoMethod
  | .detach .minecraftClass => [w.logManagerClass, w.rootLogger, w.loggerClass]
  | .callInfo | .deleteMessage => [w.logManagerClass, w.rootLogger, w.loggerClass, w.message]
  | .getGetInstanceMethod | .getPlayerField | .testRunning | .callGetInstance | .sleepPoll
  | .detach .pollingEnded => [w.logManagerClass, w.rootLogger, w.loggerClass, w.minecraftClass]
  | .getPlayer | .deleteMinecraft =>
      [w.logManagerClass, w.rootLogger, w.loggerClass, w.minecraftClass, w.minecraftInstance]
  | .deletePlayer =>
      [w.logManagerClass, w.rootLogger, w.loggerClass, w.minecraftClass, w.minecraftInstance,
        w.playerInstance]
  | _ => []

/-- The live references of a worker: those in its variables, and after the detach what is
left from before it. -/
def RefsAt (w : Worker) (live : List ℕ) : Prop :=
  match w.pc with
  | .ret | .returned => live.length ≤ 4
  | _ => live = w.localRefs.reduceOption

variable {w : Worker} {a : Answer} {live : List ℕ}

/-- A reference that is answered last comes last. -/
theorem reduceOption_snoc {α : Type*} (l : List (Option α)) (o : Option α) :
    (l ++ [o]).reduceOption = l.reduceOption ++ o.toList := by
  rw [← List.concat_eq_append, List.reduceOption_concat]

/-- Deleting the reference that came last, or null, leaves the others. -/
theorem update_deleteLocalRef {l : List JObject} {ref : JObject} {value : Option ℕ}
    (hnodup : (l ++ [ref]).reduceOption.Nodup) :
    (EnvCall.deleteLocalRef ref).update value (l ++ [ref]).reduceOption = l.reduceOption := by
  rw [reduceOption_snoc] at hnodup ⊢
  cases ref with
  | none => simp [EnvCall.update]
  | some n =>
      have hnot : n ∉ l.reduceOption := fun hn =>
        (List.nodup_append.mp hnodup).2.2 n hn n (by simp) rfl
      rw [EnvCall.update, List.erase_append_right _ hnot]
      simp

/-- The head of the log loop has the references of the loop. -/
theorem refsAt_logLoop :
    w.logLoop.RefsAt [w.logManagerClass, w.rootLogger, w.loggerClass].reduceOption := by
  rw [logLoop]
  split <;> rfl

/-- Every step keeps the live references to those in the variables. -/
theorem refsAt_resume (h : w.RefsAt live) (hnodup : live.Nodup) :
    (w.resume a).RefsAt (w.update a live) := by
  cases hpc : w.pc <;> simp only [RefsAt, localRefs, hpc] at h <;>
    simp only [update, call, op, hpc, Option.map_some, Option.map_none, Option.getD_some,
      Option.getD_none, resume]
  -- the calls that answer a reference: null ends in an exit or skips what uses it
  case findLogManagerClass =>
      subst h
      split
      · rename_i hnull
        simp [RefsAt, localRefs, EnvCall.update, EnvCall.answersReference, hnull]
      · exact (reduceOption_snoc [] a.value).symm
  case callGetLogger | findMinecraftClass | callGetInstance | getPlayer =>
      subst h
      split
      · rename_i hnull
        simp [RefsAt, localRefs, EnvCall.update, EnvCall.answersReference, hnull]
      · simp [RefsAt, localRefs, EnvCall.update, EnvCall.answersReference, ← reduceOption_snoc]
  case getLoggerClass | newMessage =>
      subst h
      simp [RefsAt, localRefs, EnvCall.update, EnvCall.answersReference, ← reduceOption_snoc]
  -- the deletions
  case deleteMessage =>
      subst h
      exact update_deleteLocalRef (l := [w.logManagerClass, w.rootLogger, w.loggerClass]) hnodup
  case deletePlayer =>
      subst h
      exact update_deleteLocalRef (l := [w.logManagerClass, w.rootLogger, w.loggerClass,
        w.minecraftClass, w.minecraftInstance]) hnodup
  case deleteMinecraft =>
      subst h
      exact update_deleteLocalRef
        (l := [w.logManagerClass, w.rootLogger, w.loggerClass, w.minecraftClass]) hnodup
  -- the head of the log loop
  case getInfoMethod =>
      subst h
      split
      · rfl
      · exact refsAt_logLoop (w := { w with infoMethod := a.value, i := 0 })
  case sleepLog =>
      subst h
      exact refsAt_logLoop (w := { w with i := w.i + 1 })
  -- the way out
  case clearRunning => simp [RefsAt, goto, h]
  case detach e =>
      subst h
      cases e <;> exact Nat.le_trans (List.reduceOption_length_le _) (by simp)
  case ret => exact h
  case returned => simpa [RefsAt, hpc] using h
  all_goals
    subst h
    try split
    all_goals rfl

/-- The references a worker passes to its next call are live. -/
theorem passed_live (h : w.RefsAt live) :
    ∀ f ∈ w.call, ∀ n ∈ f.references.reduceOption, n ∈ live := by
  cases hpc : w.pc <;> simp only [RefsAt, localRefs, hpc] at h <;>
    simp only [call, op, hpc, Option.mem_def, Option.some.injEq, reduceCtorEq, false_imp_iff,
      implies_true, forall_eq', EnvCall.references, List.reduceOption_nil, List.not_mem_nil]
  all_goals
    subst h
    intro n hn
    simp only [List.reduceOption_mem_iff, List.mem_cons, List.not_mem_nil, or_false] at hn ⊢
    grind

/-- There are at most six. -/
theorem length_le_of_refsAt (h : w.RefsAt live) : live.length ≤ 6 := by
  have hvariables : w.localRefs.length ≤ 6 := by
    rw [localRefs]
    split <;> simp
  rw [RefsAt] at h
  split at h
  · omega
  · omega
  · subst h
    exact Nat.le_trans (List.reduceOption_length_le _) hvariables

/-- What the worker has tested and keeps is not null, and neither is the class of the logger
if `P` vouches for `GetObjectClass`. -/
def Kept (P : Prop) (w : Worker) : Prop :=
  match w.pc with
  | .getGetLoggerMethod | .callGetLogger => w.logManagerClass ≠ none
  | .getLoggerClass => w.logManagerClass ≠ none ∧ w.rootLogger ≠ none
  | .getInfoMethod | .newMessage | .callInfo | .deleteMessage | .sleepLog | .findMinecraftClass =>
      w.logManagerClass ≠ none ∧ w.rootLogger ≠ none ∧ (P → w.loggerClass ≠ none)
  | .getGetInstanceMethod | .getPlayerField | .testRunning | .callGetInstance | .getPlayer
  | .deletePlayer | .deleteMinecraft | .sleepPoll =>
      w.logManagerClass ≠ none ∧ w.rootLogger ≠ none ∧ (P → w.loggerClass ≠ none) ∧
        w.minecraftClass ≠ none
  | _ => True

/-- The head of the log loop keeps what has to be kept there. -/
theorem kept_logLoop {P : Prop} (hmanager : w.logManagerClass ≠ none)
    (hlogger : w.rootLogger ≠ none) (hclass : P → w.loggerClass ≠ none) : w.logLoop.Kept P := by
  rw [logLoop]
  split <;> exact ⟨hmanager, hlogger, hclass⟩

/-- Every step keeps what is kept. -/
theorem kept_resume {P P' : Prop} (h : w.Kept P) (hP : P' → P ∧ w.ClassOfObject a) :
    (w.resume a).Kept P' := by
  have hold : P' → P := fun h => (hP h).1
  cases hpc : w.pc <;> simp only [Kept, hpc] at h <;> simp only [resume, hpc]
  case getLoggerClass =>
      obtain ⟨hmanager, hlogger⟩ := h
      obtain ⟨n, hn⟩ := Option.ne_none_iff_exists'.mp hlogger
      refine ⟨hmanager, hlogger, fun h => ?_⟩
      simpa [ClassOfObject, call, op, hpc, hn] using (hP h).2
  case sleepLog => exact kept_logLoop h.1 h.2.1 fun hp => h.2.2 (hold hp)
  case getInfoMethod =>
      split
      · trivial
      · exact kept_logLoop h.1 h.2.1 fun hp => h.2.2 (hold hp)
  all_goals
    try split
    all_goals simp_all [Kept, goto]

end Worker

/-- What the worker did with local references in a run. -/
def accessesOf (tr : List (Worker × Answer)) : List (Access ℕ) :=
  tr.flatMap Worker.accesses

/-- The local references that are live after a run. -/
def liveRefs (tr : List (Worker × Answer)) : List ℕ :=
  held (accessesOf tr)

namespace Worker

variable {w : Worker} {a : Answer} {tr : List (Worker × Answer)}

/-- The last step adds its accesses. -/
theorem accessesOf_snoc {x : Worker × Answer} :
    accessesOf (tr ++ [x]) = accessesOf tr ++ accesses x := by
  simp [accessesOf]

/-- The last step updates the live references. -/
theorem liveRefs_snoc : liveRefs (tr ++ [(w, a)]) = w.update a (liveRefs tr) := by
  rw [liveRefs, accessesOf_snoc, accesses, update]
  cases w.call with
  | none => simp [liveRefs]
  | some f => exact EnvCall.held_accesses

/-- In every run in which the JVM hands out only references that are not live, the live
references are those in the variables, and the worker touches no other. -/
theorem refsAt_of_run (hrun : lts.Run start tr w)
    (hfresh : Lts.Historically Fresh (accessesOf tr)) :
    w.RefsAt (liveRefs tr) ∧ Lts.Historically Live (accessesOf tr) := by
  refine hrun.induct (I := fun tr w => Lts.Historically Fresh (accessesOf tr) →
    w.RefsAt (liveRefs tr) ∧ Lts.Historically Live (accessesOf tr))
    (fun _ => ⟨rfl, Lts.historically_nil _⟩) ?_ hfresh
  intro tr w a w' _ ih hstep hfresh
  obtain ⟨-, rfl⟩ := lts_step.mp hstep
  rw [accessesOf_snoc] at hfresh
  have hbefore := Lts.historically_of_append hfresh
  obtain ⟨hrefs, hlive⟩ := ih hbefore
  refine ⟨?_, ?_⟩
  · rw [liveRefs_snoc]
    exact refsAt_resume hrefs (Resources.held_nodup hbefore)
  · rw [accessesOf_snoc, accesses]
    cases hcall : w.call with
    | none => simpa using hlive
    | some f => exact EnvCall.live_accesses hlive (passed_live hrefs f hcall)

/-- What the worker keeps is kept in every run. -/
theorem kept_of_run (hrun : lts.Run start tr w) : w.Kept (Lts.Along ClassOfObject tr) := by
  refine hrun.induct (I := fun tr w => w.Kept (Lts.Along ClassOfObject tr)) trivial ?_
  intro tr w a w' _ ih hstep
  obtain ⟨-, rfl⟩ := lts_step.mp hstep
  refine kept_resume ih fun h => ?_
  rwa [Lts.along_append, Lts.along_singleton] at h

/-- What it says of a run `tr` to `w` that its local references are balanced. At each loop
test and in front of each poll iteration they are the four the worker keeps, and in front of
each round of the log loop the first three; the class of the logger is among them unless
`GetObjectClass` answered null. The next call passes only live references; one that was
deleted is neither passed nor deleted again unless it was handed out anew, and each that was
handed out has been deleted or is live. There are never more than six. -/
structure RefsBalanced (tr : List (Worker × Answer)) (w : Worker) : Prop where
  atPoll : w.pc = .testRunning ∨ w.pc = .callGetInstance →
    liveRefs tr =
        [w.logManagerClass, w.rootLogger, w.loggerClass, w.minecraftClass].reduceOption ∧
      w.logManagerClass ≠ none ∧ w.rootLogger ≠ none ∧ w.minecraftClass ≠ none
  atLog : w.pc = .newMessage →
    liveRefs tr = [w.logManagerClass, w.rootLogger, w.loggerClass].reduceOption ∧
      w.logManagerClass ≠ none ∧ w.rootLogger ≠ none
  loggerClass : Lts.Along ClassOfObject tr →
    w.pc = .testRunning ∨ w.pc = .callGetInstance ∨ w.pc = .newMessage → w.loggerClass ≠ none
  passed : ∀ f ∈ w.call, ∀ n, some n ∈ f.references → n ∈ liveRefs tr
  deleted : ∀ before n between e after,
    accessesOf tr = before ++ .release n :: (between ++ e :: after) →
    e = .use n ∨ e = .release n → .acquire n ∈ between
  ledger : ∀ n, (accessesOf tr).count (.acquire n) =
    (accessesOf tr).count (.release n) + (liveRefs tr).count n
  distinct : (liveRefs tr).Nodup
  atMostSix : (liveRefs tr).length ≤ 6

/-- **Local references are balanced.** Let the JVM hand out only references that are not
live. In every run of one worker, over any number of iterations and under all answers, the
local references are balanced. -/
theorem local_refs_balanced (hrun : lts.Run start tr w)
    (hfresh : Lts.Historically Fresh (accessesOf tr)) : RefsBalanced tr w := by
  obtain ⟨hrefs, hlive⟩ := refsAt_of_run hrun hfresh
  have hkept := kept_of_run hrun
  constructor
  case atPoll =>
      rintro (hpc | hpc) <;> simp only [RefsAt, localRefs, Kept, hpc] at hrefs hkept <;>
        exact ⟨hrefs, hkept.1, hkept.2.1, hkept.2.2.2⟩
  case atLog =>
      intro hpc
      simp only [RefsAt, localRefs, Kept, hpc] at hrefs hkept
      exact ⟨hrefs, hkept.1, hkept.2.1⟩
  case loggerClass =>
      rintro hclass (hpc | hpc | hpc) <;> simp only [Kept, hpc] at hkept
      · exact hkept.2.2.1 hclass
      · exact hkept.2.2.1 hclass
      · exact hkept.2.2 hclass
  case passed =>
      intro f hf n hn
      exact passed_live hrefs f hf n (List.reduceOption_mem_iff.mpr hn)
  case deleted =>
      intro before n between e after htr he
      rw [htr] at hfresh hlive
      exact Resources.acquire_mem_of_release hfresh hlive he
  case ledger => exact Resources.count_acquire hlive
  case distinct => exact Resources.held_nodup hfresh
  case atMostSix => exact length_le_of_refsAt hrefs

/-- A run to which the theorem applies: everything is found, each answer under a new name,
and after a whole poll iteration the worker is back at its loop test. -/
theorem local_refs_balanced_one_poll :
    ∃ tr w, lts.Run start tr w ∧ w.pc = .testRunning ∧
      tr.countP (fun x => decide (x.1.pc = .deletePlayer)) = 1 ∧ liveRefs tr = [2, 4, 5, 47] ∧
      RefsBalanced tr w := by
  obtain ⟨tr, w, hrun, hfresh, hpc, hpolls, hlive⟩ := Lts.exists_run_of_exec (L := lts)
    (s := start)
    (P := fun tr w => Lts.Historically Fresh (accessesOf tr) ∧ w.pc = .testRunning ∧
      tr.countP (fun x => decide (x.1.pc = .deletePlayer)) = 1 ∧ liveRefs tr = [2, 4, 5, 47])
    ((List.range 56).map fun n => { test := true, value := some n }) (by decide)
  exact ⟨tr, w, hrun, hpc, hpolls, hlive, local_refs_balanced hrun hfresh⟩

end Worker

end Rynox
