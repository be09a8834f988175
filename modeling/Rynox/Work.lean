import Rynox.Amortized
import Rynox.Overlap
import Rynox.Progress

/-!
# All the Work There Is

The library does nothing of its own accord but poll. Every step it takes is paid for by a
call the JVM made or by a loop test that found the flag true: a start pays for its own seven
steps and for the worker it may create, a shutdown for its four, and a poll for the six of
its iteration (`length_add_remainingWork_le_init`). The account holds whether the calls overlap or
not, and whatever the JVM and the system answer.

The potential is what is left to do: `Worker.remaining` of every worker and
`Entry.remaining` of every call in progress.
-/

namespace Rynox

/-- The steps a call in progress still makes, and those of the worker it may create, at
most. -/
def Entry.remaining : Entry → ℕ
  | init .testRunning => 59
  | init .setRunning => 58
  | init .createThread => 57
  | init .reportFailure => 3
  | init .resetRunning => 2
  | init .readThread => 3
  | init (.detachThread _) => 2
  | init .ret => 1
  | shutdown .testRunning => 3
  | shutdown .clearRunning => 2
  | shutdown .ret => 1

/-- What is left to do in a state: by the calls in progress and by the workers. -/
def remainingWork (s : OverlapState) : ℕ :=
  totalOf Entry.remaining s.shared.calls + totalOf Worker.remaining s.threads

/-- A call in progress always has something left to do: at least its return. -/
theorem Entry.remaining_pos (e : Entry) : 0 < e.remaining := by
  rcases e with pc | pc <;> cases pc <;> simp [remaining]

/-- Nothing is left to do exactly when no call is in progress and every worker has
returned. -/
theorem remainingWork_eq_zero_iff {s : OverlapState} :
    remainingWork s = 0 ↔ s.shared.calls = [] ∧ NoneOf Worker.Unfinished s.threads := by
  rw [remainingWork, Nat.add_eq_zero_iff, totalOf_eq_zero_iff, totalOf_eq_zero_iff]
  refine and_congr ?_ (forall_congr' fun w => forall_congr' fun _ => w.remaining_eq_zero_iff)
  constructor
  · intro hzero
    refine List.eq_nil_iff_forall_not_mem.mpr fun e he => ?_
    have := e.remaining_pos
    have := hzero e he
    omega
  · intro hnil
    simp [hnil]

/-- A step of a call does some of what is left of it, a created worker included. -/
theorem Entry.remaining_resume_lt (e : Entry) (c : Client) (r : OsReply) :
    totalOf Entry.remaining (e.resume c r).toList +
      totalOf Worker.remaining (e.op.spawn r).toList < e.remaining := by
  rcases e with pc | pc <;> cases pc <;>
    simp only [Entry.resume, Entry.op, EntryOp.spawn, Option.toList_some, Option.toList_none,
      totalOf_cons, totalOf_nil]
  case init.createThread =>
      by_cases hcode : r.code = 0
      · simp [hcode, Entry.remaining, Worker.remaining, Worker.start]
      · simp [hcode, Entry.remaining]
  all_goals
    try cases c.isRunning
    all_goals simp [Entry.remaining]

/-! ### Who pays -/

/-- The transition is a call of `Agent_OnLoad` or `Agent_OnAttach`. -/
def isStartCall : OverlapState × ActionOf OverlapAction → Bool
  | (_, .controller (.call f)) => f.starts
  | _ => false

/-- The transition is a call of `Agent_OnUnload`. -/
def isUnloadCall : OverlapState × ActionOf OverlapAction → Bool
  | (_, .controller (.call f)) => !f.starts
  | _ => false

/-- A step of a call in progress makes no call. -/
@[simp] theorem isUnloadCall_step (s : OverlapState) (k : ℕ) (r : OsReply) :
    isUnloadCall (s, .controller (.step k r)) = false := rfl

/-- A step of a worker makes no call. -/
@[simp] theorem isUnloadCall_thread (s : OverlapState) (i : ℕ) (r : JvmReply) :
    isUnloadCall (s, .thread i r) = false := rfl

/-- The transition is a loop test that finds the flag true. -/
def isPoll (x : OverlapState × ActionOf OverlapAction) : Bool :=
  (moved x).any fun m => m.2 = .testRunning true

/-- A poll is a loop test of some worker that is seen to find the flag true. -/
theorem isPoll_iff {x : OverlapState × ActionOf OverlapAction} :
    isPoll x = true ↔ ∃ i, moved x = some (i, .testRunning true) := by
  cases hm : moved x with
  | none => simp [isPoll, hm]
  | some m =>
      obtain ⟨j, e⟩ := m
      simp [isPoll, hm]

/-- What a transition pays for: 60 steps if it makes a start call, 4 if it calls
`Agent_OnUnload`, 6 if it is a poll. -/
def stepCredit (x : OverlapState × ActionOf OverlapAction) : ℕ :=
  (if isStartCall x then 60 else 0) + (if isUnloadCall x then 4 else 0) +
    if isPoll x then 6 else 0

/-- What a run pays for: so much for each start, each unload and each poll. -/
theorem totalOf_stepCredit (tr : List (OverlapState × ActionOf OverlapAction)) :
    totalOf stepCredit tr =
      60 * tr.countP isStartCall + 4 * tr.countP isUnloadCall + 6 * tr.countP isPoll := by
  have h : totalOf stepCredit tr = totalOf (fun x => ((if isStartCall x then 60 else 0) +
      if isUnloadCall x then 4 else 0) + if isPoll x then 6 else 0) tr := rfl
  rw [h, totalOf_add, totalOf_add, totalOf_ite, totalOf_ite, totalOf_ite]

/-- A worker that finds the flag true has six more steps to go than it had. -/
theorem Worker.remaining_resume_testRunning {w : Worker} (hpc : w.pc = .testRunning) (a : Answer) :
    (w.resume a).remaining ≤ 8 := by
  simp only [resume, hpc]
  split <;> simp [remaining, goto]

/-- The step **wastes nothing**: it and what is left to do after it use up all that it pays
for and what was left before. -/
def NoWaste (s : OverlapState) (a : ActionOf OverlapAction) : Prop :=
  ∀ {t}, overlap.lts.step s a = some t → 1 + remainingWork t = stepCredit (s, a) + remainingWork s

/-- Making a call wastes nothing: it pays for everything the call may lead to. -/
theorem noWaste_call (s : OverlapState) (f : Call) : NoWaste s (.controller (.call f)) := by
  intro t hstep
  obtain rfl := step_overlapEnter.mp hstep
  have hentry : 1 + (f.enter s.shared.client).2.remaining =
      stepCredit (s, .controller (.call f)) := by
    cases f <;> rfl
  simp only [remainingWork, totalOf_append, totalOf_cons, totalOf_nil]
  omega

/-- A step of a call wastes nothing if it leaves only one step less to do. -/
theorem noWaste_step {s : OverlapState} {k : ℕ} {e : Entry} {r : OsReply}
    (he : s.shared.calls[k]? = some e)
    (hone : totalOf Entry.remaining (e.resume s.shared.client r).toList +
      totalOf Worker.remaining (e.op.spawn r).toList + 1 = e.remaining) :
    NoWaste s (.controller (.step k r)) := by
  intro t hstep
  obtain ⟨e', he', rfl⟩ := step_overlapCall.mp hstep
  obtain rfl : e = e' := Option.some.inj (he.symm.trans he')
  have hcredit : stepCredit (s, .controller (.step k r)) = 0 := rfl
  have hcalls := totalOf_replace (m := Entry.remaining) (o := e.resume s.shared.client r) he
  simp only [remainingWork, totalOf_append]
  omega

/-- A step of a worker wastes nothing if what it pays for is all that the worker has to do
after it, and did not have to do before. -/
theorem noWaste_thread {s : OverlapState} {i : ℕ} {r : JvmReply} {w : Worker} {o : Op}
    (hi : s.threads[i]? = some w) (ho : w.op = some o)
    (hone : 1 + (w.resume (o.answer s.shared.client r)).remaining =
      stepCredit (s, .thread i r) + w.remaining) :
    NoWaste s (.thread i r) := by
  intro t hstep
  obtain ⟨w', o', hi', ho', rfl⟩ := step_worker.mp hstep
  obtain rfl : w = w' := Option.some.inj (hi.symm.trans hi')
  obtain rfl : o = o' := Option.some.inj (ho.symm.trans ho')
  have htotal := totalOf_set (m := Worker.remaining)
    (v := w.resume (o.answer s.shared.client r)) hi
  simp only [remainingWork]
  omega

/-- A worker that finds the flag true pays for the six steps of an iteration. -/
theorem stepCredit_of_poll {s : OverlapState} {i : ℕ} {r : JvmReply} {w : Worker}
    (hi : s.threads[i]? = some w) (hpc : w.pc = .testRunning)
    (hflag : s.shared.client.isRunning = true) : stepCredit (s, .thread i r) = 6 := by
  simp [stepCredit, isStartCall, isUnloadCall, isPoll, moved, hi, Worker.op, hpc, Op.event, hflag]

/-- A step of the calls or of a worker is paid for. -/
theorem remainingWork_step {s t : OverlapState} {a : ActionOf OverlapAction}
    (hstep : overlap.lts.step s a = some t) :
    1 + remainingWork t ≤ stepCredit (s, a) + remainingWork s := by
  cases a with
  | controller x =>
      cases x with
      | call f => exact Nat.le_of_eq (noWaste_call s f hstep)
      | step k r =>
          obtain ⟨e, he, rfl⟩ := step_overlapCall.mp hstep
          have hlt := e.remaining_resume_lt s.shared.client r
          have hcalls := totalOf_replace (m := Entry.remaining)
            (o := e.resume s.shared.client r) he
          simp only [remainingWork, totalOf_append]
          omega
  | thread i r =>
      obtain ⟨w, o, hi, ho, rfl⟩ := step_worker.mp hstep
      have htotal := totalOf_set (m := Worker.remaining)
        (v := w.resume (o.answer s.shared.client r)) hi
      simp only [remainingWork]
      by_cases hpoll : w.pc = .testRunning ∧ s.shared.client.isRunning = true
      · obtain ⟨hpc, hflag⟩ := hpoll
        have hcredit := stepCredit_of_poll (r := r) hi hpc hflag
        have hbefore : w.remaining = 3 := by
          simp [Worker.remaining, hpc]
        have hafter := Worker.remaining_resume_testRunning hpc (o.answer s.shared.client r)
        omega
      · have hlt := remaining_resume_lt_of_op (c := s.shared.client) (r := r) ho fun hpc => by
          simpa using fun hflag => hpoll ⟨hpc, hflag⟩
        omega

/-- A run makes no more steps than its calls and polls pay for, and what was left to do when
it began. -/
theorem length_add_remainingWork_le {s t : OverlapState}
    {tr : List (OverlapState × ActionOf OverlapAction)} (hrun : overlap.lts.Run s tr t) :
    tr.length + remainingWork t ≤ totalOf stepCredit tr + remainingWork s := by
  rw [← totalOf_one]
  exact hrun.totalOf_add_le Lts.along_true fun _ _ _ hstep => remainingWork_step hstep

/-- However the calls overlap and the workers interleave, and whatever is answered, a run
takes at most 60 steps for each call of `Agent_OnLoad` or `Agent_OnAttach`, 4 for each of
`Agent_OnUnload` and 6 for each poll, what is left to do included. -/
theorem length_add_remainingWork_le_init {tr : List (OverlapState × ActionOf OverlapAction)}
    {s : OverlapState} (hrun : OverlapRun tr s) :
    tr.length + remainingWork s ≤
      60 * tr.countP isStartCall + 4 * tr.countP isUnloadCall + 6 * tr.countP isPoll := by
  have hpaid := length_add_remainingWork_le hrun
  have hinit : remainingWork overlap.lts.init = 0 := rfl
  rw [totalOf_stepCredit, hinit] at hpaid
  exact hpaid

/-- It takes exactly as many if no step of it wastes anything. -/
theorem length_add_remainingWork_eq {tr : List (OverlapState × ActionOf OverlapAction)}
    {s : OverlapState} (hrun : OverlapRun tr s) (hfull : Lts.Along NoWaste tr) :
    tr.length + remainingWork s =
      60 * tr.countP isStartCall + 4 * tr.countP isUnloadCall + 6 * tr.countP isPoll := by
  have hpaid : totalOf (fun _ => 1) tr + remainingWork s =
      totalOf stepCredit tr + remainingWork overlap.lts.init :=
    hrun.totalOf_add_eq hfull fun _ _ ha hstep => ha hstep
  have hinit : remainingWork overlap.lts.init = 0 := rfl
  rwa [totalOf_one, totalOf_stepCredit, hinit] at hpaid

end Rynox
