import Rynox.Lone
import Rynox.Reduction

/-!
# The Atomic Blocks of a Worker

Only four operations of a worker change what the others see or go on from what they find
there: it attaches, which writes `Client::env`; it compares what it finds there with null; it
clears the flag when the attach has failed; and it tests the flag. So a run of the library may
be read as if a worker did everything from one of these four to the next at once, ten rounds
of the log loop or a whole poll iteration: every run looks like one in which it does
(`atomic_of_overlapRun`).

There is one exception to "looks like". A call through `Client::env` reads that variable too,
and a detach reads `Client::jvm`, for the pointer to call through. The worker goes on from the
answer and never looks at the pointer, so these reads are moved with the block they are in,
and in the rearranged run they may find another pointer than they found in the run itself.
-/

namespace Rynox

/-- Whether an operation neither changes a variable of `Client` nor answers what it read
there. A call through `Client::env` and a detach do read a variable, `Client::env` and
`Client::jvm`, for the pointer they use, and count as private all the same. -/
def Op.isPrivate : Op → Bool
  | cerr _ | env _ | sleep _ | detach | ret => true
  | attach | checkEnv | clearRunning | testRunning => false

/-- The worker is about to do something that has nothing to do with the others. -/
def Worker.atPrivate (w : Worker) : Bool :=
  w.op.any Op.isPrivate

/-- A private operation changes no shared variable, and its answer depends on none. -/
theorem Op.isPrivate_spec {o : Op} (h : o.isPrivate = true) (r : JvmReply) :
    (∀ c, o.exec c r = c) ∧ ∀ c c', o.answer c r = o.answer c' r := by
  cases o with
  | cerr _ | env _ | sleep _ | detach | ret => exact ⟨fun _ => rfl, fun _ _ => rfl⟩
  | attach | checkEnv | clearRunning | testRunning => cases h

section Blocks

variable {κ α : Type} {controller : Agent κ → α → Option (Agent κ × Option Worker)} {calls : κ}
  {w : Worker}

/-- The operation of a worker that is about to do something private. -/
theorem Worker.exists_op_of_atPrivate (h : w.atPrivate = true) :
    ∃ o, w.op = some o ∧ o.isPrivate = true := by
  rw [atPrivate, Option.any_eq_true] at h
  exact h

/-- What a worker does in private is private to it. -/
theorem private_atPrivate : ThreadPool.Private (agentOf calls controller) Worker.atPrivate := by
  intro w hw g r g' w' hmove
  obtain ⟨o, ho, hprivate⟩ := Worker.exists_op_of_atPrivate hw
  obtain ⟨hexec, hanswer⟩ := Op.isPrivate_spec hprivate r
  simp only [agentOf, Agent.work, ho, Option.map_some, Option.some.injEq, Prod.mk.injEq] at hmove ⊢
  obtain ⟨rfl, rfl⟩ := hmove
  refine ⟨by rw [hexec], fun h => ⟨by rw [hexec], ?_⟩⟩
  rw [hanswer h.client g.client]

/-- What a worker learns in private does not depend on the shared variables. -/
theorem answered_of_atPrivate (hw : w.atPrivate = true) (g h : Agent κ) (r : JvmReply) :
    w.answered g r = w.answered h r := by
  obtain ⟨o, ho, hprivate⟩ := Worker.exists_op_of_atPrivate hw
  rw [Worker.answered, Worker.answered, ho, Option.map_some, Option.map_some,
    (Op.isPrivate_spec hprivate r).2 g.client h.client]

end Blocks

/-- The steps of a run that are not a worker's private ones, each with what the workers share
when it was taken. The reads of `Client::env` by a call through it and of `Client::jvm` by a
detach are not among them. -/
def sharedStepsOf {κ α : Type} (tr : List (StateOf κ × ActionOf α)) :
    List (Agent κ × ActionOf α) :=
  Lts.observe (ThreadPool.sharedStep Worker.atPrivate) tr

/-- **Atomic blocks.** However calls overlap and workers interleave, every run can be
rearranged into one in which whatever a worker does, but for attaching, comparing
`Client::env` with null and storing or testing the flag, directly follows its own last step.
That run ends in the same state, every worker does the same in it on the same answers, and
the steps of the calls and these four of the workers come in the same order and find the same
in all shared variables. What a call through `Client::env` finds there, and a detach in
`Client::jvm`, is excepted. -/
theorem atomic_of_overlapRun {tr : List (OverlapState × ActionOf OverlapAction)}
    {s : OverlapState} (hrun : OverlapRun tr s) :
    ∃ tr', OverlapRun tr' s ∧ ThreadPool.Atomic Worker.atPrivate tr' ∧
      (∀ i, lifeOf i tr' = lifeOf i tr) ∧ sharedStepsOf tr' = sharedStepsOf tr := by
  have hstart : ∀ g x g' w, overlapped g x = some (g', some w) → w.atPrivate = false := by
    intro g x g' w hx
    rw [(overlapped_spec hx).2 w rfl]
    rfl
  obtain ⟨tr', hrun', hatomic, hlooks⟩ := ThreadPool.exists_atomic_run private_atPrivate hstart
    (fun w hw => answered_of_atPrivate hw) hrun
  exact ⟨tr', hrun', hatomic, hlooks.locals, hlooks.shared⟩

/-- A run to which the theorem applies and that is not atomic: two workers attach and look up
their first class in turns. -/
theorem atomic_of_overlapRun_two_workers :
    ∃ tr s, OverlapRun tr s ∧ ¬ ThreadPool.Atomic Worker.atPrivate tr ∧
      ∃ tr', OverlapRun tr' s ∧ ThreadPool.Atomic Worker.atPrivate tr' ∧
        (∀ i, lifeOf i tr' = lifeOf i tr) ∧ sharedStepsOf tr' = sharedStepsOf tr := by
  obtain ⟨tr, s, hrun, x, hx, y, hy, hprivate, hmover⟩ := Lts.exists_run_of_exec
    (L := overlap.lts) (s := overlap.lts.init)
    (P := fun tr _ => ∃ x ∈ tr[22]?, ∃ y ∈ tr[23]?,
      ThreadPool.isPrivate Worker.atPrivate y = true ∧
        ThreadPool.mover x.2 ≠ ThreadPool.mover y.2)
    (calledAlone (.onLoad 0) 6 ++ calledAlone (.onUnload 0) 3 ++ calledAlone (.onAttach 0) 6 ++
      [.thread 0 { stored := some (some 7) }, .thread 1 { stored := some (some 8) },
        .thread 0 {}, .thread 1 {}, .thread 0 { value := some 1 }, .thread 1 { value := some 1 }])
    (by decide)
  refine ⟨tr, s, hrun, fun hatomic => hmover ?_, atomic_of_overlapRun hrun⟩
  rw [Lts.eq_take_cons_drop hx] at hatomic
  have hy' : (tr.drop 23).head? = some y := by rw [List.head?_drop]; exact hy
  exact (List.isChain_cons.mp (List.isChain_append.mp hatomic).2.1).1 y hy' hprivate

end Rynox
