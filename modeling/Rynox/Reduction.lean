import Mathlib.Data.List.Chain
import Rynox.ThreadPool

/-!
# Atomic Blocks

A step of a thread is *private* when it neither changes the shared memory nor depends on it.
A private step may as well be taken right after the last step of its thread: it commutes with
every step that the controller or another thread has taken since. So every run of a pool can
be rearranged into one whose private steps all directly follow a step of the same thread, and
nobody can tell the difference: not the threads, each of which takes the same steps in the
same local states and learns the same, and not the shared memory, on which the other steps
are taken in the same order.

## Main results

* `ThreadPool.run_pull`: a private step commutes with what the others do.
* `ThreadPool.exists_atomic_run`: every run has an atomic one that looks the same.
-/

namespace ThreadPool

variable {γ τ α ρ β : Type*} {P : ThreadPool γ τ α ρ} {q : τ → Bool}

/-- Who moves: a thread, or the controller. -/
def mover : Action α ρ → Option ℕ
  | .controller _ => none
  | .thread i _ => some i

/-- The threads picked out by `q` take **private** steps: they neither change the shared
memory nor depend on it. -/
def Private (P : ThreadPool γ τ α ρ) (q : τ → Bool) : Prop :=
  ∀ t, q t = true → ∀ g r g' t', P.thread g t r = some (g', t') →
    g' = g ∧ ∀ h, P.thread h t r = some (h, t')

/-- The transition is a step of a thread picked out by `q`. -/
def isPrivate (q : τ → Bool) : State γ τ × Action α ρ → Bool
  | (s, .thread i _) => s.threads[i]?.any q
  | (_, .controller _) => false

/-- The shared memory a transition is taken on, and what is done, unless it is private. -/
def sharedStep (q : τ → Bool) (x : State γ τ × Action α ρ) : Option (γ × Action α ρ) :=
  if isPrivate q x then none else some (x.1.shared, x.2)

/-- A run is **atomic** when every private step directly follows a step of the same thread. -/
def Atomic (q : τ → Bool) (tr : List (State γ τ × Action α ρ)) : Prop :=
  tr.IsChain fun x y => isPrivate q y = true → mover x.2 = mover y.2

/-- A private step comes from a thread that is about to take one. -/
theorem isPrivate_iff {x : State γ τ × Action α ρ} : isPrivate q x = true ↔
    ∃ i r t, x.2 = .thread i r ∧ x.1.threads[i]? = some t ∧ q t = true := by
  obtain ⟨s, a | ⟨i, r⟩⟩ := x
  · simp [isPrivate]
  · cases hi : s.threads[i]? <;> simp [isPrivate, hi]

/-! ### Pulling a private step forward -/

/-- The transition, had thread `i` already got to `t'` by a private step. -/
def pulled (i : ℕ) (t' : τ) (x : State γ τ × Action α ρ) : State γ τ × Action α ρ :=
  (⟨x.1.shared, x.1.threads.set i t'⟩, x.2)

section Pull

variable {s u : State γ τ} {i : ℕ} {t t' : τ} {r : ρ} {x : State γ τ × Action α ρ}

/-- Whether another's step is private does not depend on it. -/
theorem isPrivate_pulled (hx : mover x.2 ≠ some i) :
    isPrivate q (pulled i t' x) = isPrivate q x := by
  obtain ⟨s, a | ⟨j, r⟩⟩ := x
  · rfl
  · have hj : j ≠ i := fun h => hx (congrArg some h)
    simp only [isPrivate, pulled, List.getElem?_set_ne (Ne.symm hj)]

/-- Nor what the others see. -/
theorem localStep_pulled {f : γ → τ → ρ → β} {j : ℕ} (hx : mover x.2 ≠ some i) :
    localStep f j (pulled i t' x) = localStep f j x := by
  obtain ⟨s, a | ⟨k, r⟩⟩ := x
  · rfl
  · have hk : k ≠ i := fun h => hx (congrArg some h)
    simp only [localStep, pulled, List.getElem?_set_ne (Ne.symm hk)]

/-- A step of the controller or of another thread leaves thread `i` where it is, and does the
same wherever that is. -/
theorem step_pulled {m : State γ τ} {a : Action α ρ} (ha : mover a ≠ some i)
    (hi : s.threads[i]? = some t) (hstep : P.lts.step s a = some m) (t' : τ) :
    m.threads[i]? = some t ∧
      P.lts.step ⟨s.shared, s.threads.set i t'⟩ a = some ⟨m.shared, m.threads.set i t'⟩ := by
  have hlt := lt_length_of_getElem? hi
  cases a with
  | controller a =>
      obtain ⟨g, o, hg, rfl⟩ := step_controller.mp hstep
      refine ⟨by rwa [List.getElem?_append_left hlt], step_controller.mpr ⟨g, o, hg, ?_⟩⟩
      rw [List.set_append_left i t' hlt]
  | thread j r =>
      have hj : j ≠ i := fun h => ha (congrArg some h)
      obtain ⟨w, g, w', hw, hg, rfl⟩ := step_thread.mp hstep
      refine ⟨by rwa [List.getElem?_set_ne hj], step_thread.mpr ⟨w, g, w', ?_, hg, ?_⟩⟩
      · rw [List.getElem?_set_ne (Ne.symm hj), hw]
      · rw [List.set_comm _ _ hj]

/-- So does a run in which thread `i` does not move. -/
theorem run_pulled {m : State γ τ} {tr : List (State γ τ × Action α ρ)}
    (hrun : P.lts.Run s tr m) (hothers : Lts.Along (fun _ a => mover a ≠ some i) tr)
    (hi : s.threads[i]? = some t) (t' : τ) :
    m.threads[i]? = some t ∧
      P.lts.Run ⟨s.shared, s.threads.set i t'⟩ (tr.map (pulled i t'))
        ⟨m.shared, m.threads.set i t'⟩ := by
  refine hrun.induct_along (I := fun tr m => m.threads[i]? = some t ∧
    P.lts.Run ⟨s.shared, s.threads.set i t'⟩ (tr.map (pulled i t'))
      ⟨m.shared, m.threads.set i t'⟩) hothers ⟨hi, .nil _⟩ ?_
  rintro tr m a u - ⟨hm, hpulled⟩ ha hstep
  obtain ⟨hu, hstep'⟩ := step_pulled ha hm hstep t'
  rw [List.map_append]
  exact ⟨hu, hpulled.snoc hstep'⟩

/-- A private step that others' steps have come before may be taken before them. -/
theorem run_pull {m : State γ τ} {tr : List (State γ τ × Action α ρ)} (hpriv : Private P q)
    (hrun : P.lts.Run s tr m) (hothers : Lts.Along (fun _ a => mover a ≠ some i) tr)
    (hi : s.threads[i]? = some t) (hq : q t = true)
    (hnext : P.lts.step m (.thread i r) = some u) :
    ∃ t', P.lts.Run s ((s, .thread i r) :: tr.map (pulled i t')) u := by
  obtain ⟨v, g, t', hv, hmove, rfl⟩ := step_thread.mp hnext
  obtain ⟨hm, hpulled⟩ := run_pulled hrun hothers hi t'
  obtain rfl : t = v := Option.some.inj (hm.symm.trans hv)
  obtain ⟨rfl, hany⟩ := hpriv t hq _ _ _ _ hmove
  refine ⟨t', .cons (step_thread.mpr ⟨t, s.shared, t', hi, hany s.shared, rfl⟩) hpulled⟩

end Pull

/-! ### Atomic runs -/

section Atomic

variable {f : γ → τ → ρ → β} {s u : State γ τ} {i : ℕ} {tr : List (State γ τ × Action α ρ)}

/-- The last step of thread `i` in a run, if there is one. -/
theorem exists_last_of_mem (h : ∃ x ∈ tr, mover x.2 = some i) :
    ∃ pre y post, tr = pre ++ y :: post ∧ mover y.2 = some i ∧
      Lts.Along (fun _ a => mover a ≠ some i) post := by
  induction tr using List.reverseRecOn with
  | nil => simp at h
  | append_singleton tr x ih =>
      by_cases hx : mover x.2 = some i
      · exact ⟨tr, x, [], rfl, hx, Lts.along_nil⟩
      · obtain ⟨z, hz, hmover⟩ := h
        rcases List.mem_append.mp hz with hz | hz
        · obtain ⟨pre, y, post, rfl, hy, hothers⟩ := ih ⟨z, hz, hmover⟩
          refine ⟨pre, y, post ++ [x], by simp, hy, ?_⟩
          exact Lts.along_append.mpr ⟨hothers, Lts.along_singleton.mpr hx⟩
        · rw [List.mem_singleton.mp hz] at hmover
          exact absurd hmover hx

/-- A thread that has not moved is as it was created. -/
theorem not_private_of_not_moved
    (hstart : ∀ g a g' t, P.controller g a = some (g', some t) → q t = false)
    (hrun : P.lts.Run P.lts.init tr s) (hothers : Lts.Along (fun _ a => mover a ≠ some i) tr) :
    ∀ t ∈ s.threads[i]?, q t = false := by
  refine hrun.induct_along (I := fun _ s => ∀ t ∈ s.threads[i]?, q t = false) hothers
    (by simp) ?_
  rintro tr s a u - hI ha hstep t ht
  cases a with
  | controller a =>
      obtain ⟨g, o, hg, rfl⟩ := step_controller.mp hstep
      rcases getElem?_spawn.mp ht with ht | ⟨-, rfl⟩
      · exact hI t ht
      · exact hstart _ _ _ t hg
  | thread j r =>
      have hj : j ≠ i := fun h => ha (congrArg some h)
      obtain ⟨w, g, w', hw, hg, rfl⟩ := step_thread.mp hstep
      exact hI t (by rwa [List.getElem?_set_ne hj] at ht)

/-- What the others do after a private step of thread `i` is as atomic as it was. -/
theorem Atomic.pulled {pre post : List (State γ τ × Action α ρ)} {y z : State γ τ × Action α ρ}
    {t' : τ} (h : Atomic q (pre ++ y :: post)) (hy : mover y.2 = some i) (hz : mover z.2 = some i)
    (hothers : Lts.Along (fun _ a => mover a ≠ some i) post) :
    Atomic q ((pre ++ [y]) ++ z :: post.map (ThreadPool.pulled i t')) := by
  have hsplit : pre ++ y :: post = (pre ++ [y]) ++ post := by simp
  rw [Atomic, hsplit, List.isChain_append] at h
  obtain ⟨hpre, hpost, hlink⟩ := h
  have hfirst : ∀ x ∈ (post.map (ThreadPool.pulled i t')).head?, isPrivate q x = true →
      mover z.2 = mover x.2 := by
    intro x hx hprivate
    rw [List.head?_map] at hx
    obtain ⟨v, hv, rfl⟩ := Option.map_eq_some_iff.mp hx
    have hmoves := hothers v (List.mem_of_mem_head? hv)
    rw [isPrivate_pulled hmoves] at hprivate
    exact absurd ((hlink y (by simp) v hv hprivate).symm.trans hy) hmoves
  have hrest : Atomic q (post.map (ThreadPool.pulled i t')) := by
    rw [Atomic, List.isChain_map]
    refine hpost.imp_of_mem_imp fun v w _ hw hlink hprivate => ?_
    exact hlink (by rwa [isPrivate_pulled (hothers w hw)] at hprivate)
  refine List.isChain_append.mpr ⟨hpre, List.isChain_cons.mpr ⟨hfirst, hrest⟩, ?_⟩
  intro v hv w hw _
  obtain rfl : v = y := by simpa using hv.symm
  obtain rfl : w = z := by simpa using hw.symm
  rw [hy, hz]

/-- Whatever the steps of the others show, they show it also after a private step of thread
`i`. -/
theorem observe_pulled {ε : Type*} {obs : State γ τ × Action α ρ → Option ε} {t' : τ}
    (hobs : ∀ x, mover x.2 ≠ some i → obs (ThreadPool.pulled i t' x) = obs x)
    (hothers : Lts.Along (fun _ a => mover a ≠ some i) tr) :
    Lts.observe obs (tr.map (ThreadPool.pulled i t')) = Lts.observe obs tr := by
  rw [Lts.observe, List.filterMap_map]
  exact List.filterMap_congr fun x hx => hobs x (hothers x hx)

/-- What is done to the shared memory does not depend on where a thread stands. -/
theorem sharedStep_pulled {t' : τ} {x : State γ τ × Action α ρ} (hx : mover x.2 ≠ some i) :
    sharedStep q (ThreadPool.pulled i t' x) = sharedStep q x := by
  rw [sharedStep, isPrivate_pulled hx]
  rfl

/-- What thread `i` does is not seen in the runs of the others. -/
theorem localStep_of_ne {j : ℕ} {r : ρ} (hj : i ≠ j) :
    localStep f j ((s, .thread i r) : State γ τ × Action α ρ) = none :=
  if_neg hj

/-- A thread that does not move has nothing in its run. -/
theorem localRun_of_not_moved (hothers : Lts.Along (fun _ a => mover a ≠ some i) tr) :
    localRun f i tr = [] := by
  refine List.filterMap_eq_nil_iff.mpr fun x hx => ?_
  obtain ⟨u, a | ⟨j, r⟩⟩ := x
  · rfl
  · exact localStep_of_ne fun h => hothers _ hx (congrArg some h)

/-- The run of a thread is as long as the number of its steps. -/
theorem length_localRun (hrun : P.lts.Run s tr u) :
    (localRun f i tr).length = tr.countP fun x => decide (mover x.2 = some i) := by
  refine hrun.induct (I := fun tr _ =>
    (localRun f i tr).length = tr.countP fun x => decide (mover x.2 = some i)) rfl ?_
  intro tr s a u _ hI hstep
  have hlast : (localStep f i (s, a)).toList.length =
      if decide (mover a = some i) = true then 1 else 0 := by
    cases a with
    | controller a => simp [localStep, mover]
    | thread j r =>
        obtain ⟨t, g, t', hj, -, -⟩ := step_thread.mp hstep
        by_cases hji : j = i
        · subst hji
          simp [localStep, mover, hj]
        · simp [localStep, mover, hji]
  rw [localRun_snoc, List.length_append, hI, List.countP_append, List.countP_singleton, hlast]

/-- A private step learns the same wherever it is taken. -/
theorem localStep_of_private {j : ℕ} {t : τ} {r : ρ} (hs : s.threads[i]? = some t)
    (hu : u.threads[i]? = some t) (hf : ∀ g h, f g t r = f h t r) :
    localStep f j ((s, .thread i r) : State γ τ × Action α ρ) =
      localStep f j ((u, .thread i r) : State γ τ × Action α ρ) := by
  simp only [localStep, hs, hu, Option.map_some, hf s.shared u.shared]

/-- A private step does nothing to the shared memory. -/
theorem sharedStep_of_private {x : State γ τ × Action α ρ} (h : isPrivate q x = true) :
    sharedStep q x = none :=
  if_pos h

/-- Two runs **look the same**: every thread takes the same steps in both and learns the same,
and the steps that are not private are taken in the same order on the same shared memory. -/
structure LooksAs (f : γ → τ → ρ → β) (q : τ → Bool)
    (tr' tr : List (State γ τ × Action α ρ)) : Prop where
  locals : ∀ j, localRun f j tr' = localRun f j tr
  shared : Lts.observe (sharedStep q) tr' = Lts.observe (sharedStep q) tr

/-- One more transition on both sides. -/
theorem LooksAs.snoc {tr' : List (State γ τ × Action α ρ)} (h : LooksAs f q tr' tr)
    (x : State γ τ × Action α ρ) : LooksAs f q (tr' ++ [x]) (tr ++ [x]) where
  locals j := by rw [localRun_snoc, localRun_snoc, h.locals]
  shared := by rw [Lts.observe_append, Lts.observe_append, h.shared]

/-- Looking the same is transitive. -/
theorem LooksAs.trans {tr₁ tr₂ tr₃ : List (State γ τ × Action α ρ)} (h : LooksAs f q tr₁ tr₂)
    (h' : LooksAs f q tr₂ tr₃) : LooksAs f q tr₁ tr₃ where
  locals j := (h.locals j).trans (h'.locals j)
  shared := h.shared.trans h'.shared

/-- A private step taken before what the others did looks the same. -/
theorem looksAs_pulled {pre post : List (State γ τ × Action α ρ)} {m : State γ τ} {t t' : τ}
    {r : ρ} (hothers : Lts.Along (fun _ a => mover a ≠ some i) post)
    (hm : m.threads[i]? = some t) (hs : s.threads[i]? = some t) (hq : q t = true)
    (hf : ∀ g h, f g t r = f h t r) :
    LooksAs f q (pre ++ (m, .thread i r) :: post.map (ThreadPool.pulled i t'))
      ((pre ++ post) ++ [(s, .thread i r)]) where
  locals j := by
    rw [localRun, localRun, Lts.observe_append, Lts.observe_cons, Lts.observe_append,
      Lts.observe_append, Lts.observe_singleton,
      observe_pulled (fun x hx => localStep_pulled hx) hothers, localStep_of_private hm hs hf,
      List.append_assoc]
    by_cases hij : i = j
    · subst hij
      have hnone : Lts.observe (localStep f i) post = [] := localRun_of_not_moved hothers
      rw [hnone, List.append_nil, List.nil_append]
    · rw [localStep_of_ne hij, Option.toList_none, List.append_nil, List.nil_append]
  shared := by
    rw [Lts.observe_append, Lts.observe_cons, Lts.observe_append, Lts.observe_append,
      Lts.observe_singleton, observe_pulled (fun x hx => sharedStep_pulled hx) hothers,
      sharedStep_of_private (isPrivate_iff.mpr ⟨i, r, t, rfl, hm, hq⟩),
      sharedStep_of_private (isPrivate_iff.mpr ⟨i, r, t, rfl, hs, hq⟩), Option.toList_none,
      List.append_nil, List.nil_append]

/-- A private step at the end of an atomic run is pulled to the last step of its thread. -/
theorem exists_atomic_snoc {t : τ} {r : ρ} (hpriv : Private P q)
    (hstart : ∀ g a g' t, P.controller g a = some (g', some t) → q t = false)
    (hf : ∀ t, q t = true → ∀ g h r, f g t r = f h t r) (hrun : P.lts.Run P.lts.init tr s)
    (hatomic : Atomic q tr) (hi : s.threads[i]? = some t) (hq : q t = true)
    (hstep : P.lts.step s (.thread i r) = some u) :
    ∃ tr', P.lts.Run P.lts.init tr' u ∧ Atomic q tr' ∧
      LooksAs f q tr' (tr ++ [(s, .thread i r)]) := by
  have hmoved : ∃ x ∈ tr, mover x.2 = some i := by
    by_contra hnever
    have hothers : Lts.Along (fun _ a => mover a ≠ some i) tr :=
      fun x hx hmover => hnever ⟨x, hx, hmover⟩
    rw [not_private_of_not_moved hstart hrun hothers t hi] at hq
    cases hq
  obtain ⟨pre, y, post, rfl, hy, hothers⟩ := exists_last_of_mem hmoved
  have hsplit : pre ++ y :: post = (pre ++ [y]) ++ post := by simp
  rw [hsplit] at hrun ⊢
  obtain ⟨m, hpre, hpost⟩ := hrun.split
  -- Thread `i` has not moved since `y`, so it was about to take its private step there.
  have hm : m.threads[i]? = some t := by
    obtain ⟨v, b | ⟨j, r'⟩⟩ := y
    · cases hy
    · obtain rfl : j = i := Option.some.inj hy
      obtain ⟨-, hlast⟩ := hpre.snoc_inv
      obtain ⟨w, g, w', hw, -, rfl⟩ := step_thread.mp hlast
      have hw' : (v.threads.set j w')[j]? = some w' :=
        List.getElem?_set_self (lt_length_of_getElem? hw)
      rw [← hi, (run_pulled hpost hothers hw' w').1]
      exact hw'
  obtain ⟨t', hpulled⟩ := run_pull hpriv hpost hothers hm hq hstep
  exact ⟨_, hpre.append hpulled, hatomic.pulled hy rfl hothers,
    looksAs_pulled hothers hm hi hq fun g h => hf t hq g h r⟩

/-- **Atomic blocks.** Let threads be created at a step that is not private, and let what `f`
records of a private step not depend on the shared memory. Then every run of the pool can be
rearranged into an atomic one that ends in the same state and looks the same. -/
theorem exists_atomic_run (hpriv : Private P q)
    (hstart : ∀ g a g' t, P.controller g a = some (g', some t) → q t = false)
    (hf : ∀ t, q t = true → ∀ g h r, f g t r = f h t r) (hrun : P.lts.Run P.lts.init tr s) :
    ∃ tr', P.lts.Run P.lts.init tr' s ∧ Atomic q tr' ∧ LooksAs f q tr' tr := by
  refine hrun.induct (I := fun tr s => ∃ tr', P.lts.Run P.lts.init tr' s ∧ Atomic q tr' ∧
    LooksAs f q tr' tr) ⟨[], .nil _, .nil, fun _ => rfl, rfl⟩ ?_
  rintro tr s a u - ⟨tr', hrun', hatomic, hlooks⟩ hstep
  by_cases hprivate : isPrivate q (s, a) = true
  · obtain ⟨i, r, t, rfl, hi, hq⟩ := isPrivate_iff.mp hprivate
    obtain ⟨tr'', hrun'', hatomic', hlooks'⟩ :=
      exists_atomic_snoc hpriv hstart hf hrun' hatomic hi hq hstep
    exact ⟨tr'', hrun'', hatomic', hlooks'.trans (hlooks.snoc _)⟩
  · refine ⟨tr' ++ [(s, a)], hrun'.snoc hstep, ?_, hlooks.snoc _⟩
    refine List.isChain_append.mpr ⟨hatomic, List.isChain_singleton _, ?_⟩
    intro x _ y hy hprivate'
    obtain rfl : y = (s, a) := by simpa using hy.symm
    exact absurd hprivate' hprivate

end Atomic

end ThreadPool
