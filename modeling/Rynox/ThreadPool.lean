import Mathlib.Data.Nat.Notation
import Rynox.Lts

/-!
# Pools of Threads over a Shared Memory

A `ThreadPool` is a program whose threads share one memory and run the same code. A
*controller* takes steps of its own on the shared memory and may create a thread with
each of them; a thread's step reads and writes the shared memory and the thread's local
state. Threads are never removed: a thread is known by its position in the list of
all threads ever created, and a finished one simply has no enabled step.

The scheduler and every answer from outside are part of the action, so the runs of
`ThreadPool.lts` are all interleavings under all answers.

## Main results

* `ThreadPool.step_controller`, `ThreadPool.step_thread`: what one step of the pool is.
* `ThreadPool.getElem?_spawn`, `ThreadPool.getElem?_set`: which thread stands at a
  position after a step, in the form the interference arguments use.
* `ThreadPool.run_localRun`: what is left of a run when all steps but those of one thread
  are forgotten.
* `ThreadPool.length_le_of_run`: no run loses a thread.
* `NoneOf.atMostOne_spawn`, `AtMostOne.set`: the two ways mutual exclusion is kept.
* `totalOf_set`, `totalOf_le`: a potential of the whole pool from one of each thread.
-/

/-- The code of a pool of threads: the shared memory at the start, the steps of the
controller, which may create a thread, and the steps of the threads. -/
structure ThreadPool (γ τ α ρ : Type*) where
  start : γ
  controller : γ → α → Option (γ × Option τ)
  thread : γ → τ → ρ → Option (γ × τ)

namespace ThreadPool

variable {γ τ α ρ : Type*}

/-- The shared memory and the local states of all threads created so far, in the order
of their creation. -/
structure State (γ τ : Type*) where
  shared : γ
  threads : List τ
  deriving DecidableEq, Repr

/-- Who moves: the controller by a step `a` of its own, or thread `i`, answered `r`. -/
inductive Action (α ρ : Type*)
  | controller (a : α)
  | thread (i : ℕ) (r : ρ)
  deriving DecidableEq, Repr

/-- The interleaving semantics of a pool: one step of the controller or of one thread. -/
def lts (P : ThreadPool γ τ α ρ) : Lts (State γ τ) (Action α ρ) where
  init := ⟨P.start, []⟩
  step s
    | .controller a => (P.controller s.shared a).map fun x => ⟨x.1, s.threads ++ x.2.toList⟩
    | .thread i r =>
        s.threads[i]?.bind fun t =>
          (P.thread s.shared t r).map fun x => ⟨x.1, s.threads.set i x.2⟩

variable {P : ThreadPool γ τ α ρ} {s s' : State γ τ}

/-- A pool starts with its initial shared memory. -/
@[simp] theorem lts_init_shared : P.lts.init.shared = P.start := rfl

/-- A pool starts without threads. -/
@[simp] theorem lts_init_threads : P.lts.init.threads = [] := rfl

/-- A step of the controller: the shared memory changes, and the created thread, if
any, is appended. -/
theorem step_controller {a : α} :
    P.lts.step s (.controller a) = some s' ↔
      ∃ g o, P.controller s.shared a = some (g, o) ∧ s' = ⟨g, s.threads ++ o.toList⟩ := by
  simp only [lts, Option.map_eq_some_iff, Prod.exists]
  constructor
  · rintro ⟨g, o, h, rfl⟩
    exact ⟨g, o, h, rfl⟩
  · rintro ⟨g, o, h, rfl⟩
    exact ⟨g, o, h, rfl⟩

/-- A step of a thread: the shared memory changes, and of the local states only the
thread's own. -/
theorem step_thread {i : ℕ} {r : ρ} :
    P.lts.step s (.thread i r) = some s' ↔
      ∃ t g t', s.threads[i]? = some t ∧ P.thread s.shared t r = some (g, t') ∧
        s' = ⟨g, s.threads.set i t'⟩ := by
  simp only [lts, Option.bind_eq_some_iff, Option.map_eq_some_iff, Prod.exists]
  constructor
  · rintro ⟨t, ht, g, t', h, rfl⟩
    exact ⟨t, g, t', ht, h, rfl⟩
  · rintro ⟨t, g, t', ht, h, rfl⟩
    exact ⟨t, ht, g, t', h, rfl⟩

/-! ### Which thread stands where -/

section Positions

variable {l : List τ} {t u v : τ} {i j : ℕ}

/-- After a creation, a position holds the thread it held, or it is the new last one
and holds the created thread. -/
theorem getElem?_spawn {o : Option τ} :
    (l ++ o.toList)[j]? = some u ↔ l[j]? = some u ∨ (j = l.length ∧ o = some u) := by
  rcases Nat.lt_trichotomy j l.length with h | rfl | h
  · rw [List.getElem?_append_left h]
    constructor
    · exact Or.inl
    · rintro (hu | ⟨rfl, -⟩)
      · exact hu
      · omega
  · cases o <;> simp
  · have hl : l[j]? = none := List.getElem?_eq_none (Nat.le_of_lt h)
    have hlo : (l ++ o.toList)[j]? = none := by
      refine List.getElem?_eq_none ?_
      cases o <;> simp <;> omega
    rw [hl, hlo]
    simp only [reduceCtorEq, false_or, false_iff, not_and]
    omega

/-- After a step of thread `i`, position `i` holds its new state and every other
position holds what it held. -/
theorem getElem?_set (hi : l[i]? = some t) :
    (l.set i v)[j]? = some u ↔ (j = i ∧ u = v) ∨ (j ≠ i ∧ l[j]? = some u) := by
  have hlt : i < l.length := (List.getElem?_eq_some_iff.mp hi).1
  by_cases h : j = i
  · subst h
    rw [List.getElem?_set_self hlt]
    simp [eq_comm]
  · rw [List.getElem?_set_ne (Ne.symm h)]
    simp [h]

/-- Writing back what stands at a position changes nothing. -/
theorem set_of_getElem? (hi : l[i]? = some t) : l.set i t = l := by
  obtain ⟨hlt, rfl⟩ := List.getElem?_eq_some_iff.mp hi
  exact List.set_getElem_self hlt

/-- What is found stands at a position of the list. -/
theorem lt_length_of_getElem? (hi : l[i]? = some t) : i < l.length :=
  (List.getElem?_eq_some_iff.mp hi).1

end Positions

/-- Steps create threads and never remove one. -/
theorem length_le_of_step {a : Action α ρ} (h : P.lts.step s a = some s') :
    s.threads.length ≤ s'.threads.length := by
  cases a with
  | controller a =>
      obtain ⟨g, o, -, rfl⟩ := step_controller.mp h
      simp
  | thread i r =>
      obtain ⟨t, g, t', -, -, rfl⟩ := step_thread.mp h
      simp

/-- No run loses a thread. -/
theorem length_le_of_run {tr : List (State γ τ × Action α ρ)} (hrun : P.lts.Run s tr s') :
    s.threads.length ≤ s'.threads.length := by
  refine hrun.induct (I := fun _ t => s.threads.length ≤ t.threads.length) (Nat.le_refl _) ?_
  intro tr t a u _ hle hstep
  exact Nat.le_trans hle (length_le_of_step hstep)

/-! ### The run of one thread -/

section Projection

variable {β : Type*}

/-- The transition as thread `i` sees it, if it is the one to move: its local state, and
what `f` makes of the shared memory and the answer. -/
def localStep (f : γ → τ → ρ → β) (i : ℕ) : State γ τ × Action α ρ → Option (τ × β)
  | (s, .thread j r) =>
      if j = i then s.threads[j]?.map fun t => (t, f s.shared t r) else none
  | (_, .controller _) => none

/-- The transitions of thread `i` alone in a run of the pool. -/
def localRun (f : γ → τ → ρ → β) (i : ℕ) (tr : List (State γ τ × Action α ρ)) : List (τ × β) :=
  Lts.observe (localStep f i) tr

/-- The life of a thread grows by its step in the last transition. -/
theorem localRun_snoc {f : γ → τ → ρ → β} {i : ℕ} {tr : List (State γ τ × Action α ρ)}
    {x : State γ τ × Action α ρ} :
    localRun f i (tr ++ [x]) = localRun f i tr ++ (localStep f i x).toList := by
  rw [localRun, Lts.observe_append, Lts.observe_singleton, localRun]

/-- **The projection rule.** Let the system `M` start where threads are created and follow
every step of a thread. Then forgetting all steps of a run but those of one thread leaves a
run of `M`. -/
theorem run_localRun {M : Lts τ β} {f : γ → τ → ρ → β}
    (hspawn : ∀ g a g' t, P.controller g a = some (g', some t) → t = M.init)
    (hthread : ∀ g t r g' t', P.thread g t r = some (g', t') → M.step t (f g t r) = some t')
    {tr : List (State γ τ × Action α ρ)} (hrun : P.lts.Run P.lts.init tr s) {i : ℕ} {t : τ}
    (hi : s.threads[i]? = some t) : M.Run M.init (localRun f i tr) t := by
  -- a thread that is not created yet is taken to stand at its start
  have key : M.Run M.init (localRun f i tr) (s.threads[i]?.getD M.init) := by
    refine hrun.induct
      (I := fun tr s => M.Run M.init (localRun f i tr) (s.threads[i]?.getD M.init)) (.nil _) ?_
    intro tr s a s' _ ih hstep
    rw [localRun_snoc]
    cases a with
    | controller a =>
        obtain ⟨g, o, ha, rfl⟩ := step_controller.mp hstep
        have hsame : (s.threads ++ o.toList)[i]?.getD M.init = s.threads[i]?.getD M.init := by
          cases o with
          | none => simp
          | some u =>
              obtain rfl := hspawn _ _ _ _ ha
              rw [Option.toList_some, List.getElem?_append]
              split
              · rfl
              · rename_i hlt
                rw [List.getElem?_eq_none (Nat.le_of_not_lt hlt)]
                cases i - s.threads.length <;> rfl
        simpa [localStep, hsame] using ih
    | thread j r =>
        obtain ⟨u, g, u', hj, hu, rfl⟩ := step_thread.mp hstep
        by_cases hji : j = i
        · subst hji
          have hlast : M.step u (f s.shared u r) = some u' := hthread _ _ _ _ _ hu
          rw [hj] at ih
          simpa [localStep, hj, List.getElem?_set_self (lt_length_of_getElem? hj)] using
            ih.snoc hlast
        · simpa [localStep, hji, List.getElem?_set_ne hji] using ih
  rwa [hi] at key

end Projection

end ThreadPool

/-! ### Mutual exclusion -/

section AtMostOne

variable {τ : Type*} {p : τ → Prop} {l : List τ}

/-- At most one position of the list holds an element with property `p`. -/
def AtMostOne (p : τ → Prop) (l : List τ) : Prop :=
  ∀ ⦃i j : ℕ⦄ ⦃t u : τ⦄, l[i]? = some t → l[j]? = some u → p t → p u → i = j

/-- Nobody has the property. -/
def NoneOf (p : τ → Prop) (l : List τ) : Prop :=
  ∀ t ∈ l, ¬ p t

instance [DecidablePred p] (l : List τ) : Decidable (NoneOf p l) :=
  inferInstanceAs (Decidable (∀ t ∈ l, ¬ p t))

/-- In an empty pool nobody has the property. -/
@[simp] theorem noneOf_nil : NoneOf p [] := by
  simp [NoneOf]

/-- Where nobody has the property, the thread at a position has not. -/
theorem NoneOf.not_of_getElem? {i : ℕ} {t : τ} (h : NoneOf p l) (hi : l[i]? = some t) : ¬ p t :=
  h t (List.mem_of_getElem? hi)

/-- Somebody has the property, and stands somewhere. -/
theorem exists_of_not_noneOf (h : ¬ NoneOf p l) : ∃ (i : ℕ) (t : τ), l[i]? = some t ∧ p t := by
  obtain ⟨t, ht, hp⟩ : ∃ t ∈ l, p t := by
    simpa [NoneOf] using h
  obtain ⟨i, hi⟩ := List.getElem?_of_mem ht
  exact ⟨i, t, hi, hp⟩

/-- None is at most one. -/
theorem NoneOf.atMostOne (h : NoneOf p l) : AtMostOne p l :=
  fun _ _ _ _ hi _ ht _ => absurd ht (h.not_of_getElem? hi)

/-- A step of one thread that does not give it the property leaves nobody with it. -/
theorem NoneOf.set {i : ℕ} {t' : τ} (h : NoneOf p l) (ht' : ¬ p t') : NoneOf p (l.set i t') := by
  intro u hu
  rcases List.mem_or_eq_of_mem_set hu with hu | rfl
  · exact h u hu
  · exact ht'

/-- Nobody has the property: not this thread, and none of the others. -/
theorem noneOf_iff {i : ℕ} {t : τ} (hi : l[i]? = some t) :
    NoneOf p l ↔ ¬ p t ∧ ∀ j u, j ≠ i → l[j]? = some u → ¬ p u := by
  constructor
  · intro h
    exact ⟨h.not_of_getElem? hi, fun j u _ hj => h.not_of_getElem? hj⟩
  · rintro ⟨ht, hothers⟩ u hu
    obtain ⟨j, hj⟩ := List.getElem?_of_mem hu
    by_cases hji : j = i
    · subst hji
      obtain rfl : t = u := Option.some.inj (hi.symm.trans hj)
      exact ht
    · exact hothers j u hji hj

/-- After a step of one thread nobody has the property: not this thread now, and none of the
others, which have not moved. -/
theorem noneOf_set_iff {i : ℕ} {t v : τ} (hi : l[i]? = some t) :
    NoneOf p (l.set i v) ↔ ¬ p v ∧ ∀ j u, j ≠ i → l[j]? = some u → ¬ p u := by
  rw [noneOf_iff ((ThreadPool.getElem?_set hi).mpr (Or.inl ⟨rfl, rfl⟩))]
  refine and_congr_right fun _ => forall_congr' fun j => forall_congr' fun u =>
    forall_congr' fun hji => ?_
  rw [List.getElem?_set_ne (Ne.symm hji)]

/-- Creating a thread keeps mutual exclusion when nobody had the property before. -/
theorem NoneOf.atMostOne_spawn {o : Option τ} (h : NoneOf p l) :
    AtMostOne p (l ++ o.toList) := by
  intro i j t u hi hj ht hu
  rcases ThreadPool.getElem?_spawn.mp hi with hi | ⟨rfl, -⟩
  · exact absurd ht (h.not_of_getElem? hi)
  · rcases ThreadPool.getElem?_spawn.mp hj with hj | ⟨rfl, -⟩
    · exact absurd hu (h.not_of_getElem? hj)
    · rfl

/-- A step that gives no thread the property anew keeps mutual exclusion. -/
theorem AtMostOne.set {i : ℕ} {t t' : τ} (h : AtMostOne p l) (hi : l[i]? = some t)
    (hp : p t' → p t) : AtMostOne p (l.set i t') := by
  have hold : ∀ {k : ℕ} {u : τ}, (l.set i t')[k]? = some u → p u →
      ∃ v, l[k]? = some v ∧ p v := by
    intro k u hk hu
    rcases (ThreadPool.getElem?_set hi).mp hk with ⟨rfl, rfl⟩ | ⟨-, hk⟩
    · exact ⟨t, hi, hp hu⟩
    · exact ⟨u, hk, hu⟩
  intro j k u v hj hk hu hv
  obtain ⟨u', hj', hu'⟩ := hold hj hu
  obtain ⟨v', hk', hv'⟩ := hold hk hv
  exact h hj' hk' hu' hv'

/-- Counted form of mutual exclusion. -/
theorem AtMostOne.countP_le_one {q : τ → Bool} (h : AtMostOne (fun t => q t = true) l) :
    l.countP q ≤ 1 := by
  induction l with
  | nil => simp
  | cons t l ih =>
      have htail : AtMostOne (fun t => q t = true) l := by
        intro i j u v hi hj hu hv
        have := h (i := i + 1) (j := j + 1) (by simpa using hi) (by simpa using hj) hu hv
        omega
      by_cases ht : q t = true
      · have hzero : l.countP q = 0 := by
          rw [List.countP_eq_zero]
          intro u hu hqu
          obtain ⟨j, hj⟩ := List.getElem?_of_mem hu
          have := h (i := 0) (j := j + 1) (by simp) (by simpa using hj) ht hqu
          omega
        have hone : (t :: l).countP q = 1 := by
          rw [List.countP_cons_of_pos ht, hzero]
        exact Nat.le_of_eq hone
      · rw [List.countP_cons_of_neg ht]
        exact ih htail

end AtMostOne

/-! ### Potentials of a pool -/

section TotalOf

variable {τ : Type*} {m : τ → ℕ} {l : List τ}

/-- The potential of a pool: the sum of those of its threads. -/
def totalOf (m : τ → ℕ) : List τ → ℕ
  | [] => 0
  | t :: l => m t + totalOf m l

/-- A step of one thread changes the total by the change of its own potential. -/
theorem totalOf_set {i : ℕ} {t v : τ} (hi : l[i]? = some t) :
    totalOf m (l.set i v) + m t = totalOf m l + m v := by
  induction l generalizing i with
  | nil => simp at hi
  | cons u l ih =>
      cases i with
      | zero =>
          obtain rfl : u = t := by simpa using hi
          simp only [totalOf, List.set_cons_zero]
          omega
      | succ i =>
          have := ih (i := i) (by simpa using hi)
          simp only [totalOf, List.set_cons_succ] at this ⊢
          omega

/-- The total is bounded by the largest potential of a thread times the number of the
threads that have any. -/
theorem totalOf_le {K : ℕ} {q : τ → Bool} (hK : ∀ t, m t ≤ K)
    (hq : ∀ t, q t = false → m t = 0) : totalOf m l ≤ K * l.countP q := by
  induction l with
  | nil => simp [totalOf]
  | cons t l ih =>
      simp only [totalOf]
      cases hqt : q t with
      | false =>
          rw [List.countP_cons_of_neg (by simp [hqt]), hq t hqt]
          omega
      | true =>
          rw [List.countP_cons_of_pos hqt, Nat.mul_add_one]
          have := hK t
          omega

end TotalOf
