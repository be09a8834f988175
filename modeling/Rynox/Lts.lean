import Mathlib.Data.List.Induction

/-!
# Partial Transition Systems and Their Runs

A transition system is an initial state and a partial step function: `step s a` is the
state that action `a` leads to from `s`, or `none` when `a` is not enabled there. All
nondeterminism sits in the choice of the action, so a run is determined by its start
and its actions, and runs on concrete inputs can be evaluated (`Lts.exec`).

A run is recorded as the list of its *transitions* `(s, a)`, each with the state the
action was taken in, oldest first. Properties of a whole run — how often something
happened, what happened before what — are then properties of that list.

## Main results

* `Lts.Run.induct_along`: the invariant rule for runs whose transitions all meet a
  condition; the invariant may speak about the history of the run.
* `Lts.Run.countP_add_le`: a potential that pays for every counted transition bounds
  how many of them a run makes.
* `Lts.exists_run_of_descent`: a measure that some step always lowers leads to a goal.
* `Lts.Run.simulation`: the forward simulation rule, with agreement of observations.
* `Lts.exists_run_of_exec`: an evaluated run is a run.
-/

/-- A **partial labelled transition system**: the state it starts in and the successor
of a state under an action, if the action is enabled. -/
structure Lts (σ α : Type*) where
  init : σ
  step : σ → α → Option σ

namespace Lts

variable {σ α τ β ε : Type*}

/-- `L.Run s tr t`: the transitions `tr`, oldest first, lead from `s` to `t`. -/
inductive Run (L : Lts σ α) : σ → List (σ × α) → σ → Prop
  | nil (s : σ) : Run L s [] s
  | snoc {s t u : σ} {tr : List (σ × α)} {a : α} :
      Run L s tr t → L.step t a = some u → Run L s (tr ++ [(t, a)]) u

/-- A state is **reachable** when some run leads to it from the initial state. -/
def Reachable (L : Lts σ α) (s : σ) : Prop :=
  ∃ tr, L.Run L.init tr s

/-- Every transition of the run meets the condition `C`, which is about the state the
action is taken in and the action. -/
def Along (C : σ → α → Prop) (tr : List (σ × α)) : Prop :=
  ∀ x ∈ tr, C x.1 x.2

variable {L : Lts σ α} {C : σ → α → Prop} {s t u : σ} {tr tr₁ tr₂ : List (σ × α)}

instance [∀ s a, Decidable (C s a)] (tr : List (σ × α)) : Decidable (Along C tr) :=
  inferInstanceAs (Decidable (∀ x ∈ tr, C x.1 x.2))

/-! ### Conditions along a run -/

/-- Every condition holds along the empty run. -/
@[simp] theorem along_nil : Along C [] := by
  simp [Along]

/-- A condition holds along a run exactly when it does along both its parts. -/
@[simp] theorem along_append : Along C (tr₁ ++ tr₂) ↔ Along C tr₁ ∧ Along C tr₂ := by
  simp only [Along, List.mem_append]
  constructor
  · intro h
    exact ⟨fun x hx => h x (Or.inl hx), fun x hx => h x (Or.inr hx)⟩
  · rintro ⟨h₁, h₂⟩ x (hx | hx)
    · exact h₁ x hx
    · exact h₂ x hx

/-- A condition along a single transition. -/
@[simp] theorem along_singleton {x : σ × α} : Along C [x] ↔ C x.1 x.2 := by
  simp [Along]

/-- What is always true holds along every run. -/
theorem along_true : Along (fun _ _ => True) tr :=
  fun _ _ => trivial

/-! ### Building and splitting runs -/

/-- A single enabled action is a run. -/
theorem Run.single {a : α} (h : L.step s a = some t) : L.Run s [(s, a)] t :=
  Run.snoc (Run.nil s) h

/-- Runs compose. -/
theorem Run.append (h₁ : L.Run s tr₁ t) (h₂ : L.Run t tr₂ u) :
    L.Run s (tr₁ ++ tr₂) u := by
  induction h₂ with
  | nil => simpa using h₁
  | snoc _ hstep ih =>
      rw [← List.append_assoc]
      exact Run.snoc ih hstep

/-- A run prefixed by one enabled action. -/
theorem Run.cons {a : α} (h : L.step s a = some t) (hrun : L.Run t tr u) :
    L.Run s ((s, a) :: tr) u :=
  (Run.single h).append hrun

/-- A run without transitions stays where it is. -/
theorem Run.nil_inv (h : L.Run s [] t) : t = s := by
  generalize htr : ([] : List (σ × α)) = tr at h
  cases h with
  | nil => rfl
  | snoc _ _ => simp at htr

/-- Inversion of the last transition of a run. -/
theorem Run.snoc_inv {x : σ × α} (h : L.Run s (tr ++ [x]) u) :
    L.Run s tr x.1 ∧ L.step x.1 x.2 = some u := by
  generalize htr : tr ++ [x] = tr' at h
  cases h with
  | nil => simp at htr
  | snoc hrun hstep =>
      obtain ⟨rfl, rfl⟩ := List.append_singleton_inj.mp htr
      exact ⟨hrun, hstep⟩

/-- A run splits at every point of its list of transitions. -/
theorem Run.split (h : L.Run s (tr₁ ++ tr₂) u) :
    ∃ t, L.Run s tr₁ t ∧ L.Run t tr₂ u := by
  induction tr₂ using List.reverseRecOn generalizing u with
  | nil => exact ⟨u, by simpa using h, Run.nil u⟩
  | append_singleton tr₂ x ih =>
      rw [← List.append_assoc] at h
      obtain ⟨hrun, hstep⟩ := h.snoc_inv
      obtain ⟨t, h₁, h₂⟩ := ih hrun
      exact ⟨t, h₁, h₂.snoc hstep⟩

/-- Inversion of the first transition of a run. -/
theorem Run.cons_inv {x : σ × α} (h : L.Run s (x :: tr) u) :
    x.1 = s ∧ ∃ t, L.step s x.2 = some t ∧ L.Run t tr u := by
  have h' : L.Run s ([x] ++ tr) u := h
  obtain ⟨t, h₁, h₂⟩ := h'.split
  have h₁' : L.Run s ([] ++ [x]) t := h₁
  obtain ⟨hnil, hstep⟩ := h₁'.snoc_inv
  obtain rfl : x.1 = s := hnil.nil_inv
  exact ⟨rfl, t, hstep, h₂⟩

/-- The state a transition of a run is taken in is reached by the run before it. -/
theorem Run.split_at {x : σ × α} (h : L.Run s (tr₁ ++ x :: tr₂) u) :
    L.Run s tr₁ x.1 ∧ ∃ t, L.step x.1 x.2 = some t ∧ L.Run t tr₂ u := by
  obtain ⟨m, h₁, h₂⟩ := h.split
  obtain ⟨rfl, t, hstep, h₃⟩ := h₂.cons_inv
  exact ⟨h₁, t, hstep, h₃⟩

/-- What a run from the initial state leads to is reachable. -/
theorem Run.reachable (h : L.Run L.init tr s) : L.Reachable s :=
  ⟨tr, h⟩

/-! ### Invariants -/

/-- **The invariant rule.** What holds of the start and is kept by every transition
that meets the condition holds after every run whose transitions all meet it. The
invariant may speak about the transitions made so far. -/
theorem Run.induct_along {I : List (σ × α) → σ → Prop} (hrun : L.Run s tr t)
    (hC : Along C tr) (hinit : I [] s)
    (hstep : ∀ {tr t a u}, L.Run s tr t → I tr t → C t a → L.step t a = some u →
      I (tr ++ [(t, a)]) u) :
    I tr t := by
  induction hrun with
  | nil => exact hinit
  | snoc hpre hst ih =>
      obtain ⟨hC, hlast⟩ := along_append.mp hC
      exact hstep hpre (ih hC) (along_singleton.mp hlast) hst

/-- The invariant rule for runs under no condition. -/
theorem Run.induct {I : List (σ × α) → σ → Prop} (hrun : L.Run s tr t)
    (hinit : I [] s)
    (hstep : ∀ {tr t a u}, L.Run s tr t → I tr t → L.step t a = some u →
      I (tr ++ [(t, a)]) u) :
    I tr t :=
  hrun.induct_along along_true hinit fun hpre hI _ h => hstep hpre hI h

/-- The invariant rule for reachable states. -/
theorem Reachable.invariant {I : σ → Prop} (h : L.Reachable s) (hinit : I L.init)
    (hstep : ∀ {t a u}, I t → L.step t a = some u → I u) : I s := by
  obtain ⟨tr, hrun⟩ := h
  exact hrun.induct (I := fun _ s => I s) hinit fun _ => hstep

/-! ### Potentials -/

/-- **The potential rule.** Under an invariant, let every transition keep or lower the
potential `m`, and the counted ones lower it by at least one. Then a run makes at most
as many counted transitions as the potential it starts with. -/
theorem Run.countP_add_le {I : σ → Prop} {m : σ → ℕ} {p : σ × α → Bool}
    (hrun : L.Run s tr t) (hC : Along C tr) (hinit : I s)
    (hstep : ∀ {t a u}, I t → C t a → L.step t a = some u →
      I u ∧ (if p (t, a) then 1 else 0) + m u ≤ m t) :
    tr.countP p + m t ≤ m s := by
  have key : I t ∧ tr.countP p + m t ≤ m s := by
    refine hrun.induct_along (I := fun tr t => I t ∧ tr.countP p + m t ≤ m s) hC
      ⟨hinit, by simp⟩ ?_
    rintro tr t a u - ⟨hI, hle⟩ hCa hst
    obtain ⟨hI', hdrop⟩ := hstep hI hCa hst
    refine ⟨hI', ?_⟩
    rw [List.countP_append, List.countP_singleton]
    omega
  exact key.2

/-- **The progress rule.** Let every state that meets `I` and not the goal `D` have a step
that `C` allows, keeps `I` and lowers the measure. Then some run of such steps reaches
the goal. -/
theorem exists_run_of_descent {I D : σ → Prop} {m : σ → ℕ}
    (hstep : ∀ s, I s → ¬ D s → ∃ a t, C s a ∧ L.step s a = some t ∧ I t ∧ m t < m s)
    (hI : I s) : ∃ tr t, L.Run s tr t ∧ Along C tr ∧ I t ∧ D t := by
  induction hn : m s using Nat.strongRecOn generalizing s with
  | _ n ih =>
      by_cases hD : D s
      · exact ⟨[], s, Run.nil s, along_nil, hI, hD⟩
      · obtain ⟨a, t, hC, hst, hIt, hlt⟩ := hstep s hI hD
        obtain ⟨tr, u, hrun, halong, hIu, hDu⟩ := ih (m t) (hn ▸ hlt) hIt rfl
        refine ⟨(s, a) :: tr, u, Run.cons hst hrun, ?_, hIu, hDu⟩
        intro x hx
        rcases List.mem_cons.mp hx with rfl | hx
        · exact hC
        · exact halong x hx

/-! ### Simulation -/

/-- What an observer sees of a run: the observations of its transitions, in order. -/
def observe (obs : σ × α → Option ε) (tr : List (σ × α)) : List ε :=
  tr.filterMap obs

/-- Nothing is seen of the empty run. -/
@[simp] theorem observe_nil (obs : σ × α → Option ε) : observe obs [] = [] := rfl

/-- What is seen of two runs in a row. -/
@[simp] theorem observe_append (obs : σ × α → Option ε) :
    observe obs (tr₁ ++ tr₂) = observe obs tr₁ ++ observe obs tr₂ :=
  List.filterMap_append

/-- What is seen of a single transition. -/
@[simp] theorem observe_singleton (obs : σ × α → Option ε) (x : σ × α) :
    observe obs [x] = (obs x).toList := by
  cases h : obs x <;> simp [observe, h]

/-- What is seen of a run from its first transition. -/
theorem observe_cons (obs : σ × α → Option ε) (x : σ × α) :
    observe obs (x :: tr) = (obs x).toList ++ observe obs tr := by
  rw [← List.singleton_append, observe_append, observe_singleton]

/-- Every observation of the list stands in the relation `P` to those before it. -/
def Historically (P : List ε → ε → Prop) (l : List ε) : Prop :=
  ∀ before e after, l = before ++ e :: after → P before e

/-- Everything holds historically of the empty list. -/
@[simp] theorem historically_nil (P : List ε → ε → Prop) : Historically P [] := by
  intro before e after h
  simp at h

/-- What holds historically of a list with one more element: it does of the list, and the
element stands in the relation to it. -/
theorem historically_snoc {P : List ε → ε → Prop} {l : List ε} {e : ε} :
    Historically P (l ++ [e]) ↔ Historically P l ∧ P l e := by
  constructor
  · intro h
    refine ⟨fun before e' after hl => h before e' (after ++ [e]) ?_, h l e [] rfl⟩
    rw [hl, List.append_assoc, List.cons_append]
  · rintro ⟨hl, he⟩ before e' after heq
    rcases List.eq_nil_or_concat after with rfl | ⟨after', e'', rfl⟩
    · obtain ⟨rfl, rfl⟩ := List.append_singleton_inj.mp heq
      exact he
    · rw [List.concat_eq_append, ← List.cons_append, ← List.append_assoc] at heq
      obtain ⟨rfl, rfl⟩ := List.append_singleton_inj.mp heq
      exact hl before e' after' rfl

/-- What holds historically of a list does so of those it begins with. -/
theorem historically_of_append {P : List ε → ε → Prop} {l l' : List ε}
    (h : Historically P (l ++ l')) : Historically P l := by
  rintro before e after rfl
  exact h before e (after ++ l') (by simp)

/-- A list splits at each of its positions. -/
theorem eq_take_cons_drop {l : List ε} {x : ε} {i : ℕ} (h : l[i]? = some x) :
    l = l.take i ++ x :: l.drop (i + 1) := by
  obtain ⟨hlt, rfl⟩ := List.getElem?_eq_some_iff.mp h
  rw [List.getElem_cons_drop, List.take_append_drop]

/-- The same by positions, which can be decided. -/
theorem historically_iff_getElem? {P : List ε → ε → Prop} {l : List ε} :
    Historically P l ↔ ∀ i < l.length, ∀ e ∈ l[i]?, P (l.take i) e := by
  constructor
  · intro h i _ e he
    exact h _ _ _ (eq_take_cons_drop he)
  · rintro h before e after rfl
    simpa using h before.length (by simp) e (by simp)

instance {P : List ε → ε → Prop} [∀ l e, Decidable (P l e)] (l : List ε) :
    Decidable (Historically P l) :=
  decidable_of_iff _ historically_iff_getElem?.symm

/-- **The forward simulation rule.** If every step of `L` from a state related to one
of `M` is answered by a run of `M` with the same observations into related states, so
is every run of `L`. -/
theorem Run.simulation {M : Lts τ β} {R : σ → τ → Prop} {obsL : σ × α → Option ε}
    {obsM : τ × β → Option ε} {m : τ} (hrun : L.Run s tr t) (hR : R s m)
    (hstep : ∀ {s a t m}, R s m → L.step s a = some t →
      ∃ tr' m', M.Run m tr' m' ∧ R t m' ∧ observe obsM tr' = (obsL (s, a)).toList) :
    ∃ tr' m', M.Run m tr' m' ∧ R t m' ∧ observe obsM tr' = observe obsL tr := by
  induction hrun with
  | nil => exact ⟨[], m, Run.nil m, hR, rfl⟩
  | snoc _ hst ih =>
      obtain ⟨tr₁, m₁, hrun₁, hR₁, hobs₁⟩ := ih
      obtain ⟨tr₂, m₂, hrun₂, hR₂, hobs₂⟩ := hstep hR₁ hst
      refine ⟨tr₁ ++ tr₂, m₂, hrun₁.append hrun₂, hR₂, ?_⟩
      rw [observe_append, observe_append, observe_singleton, hobs₁, hobs₂]

/-! ### Evaluating runs -/

/-- Take the given actions one after another: the transitions made and the state they
lead to, or `none` when one of them is not enabled. -/
def exec (L : Lts σ α) : σ → List α → Option (List (σ × α) × σ)
  | s, [] => some ([], s)
  | s, a :: as =>
      match L.step s a with
      | none => none
      | some t =>
          match L.exec t as with
          | none => none
          | some (tr, u) => some ((s, a) :: tr, u)

/-- An evaluated run is a run. -/
theorem run_of_exec (as : List α) (h : L.exec s as = some (tr, t)) : L.Run s tr t := by
  induction as generalizing s tr with
  | nil =>
      simp only [exec, Option.some.injEq, Prod.mk.injEq] at h
      obtain ⟨rfl, rfl⟩ := h
      exact Run.nil s
  | cons a as ih =>
      rw [exec] at h
      split at h
      · cases h
      · rename_i m hm
        split at h
        · cases h
        · rename_i tr' u' htr'
          simp only [Option.some.injEq, Prod.mk.injEq] at h
          obtain ⟨rfl, rfl⟩ := h
          exact Run.cons hm (ih htr')

/-- A decidable property of an evaluated run is a property of some run. -/
theorem exists_run_of_exec {P : List (σ × α) → σ → Prop} [∀ tr t, Decidable (P tr t)]
    (as : List α) (h : (L.exec s as).any (fun r => decide (P r.1 r.2)) = true) :
    ∃ tr t, L.Run s tr t ∧ P tr t := by
  cases hexec : L.exec s as with
  | none =>
      rw [hexec] at h
      cases h
  | some r =>
      rw [hexec] at h
      exact ⟨r.1, r.2, run_of_exec as hexec, of_decide_eq_true h⟩

/-- A run splits at the state its `i`-th transition is taken in. -/
theorem Run.split_getElem? {x : σ × α} {i : ℕ} (h : L.Run s tr u) (hx : tr[i]? = some x) :
    L.Run s (tr.take i) x.1 ∧ L.Run x.1 (tr.drop i) u := by
  have hdrop : tr.drop i = x :: tr.drop (i + 1) := by
    refine (List.append_right_inj (tr.take i)).mp ?_
    rw [List.take_append_drop]
    exact eq_take_cons_drop hx
  rw [← List.take_append_drop i tr, hdrop] at h
  obtain ⟨h₁, t, hstep, h₂⟩ := h.split_at
  rw [hdrop]
  exact ⟨h₁, .cons hstep h₂⟩

end Lts
