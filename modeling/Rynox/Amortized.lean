import Rynox.ThreadPool

/-!
# Costs and Credits of Runs

The potential method. Every transition of a run has a cost and earns a credit, and a
potential of the states carries over what is not spent yet. If each transition is paid for
by its credit and by what it takes from the potential, then so is the whole run.

The total of a list is `totalOf`, so a cost or a credit is any function of transitions to
natural numbers; those that only count are `K * l.countP p` (`totalOf_ite`).

## Main results

* `Lts.Run.totalOf_add_le`: cost and final potential are covered by credit and initial
  potential.
* `Lts.Run.totalOf_add_eq`: the conservation law, when every transition is paid for exactly.
-/

section Totals

variable {τ : Type*} {m n : τ → ℕ} {l l₁ l₂ : List τ}

/-- An empty list costs nothing. -/
@[simp] theorem totalOf_nil : totalOf m ([] : List τ) = 0 := rfl

/-- The total of a list from its head. -/
@[simp] theorem totalOf_cons (t : τ) : totalOf m (t :: l) = m t + totalOf m l := rfl

/-- The total of two lists in a row. -/
@[simp] theorem totalOf_append : totalOf m (l₁ ++ l₂) = totalOf m l₁ + totalOf m l₂ := by
  induction l₁ with
  | nil => simp
  | cons t l₁ ih =>
      rw [List.cons_append, totalOf_cons, ih, totalOf_cons]
      omega

/-- The total of a sum is the sum of the totals. -/
theorem totalOf_add : totalOf (fun t => m t + n t) l = totalOf m l + totalOf n l := by
  induction l with
  | nil => rfl
  | cons t l ih =>
      rw [totalOf_cons, totalOf_cons, totalOf_cons, ih]
      omega

/-- A price on some elements: it is paid once for each of them. -/
theorem totalOf_ite {K : ℕ} {p : τ → Bool} :
    totalOf (fun t => if p t then K else 0) l = K * l.countP p := by
  induction l with
  | nil => simp
  | cons t l ih =>
      rw [totalOf_cons, ih]
      cases hp : p t with
      | false => simp [List.countP_cons_of_neg, hp]
      | true =>
          rw [List.countP_cons_of_pos hp, Nat.mul_add_one, if_pos rfl, Nat.add_comm]

/-- Everything costs one. -/
theorem totalOf_one : totalOf (fun _ => 1) l = l.length := by
  induction l with
  | nil => rfl
  | cons t l ih =>
      rw [totalOf_cons, ih, List.length_cons, Nat.add_comm]

/-- A step of one element changes a count by what it changes of its own. -/
theorem countP_set_add {p : τ → Bool} {i : ℕ} {t v : τ} (hi : l[i]? = some t) :
    (l.set i v).countP p + (if p t then 1 else 0) = l.countP p + if p v then 1 else 0 := by
  have hset := totalOf_set (m := fun t => if p t then 1 else 0) (v := v) hi
  simpa only [totalOf_ite, Nat.one_mul] using hset

/-- Removing an element takes its part out of the total. -/
theorem totalOf_eraseIdx {i : ℕ} {t : τ} (hi : l[i]? = some t) :
    totalOf m (l.eraseIdx i) + m t = totalOf m l := by
  induction l generalizing i with
  | nil => simp at hi
  | cons u l ih =>
      cases i with
      | zero =>
          obtain rfl : u = t := by simpa using hi
          rw [List.eraseIdx_cons_zero, totalOf_cons, Nat.add_comm]
      | succ i =>
          have := ih (i := i) (by simpa using hi)
          rw [List.eraseIdx_cons_succ, totalOf_cons, totalOf_cons]
          omega

/-- An element that goes on, or is gone: its part is replaced by that of what it has become. -/
theorem totalOf_replace {i : ℕ} {t : τ} {o : Option τ} (hi : l[i]? = some t) :
    totalOf m (o.elim (l.eraseIdx i) (l.set i)) + m t = totalOf m l + totalOf m o.toList := by
  cases o with
  | none => exact totalOf_eraseIdx hi
  | some v => exact totalOf_set hi

/-- Nothing is left exactly when nothing is left of any element. -/
theorem totalOf_eq_zero_iff : totalOf m l = 0 ↔ ∀ t ∈ l, m t = 0 := by
  induction l with
  | nil => simp
  | cons t l ih =>
      rw [totalOf_cons, Nat.add_eq_zero_iff, ih, List.forall_mem_cons]

end Totals

namespace Lts

variable {σ α : Type*} {L : Lts σ α} {C : σ → α → Prop} {cost credit : σ × α → ℕ} {m : σ → ℕ}
  {s t : σ} {tr : List (σ × α)}

/-- **The potential method.** Let every transition be paid for by its credit and by what it
takes from the potential; it may be used that a run of the allowed transitions led to it.
Then the cost of a run and the potential it leaves are covered by its credit and the
potential it began with. -/
theorem Run.totalOf_add_le (hrun : L.Run s tr t) (hC : Along C tr)
    (hstep : ∀ {tr t a u}, L.Run s tr t → Along C tr → C t a → L.step t a = some u →
      cost (t, a) + m u ≤ credit (t, a) + m t) :
    totalOf cost tr + m t ≤ totalOf credit tr + m s := by
  have key : Along C tr ∧ totalOf cost tr + m t ≤ totalOf credit tr + m s := by
    refine hrun.induct_along (I := fun tr t => Along C tr ∧
      totalOf cost tr + m t ≤ totalOf credit tr + m s) hC ⟨along_nil, by simp⟩ ?_
    rintro tr t a u hpre ⟨hbefore, hle⟩ ha hst
    have hpaid := hstep hpre hbefore ha hst
    refine ⟨along_append.mpr ⟨hbefore, along_singleton.mpr ha⟩, ?_⟩
    simp only [totalOf_append, totalOf_cons, totalOf_nil]
    omega
  exact key.2

/-- **The conservation law.** When every transition is paid for exactly, so is the run. -/
theorem Run.totalOf_add_eq (hrun : L.Run s tr t) (hC : Along C tr)
    (hstep : ∀ {tr t a u}, L.Run s tr t → Along C tr → C t a → L.step t a = some u →
      cost (t, a) + m u = credit (t, a) + m t) :
    totalOf cost tr + m t = totalOf credit tr + m s := by
  have key : Along C tr ∧ totalOf cost tr + m t = totalOf credit tr + m s := by
    refine hrun.induct_along (I := fun tr t => Along C tr ∧
      totalOf cost tr + m t = totalOf credit tr + m s) hC ⟨along_nil, by simp⟩ ?_
    rintro tr t a u hpre ⟨hbefore, heq⟩ ha hst
    have hpaid := hstep hpre hbefore ha hst
    refine ⟨along_append.mpr ⟨hbefore, along_singleton.mpr ha⟩, ?_⟩
    simp only [totalOf_append, totalOf_cons, totalOf_nil]
    omega
  exact key.2

end Lts
