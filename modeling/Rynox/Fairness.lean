import Rynox.Lts

/-!
# Infinite Executions and Fairness

A run is finite, so it says nothing about what must happen. An *execution* goes on for ever:
at each moment an action is taken, or nothing happens. What has happened by some moment is a
run, so all that holds of runs holds along executions. It is *fair* to some actions if these
are not put off for ever: as long as one of them is always enabled, one is taken.

## Main results

* `Lts.Execution.run_upTo`, `Lts.Execution.exists_run`: what happens up to a moment, and
  between two, is a run.
* `Lts.Execution.Fair.exists_or_count`: actions that are enabled until a goal is reached are
  taken as often as one likes, or the goal is reached.
* `Lts.Execution.ofRun`, `Lts.Execution.fair_ofRun`: a run with nothing after it is an
  execution, fair to all that is not enabled in its last state.
-/

namespace Lts

variable {σ α : Type*} {L : Lts σ α}

/-- One of the actions `p` is enabled. -/
def Enabled (L : Lts σ α) (p : α → Prop) (s : σ) : Prop :=
  ∃ a t, p a ∧ L.step s a = some t

/-- An **execution**: the states from moment to moment, and the action taken at each, if
any. -/
structure Execution (L : Lts σ α) where
  state : ℕ → σ
  action : ℕ → Option α
  starts : state 0 = L.init
  moves : ∀ n, ∀ a ∈ action n, L.step (state n) a = some (state (n + 1))
  waits : ∀ n, action n = none → state (n + 1) = state n

namespace Execution

variable {e : L.Execution} {n m : ℕ}

/-- The transitions made before a moment. -/
def upTo (e : L.Execution) : ℕ → List (σ × α)
  | 0 => []
  | n + 1 => e.upTo n ++ ((e.action n).map fun a => (e.state n, a)).toList

/-- Nothing has happened before the first moment. -/
@[simp] theorem upTo_zero : e.upTo 0 = [] := rfl

/-- One moment more is one transition more, unless nothing happens at it. -/
theorem upTo_succ : e.upTo (n + 1) =
    e.upTo n ++ ((e.action n).map fun a => (e.state n, a)).toList := rfl

/-- What happens between two moments is a run, and its transitions are those of the moments
in between. -/
theorem exists_run (hle : n ≤ m) :
    ∃ seg, e.upTo m = e.upTo n ++ seg ∧ L.Run (e.state n) seg (e.state m) ∧
      ∀ x ∈ seg, ∃ k, n ≤ k ∧ k < m ∧ x.1 = e.state k ∧ e.action k = some x.2 := by
  induction hle with
  | refl => exact ⟨[], by simp, .nil _, by simp⟩
  | @step m hle ih =>
      obtain ⟨seg, hsplit, hrun, hmoments⟩ := ih
      have hbefore : ∀ x ∈ seg, ∃ k, n ≤ k ∧ k < m + 1 ∧ x.1 = e.state k ∧
          e.action k = some x.2 := by
        intro x hx
        obtain ⟨k, hnk, hkm, hk⟩ := hmoments x hx
        exact ⟨k, hnk, Nat.lt_succ_of_lt hkm, hk⟩
      rw [upTo_succ, hsplit]
      cases ha : e.action m with
      | none =>
          rw [e.waits m ha]
          exact ⟨seg, by simp, hrun, hbefore⟩
      | some a =>
          refine ⟨seg ++ [(e.state m, a)], by simp, hrun.snoc (e.moves m a ha), ?_⟩
          intro x hx
          rcases List.mem_append.mp hx with hx | hx
          · exact hbefore x hx
          · obtain rfl := List.mem_singleton.mp hx
            exact ⟨m, hle, Nat.lt_succ_self m, rfl, ha⟩

/-- What has happened by a moment is a run. -/
theorem run_upTo (n : ℕ) : L.Run L.init (e.upTo n) (e.state n) := by
  obtain ⟨seg, hsplit, hrun, -⟩ := exists_run (e := e) (Nat.zero_le n)
  rw [upTo_zero, List.nil_append] at hsplit
  rwa [hsplit, ← e.starts]

/-- An execution is **fair** to the actions `p`: as long as one of them is always enabled,
one of them is taken. -/
def Fair (e : L.Execution) (p : α → Prop) : Prop :=
  ∀ n, (∀ m, n ≤ m → Enabled L p (e.state m)) → ∃ m, n ≤ m ∧ ∃ a ∈ e.action m, p a

/-- What has been counted stays counted. -/
theorem countP_upTo_le (hle : n ≤ m) (q : σ × α → Bool) :
    (e.upTo n).countP q ≤ (e.upTo m).countP q := by
  obtain ⟨seg, hsplit, -⟩ := exists_run (e := e) hle
  rw [hsplit, List.countP_append]
  exact Nat.le_add_right _ _

/-- **The fairness rule.** Let one of the actions be enabled wherever the goal is not yet
reached, from some moment on. Then the goal is reached, or there is no bound on how often
they are taken. -/
theorem Fair.exists_or_count {p : α → Prop} [DecidablePred p] (hfair : e.Fair p) {D : σ → Prop}
    (henabled : ∀ m, n ≤ m → ¬ D (e.state m) → Enabled L p (e.state m)) :
    (∃ m, n ≤ m ∧ D (e.state m)) ∨
      ∀ k, ∃ m, n ≤ m ∧ k ≤ (e.upTo m).countP fun x => decide (p x.2) := by
  by_cases hgoal : ∃ m, n ≤ m ∧ D (e.state m)
  · exact Or.inl hgoal
  · refine Or.inr fun k => ?_
    induction k with
    | zero => exact ⟨n, Nat.le_refl n, Nat.zero_le _⟩
    | succ k ih =>
        obtain ⟨m, hnm, hcount⟩ := ih
        have hlater : ∀ j, m ≤ j → Enabled L p (e.state j) := by
          intro j hmj
          have hnj := Nat.le_trans hnm hmj
          exact henabled j hnj fun hD => hgoal ⟨j, hnj, hD⟩
        obtain ⟨j, hmj, a, ha, hp⟩ := hfair m hlater
        have hmono := countP_upTo_le (e := e) hmj fun x => decide (p x.2)
        refine ⟨j + 1, by omega, ?_⟩
        rw [upTo_succ, Option.mem_def.mp ha, Option.map_some, Option.toList_some,
          List.countP_append, List.countP_singleton, if_pos (decide_eq_true hp)]
        omega

/-! ### Executions that come to an end -/

/-- A run, with nothing happening after it. -/
def ofRun {tr : List (σ × α)} {t : σ} (hrun : L.Run L.init tr t) : L.Execution where
  state n := (tr[n]?.map Prod.fst).getD t
  action n := tr[n]?.map Prod.snd
  starts := by
    cases tr with
    | nil => exact hrun.nil_inv
    | cons x tr => exact hrun.cons_inv.1
  moves := by
    intro n a ha
    obtain ⟨x, hx, rfl⟩ := Option.map_eq_some_iff.mp ha
    obtain ⟨-, hafter⟩ := hrun.split_getElem? hx
    obtain ⟨hlt, rfl⟩ := List.getElem?_eq_some_iff.mp hx
    rw [List.drop_eq_getElem_cons hlt] at hafter
    obtain ⟨-, u, hstep, hrest⟩ := hafter.cons_inv
    rw [hx, Option.map_some, Option.getD_some, hstep]
    refine congrArg some ?_
    cases hy : tr[n + 1]? with
    | none =>
        rw [List.drop_eq_nil_of_le (List.getElem?_eq_none_iff.mp hy)] at hrest
        exact hrest.nil_inv.symm
    | some y =>
        obtain ⟨hlt', rfl⟩ := List.getElem?_eq_some_iff.mp hy
        rw [List.drop_eq_getElem_cons hlt'] at hrest
        exact hrest.cons_inv.1.symm
  waits := by
    intro n hn
    have hle := List.getElem?_eq_none_iff.mp (Option.map_eq_none_iff.mp hn)
    rw [List.getElem?_eq_none_iff.mpr hle,
      List.getElem?_eq_none_iff.mpr (Nat.le_succ_of_le hle)]

/-- During the run the states are its own. -/
theorem state_ofRun_of_getElem? {tr : List (σ × α)} {t : σ} {hrun : L.Run L.init tr t} {x : σ × α}
    (hx : tr[n]? = some x) : (ofRun hrun).state n = x.1 := by
  simp only [ofRun, hx, Option.map_some, Option.getD_some]

/-- After the run nothing changes. -/
theorem state_ofRun {tr : List (σ × α)} {t : σ} {hrun : L.Run L.init tr t}
    (hle : tr.length ≤ n) : (ofRun hrun).state n = t := by
  simp only [ofRun, List.getElem?_eq_none_iff.mpr hle, Option.map_none, Option.getD_none]

/-- It is fair to all that its last state does not enable. -/
theorem fair_ofRun {tr : List (σ × α)} {t : σ} {hrun : L.Run L.init tr t} {p : α → Prop}
    (hdisabled : ¬ Enabled L p t) : (ofRun hrun).Fair p := by
  intro n henabled
  have hlast := henabled (max n tr.length) (Nat.le_max_left _ _)
  rw [state_ofRun (Nat.le_max_right _ _)] at hlast
  exact absurd hlast hdisabled

end Execution

end Lts
