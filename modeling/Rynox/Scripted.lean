import Mathlib.Data.Nat.Notation

/-!
# Programs Run on a Script of Answers

A structured program performs operations of type `ω`, each answered by a `ρ`, and returns
an `α`. Here it is what it does on every *script*, a list of answers: the operations it
performs while the answers last, and its result with the answers it left, if they lasted to
its end. So a program is a function, can be evaluated, and two programs are equal when they
perform the same operations on every script.

Sequencing, early return and branching are those of `do`. There are two loops:
`Scripted.timesM`, which runs its body a fixed number of times, and `Scripted.whileM`,
which tests before every round. A loop that goes on performs operations, and so uses up
the script; that is why it needs no bound of its own (`whileM_eq`).

## Main results

* `LawfulMonad (Scripted ω ρ)`: sequencing may be regrouped.
* `Scripted.whileM_eq`: the unfolding of a loop whose test performs an operation.
* `Scripted.EqUpTo.perform`, `Scripted.eq_of_eqUpTo`: two programs that go round in step are
  equal.
-/

/-- A **program on a script**: the operations it performs on a list of answers, and its
result with the answers left, or `none` when it is still under way at the end of the
list. An operation takes an answer. -/
structure Scripted (ω ρ α : Type) where
  run : List ρ → List ω × Option (α × List ρ)
  le_length : ∀ as, (run as).1.length + ((run as).2.elim 0 fun x => x.2.length) ≤ as.length

namespace Scripted

variable {ω ρ α β : Type}

/-- Programs are equal when they do the same on every script. -/
@[ext] theorem ext {p q : Scripted ω ρ α} (h : ∀ as, p.run as = q.run as) : p = q := by
  cases p
  cases q
  rw [mk.injEq]
  exact funext h

/-- Perform an operation; its answer is the result. -/
def perform (o : ω) : Scripted ω ρ ρ where
  run
    | [] => ([], none)
    | a :: as => ([o], some (a, as))
  le_length
    | [] => Nat.le_refl 0
    | a :: as => by simp [Nat.add_comm]

/-- What is done after a program: nothing, if it has not ended, and else the program that
follows it, on the answers left. -/
def andThen (f : α → Scripted ω ρ β) : List ω × Option (α × List ρ) → List ω × Option (β × List ρ)
  | (os, none) => (os, none)
  | (os, some (x, as)) => (os ++ ((f x).run as).1, ((f x).run as).2)

instance : Monad (Scripted ω ρ) where
  pure x := ⟨fun as => ([], some (x, as)), fun as => by simp⟩
  bind p f := ⟨fun as => andThen f (p.run as), fun as => by
    have hp := p.le_length as
    rcases hrun : p.run as with ⟨os, _ | ⟨x, as'⟩⟩
    · simpa [hrun, andThen] using hp
    · have hf := (f x).le_length as'
      rw [hrun] at hp
      simp only [Option.elim_some] at hp
      simp only [andThen, List.length_append]
      omega⟩

/-- A value performs nothing and leaves the script. -/
@[simp] theorem run_pure (x : α) (as : List ρ) :
    (pure x : Scripted ω ρ α).run as = ([], some (x, as)) := rfl

/-- Sequencing runs the second program on what the first leaves. -/
theorem run_bind (p : Scripted ω ρ α) (f : α → Scripted ω ρ β) (as : List ρ) :
    (p >>= f).run as = andThen f (p.run as) := rfl

/-- Without an answer an operation does not come back. -/
@[simp] theorem run_perform_bind_nil (o : ω) (f : ρ → Scripted ω ρ β) :
    (perform o >>= f).run [] = ([], none) := rfl

/-- An operation takes the first answer, and the program goes on with it. -/
@[simp] theorem run_perform_bind_cons (o : ω) (f : ρ → Scripted ω ρ β) (a : ρ) (as : List ρ) :
    (perform o >>= f).run (a :: as) = (o :: ((f a).run as).1, ((f a).run as).2) := rfl

instance : LawfulMonad (Scripted ω ρ) := LawfulMonad.mk' _
  (fun p => by
    ext as : 1
    have h : (id <$> p).run as = andThen (fun x => pure x) (p.run as) := rfl
    rw [h]
    rcases p.run as with ⟨os, _ | ⟨x, as'⟩⟩ <;> simp [andThen])
  (fun x f => by
    ext as : 1
    simp [run_bind, andThen])
  (fun p f g => by
    ext as : 1
    simp only [run_bind]
    rcases p.run as with ⟨os, _ | ⟨x, as'⟩⟩
    · rfl
    · simp only [andThen, run_bind]
      rcases (f x).run as' with ⟨os', _ | ⟨y, as''⟩⟩ <;> simp)

/-! ### Loops -/

/-- Run the body `n` times. -/
def timesM (body : Scripted ω ρ Unit) : ℕ → Scripted ω ρ Unit
  | 0 => pure ()
  | n + 1 => do
      body
      timesM body n

/-- Run the body while the test succeeds, for at most `n` tests: after them the program is
taken not to have ended. -/
def whileUpTo (test : Scripted ω ρ Bool) (body : Scripted ω ρ Unit) : ℕ → Scripted ω ρ Unit
  | 0 => ⟨fun _ => ([], none), fun _ => Nat.zero_le _⟩
  | n + 1 => do
      if ← test then
        body
        whileUpTo test body n

/-- Run the body while the test succeeds. There are never more tests than answers, if a test
performs an operation. -/
def whileM (test : Scripted ω ρ Bool) (body : Scripted ω ρ Unit) : Scripted ω ρ Unit where
  run as := (whileUpTo test body as.length).run as
  le_length as := (whileUpTo test body as.length).le_length as

variable {test : Scripted ω ρ Bool} {body : Scripted ω ρ Unit}

/-- No answers, no operations. -/
theorem fst_run_nil (p : Scripted ω ρ α) : (p.run []).1 = [] := by
  have h := p.le_length []
  rw [List.length_nil] at h
  exact List.eq_nil_of_length_eq_zero (by omega)

/-- A test that must perform an operation does not end without an answer. -/
theorem run_whileUpTo_nil (htest : ∀ as x, (test.run as).2 = some x → (test.run as).1 ≠ [])
    (n : ℕ) : (whileUpTo test body n).run [] = ([], none) := by
  cases n with
  | zero => rfl
  | succ n =>
      have hnil := fst_run_nil test
      rw [whileUpTo, run_bind]
      rcases hrun : test.run [] with ⟨os, _ | x⟩
      · rw [hrun] at hnil
        rw [show os = [] from hnil]
        rfl
      · exact absurd hnil (htest [] x (by rw [hrun]))

/-- The bound on the tests does not matter if there are not more answers. -/
theorem run_whileUpTo_congr (htest : ∀ as x, (test.run as).2 = some x → (test.run as).1 ≠ [])
    {n m : ℕ} {as : List ρ} (hn : as.length ≤ n) (hm : as.length ≤ m) :
    (whileUpTo test body n).run as = (whileUpTo test body m).run as := by
  induction n generalizing m as with
  | zero =>
      obtain rfl := List.eq_nil_of_length_eq_zero (Nat.le_zero.mp hn)
      rw [run_whileUpTo_nil htest, run_whileUpTo_nil htest]
  | succ n ih =>
      cases m with
      | zero =>
          obtain rfl := List.eq_nil_of_length_eq_zero (Nat.le_zero.mp hm)
          rw [run_whileUpTo_nil htest, run_whileUpTo_nil htest]
      | succ m =>
          rw [whileUpTo, whileUpTo, run_bind, run_bind]
          have hlen := test.le_length as
          have hops := htest as
          rcases hrun : test.run as with ⟨os, _ | ⟨b, as'⟩⟩
          · rfl
          · -- the test has taken an answer, so one test less is enough for what is left
            rw [hrun] at hops
            have hpos : 0 < os.length := List.length_pos_iff.mpr (hops _ rfl)
            cases b with
            | false => rfl
            | true =>
                simp only [hrun, Option.elim_some] at hlen
                have hbody := body.le_length as'
                simp only [andThen, if_true, run_bind]
                rcases hrun' : body.run as' with ⟨os', _ | ⟨u, as''⟩⟩
                · rfl
                · simp only [hrun', Option.elim_some] at hbody
                  have h : (whileUpTo test body n).run as'' = (whileUpTo test body m).run as'' :=
                    ih (by omega) (by omega)
                  simp only [h]

/-- **Unfolding a loop** whose test performs an operation before it answers. -/
theorem whileM_eq (htest : ∀ as x, (test.run as).2 = some x → (test.run as).1 ≠ []) :
    whileM test body = (do
      if ← test then
        body
        whileM test body) := by
  ext as : 1
  have hone : (whileM test body).run as = (whileUpTo test body (as.length + 1)).run as :=
    run_whileUpTo_congr htest (Nat.le_refl _) (Nat.le_succ _)
  rw [hone, whileUpTo, run_bind, run_bind]
  have hlen := test.le_length as
  rcases hrun : test.run as with ⟨os, _ | ⟨b, as'⟩⟩
  · rfl
  · cases b with
    | false => rfl
    | true =>
        simp only [hrun, Option.elim_some] at hlen
        have hbody := body.le_length as'
        simp only [andThen, if_true, run_bind]
        rcases hrun' : body.run as' with ⟨os', _ | ⟨u, as''⟩⟩
        · rfl
        · simp only [hrun', Option.elim_some] at hbody
          have h : (whileUpTo test body as.length).run as'' = (whileM test body).run as'' :=
            run_whileUpTo_congr htest (by omega) (Nat.le_refl _)
          simp only [h]

/-! ### Agreement on short scripts -/

/-- The programs do the same on every script of fewer than `n` answers. -/
def EqUpTo (n : ℕ) (p q : Scripted ω ρ α) : Prop :=
  ∀ as, as.length < n → p.run as = q.run as

/-- Equal programs agree on scripts of any length. -/
theorem EqUpTo.of_eq {n : ℕ} {p q : Scripted ω ρ α} (h : p = q) : EqUpTo n p q :=
  fun _ _ => by rw [h]

/-- Programs that agree on all scripts of any length are equal. -/
theorem eq_of_eqUpTo {p q : Scripted ω ρ α} (h : ∀ n, EqUpTo n p q) : p = q := by
  ext as : 1
  exact h (as.length + 1) as (Nat.lt_succ_self _)

/-- **Guardedness.** Programs that perform the same operation agree one answer further than
what follows. -/
theorem EqUpTo.perform {n : ℕ} {o : ω} {f g : ρ → Scripted ω ρ α}
    (h : ∀ a, EqUpTo n (f a) (g a)) :
    EqUpTo (n + 1) (Scripted.perform o >>= f) (Scripted.perform o >>= g) := by
  intro as has
  cases as with
  | nil => rfl
  | cons a as =>
      rw [List.length_cons] at has
      rw [run_perform_bind_cons, run_perform_bind_cons, h a as (by omega)]

/-- Agreement on longer scripts is agreement on shorter ones. -/
theorem EqUpTo.mono {n m : ℕ} {p q : Scripted ω ρ α} (h : EqUpTo n p q) (hle : m ≤ n) :
    EqUpTo m p q :=
  fun as has => h as (Nat.lt_of_lt_of_le has hle)

end Scripted
