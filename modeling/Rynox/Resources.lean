import Rynox.Lts

/-!
# Named Resources

Resources with names are handed out, used and given back. A name may be handed out again
once it has been given back, so whether an access is right depends on those before it:
`held` computes which resources are out. Two parties share the blame: whoever hands
resources out must not hand out one that is (`Fresh`), and whoever has them must neither
use nor give back one it does not hold (`Live`).

## Main results

* `Resources.held_nodup`: what is held is held once.
* `Resources.count_acquire`: what was handed out has been given back or is still held.
* `Resources.live_iff_count`: what was not held when it was given back shows in the count of
  what is held.
* `Resources.acquire_mem_of_release`: what was given back is not touched again unless it
  was handed out anew.
* `Resources.live_iff_of_run`: in a run that leaves no debts, what was given back was held
  exactly if nothing was handed out in a race, and exactly if nothing is left.
-/

/-- What is done with a resource. -/
inductive Access (ρ : Type*)
  | acquire (a : ρ)
  | use (a : ρ)
  | release (a : ρ)
  deriving DecidableEq, Repr

namespace Access

variable {ρ : Type*}

/-- Whether a resource is handed out. -/
def isAcquire : Access ρ → Bool
  | acquire _ => true
  | _ => false

/-- Whether a resource is given back. -/
def isRelease : Access ρ → Bool
  | release _ => true
  | _ => false

end Access

namespace Resources

variable {ρ : Type*} [DecidableEq ρ]

/-- The resources held after one more access, in the order they were handed out. -/
def next (out : List ρ) : Access ρ → List ρ
  | .acquire a => out ++ [a]
  | .use _ => out
  | .release a => out.erase a

/-- The resources held after a list of accesses, oldest first. -/
def held (l : List (Access ρ)) : List ρ :=
  l.foldl next []

/-- Only a resource that is not held is handed out. -/
def Fresh (before : List (Access ρ)) : Access ρ → Prop
  | .acquire a => a ∉ held before
  | _ => True

/-- Only a resource that is held is used or given back. -/
def Live (before : List (Access ρ)) : Access ρ → Prop
  | .acquire _ => True
  | .use a | .release a => a ∈ held before

instance (before : List (Access ρ)) : DecidablePred (Fresh before)
  | .acquire a => inferInstanceAs (Decidable (a ∉ held before))
  | .use _ | .release _ => inferInstanceAs (Decidable True)

instance (before : List (Access ρ)) : DecidablePred (Live before)
  | .acquire _ => inferInstanceAs (Decidable True)
  | .use a | .release a => inferInstanceAs (Decidable (a ∈ held before))

variable {l l' before between after : List (Access ρ)} {e : Access ρ} {a : ρ}

/-- At the start nothing is held. -/
@[simp] theorem held_nil : held ([] : List (Access ρ)) = [] := rfl

/-- What is held after two lists in a row. -/
theorem held_append : held (l ++ l') = l'.foldl next (held l) :=
  List.foldl_append

/-- What is held after one more access. -/
@[simp] theorem held_snoc : held (l ++ [e]) = next (held l) e := by
  rw [held_append, List.foldl_cons, List.foldl_nil]

/-- Using resources changes nothing about which are held. -/
@[simp] theorem held_append_use (as : List ρ) : held (l ++ as.map .use) = held l := by
  induction as using List.reverseRecOn with
  | nil => simp
  | append_singleton as a ih =>
      rw [List.map_append, ← List.append_assoc]
      exact held_snoc.trans ih

/-- Resources are used rightly in a row if each is held at the start. -/
theorem live_append_use (as : List ρ) : Lts.Historically Live (l ++ as.map .use) ↔
    Lts.Historically Live l ∧ ∀ a ∈ as, a ∈ held l := by
  induction as using List.reverseRecOn with
  | nil => simp
  | append_singleton as a ih =>
      have hsplit : l ++ (as ++ [a]).map Access.use = (l ++ as.map .use) ++ [.use a] := by simp
      have hlast : Live (l ++ as.map .use) (.use a) ↔ a ∈ held l := by
        rw [Live, held_append_use]
      rw [hsplit, Lts.historically_snoc, ih, hlast]
      simp [or_imp, forall_and, and_assoc]

/-- What is held is held once. -/
theorem held_nodup (hfresh : Lts.Historically Fresh l) : (held l).Nodup := by
  induction l using List.reverseRecOn with
  | nil => exact List.nodup_nil
  | append_singleton l e ih =>
      obtain ⟨hl, he⟩ := Lts.historically_snoc.mp hfresh
      rw [held_snoc]
      cases e with
      | acquire a =>
          refine List.nodup_append.mpr ⟨ih hl, by simp, fun b hb c hc => ?_⟩
          rintro rfl
          rw [List.mem_singleton.mp hc] at hb
          exact he hb
      | use a => exact ih hl
      | release a => exact (ih hl).erase a

/-- What has just been given back is not held. -/
theorem not_mem_held_release (hfresh : Lts.Historically Fresh l) :
    a ∉ held (l ++ [.release a]) := by
  rw [held_snoc, next]
  exact (held_nodup hfresh).not_mem_erase

/-- **The ledger.** What was handed out has been given back or is still held. -/
theorem count_acquire (hlive : Lts.Historically Live l) (a : ρ) :
    l.count (.acquire a) = l.count (.release a) + (held l).count a := by
  induction l using List.reverseRecOn with
  | nil => rfl
  | append_singleton l e ih =>
      obtain ⟨hl, he⟩ := Lts.historically_snoc.mp hlive
      rw [held_snoc, List.count_append, List.count_append, ih hl]
      cases e with
      | acquire b =>
          simp only [next, List.count_append, List.count_singleton, beq_iff_eq,
            Access.acquire.injEq, reduceCtorEq, if_false]
          omega
      | use b => simp [next]
      | release b =>
          have hmem : b ∈ held l := he
          by_cases hab : b = a
          · subst hab
            have hpos : 0 < (held l).count b := List.count_pos_iff.mpr hmem
            simp only [next, List.count_erase_self, List.count_singleton, beq_iff_eq,
              reduceCtorEq, if_false, if_true]
            omega
          · simp [next, List.count_erase_of_ne (Ne.symm hab), hab]

/-- As much was handed out as is held and was given back, at most. -/
theorem countP_isAcquire_le :
    l.countP Access.isAcquire ≤ (held l).length + l.countP Access.isRelease := by
  induction l using List.reverseRecOn with
  | nil => simp
  | append_singleton l e ih =>
      rw [held_snoc, List.countP_append, List.countP_append]
      cases e with
      | acquire a =>
          simp only [next, List.length_append, List.countP_singleton, Access.isAcquire,
            Access.isRelease, List.length_singleton, Bool.false_eq_true, if_false, if_true]
          omega
      | use a => simpa [next, Access.isAcquire, Access.isRelease] using ih
      | release a =>
          have hlength : (held l).length ≤ ((held l).erase a).length + 1 := by
            rw [List.length_erase]
            split <;> omega
          simp only [next, List.countP_singleton, Access.isAcquire, Access.isRelease,
            Bool.false_eq_true, if_false, if_true]
          omega

/-- **A wrong release shows.** Of a list of accesses that uses nothing, everything was held
when it was given back exactly when what was handed out is accounted for by what is held
and what was given back. So a resource that is given back twice leaves another one held. -/
theorem live_iff_count (huse : ∀ a, Access.use a ∉ l) : Lts.Historically Live l ↔
    l.countP Access.isAcquire = (held l).length + l.countP Access.isRelease := by
  induction l using List.reverseRecOn with
  | nil => simp
  | append_singleton l e ih =>
      have hbefore : ∀ a, Access.use a ∉ l := fun a ha => huse a (List.mem_append_left [e] ha)
      have hle := countP_isAcquire_le (l := l)
      rw [Lts.historically_snoc, ih hbefore, held_snoc, List.countP_append, List.countP_append]
      cases e with
      | acquire a =>
          simp only [next, Live, and_true, List.length_append, List.countP_singleton,
            Access.isAcquire, Access.isRelease, List.length_singleton, Bool.false_eq_true,
            if_false, if_true]
          omega
      | use a => exact absurd (List.mem_append_right l (List.mem_singleton_self _)) (huse a)
      | release a =>
          simp only [next, Live, List.countP_singleton, Access.isAcquire, Access.isRelease,
            Bool.false_eq_true, if_false, if_true]
          by_cases hmem : a ∈ held l
          · have hpos := List.length_pos_of_mem hmem
            rw [List.length_erase_of_mem hmem]
            simp only [hmem, and_true]
            omega
          · rw [List.erase_of_not_mem hmem]
            simp only [hmem, and_false, false_iff]
            omega

/-- What was given back is held again only if it was handed out anew. -/
theorem acquire_mem_of_mem_held (hfresh : Lts.Historically Fresh (before ++ .release a :: between))
    (hheld : a ∈ held (before ++ .release a :: between)) : .acquire a ∈ between := by
  induction between using List.reverseRecOn with
  | nil =>
      have hbefore := (Lts.historically_snoc.mp hfresh).1
      exact absurd hheld (not_mem_held_release hbefore)
  | append_singleton between e ih =>
      rw [← List.cons_append, ← List.append_assoc] at hfresh hheld
      obtain ⟨hbefore, -⟩ := Lts.historically_snoc.mp hfresh
      rw [held_snoc] at hheld
      rw [List.mem_append]
      cases e with
      | acquire b =>
          rcases List.mem_append.mp hheld with hold | hnew
          · exact Or.inl (ih hbefore hold)
          · rw [List.mem_singleton.mp hnew]
            exact Or.inr (List.mem_singleton_self _)
      | use b => exact Or.inl (ih hbefore hheld)
      | release b => exact Or.inl (ih hbefore (List.mem_of_mem_erase hheld))

/-- **No use after release.** What was given back is not used or given back again, unless
it was handed out anew. -/
theorem acquire_mem_of_release
    (hfresh : Lts.Historically Fresh (before ++ .release a :: (between ++ e :: after)))
    (hlive : Lts.Historically Live (before ++ .release a :: (between ++ e :: after)))
    (he : e = .use a ∨ e = .release a) : .acquire a ∈ between := by
  have hsplit : before ++ .release a :: (between ++ e :: after) =
      (before ++ .release a :: between) ++ e :: after := by simp
  rw [hsplit] at hfresh hlive
  refine acquire_mem_of_mem_held (Lts.historically_of_append hfresh) ?_
  have hnow := hlive _ _ _ rfl
  rcases he with rfl | rfl <;> exact hnow

end Resources

/-! ### Debts -/

/-- What an access does to the **debts**, the list of the resources that somebody is going to
give back. Without an access they stay the same, as long as it is `quiet`. What is handed out
is owed; when that happens not `alone`, two owe the same afterwards. And only what is owed is
given back. -/
inductive DebtStep {ρ : Type*} (owed owed' : List ρ) (quiet alone : Prop) : Option (Access ρ) → Prop
  | silent (hperm : quiet → owed'.Perm owed) (hlength : owed'.length = owed.length)
      (halone : alone) : DebtStep owed owed' quiet alone none
  | acquire (a : ρ) (hperm : alone → owed'.Perm (a :: owed)) (hrace : ¬ alone → ¬ owed'.Nodup)
      (hlength : owed'.length = owed.length + 1) :
      DebtStep owed owed' quiet alone (some (.acquire a))
  | release (a : ρ) (hperm : owed.Perm (a :: owed')) (halone : alone) :
      DebtStep owed owed' quiet alone (some (.release a))

namespace DebtStep

variable {ρ : Type*} {owed owed' : List ρ} {quiet alone : Prop} {x : Option (Access ρ)}
  {l : List (Access ρ)}

/-- Debts are up to order. -/
theorem perm {debts debts' : List ρ} (h : DebtStep owed owed' quiet alone x)
    (hbefore : debts.Perm owed) (hafter : debts'.Perm owed') :
    DebtStep debts debts' quiet alone x := by
  cases h with
  | silent hperm hlength halone =>
      refine .silent (fun hquiet => (hafter.trans (hperm hquiet)).trans hbefore.symm) ?_ halone
      rw [hafter.length_eq, hbefore.length_eq, hlength]
  | acquire a hperm hrace hlength =>
      refine .acquire a (fun halone => (hafter.trans (hperm halone)).trans (hbefore.symm.cons a))
        (fun halone => mt hafter.nodup_iff.mp (hrace halone)) ?_
      rw [hafter.length_eq, hbefore.length_eq, hlength]
  | release a hperm halone =>
      exact .release a ((hbefore.trans hperm).trans (hafter.symm.cons a)) halone

/-- Whether a step is quiet and alone may be said in other words. -/
theorem congr {quiet' alone' : Prop} (h : DebtStep owed owed' quiet alone x)
    (hquiet : quiet ↔ quiet') (halone : alone ↔ alone') :
    DebtStep owed owed' quiet' alone' x := by
  rwa [← propext hquiet, ← propext halone]

/-- Resources are only handed out and given back. -/
theorem use_not_mem (h : DebtStep owed owed' quiet alone x) {a : ρ} (huse : Access.use a ∉ l) :
    Access.use a ∉ l ++ x.toList := by
  cases h with
  | silent _ _ _ | acquire _ _ _ _ | release _ _ _ => simpa using huse

/-- What is handed out is owed or given back. -/
theorem balance (h : DebtStep owed owed' quiet alone x)
    (hl : l.countP Access.isAcquire = owed.length + l.countP Access.isRelease) :
    (l ++ x.toList).countP Access.isAcquire =
      owed'.length + (l ++ x.toList).countP Access.isRelease := by
  rw [List.countP_append, List.countP_append]
  cases h with
  | silent _ hlength _ =>
      rw [Option.toList_none, List.countP_nil, List.countP_nil]
      omega
  | acquire a _ _ hlength =>
      simp only [Option.toList_some, List.countP_singleton, Access.isAcquire, Access.isRelease,
        Bool.false_eq_true, if_false, if_true]
      omega
  | release a hperm _ =>
      have hlength := hperm.length_eq
      rw [List.length_cons] at hlength
      simp only [Option.toList_some, List.countP_singleton, Access.isAcquire, Access.isRelease,
        Bool.false_eq_true, if_false, if_true]
      omega

section Held

open Resources

variable [DecidableEq ρ]

/-- As long as it is quiet and resources are handed out alone, what is held is what is owed,
and what is given back was held. -/
theorem settled (h : DebtStep owed owed' quiet alone x) (hquiet : quiet) (halone : alone)
    (hlive : Lts.Historically Live l) (hl : owed.Perm (held l)) :
    Lts.Historically Live (l ++ x.toList) ∧ owed'.Perm (held (l ++ x.toList)) := by
  cases h with
  | silent hperm _ _ =>
      rw [Option.toList_none, List.append_nil]
      exact ⟨hlive, (hperm hquiet).trans hl⟩
  | acquire a hperm _ _ =>
      rw [Option.toList_some, held_snoc]
      refine ⟨Lts.historically_snoc.mpr ⟨hlive, trivial⟩, ?_⟩
      exact ((hperm halone).trans (hl.cons a)).trans (List.perm_append_singleton a _).symm
  | release a hperm _ =>
      have hmem : a ∈ held l := (hperm.symm.trans hl).subset List.mem_cons_self
      rw [Option.toList_some, held_snoc]
      refine ⟨Lts.historically_snoc.mpr ⟨hlive, hmem⟩, ?_⟩
      exact ((hperm.symm.trans hl).trans (List.perm_cons_erase hmem)).cons_inv

/-- If what is held is what is owed, it was so before, and nothing was handed out but
alone: debts that do not match what is held never do again. -/
theorem settled_of_settled (h : DebtStep owed owed' quiet alone x) (hquiet : quiet)
    (hfresh : Lts.Historically Fresh (l ++ x.toList))
    (hlive : Lts.Historically Live (l ++ x.toList))
    (hl : owed'.Perm (held (l ++ x.toList))) : owed.Perm (held l) ∧ alone := by
  cases h with
  | silent hperm _ halone =>
      rw [Option.toList_none, List.append_nil] at hl
      exact ⟨(hperm hquiet).symm.trans hl, halone⟩
  | acquire a hperm hrace _ =>
      by_cases halone : alone
      · rw [Option.toList_some, held_snoc] at hl
        have hcons := ((hperm halone).symm.trans hl).trans (List.perm_append_singleton a _)
        exact ⟨hcons.cons_inv, halone⟩
      · exact absurd (hl.nodup_iff.mpr (held_nodup hfresh)) (hrace halone)
  | release a hperm halone =>
      have hmem : a ∈ held l := (Lts.historically_snoc.mp hlive).2
      rw [Option.toList_some, held_snoc] at hl
      exact ⟨(hperm.trans (hl.cons a)).trans (List.perm_cons_erase hmem).symm, halone⟩

end Held

end DebtStep

namespace Resources

variable {ρ σ α : Type*} {L : Lts σ α} {owed : σ → List ρ} {obs : σ × α → Option (Access ρ)}
  {quiet alone : σ → α → Prop} {s t : σ} {tr : List (σ × α)}

/-- In every run what was handed out is owed or was given back, and nothing else was done. -/
theorem balance_of_run
    (hstep : ∀ s a t, L.step s a = some t →
      DebtStep (owed s) (owed t) (quiet s a) (alone s a) (obs (s, a)))
    (hrun : L.Run s tr t) (hnone : owed s = []) :
    (∀ a, Access.use a ∉ Lts.observe obs tr) ∧
      (Lts.observe obs tr).countP Access.isAcquire =
        (owed t).length + (Lts.observe obs tr).countP Access.isRelease := by
  refine hrun.induct (I := fun tr t => (∀ a, Access.use a ∉ Lts.observe obs tr) ∧
    (Lts.observe obs tr).countP Access.isAcquire =
      (owed t).length + (Lts.observe obs tr).countP Access.isRelease)
    ⟨fun a => List.not_mem_nil, by rw [hnone]; rfl⟩ ?_
  rintro tr s a t - ⟨huse, hcount⟩ hst
  rw [Lts.observe_append, Lts.observe_singleton]
  exact ⟨fun b => (hstep s a t hst).use_not_mem (huse b), (hstep s a t hst).balance hcount⟩

variable [DecidableEq ρ]

/-- In a run that is quiet and hands out alone, what is held is what is owed, and what was
given back was held. -/
theorem settled_of_run
    (hstep : ∀ s a t, L.step s a = some t →
      DebtStep (owed s) (owed t) (quiet s a) (alone s a) (obs (s, a)))
    (hrun : L.Run s tr t) (hnone : owed s = []) (hquiet : Lts.Along quiet tr)
    (halone : Lts.Along alone tr) :
    Lts.Historically Live (Lts.observe obs tr) ∧
      (owed t).Perm (held (Lts.observe obs tr)) := by
  have hboth : Lts.Along (fun s a => quiet s a ∧ alone s a) tr :=
    fun x hx => ⟨hquiet x hx, halone x hx⟩
  refine hrun.induct_along (I := fun tr t => Lts.Historically Live (Lts.observe obs tr) ∧
    (owed t).Perm (held (Lts.observe obs tr))) hboth
    ⟨Lts.historically_nil _, by rw [hnone]; exact .refl _⟩ ?_
  rintro tr s a t - ⟨hlive, hperm⟩ ⟨hquiet, halone⟩ hst
  rw [Lts.observe_append, Lts.observe_singleton]
  exact (hstep s a t hst).settled hquiet halone hlive hperm

/-- If in the end what is held is what is owed, and what was given back was held, a quiet run
has handed out alone. -/
theorem along_of_settled
    (hstep : ∀ s a t, L.step s a = some t →
      DebtStep (owed s) (owed t) (quiet s a) (alone s a) (obs (s, a)))
    (hrun : L.Run s tr t) (hquiet : Lts.Along quiet tr)
    (hfresh : Lts.Historically Fresh (Lts.observe obs tr))
    (hlive : Lts.Historically Live (Lts.observe obs tr))
    (hperm : (owed t).Perm (held (Lts.observe obs tr))) : Lts.Along alone tr := by
  induction hrun with
  | nil => exact Lts.along_nil
  | snoc _ hst ih =>
      obtain ⟨hquiet, hlast⟩ := Lts.along_append.mp hquiet
      rw [Lts.observe_append, Lts.observe_singleton] at hfresh hlive hperm
      obtain ⟨hbefore, halone⟩ := (hstep _ _ _ hst).settled_of_settled
        (Lts.along_singleton.mp hlast) hfresh hlive hperm
      exact Lts.along_append.mpr ⟨ih hquiet (Lts.historically_of_append hfresh)
        (Lts.historically_of_append hlive) hbefore, Lts.along_singleton.mpr halone⟩

/-- **The debt rule.** Let every resource be handed out under a name that is not held, and
nothing be owed at the end of a run, as at its start. Then all that was given back was held
exactly if nothing is held in the end; and exactly if everything was handed out alone, provided
the run is quiet. -/
theorem live_iff_of_run
    (hstep : ∀ s a t, L.step s a = some t →
      DebtStep (owed s) (owed t) (quiet s a) (alone s a) (obs (s, a)))
    (hrun : L.Run s tr t) (hnone : owed s = []) (hpaid : owed t = [])
    (hfresh : Lts.Historically Fresh (Lts.observe obs tr)) :
    (Lts.Historically Live (Lts.observe obs tr) ↔ held (Lts.observe obs tr) = []) ∧
      (Lts.Along quiet tr →
        (Lts.Historically Live (Lts.observe obs tr) ↔ Lts.Along alone tr)) := by
  obtain ⟨huse, hbalance⟩ := balance_of_run hstep hrun hnone
  have hheld : Lts.Historically Live (Lts.observe obs tr) ↔
      held (Lts.observe obs tr) = [] := by
    rw [live_iff_count huse, hbalance, hpaid, List.length_nil, ← List.length_eq_zero_iff]
    omega
  refine ⟨hheld, fun hquiet => ⟨fun hlive => ?_, fun halone => ?_⟩⟩
  · refine along_of_settled hstep hrun hquiet hfresh hlive ?_
    rw [hpaid, hheld.mp hlive]
  · exact (settled_of_run hstep hrun hnone hquiet halone).1

end Resources
