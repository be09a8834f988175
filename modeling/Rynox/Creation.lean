import Rynox.Lifecycle

/-!
# How Many Workers Are Created

`initializeRynoxClient` sets `Client::isRunning` before it creates the worker and resets it
when that fails, so a worker is paid for by the flag going up, and each further one needs
the flag to have come down again. The account must carry the start that is under way: the
flag is already up and its worker not yet created, or its creation has failed and the reset
is still to come. With that, the number of workers created never exceeds the number of
times a shutdown or a failed attach has taken the flag down, plus one if it is up
(`created_le`).

The clear that pays for the next worker comes after the flag went up for the last one. It
need not come after that worker's creation: a failing worker of an older session may clear
the flag in between.
-/

namespace Rynox

/-- The step changes `Client::isRunning` from true to false, in `shutdownRynoxClient` or in
the failure branch of the attach. -/
def ClearsFlag (s : State) (a : Action) : Prop :=
  s.shared.client.isRunning = true ∧
    (ShutdownClears s a ∨ ∃ m ∈ moved (s, a), m.2 = .clearRunning)

instance (s : State) (a : Action) : Decidable (ClearsFlag s a) :=
  inferInstanceAs (Decidable (_ ∧ (_ ∨ ∃ m ∈ moved (s, a), m.2 = .clearRunning)))

/-- The step sets the flag in `initializeRynoxClient`. -/
def SetsFlag (s : State) : Action → Prop
  | .controller (.step _) => s.shared.calls = some (.init .setRunning)
  | _ => False

/-- The step is a `pthread_create` that succeeds. -/
def Creates (s : State) : Action → Prop
  | .controller (.step r) => s.shared.calls = some (.init .createThread) ∧ r.code = 0
  | _ => False

instance (s : State) : (a : Action) → Decidable (Creates s a)
  | .controller (.step r) =>
      inferInstanceAs (Decidable (s.shared.calls = some (.init .createThread) ∧ r.code = 0))
  | .controller (.call _) => inferInstanceAs (Decidable False)
  | .thread _ _ => inferInstanceAs (Decidable False)

/-- How often the flag was changed from true to false in a run. -/
def clears (tr : List (State × Action)) : ℕ :=
  tr.countP fun x => decide (ClearsFlag x.1 x.2)

/-- Whether the last transition is one clear more. -/
@[simp] theorem clears_snoc (tr : List (State × Action)) (x : State × Action) :
    clears (tr ++ [x]) = clears tr + (decide (ClearsFlag x.1 x.2)).toNat := by
  cases h : decide (ClearsFlag x.1 x.2) <;> simp [clears, List.countP_append, h]

/-- The workers created so far, and the one that a start under way will create. -/
def booked (k : Option Entry) (ts : List Worker) : ℕ :=
  ts.length + (k.any Entry.pending).toNat

section Account

variable {c c' : Client} {k k' : Option Entry} {ts : List Worker}

/-- A step of the JVM's side keeps the account: what it books is paid for by the flag going
up, and the flag coming down is counted. -/
theorem CallMove.account {x : EntryAction} {o : Option Worker} (hmove : CallMove c k x c' k' o)
    (hguard : k = some (.init .setRunning) → c.isRunning = false) :
    booked k' (ts ++ o.toList) + c.isRunning.toNat ≤ booked k ts + c'.isRunning.toNat +
      (decide (ClearsFlag ⟨⟨c, k⟩, ts⟩ (.controller x))).toNat := by
  cases hmove with
  | set r => simp [booked, Entry.pending, hguard rfl]
  | clear r =>
      cases hflag : c.isRunning <;>
        simp [booked, Entry.pending, ClearsFlag, ShutdownClears, hflag]
  | reset r =>
      have := Bool.toNat_le c.isRunning
      simp only [booked, Entry.pending, Option.any_some, Option.toList_none, List.append_nil,
        Bool.toNat_true, Bool.toNat_false]
      omega
  | enter f =>
      have hpending : (f.enter c).2.pending = false := by
        rw [f.enter_entry]
        split <;> rfl
      simp only [booked, Option.any_some, Option.any_none, hpending, f.enter_isRunning,
        Option.toList_none, List.append_nil]
      omega
  | create r _ =>
      simp only [booked, Entry.pending, Option.any_some, Option.toList_some, List.length_append,
        List.length_singleton, Bool.toNat_true, Bool.toNat_false]
      omega
  | testSkips r _ | testPasses r _ | createFails r _ | report r | read r | detach _ r | initRet r
  | shutdownSkips r _ | shutdownPasses r _ | shutdownRet r =>
      simp only [booked, Entry.pending, Option.any_some, Option.any_none, Option.toList_none,
        List.append_nil]
      omega

/-- A step of a worker keeps the account: the flag coming down is counted. -/
theorem WorkerMove.account {i : ℕ} {r : JvmReply} {w w' : Worker} {e : Event}
    (hmove : WorkerMove c r w c' w' e)
    (he : moved ((⟨⟨c, k⟩, ts⟩, .thread i r) : State × Action) = some (i, e)) :
    booked k (ts.set i w') + c.isRunning.toNat ≤ booked k ts + c'.isRunning.toNat +
      (decide (ClearsFlag ⟨⟨c, k⟩, ts⟩ (.thread i r))).toNat := by
  simp only [booked, List.length_set]
  by_cases hclear : e = .clearRunning
  · subst hclear
    have hcounted : ClearsFlag ⟨⟨c, k⟩, ts⟩ (.thread i r) ↔ c.isRunning = true := by
      simp [ClearsFlag, he]
    simp only [hcounted, Bool.decide_eq_true]
    omega
  · rw [hmove.isRunning_eq hclear]
    omega

/-- While a start is about to set the flag, it is false. -/
theorem CallMove.guarded {x : EntryAction} {o : Option Worker} (hmove : CallMove c k x c' k' o)
    (hk : k' = some (.init .setRunning)) : c'.isRunning = false := by
  cases hmove with
  | testPasses r hflag => exact hflag
  | enter f =>
      rw [f.enter_entry] at hk
      split at hk <;> cases hk
  | _ => cases hk

end Account

/-- While a start is about to set the flag, it is false. -/
def Guarded (s : State) : Prop :=
  s.shared.calls = some (.init .setRunning) → s.shared.client.isRunning = false

/-- One step, seen by the account. -/
theorem account_step {s s' : State} {a : Action} (hguard : Guarded s)
    (hstep : agent.lts.step s a = some s') :
    Guarded s' ∧ booked s'.shared.calls s'.threads + s.shared.client.isRunning.toNat ≤
      booked s.shared.calls s.threads + s'.shared.client.isRunning.toNat +
        (decide (ClearsFlag s a)).toNat := by
  obtain ⟨x, c, k, o, rfl, hmove, rfl⟩ | ⟨i, r, w, c, w', e, rfl, hi, hmove, he, rfl⟩ :=
    agent_step_cases hstep
  · exact ⟨fun hk => hmove.guarded hk, hmove.account hguard⟩
  · exact ⟨fun hk => hmove.isRunning_eq_false (hguard hk), hmove.account he⟩

/-- The account over a run from any guarded state. -/
theorem account_run {tr : List (State × Action)} {s t : State} (hguard : Guarded s)
    (hrun : agent.lts.Run s tr t) :
    Guarded t ∧ booked t.shared.calls t.threads + s.shared.client.isRunning.toNat ≤
      booked s.shared.calls s.threads + t.shared.client.isRunning.toNat + clears tr := by
  refine hrun.induct (I := fun tr t => Guarded t ∧
    booked t.shared.calls t.threads + s.shared.client.isRunning.toNat ≤
      booked s.shared.calls s.threads + t.shared.client.isRunning.toNat + clears tr)
    ⟨hguard, by simp [clears]⟩ ?_
  rintro tr t a u - ⟨hguard, hle⟩ hstep
  obtain ⟨hguard', hle'⟩ := account_step hguard hstep
  refine ⟨hguard', ?_⟩
  simp only [clears_snoc]
  omega

/-- No call is in progress at the start. -/
theorem guarded_init : Guarded agent.lts.init := by
  simp [Guarded, agent, agentOf]

/-! ### Creations -/

/-- A successful `pthread_create` adds one worker. -/
theorem length_of_creates {s s' : State} {a : Action} (ha : Creates s a)
    (hstep : agent.lts.step s a = some s') : s'.threads.length = s.threads.length + 1 := by
  obtain ⟨x, c, k, o, rfl, hmove, rfl⟩ | ⟨i, r, w, c, w', e, rfl, -⟩ := agent_step_cases hstep
  · cases x with
    | call f => exact ha.elim
    | step r =>
        obtain ⟨hcalls, hcode⟩ := ha
        rw [hcalls] at hmove
        cases hmove with
        | create r _ => simp
        | createFails r hfail => exact absurd hcode hfail
  · exact ha.elim

/-- A run with a successful `pthread_create` ends with more workers. -/
theorem length_lt_of_creates {tr : List (State × Action)} {s t : State}
    (hrun : agent.lts.Run s tr t) {z : State × Action} (hz : z ∈ tr) (hcreates : Creates z.1 z.2) :
    s.threads.length < t.threads.length := by
  obtain ⟨tr₁, tr₂, rfl⟩ := List.append_of_mem hz
  obtain ⟨hrun₁, u, hstep, hrun₂⟩ := hrun.split_at
  have h₁ := ThreadPool.length_le_of_run hrun₁
  have h₂ := length_of_creates hcreates hstep
  have h₃ := ThreadPool.length_le_of_run hrun₂
  omega

/-- A step that sets the flag or creates a worker does not clear the flag. -/
theorem not_clearsFlag_of_creates {s : State} {a : Action} (h : Creates s a) :
    ¬ ClearsFlag s a := by
  rintro ⟨-, hclears | ⟨m, hm, -⟩⟩
  · cases a with
    | controller x => cases x <;> simp_all [Creates, ShutdownClears]
    | thread i r => exact h
  · cases a with
    | controller x => simp at hm
    | thread i r => exact h

/-- After a start has set the flag, a second successful `pthread_create` comes only after
the flag has been cleared. -/
theorem exists_clearsFlag_of_creates {tr : List (State × Action)} {s : State}
    (hrun : AgentRun tr s) {before between after : List (State × Action)}
    {x y : State × Action} (htr : tr = before ++ x :: (between ++ y :: after))
    (hx : SetsFlag x.1 x.2) (hz : ∃ z ∈ between, Creates z.1 z.2) (hy : Creates y.1 y.2) :
    ∃ z ∈ between, ClearsFlag z.1 z.2 := by
  subst htr
  obtain ⟨hrun₁, u, hstep, hrun₂⟩ := hrun.split_at
  obtain ⟨hrun₃, t, hstep', -⟩ := hrun₂.split_at
  have hcalls : x.1.shared.calls = some (.init .setRunning) := by
    obtain ⟨s, a⟩ := x
    cases a with
    | controller a => cases a with
      | call f => exact hx.elim
      | step r => exact hx
    | thread i r => exact hx.elim
  have hguard : Guarded x.1 := (account_run guarded_init hrun₁).1
  have hflag := hguard hcalls
  have hsegment : agent.lts.Run x.1 (x :: (between ++ [y])) t :=
    .cons hstep (hrun₃.snoc hstep')
  obtain ⟨-, haccount⟩ := account_run hguard hsegment
  have hlen₁ := ThreadPool.length_le_of_step hstep
  obtain ⟨z, hzmem, hzcreates⟩ := hz
  have hlen₂ := length_lt_of_creates hrun₃ hzmem hzcreates
  have hlen₃ := length_of_creates hy hstep'
  have hup := Bool.toNat_le t.shared.client.isRunning
  have hpos : 0 < clears (x :: (between ++ [y])) := by
    simp only [booked, hcalls, hflag, Option.any_some, Entry.pending, Bool.toNat_false] at haccount
    omega
  obtain ⟨z, hz, hclears⟩ := List.countP_pos_iff.mp hpos
  have hclears : ClearsFlag z.1 z.2 := of_decide_eq_true hclears
  rcases List.mem_cons.mp hz with rfl | hz
  · exact absurd (hflag.symm.trans hclears.1) (by simp)
  · rcases List.mem_append.mp hz with hz | hz
    · exact ⟨z, hz, hclears⟩
    · obtain rfl := List.mem_singleton.mp hz
      exact absurd hclears (not_clearsFlag_of_creates hy)

/-- **Repeated attach creates no extra worker.** In every reachable state the number of
workers ever created is at most the number of times `shutdownRynoxClient` or a failed attach
has changed the flag from true to false, plus one if it is true. And once a start has set
the flag for one worker, a further one is created only after the flag was cleared. -/
theorem created_le {tr : List (State × Action)} {s : State} (hrun : AgentRun tr s) :
    s.threads.length ≤ clears tr + (if s.shared.client.isRunning then 1 else 0) ∧
      ∀ before x between y after, tr = before ++ x :: (between ++ y :: after) →
        SetsFlag x.1 x.2 → (∃ z ∈ between, Creates z.1 z.2) → Creates y.1 y.2 →
        ∃ z ∈ between, ClearsFlag z.1 z.2 := by
  refine ⟨?_, fun _ _ _ _ _ => exists_clearsFlag_of_creates hrun⟩
  obtain ⟨-, haccount⟩ := account_run guarded_init hrun
  have hinit : booked agent.lts.init.shared.calls agent.lts.init.threads = 0 := rfl
  rw [hinit] at haccount
  have hbooked : s.threads.length ≤ booked s.shared.calls s.threads := Nat.le_add_right _ _
  have hoff : agent.lts.init.shared.client.isRunning.toNat = 0 := rfl
  cases hflag : s.shared.client.isRunning <;>
    simp only [hflag, Bool.toNat_false, Bool.toNat_true] at haccount ⊢ <;> simp <;> omega

/-- A run to which the theorem applies: with two workers created and the flag true, the
flag has been cleared. -/
theorem created_le_two_sessions :
    ∃ tr s, AgentRun tr s ∧ s.threads.length = 2 ∧ s.shared.client.isRunning = true ∧
      1 ≤ clears tr := by
  obtain ⟨tr, s, hrun, hlength, hflag⟩ := exists_agentRun
    (P := fun _ s => s.threads.length = 2 ∧ s.shared.client.isRunning = true)
    (createdBy (.onLoad 0) ++ stoppedBy 0 ++ createdBy (.onAttach 0)) (by decide)
  have hle := (created_le hrun).1
  rw [hlength, hflag, if_pos rfl] at hle
  exact ⟨tr, s, hrun, hlength, hflag, by omega⟩

/-- Between the creations themselves the flag need not be cleared: the first session's
worker fails to attach after the second start has set the flag and before it has created
its worker, and the third start then finds the flag false. -/
theorem not_cleared_between_creations :
    ¬ ∀ tr s, AgentRun tr s → ∀ before x between y after,
      tr = before ++ x :: (between ++ y :: after) → Creates x.1 x.2 → Creates y.1 y.2 →
      ∃ z ∈ between, ClearsFlag z.1 z.2 := by
  intro hclaim
  obtain ⟨tr, s, hrun, ⟨x, hx, hxc⟩, ⟨y, hy, hyc⟩, hbetween⟩ := exists_agentRun
    (P := fun tr _ => (∃ x ∈ tr[18]?, Creates x.1 x.2) ∧
      (∃ y ∈ (tr.drop 19)[6]?, Creates y.1 y.2) ∧
      ∀ z ∈ (tr.drop 19).take 6, ¬ ClearsFlag z.1 z.2)
    (createdBy (.onLoad 0) ++ stoppedBy 0 ++
      [.controller (.call (.onAttach 0)), .controller (.step {}), .controller (.step {}),
        .thread 0 { result := -1 }, .thread 0 {}, .thread 0 {}, .thread 0 {},
        .controller (.step {}), .controller (.step {}), .controller (.step {}),
        .controller (.step {})] ++
      createdBy (.onAttach 0)) (by decide)
  have hsplit : tr = tr.take 18 ++ x :: ((tr.drop 19).take 6 ++ y :: (tr.drop 19).drop 7) := by
    rw [← Lts.eq_take_cons_drop hy]
    exact Lts.eq_take_cons_drop hx
  obtain ⟨z, hz, hclears⟩ := hclaim tr s hrun _ _ _ _ _ hsplit hxc hyc
  exact hbetween z hz hclears

end Rynox
