import Mathlib.Data.List.Induction

/-!
# Monitors

A monitor reads a list of events and keeps a state; an event it has no next state for is a
violation, and a list it reads to the end is accepted. What a protocol demands of a trace
can then be proved of the trace by following the monitor along the program, one event at a
time, and read off the accepted list afterwards.

The `bracket` monitor is the protocol of a resource that is opened, used and closed:
opening it may be refused, it is used only while open, and closed at most once.

## Main results

* `Monitor.after_induct`: what one accepted event preserves holds of every accepted list.
* `Monitor.bracket_wellBracketed`: what the bracket monitor accepts is `WellBracketed`.
* `Monitor.countP_closed_eq_one`: a list that ends closed was closed exactly once.
-/

/-- A **monitor**: a state to start in and a partial next-state function. -/
structure Monitor (ε β : Type*) where
  start : β
  next : β → ε → Option β

namespace Monitor

variable {ε β : Type*}

/-- The state after reading a list of events, oldest first, if there is no violation. -/
def after (M : Monitor ε β) (l : List ε) : Option β :=
  l.foldlM M.next M.start

variable {M : Monitor ε β} {l : List ε} {e : ε} {b : β}

/-- Before any event the monitor is in its start. -/
@[simp] theorem after_nil : M.after [] = some M.start := rfl

/-- The state after one more event. -/
theorem after_snoc : M.after (l ++ [e]) = (M.after l).bind fun b => M.next b e := by
  simp only [after, List.foldlM_append, List.foldlM_cons, List.foldlM_nil]
  cases l.foldlM M.next M.start with
  | none => rfl
  | some b => exact bind_pure (M.next b e)

/-- One more event is accepted exactly when those before were and the monitor moves on it. -/
theorem after_snoc_eq_some {b' : β} :
    M.after (l ++ [e]) = some b' ↔ ∃ b, M.after l = some b ∧ M.next b e = some b' := by
  rw [after_snoc, Option.bind_eq_some_iff]

/-- A prefix of an accepted list is accepted, and so is the event after it. -/
theorem after_prefix {before rest : List ε} (h : M.after (before ++ e :: rest) = some b) :
    ∃ m m', M.after before = some m ∧ M.next m e = some m' := by
  induction rest using List.reverseRecOn generalizing b with
  | nil =>
      obtain ⟨m, hm, hnext⟩ := after_snoc_eq_some.mp h
      exact ⟨m, b, hm, hnext⟩
  | append_singleton rest x ih =>
      rw [← List.cons_append, ← List.append_assoc] at h
      obtain ⟨m, hm, -⟩ := after_snoc_eq_some.mp h
      exact ih hm

/-- **The monitor rule.** What holds at the start and is preserved by every accepted event
holds of every accepted list. -/
theorem after_induct {I : List ε → β → Prop} (hnil : I [] M.start)
    (hsnoc : ∀ l b e b', I l b → M.next b e = some b' → I (l ++ [e]) b')
    (h : M.after l = some b) : I l b := by
  induction l using List.reverseRecOn generalizing b with
  | nil =>
      obtain rfl : M.start = b := Option.some.inj h
      exact hnil
  | append_singleton l e ih =>
      obtain ⟨m, hm, hnext⟩ := after_snoc_eq_some.mp h
      exact hsnoc l m e b (ih hm) hnext

/-! ### Opening, using and closing a resource -/

/-- What an event means to the resource. -/
inductive Token
  | opened
  | refused
  | used
  | closed
  deriving DecidableEq, Repr

/-- How far the resource has got: not asked for, refused, open, closed. -/
inductive Stage
  | fresh
  | refused
  | inside
  | closed
  deriving DecidableEq, Repr

/-- The moves of the protocol. -/
def Stage.next : Stage → Token → Option Stage
  | fresh, .opened => some inside
  | fresh, .refused => some refused
  | inside, .used => some inside
  | inside, .closed => some closed
  | _, _ => none

/-- The monitor of the protocol, for events that mean what `f` says, or nothing. -/
def bracket (f : ε → Option Token) : Monitor ε Stage where
  start := .fresh
  next b e :=
    match f e with
    | none => some b
    | some t => b.next t

variable {f : ε → Option Token} {s s' : Stage}

/-- An event that is no token is ignored. -/
theorem bracket_next_of_none (he : f e = none) : (bracket f).next s e = some s := by
  simp [bracket, he]

/-- A token moves the stage. -/
theorem bracket_next_of_some {t : Token} (he : f e = some t) :
    (bracket f).next s e = s.next t := by
  simp [bracket, he]

/-- What a stage tells about the events that led to it. -/
def Stage.Tells (f : ε → Option Token) (l : List ε) : Stage → Prop
  | fresh => ∀ a ∈ l, f a = none
  | refused => ∀ a ∈ l, f a ≠ some .opened ∧ f a ≠ some .used ∧ f a ≠ some .closed
  | inside => (∃ a ∈ l, f a = some .opened) ∧
      ∀ a ∈ l, f a ≠ some .refused ∧ f a ≠ some .closed
  | closed => (∃ a ∈ l, f a = some .opened) ∧ (∀ a ∈ l, f a ≠ some .refused) ∧
      l.countP (fun a => decide (f a = some .closed)) = 1

/-- Where nothing closes, nothing is counted. -/
theorem countP_closed_eq_zero (h : ∀ a ∈ l, f a ≠ some .closed) :
    l.countP (fun a => decide (f a = some .closed)) = 0 := by
  rw [List.countP_eq_zero]
  intro a ha
  simpa using h a ha

/-- One event keeps what the stage tells. -/
theorem Stage.Tells.snoc (h : s.Tells f l) (hnext : (bracket f).next s e = some s') :
    s'.Tells f (l ++ [e]) := by
  cases hf : f e with
  | none =>
      rw [bracket_next_of_none hf] at hnext
      obtain rfl : s = s' := Option.some.inj hnext
      cases s <;> simp_all [Stage.Tells, or_imp, forall_and]
  | some t =>
      rw [bracket_next_of_some hf] at hnext
      cases s <;> cases t <;> simp only [Stage.next, Option.some.injEq, reduceCtorEq] at hnext <;>
        subst hnext
      case fresh.opened =>
          refine ⟨⟨e, by simp, hf⟩, fun a ha => ?_⟩
          rcases List.mem_append.mp ha with ha | ha
          · simp [h a ha]
          · simp [List.mem_singleton.mp ha, hf]
      case fresh.refused =>
          intro a ha
          rcases List.mem_append.mp ha with ha | ha
          · simp [h a ha]
          · simp [List.mem_singleton.mp ha, hf]
      case inside.used =>
          obtain ⟨⟨o, ho, hopened⟩, hclean⟩ := h
          refine ⟨⟨o, List.mem_append_left _ ho, hopened⟩, fun a ha => ?_⟩
          rcases List.mem_append.mp ha with ha | ha
          · exact hclean a ha
          · simp [List.mem_singleton.mp ha, hf]
      case inside.closed =>
          obtain ⟨⟨o, ho, hopened⟩, hclean⟩ := h
          refine ⟨⟨o, List.mem_append_left _ ho, hopened⟩, fun a ha => ?_, ?_⟩
          · rcases List.mem_append.mp ha with ha | ha
            · exact (hclean a ha).1
            · simp [List.mem_singleton.mp ha, hf]
          · have hzero := countP_closed_eq_zero fun a ha => (hclean a ha).2
            rw [List.countP_append, hzero, List.countP_singleton, hf]
            rfl

/-- What the bracket monitor has read is as its stage tells. -/
theorem bracket_tells (h : (bracket f).after l = some s) : s.Tells f l :=
  after_induct (I := fun l s => s.Tells f l) (by simp [bracket, Stage.Tells])
    (fun _ _ _ _ htells hnext => htells.snoc hnext) h

/-- A trace in which the resource is used only after it was opened, never after a refusal,
and closed at most once, with no use after that. -/
structure WellBracketed (f : ε → Option Token) (l : List ε) : Prop where
  opened_before_use : ∀ before e rest, l = before ++ e :: rest → f e = some .used →
    ∃ a ∈ before, f a = some .opened
  refused_unused : (∃ a ∈ l, f a = some .refused) →
    ∀ e ∈ l, f e ≠ some .used ∧ f e ≠ some .closed
  closed_once : l.countP (fun e => decide (f e = some .closed)) ≤ 1
  unused_after_close : ∀ before e rest, l = before ++ e :: rest → f e = some .closed →
    ∀ a ∈ rest, f a ≠ some .used

/-- The resource is used only while it is open. -/
theorem bracket_inside_of_used {before rest : List ε}
    (h : (bracket f).after (before ++ e :: rest) = some s) (he : f e = some .used) :
    (bracket f).after before = some .inside := by
  obtain ⟨m, m', hm, hnext⟩ := after_prefix h
  rw [bracket_next_of_some he] at hnext
  cases m <;> simp only [Stage.next, reduceCtorEq] at hnext
  exact hm

/-- What the bracket monitor accepts is well bracketed. -/
theorem bracket_wellBracketed (h : (bracket f).after l = some s) : WellBracketed f l where
  opened_before_use := by
    rintro before e rest rfl he
    exact (bracket_tells (bracket_inside_of_used h he)).1
  refused_unused := by
    rintro ⟨a, ha, hrefused⟩ e he
    have htells := bracket_tells h
    cases s with
    | fresh => simp [htells a ha] at hrefused
    | refused => exact (htells e he).2
    | inside => exact absurd hrefused (htells.2 a ha).1
    | closed => exact absurd hrefused (htells.2.1 a ha)
  closed_once := by
    have htells := bracket_tells h
    cases s with
    | fresh =>
        have hzero : l.countP (fun e => decide (f e = some .closed)) = 0 :=
          countP_closed_eq_zero fun a ha => by simp [htells a ha]
        omega
    | refused =>
        have hzero := countP_closed_eq_zero fun a ha => (htells a ha).2.2
        omega
    | inside =>
        have hzero := countP_closed_eq_zero fun a ha => (htells.2 a ha).2
        omega
    | closed => exact Nat.le_of_eq htells.2.2
  unused_after_close := by
    rintro before e rest rfl hclosed a ha hused
    obtain ⟨rest₁, rest₂, rfl⟩ := List.append_of_mem ha
    have h' : (bracket f).after ((before ++ e :: rest₁) ++ a :: rest₂) = some s := by
      simpa using h
    have htells := bracket_tells (bracket_inside_of_used h' hused)
    exact (htells.2 e (by simp)).2 hclosed

/-- A trace that ends closed was closed exactly once. -/
theorem countP_closed_eq_one (h : (bracket f).after l = some .closed) :
    l.countP (fun e => decide (f e = some .closed)) = 1 :=
  (bracket_tells h).2.2

end Monitor
