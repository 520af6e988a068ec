import Mathlib.Logic.Basic

/-!
# Steps that change a state in place

A step reads a state, writes it, and may refuse; what it wrote before it refused stays written.  A step is
`Clean` when a refusal leaves the state as it was.  That follows from the order of its parts: the ones that
only read (`Quiet`) come first, the ones that cannot refuse (`Total`) last.
-/

namespace InPlace

variable {ε σ α β : Type} {x : EStateM ε σ α} {k : α → EStateM ε σ β} {s s' : σ} {e : ε} {f : σ → Except ε α}

/-- Reads the state, and may refuse. -/
def check (f : σ → Except ε α) : EStateM ε σ α := fun s =>
  match f s with
  | .ok a => .ok a s
  | .error e => .error e s

def update (f : σ → σ) : EStateM ε σ Unit := fun s => .ok () (f s)

/-- The state behind a step, refused or not. -/
def after : EStateM.Result ε σ α → σ
  | .ok _ s => s
  | .error _ s => s

/-- The step writes nothing. -/
def Quiet (x : EStateM ε σ α) : Prop := ∀ s, after (x s) = s

/-- The step is never refused. -/
def Total (x : EStateM ε σ α) : Prop := ∀ s, ∃ a s', x s = .ok a s'

/-- A refused step leaves the state as it was. -/
def Clean (x : EStateM ε σ α) : Prop := ∀ s e s', x s = .error e s' → s' = s

theorem bind_eq (x : EStateM ε σ α) (k : α → EStateM ε σ β) (s : σ) : (x >>= k) s = match x s with
      | .ok a s' => k a s'
      | .error e s' => .error e s' := rfl

theorem quiet_check (f : σ → Except ε α) : Quiet (check f) := by
  intro s
  unfold check
  cases f s <;> rfl

theorem total_update (f : σ → σ) : Total (update f : EStateM ε σ Unit) := fun s => ⟨(), f s, rfl⟩

theorem total_pure (a : α) : Total (pure a : EStateM ε σ α) := fun s => ⟨a, s, rfl⟩

theorem Total.bind (hx : Total x) (hk : ∀ a, Total (k a)) : Total (x >>= k) := by
  intro s
  obtain ⟨a, s', hxs⟩ := hx s
  obtain ⟨b, s'', hks⟩ := hk a s'
  exact ⟨b, s'', by rw [bind_eq, hxs]; exact hks⟩

theorem Total.forM {l : List α} {f : α → EStateM ε σ PUnit} (h : ∀ a, Total (f a)) : Total (l.forM f) := by
  induction l with
  | nil => exact total_pure _
  | cons a l ih => exact (h a).bind fun _ => ih

theorem Total.ne_error (h : Total x) : x s ≠ .error e s' := by
  intro hx
  obtain ⟨a, s'', ha⟩ := h s
  rw [ha] at hx
  cases hx

theorem Total.clean (h : Total x) : Clean x := fun _ _ _ hx => absurd hx h.ne_error

theorem Quiet.clean (h : Quiet x) : Clean x := by
  intro s e s' hx
  have hs := h s
  rw [hx] at hs
  exact hs

theorem clean_check (f : σ → Except ε α) : Clean (check f) := (quiet_check f).clean

theorem Quiet.bind_clean (hx : Quiet x) (hk : ∀ a, Clean (k a)) : Clean (x >>= k) := by
  intro s e s' h
  have hs := hx s
  rw [bind_eq] at h
  cases hxs : x s with
  | ok a s'' =>
    rw [hxs] at h hs
    exact (hk a s'' e s' h).trans hs
  | error e' s'' =>
    rw [hxs] at h hs
    cases h
    exact hs

theorem quiet_pure (a : α) : Quiet (pure a : EStateM ε σ α) := fun _ => rfl

theorem Quiet.bind (hx : Quiet x) (hk : ∀ a, Quiet (k a)) : Quiet (x >>= k) := by
  intro s
  have hs := hx s
  rw [bind_eq]
  cases hxs : x s with
  | ok a t =>
    rw [hxs] at hs
    cases hs
    exact hk a t
  | error e t =>
    rw [hxs] at hs
    exact hs

/-- **Checks come first.** -/
theorem clean_check_bind (hk : ∀ a, Clean (k a)) : Clean (check f >>= k) := (quiet_check f).bind_clean hk

theorem Quiet.bind_error (hx : Quiet x) (h : (x >>= k) s = .error e s') :
    (x s = .error e s ∧ s' = s) ∨ ∃ a, x s = .ok a s ∧ k a s = .error e s' := by
  have hs := hx s
  rw [bind_eq] at h
  cases hxs : x s with
  | ok a t =>
    rw [hxs] at h hs
    cases hs
    exact .inr ⟨a, rfl, h⟩
  | error e' t =>
    rw [hxs] at h hs
    cases hs
    cases h
    exact .inl ⟨rfl, rfl⟩

theorem check_eq_ok {a : α} : check f s = .ok a s' ↔ f s = .ok a ∧ s' = s := by
  unfold check
  cases f s with
  | ok b => simp [eq_comm]
  | error e => simp

theorem check_eq_error : check f s = .error e s' ↔ f s = .error e ∧ s' = s := by
  unfold check
  cases f s with
  | ok a => simp
  | error e' => simp [eq_comm]

theorem check_bind_eq_error (hk : ∀ a, Total (k a)) : (check f >>= k) s = .error e s' ↔ f s = .error e ∧ s' = s := by
  rw [bind_eq, check]
  cases f s with
  | ok a => simp [(hk a).ne_error]
  | error e' => simp [eq_comm]

theorem update_bind (f : σ → σ) (k : Unit → EStateM ε σ β) (s : σ) : (update f >>= k) s = k () (f s) := rfl

/-! ### What a step comes to -/

/-- The step as a function: what it answers with the state behind it, or the refusal alone. -/
def outcome (x : EStateM ε σ α) (s : σ) : Except ε (α × σ) :=
  match x s with
  | .ok a s' => .ok (a, s')
  | .error e _ => .error e

theorem outcome_bind (x : EStateM ε σ α) (k : α → EStateM ε σ β) (s : σ) :
    outcome (x >>= k) s = outcome x s >>= fun p => outcome (k p.1) p.2 := by
  unfold outcome
  rw [bind_eq]
  cases x s <;> rfl

theorem outcome_check_bind (f : σ → Except ε α) (k : α → EStateM ε σ β) (s : σ) :
    outcome (check f >>= k) s = f s >>= fun a => outcome (k a) s := by
  rw [outcome_bind]
  unfold outcome check
  cases f s <;> rfl

theorem outcome_update_bind (f : σ → σ) (k : Unit → EStateM ε σ β) (s : σ) :
    outcome (update f >>= k) s = outcome (k ()) (f s) := rfl

theorem outcome_pure (a : α) (s : σ) : outcome (pure a : EStateM ε σ α) s = .ok (a, s) := rfl

theorem outcome_check (f : σ → Except ε α) (s : σ) : outcome (check f) s = (f s).map fun a => (a, s) := by
  unfold outcome check
  cases f s <;> rfl

theorem outcome_update (f : σ → σ) (s : σ) : outcome (update f : EStateM ε σ Unit) s = .ok ((), f s) := rfl

theorem outcome_forM_update (l : List α) (f : σ → α → σ) (s : σ) :
    outcome (l.forM fun a => (update fun s => f s a : EStateM ε σ PUnit)) s = .ok ((), l.foldl f s) := by
  induction l generalizing s with
  | nil => rfl
  | cons a l ih => exact ih (f s a)

theorem outcome_eq_ok {a : α} : outcome x s = .ok (a, s') ↔ x s = .ok a s' := by
  unfold outcome
  cases x s with
  | ok b t | error e t => simp

end InPlace
