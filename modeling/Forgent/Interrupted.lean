import Mathlib.Data.List.Basic

/-!
# Programs that can be stopped

A program changes a state one operation at a time.  Each operation works, fails, or is never reached because the
program was stopped before it.  `Meets` is the triple of such a program: what holds when it returns, when it fails, and
when it is stopped anywhere in between.  A `Stored` value is one that a power loss can set back to any value it had
since it was last synced.
-/

namespace Interrupted

/-- What becomes of one operation. -/
inductive Fate
  | works
  | fails
  | stops
deriving DecidableEq

/-- How a program ends. -/
inductive Ending (ε α : Type)
  | returned (value : α)
  | failed (error : ε)
  | stopped
deriving DecidableEq

/-- A program over a state.  It takes the fates of its operations in order; those past the list work. -/
def Program (σ ε α : Type) : Type := σ → List Fate → Ending ε α × σ × List Fate

namespace Program

variable {σ ε ε' α β : Type}

def ret (a : α) : Program σ ε α := fun s fates => (.returned a, s, fates)

def andThen (p : Program σ ε α) (f : α → Program σ ε β) : Program σ ε β := fun s fates =>
  match p s fates with
  | (.returned a, s', rest) => f a s' rest
  | (.failed e, s', rest) => (.failed e, s', rest)
  | (.stopped, s', rest) => (.stopped, s', rest)

instance : Monad (Program σ ε) where
  pure := ret
  bind := andThen

/-- Fails at once. -/
def fail (e : ε) : Program σ ε α := fun s fates => (.failed e, s, fates)

/-- Fails unless the condition holds. -/
def require (e : ε) (c : Bool) : Program σ ε Unit := fun s fates =>
  if c then (.returned (), s, fates) else (.failed e, s, fates)

/-- Reads the state. -/
def look : Program σ ε σ := fun s fates => (.returned s, s, fates)

/-- One operation: it changes the state when it works, and neither a failed nor a missed one does. -/
def operation (e : ε) (change : σ → σ) : Program σ ε Unit := fun s fates =>
  match fates.head?.getD .works with
  | .works => (.returned (), change s, fates.tail)
  | .fails => (.failed e, s, fates.tail)
  | .stops => (.stopped, s, fates.tail)

/-- Goes on after a failure. -/
def caught (p : Program σ ε α) : Program σ ε' (Except ε α) := fun s fates =>
  match p s fates with
  | (.returned a, s', rest) => (.returned (.ok a), s', rest)
  | (.failed e, s', rest) => (.returned (.error e), s', rest)
  | (.stopped, s', rest) => (.stopped, s', rest)

/-- One program for each element, in order. -/
def each (f : α → Program σ ε Unit) : List α → Program σ ε Unit
  | [] => ret ()
  | a :: l => andThen (f a) fun _ => each f l

end Program

open Program

/-- What holds of the state when a program that begins under a condition returns, fails, or is stopped. -/
def Meets {σ ε α : Type} (before : σ → Prop) (p : Program σ ε α) (returned : α → σ → Prop) (failed : ε → σ → Prop)
    (stopped : σ → Prop) : Prop :=
  ∀ s fates, before s →
    match p s fates with
    | (.returned a, s', _) => returned a s'
    | (.failed e, s', _) => failed e s'
    | (.stopped, s', _) => stopped s'

namespace Meets

variable {σ ε ε' α β : Type} {P P' : σ → Prop} {p : Program σ ε α} {Q Q' : α → σ → Prop} {F F' : ε → σ → Prop}
  {S S' : σ → Prop} {R : β → σ → Prop} {e : ε}

theorem mono (h : Meets P p Q F S) (hP : ∀ s, P' s → P s) (hQ : ∀ a s, Q a s → Q' a s) (hF : ∀ e s, F e s → F' e s)
    (hS : ∀ s, S s → S' s) : Meets P' p Q' F' S' := by
  intro s fates hs
  have hp := h s fates (hP s hs)
  revert hp
  rcases p s fates with ⟨⟨a⟩ | ⟨e⟩ | _, s', rest⟩
  · exact hQ a s'
  · exact hF e s'
  · exact hS s'

theorem weaken (h : Meets P p Q F S) (hP : ∀ s, P' s → P s) : Meets P' p Q F S :=
  h.mono hP (fun _ _ => id) (fun _ _ => id) fun _ => id

theorem ret {a : α} (h : ∀ s, P s → Q a s) : Meets P (Program.ret a) Q F S := fun s _ => h s

theorem bind {f : α → Program σ ε β} (hp : Meets P p Q F S) (hf : ∀ a, Meets (Q a) (f a) R F S) :
    Meets P (p >>= f) R F S := by
  intro s fates hs
  have h := hp s fates hs
  show match andThen p f s fates with
    | (.returned a, s', _) => R a s'
    | (.failed e, s', _) => F e s'
    | (.stopped, s', _) => S s'
  rw [andThen]
  revert h
  rcases p s fates with ⟨⟨a⟩ | ⟨e⟩ | _, s', rest⟩
  · exact hf a s' rest
  · exact id
  · exact id

theorem fail (h : ∀ s, P s → F e s) : Meets P (Program.fail e) Q F S := fun s _ => h s

theorem require {c : Bool} {Q : Unit → σ → Prop} (htrue : ∀ s, P s → c = true → Q () s)
    (hfalse : ∀ s, P s → c = false → F e s) : Meets P (Program.require e c) Q F S := by
  intro s fates hs
  rw [Program.require]
  cases hc : c with
  | true => exact htrue s hs hc
  | false => exact hfalse s hs hc

theorem look {Q : σ → σ → Prop} (h : ∀ s, P s → Q s s) : Meets P Program.look Q F S := fun s _ => h s

theorem bind_look {start : σ} {f : σ → Program σ ε β} (h : Meets (fun s => s = start) (f start) R F S) :
    Meets (fun s => s = start) (Program.look >>= f) R F S := by
  rintro s fates rfl
  exact h s fates rfl

theorem operation {change : σ → σ} {Q : Unit → σ → Prop} (hworks : ∀ s, P s → Q () (change s))
    (hfails : ∀ s, P s → F e s) (hstops : ∀ s, P s → S s) : Meets P (Program.operation e change) Q F S := by
  intro s fates hs
  rw [Program.operation]
  cases fates.head?.getD .works with
  | works => exact hworks s hs
  | fails => exact hfails s hs
  | stops => exact hstops s hs

theorem caught {Q : Except ε α → σ → Prop} {F' : ε' → σ → Prop} (h : Meets P p (fun a => Q (.ok a)) (fun e => Q (.error e)) S) :
    Meets P (Program.caught p) Q F' S := by
  intro s fates hs
  have hp := h s fates hs
  rw [Program.caught]
  revert hp
  rcases p s fates with ⟨⟨a⟩ | ⟨e⟩ | _, s', rest⟩
  · exact id
  · exact id
  · exact id

theorem each {f : α → Program σ ε Unit} {I : List α → σ → Prop} (h : ∀ a l, Meets (I (a :: l)) (f a) (fun _ => I l) F S)
    (l : List α) : Meets (I l) (Program.each f l) (fun _ => I []) F S := by
  induction l with
  | nil => exact ret fun _ => id
  | cons a l ih => exact bind (h a l) fun _ => ih

end Meets

/-! ### Storage -/

/-- A stored value: what is read, and the earlier values since the last sync, newest first. -/
structure Stored (α : Type) where
  now : α
  earlier : List α

namespace Stored

variable {α : Type}

def put (d : Stored α) (a : α) : Stored α := ⟨a, d.now :: d.earlier⟩

def sync (d : Stored α) : Stored α := ⟨d.now, []⟩

/-- The values a power loss can leave. -/
def values (d : Stored α) : List α := d.now :: d.earlier

variable (d : Stored α)

include d

@[simp] theorem now_put (a : α) : (d.put a).now = a := rfl

@[simp] theorem now_sync : d.sync.now = d.now := rfl

@[simp] theorem values_put (a : α) : (d.put a).values = a :: d.values := rfl

@[simp] theorem values_sync : d.sync.values = [d.now] := rfl

theorem now_mem : d.now ∈ d.values := List.mem_cons_self

theorem values_sync_subset : d.sync.values ⊆ d.values :=
  List.cons_subset.mpr ⟨d.now_mem, List.nil_subset _⟩

end Stored

end Interrupted
