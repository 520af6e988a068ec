import Mathlib.Data.List.Basic
import Mathlib.Logic.Relation

/-!
# Calls that interleave on a shared store

Calls run on one store, each step of a call atomic, in any order.  A call may stop for good after any of its steps: it
takes no further one.  What a call relies on is kept by the steps of all the others, so an assertion about a call that
every step respects holds in every run.
-/

namespace Forgent

open List Option

/-- What calls do: which may begin, what one step of a call does, and what the surroundings do to the store. -/
structure Interleave (σ κ : Type) where
  begins : κ → Prop
  step : σ → κ → σ → κ → Prop
  around : σ → σ → Prop

namespace Interleave

variable {σ κ : Type}

/-- The store, and every call that began. -/
structure World (σ κ : Type) where
  store : σ
  calls : List κ

variable (sys : Interleave σ κ)

inductive Next : World σ κ → World σ κ → Prop
  | begin {s : σ} {calls : List κ} {k : κ} (h : sys.begins k) : Next ⟨s, calls⟩ ⟨s, calls ++ [k]⟩
  | step {s s' : σ} {calls : List κ} {i : ℕ} {k k' : κ} (hcall : calls[i]? = some k) (h : sys.step s k s' k') :
    Next ⟨s, calls⟩ ⟨s', calls.set i k'⟩
  | around {s s' : σ} {calls : List κ} (h : sys.around s s') : Next ⟨s, calls⟩ ⟨s', calls⟩

abbrev Run : World σ κ → World σ κ → Prop := Relation.ReflTransGen sys.Next

/-- The steps of one call while nothing else moves. -/
abbrev Alone : σ × κ → σ × κ → Prop := Relation.ReflTransGen fun a b => sys.step a.1 a.2 b.1 b.2

/-- An invariant of the store, an assertion for each call, and how the store may change while a call waits. -/
structure Outline (inv : σ → Prop) (holds : σ → κ → Prop) (rely : σ → σ → Prop) : Prop where
  begins : ∀ {s k}, inv s → sys.begins k → holds s k
  step : ∀ {s k s' k'}, inv s → holds s k → sys.step s k s' k' → inv s' ∧ holds s' k' ∧ rely s s'
  around : ∀ {s s'}, inv s → sys.around s s' → inv s' ∧ rely s s'
  stable : ∀ {s s' k}, inv s → inv s' → holds s k → rely s s' → holds s' k

variable {sys} {inv : σ → Prop} {holds : σ → κ → Prop} {rely : σ → σ → Prop} {w w' : World σ κ}

/-- The invariant, and every call's assertion. -/
def Outlined (inv : σ → Prop) (holds : σ → κ → Prop) (w : World σ κ) : Prop := inv w.store ∧ ∀ k ∈ w.calls, holds w.store k

section

variable (h : sys.Outline inv holds rely)

include h

theorem Outline.next (hw : Outlined inv holds w) (hnext : sys.Next w w') :
    Outlined inv holds w' ∧ (rely w.store w'.store ∨ w'.store = w.store) := by
  obtain ⟨hinv, hcalls⟩ := hw
  cases hnext with
  | begin hbegins =>
    refine ⟨⟨hinv, fun k hk => ?_⟩, .inr rfl⟩
    cases mem_append.mp hk with
    | inl hold => exact hcalls k hold
    | inr hnew =>
      obtain rfl := mem_singleton.mp hnew
      exact h.begins hinv hbegins
  | step hcall hstep =>
    have hk := hcalls _ (mem_of_getElem? hcall)
    obtain ⟨hinv', hk', hrely⟩ := h.step hinv hk hstep
    refine ⟨⟨hinv', fun k hmem => ?_⟩, .inl hrely⟩
    cases mem_or_eq_of_mem_set hmem with
    | inl hold => exact h.stable hinv hinv' (hcalls k hold) hrely
    | inr hself => exact hself ▸ hk'
  | around haround =>
    obtain ⟨hinv', hrely⟩ := h.around hinv haround
    exact ⟨⟨hinv', fun k hk => h.stable hinv hinv' (hcalls k hk) hrely⟩, .inl hrely⟩

theorem Outline.run (hw : Outlined inv holds w) (hrun : sys.Run w w') : Outlined inv holds w' := by
  induction hrun with
  | refl => exact hw
  | tail _ hnext ih => exact (h.next ih hnext).1

/-- What the store may become over a run, where the rely condition is a preorder. -/
theorem Outline.rely_run (hrefl : ∀ s, rely s s) (htrans : ∀ {a b c}, rely a b → rely b c → rely a c)
    (hw : Outlined inv holds w) (hrun : sys.Run w w') : rely w.store w'.store := by
  induction hrun with
  | refl => exact hrefl _
  | tail hrun hnext ih =>
    cases (h.next (h.run hw hrun) hnext).2 with
    | inl hstep => exact htrans ih hstep
    | inr heq => exact heq ▸ ih

theorem Outline.along_next (along : σ → κ → Prop) {i : ℕ}
    (hown : ∀ {s k s' k'}, inv s → holds s k → along s k → sys.step s k s' k' → along s' k')
    (hothers : ∀ {s s' k}, inv s → inv s' → along s k → rely s s' → along s' k)
    (hw : Outlined inv holds w) (hnext : sys.Next w w') {k : κ} (hk : w.calls[i]? = some k) (halong : along w.store k) :
    ∃ k', w'.calls[i]? = some k' ∧ along w'.store k' := by
  have hlt := (List.getElem?_eq_some_iff.mp hk).1
  cases hnext with
  | begin => exact ⟨k, (getElem?_append_left hlt).trans hk, halong⟩
  | @step s s' calls j k₀ k' hcall hstep =>
    obtain ⟨hinv', -, hrely⟩ := h.step hw.1 (hw.2 _ (mem_of_getElem? hcall)) hstep
    by_cases hij : j = i
    · subst hij
      obtain rfl : k₀ = k := some.inj (hcall.symm.trans hk)
      exact ⟨k', getElem?_set_self hlt, hown hw.1 (hw.2 _ (mem_of_getElem? hcall)) halong hstep⟩
    · exact ⟨k, (getElem?_set_ne hij).trans hk, hothers hw.1 hinv' halong hrely⟩
  | around haround =>
    obtain ⟨hinv', hrely⟩ := h.around hw.1 haround
    exact ⟨k, hk, hothers hw.1 hinv' halong hrely⟩

theorem Outline.follow (along : σ → κ → Prop) {i : ℕ}
    (hown : ∀ {s k s' k'}, inv s → holds s k → along s k → sys.step s k s' k' → along s' k')
    (hothers : ∀ {s s' k}, inv s → inv s' → along s k → rely s s' → along s' k)
    (hw : Outlined inv holds w) (hrun : sys.Run w w') (hbefore : ∀ k, w.calls[i]? = some k → along w.store k)
    (hsome : (w.calls[i]?).isSome = true) : (∃ k, w'.calls[i]? = some k) ∧ ∀ k, w'.calls[i]? = some k → along w'.store k := by
  induction hrun with
  | refl => exact ⟨isSome_iff_exists.mp hsome, hbefore⟩
  | tail hrun hnext ih =>
    obtain ⟨⟨k, hk⟩, halong⟩ := ih
    obtain ⟨k', hk', halong'⟩ := h.along_next along hown hothers (h.run hw hrun) hnext hk (halong k hk)
    exact ⟨⟨k', hk'⟩, fun k'' hk'' => some.inj (hk'.symm.trans hk'') ▸ halong'⟩

theorem Outline.later (along : σ → κ → Prop)
    (hfirst : ∀ {u : World σ κ} {k}, sys.Run w u → sys.begins k → along u.store k)
    (hown : ∀ {s k s' k'}, inv s → holds s k → along s k → sys.step s k s' k' → along s' k')
    (hothers : ∀ {s s' k}, inv s → inv s' → along s k → rely s s' → along s' k)
    (hw : Outlined inv holds w) (hrun : sys.Run w w') :
    ∀ i k, w.calls.length ≤ i → w'.calls[i]? = some k → along w'.store k := by
  induction hrun with
  | refl =>
    intro i k hi hk
    rw [getElem?_eq_none hi] at hk
    cases hk
  | @tail u v hrun hnext ih =>
    intro i k hi hk
    cases hthere : u.calls[i]? with
    | some k₀ =>
      obtain ⟨k', hk', halong⟩ := h.along_next along hown hothers (h.run hw hrun) hnext hthere (ih i k₀ hi hthere)
      exact some.inj (hk'.symm.trans hk) ▸ halong
    | none =>
      have hlen := getElem?_eq_none_iff.mp hthere
      cases hnext with
      | @begin s calls k₀ hbegins =>
        rw [getElem?_append_right hlen] at hk
        obtain rfl := mem_singleton.mp (mem_of_getElem? hk)
        exact hfirst (u := ⟨s, calls⟩) hrun hbegins
      | step =>
        rw [getElem?_eq_none (by rwa [length_set])] at hk
        cases hk
      | around =>
        rw [hthere] at hk
        cases hk

end

theorem run_of_foldlM {ε : Type} {happen : World σ κ → ε → Option (World σ κ)}
    (hhappen : ∀ {w w' : World σ κ} {event : ε}, happen w event = some w' → sys.Next w w') (events : List ε)
    (h : events.foldlM happen w = some w') : sys.Run w w' := by
  induction events generalizing w with
  | nil => exact some.inj h ▸ Relation.ReflTransGen.refl
  | cons event events ih =>
    rw [foldlM_cons] at h
    obtain ⟨u, hu, hrest⟩ := bind_eq_some_iff.mp h
    exact Relation.ReflTransGen.head (hhappen hu) (ih hrest)

end Interleave

end Forgent
