import Mathlib.Control.Basic

/-!
# Runs of acts

A system that takes one act at a time, where an act may be impossible.  A run is every state reached from a first one by
acts that each meet a condition on the state they are taken in.
-/

namespace Forgent

open Option

variable {ω α : Type*}

inductive ActRun (act : ω → α → Option ω) (Starts : ω → Prop) (Meets : ω → α → Prop) : ω → Prop
  | start {w : ω} (h : Starts w) : ActRun act Starts Meets w
  | act {w w' : ω} (h : ActRun act Starts Meets w) (a : α) (hmeets : Meets w a) (hact : act w a = some w') :
      ActRun act Starts Meets w'

namespace ActRun

variable {act : ω → α → Option ω} {Starts : ω → Prop} {Meets Meets' : ω → α → Prop}

theorem mono (himp : ∀ w a, Meets w a → Meets' w a) {w : ω} (h : ActRun act Starts Meets w) :
    ActRun act Starts Meets' w := by
  induction h with
  | start h => exact .start h
  | act _ a hmeets hact ih => exact ih.act a (himp _ a hmeets) hact

/-- What holds at the start, and is kept by every act that meets the condition, holds in every run. -/
theorem invariant {Inv : ω → Prop} (hstart : ∀ w, Starts w → Inv w)
    (hact : ∀ {w a w'}, Inv w → Meets w a → act w a = some w' → Inv w') {w : ω} (h : ActRun act Starts Meets w) : Inv w := by
  induction h with
  | start h => exact hstart _ h
  | act _ a hmeets hstep ih => exact hact ih hmeets hstep

/-- Acts that can be taken one after another are a run, where nothing is asked of the states. -/
theorem of_acts (acts : List α) (hmeets : ∀ a ∈ acts, ∀ w, Meets w a) {w w' : ω} (hrun : ActRun act Starts Meets w)
    (h : acts.foldlM act w = some w') : ActRun act Starts Meets w' := by
  induction acts generalizing w with
  | nil => exact some.inj h ▸ hrun
  | cons a acts ih =>
    rw [List.foldlM_cons] at h
    obtain ⟨next, hnext, hrest⟩ := bind_eq_some_iff.mp h
    exact ih (fun b hb => hmeets b (List.mem_cons_of_mem a hb)) (hrun.act a (hmeets a List.mem_cons_self w) hnext) hrest

/-- An act that is taken only if a check passes. -/
def actIf (act : ω → α → Option ω) (meets : ω → α → Bool) (w : ω) (a : α) : Option ω :=
  if meets w a then act w a else none

theorem of_foldlM {meets : ω → α → Bool} (acts : List α) {w w' : ω}
    (hrun : ActRun act Starts (fun w a => meets w a = true) w) (h : acts.foldlM (actIf act meets) w = some w') :
    ActRun act Starts (fun w a => meets w a = true) w' := by
  induction acts generalizing w with
  | nil => exact some.inj h ▸ hrun
  | cons a acts ih =>
    rw [List.foldlM_cons] at h
    obtain ⟨u, hu, hrest⟩ := bind_eq_some_iff.mp h
    rw [actIf] at hu
    split at hu
    · next hmeets => exact ih (hrun.act a hmeets hu) hrest
    · cases hu

end ActRun

end Forgent
