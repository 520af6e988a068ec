import Mathlib.Order.WellFoundedSet

/-!
# Acyclic relations that grow

A relation is acyclic when no node reaches itself in one or more steps.  `acyclic_insert` is the step of
an induction over growing graphs: a new node keeps a graph acyclic when nothing that it points to
leads back to it.
-/

namespace FiniteGraph

open Relation

variable {α : Type*} {r r' : α → α → Prop}

/-- No node reaches itself. -/
def Acyclic (r : α → α → Prop) : Prop := ∀ a, ¬ TransGen r a a

theorem Acyclic.mono (h : Acyclic r) (hsub : ∀ a b, r' a b → r a b) : Acyclic r' :=
  fun a hcycle => h a (TransGen.mono hsub a a hcycle)

/-- Steps between nodes other than `x`. -/
def Avoiding (r : α → α → Prop) (x a b : α) : Prop := a ≠ x ∧ b ≠ x ∧ r a b

theorem exists_last_step {x a : α} (h : ReflTransGen r a x) (ha : a ≠ x) :
    ∃ b, b ≠ x ∧ ReflTransGen (Avoiding r x) a b ∧ r b x := by
  induction h using ReflTransGen.head_induction_on with
  | refl => exact absurd rfl ha
  | @head a c hac _ ih =>
    by_cases hc : c = x
    · exact ⟨a, ha, .refl, hc ▸ hac⟩
    · obtain ⟨b, hb, hcb, hbx⟩ := ih hc
      exact ⟨b, hb, hcb.head ⟨ha, hc, hac⟩, hbx⟩

theorem avoids_or_visits {x a b : α} (h : TransGen r a b) (ha : a ≠ x) (hb : b ≠ x) :
    TransGen (Avoiding r x) a b ∨ (ReflTransGen r a x ∧ ReflTransGen r x b) := by
  induction h with
  | single hab => exact .inl (.single ⟨ha, hb, hab⟩)
  | @tail c b hac hcb ih =>
    by_cases hc : c = x
    · exact .inr ⟨hc ▸ hac.to_reflTransGen, .single (hc ▸ hcb)⟩
    · rcases ih hc with h | ⟨h₁, h₂⟩
      · exact .inl (h.tail ⟨hc, hb, hcb⟩)
      · exact .inr ⟨h₁, h₂.tail hcb⟩

/-- **A changed node.**  The edges between the other nodes are those of an acyclic graph, and the node does
not reach itself. -/
theorem acyclic_change (x : α) (hacyc : Acyclic r) (hold : ∀ a b, a ≠ x → b ≠ x → r' a b → r a b)
    (hx : ¬ TransGen r' x x) : Acyclic r' := by
  intro a hcycle
  by_cases ha : a = x
  · exact hx (ha ▸ hcycle)
  · rcases avoids_or_visits hcycle ha ha with h | ⟨hax, hxa⟩
    · exact hacyc a (TransGen.mono (fun _ _ h => hold _ _ h.1 h.2.1 h.2.2) a a h)
    · rcases ReflTransGen.cases_head hax with h | ⟨b, hab, hbx⟩
      · exact ha h
      · exact hx (TransGen.trans_right hxa (TransGen.head' hab hbx))

/-- **A new node.**  The old edges are those of an acyclic graph, the new node has no edge to itself,
and what it points to does not lead back to it. -/
theorem acyclic_insert (x : α) (hacyc : Acyclic r) (hold : ∀ a b, a ≠ x → b ≠ x → r' a b → r a b) (hself : ¬ r' x x)
    (hback : ∀ a b, r' x a → ReflTransGen r a b → ¬ r' b x) : Acyclic r' := by
  have hsub : ∀ a b, ReflTransGen (Avoiding r' x) a b → ReflTransGen r a b := fun a b =>
    ReflTransGen.mono (fun _ _ h => hold _ _ h.1 h.2.1 h.2.2) a b
  have hx : ¬ TransGen r' x x := by
    intro hcycle
    obtain ⟨a, hxa, hax⟩ := TransGen.head'_iff.mp hcycle
    have ha : a ≠ x := fun h => hself (h ▸ hxa)
    obtain ⟨b, _, hab, hbx⟩ := exists_last_step hax ha
    exact hback a b hxa (hsub a b hab) hbx
  exact acyclic_change x hacyc hold hx

theorem exists_rank (h : Acyclic r) {s : Set α} (hs : s.Finite) :
    ∃ rank : α → ℕ, ∀ a ∈ s, ∀ b ∈ s, r a b → rank b < rank a := by
  classical
  -- the rank of a node is the number of nodes of the set it reaches
  refine ⟨fun a => (hs.toFinset.filter fun b => TransGen r a b).card, fun a ha b hb hab => ?_⟩
  refine Finset.card_lt_card (Finset.ssubset_iff_subset_ne.mpr ⟨fun c hc => ?_, fun heq => ?_⟩)
  · obtain ⟨hcs, hbc⟩ := Finset.mem_filter.mp hc
    exact Finset.mem_filter.mpr ⟨hcs, .head hab hbc⟩
  · have hmem : b ∈ hs.toFinset.filter fun c => TransGen r a c :=
      Finset.mem_filter.mpr ⟨hs.mem_toFinset.mpr hb, .single hab⟩
    rw [← heq, Finset.mem_filter] at hmem
    exact h b hmem.2

end FiniteGraph
