import Forgent.Graph.DepthFirst
import Mathlib.Algebra.GroupWithZero.Nat

/-!
# A walk with a stack

Everything behind a node, along edges that lead to nodes that may be entered: the successors of what is entered are pushed
on a stack, and the top of it is looked at next.

* `drain`, `behind`: the walk; `mem_behind_iff`: it finds what can be reached.
-/

namespace StackWalk

open Relation DepthFirst List

variable {α : Type*} [DecidableEq α]

section

variable (next : α → List α) (inside : α → Bool)

/-- Pop the top of the stack until it is empty; the top is the first. -/
def drain : ℕ → List α → List α → List α
  | 0, _, out => out
  | _ + 1, [], out => out
  | pops + 1, a :: stack, out =>
    if a ∈ out ∨ inside a = false then drain pops stack out
    else drain pops ((next a).reverse ++ stack) (out ++ [a])

/-- How much is pushed for the nodes that were not entered yet. -/
def toPush (nodes out : List α) : ℕ := ((nodes.filter (· ∉ out)).map fun a => (next a).length).sum

/-- What is behind a node: the nodes are those that may be entered, and each pushes its successors once. -/
def behind (nodes : List α) (a : α) : List α :=
  drain next inside ((next a).length + toPush next nodes []) (next a).reverse []

end

variable {next : α → List α} {inside : α → Bool} {a : α} {out nodes : List α} {stack : List α}

/-- What the walk keeps: it found nodes that are behind the start, each once, and the successors of what it found that may
be entered were found or are on the stack. -/
structure Walking (next : α → List α) (inside : α → Bool) (a : α) (stack out : List α) : Prop where
  nodup : out.Nodup
  stacked : ∀ b ∈ stack, inside b = true → TransGen (Behind next inside) a b
  found : ∀ b ∈ out, TransGen (Behind next inside) a b
  first : ∀ b, Behind next inside a b → b ∈ out ∨ b ∈ stack
  closed : ∀ b ∈ out, ∀ c, Behind next inside b c → c ∈ out ∨ c ∈ stack

omit [DecidableEq α] in
theorem Walking.mem_iff (h : Walking next inside a [] out) (b : α) : b ∈ out ↔ TransGen (Behind next inside) a b := by
  refine ⟨h.found b, fun hb => ?_⟩
  induction hb with
  | single hedge => exact (h.first _ hedge).resolve_right (not_mem_nil)
  | tail _ hedge ih => exact (h.closed _ ih _ hedge).resolve_right (not_mem_nil)

omit [DecidableEq α] in
theorem Walking.skip {a b : α} {out : List α} (h : Walking next inside a (b :: stack) out)
    (hskip : b ∈ out ∨ inside b = false) : Walking next inside a stack out := by
  have hother : ∀ d, ∀ c, Behind next inside d c → c ∈ out ∨ c ∈ b :: stack → c ∈ out ∨ c ∈ stack := by
    rintro d c hedge (hc | hc)
    · exact .inl hc
    · rcases mem_cons.mp hc with rfl | hc
      · rcases hskip with hout | hinside
        · exact .inl hout
        · rw [hedge.2] at hinside
          cases hinside
      · exact .inr hc
  exact ⟨h.nodup, fun c hc => h.stacked c (mem_cons_of_mem b hc), h.found, fun c hc => hother a c hc (h.first c hc),
    fun d hd c hc => hother d c hc (h.closed d hd c hc)⟩

omit [DecidableEq α] in
theorem Walking.enter {b : α} (h : Walking next inside a (b :: stack) out) (hnew : b ∉ out)
    (hinside : inside b = true) : Walking next inside a ((next b).reverse ++ stack) (out ++ [b]) := by
  have hb := h.stacked b mem_cons_self hinside
  have hother : ∀ c, c ∈ out ∨ c ∈ b :: stack → c ∈ out ++ [b] ∨ c ∈ (next b).reverse ++ stack := by
    rintro c (hc | hc)
    · exact .inl (mem_append_left [b] hc)
    · rcases mem_cons.mp hc with rfl | hc
      · exact .inl (mem_append_right out mem_cons_self)
      · exact .inr (mem_append_right _ hc)
  refine ⟨?_, fun c hc hinside' => ?_, fun c hc => ?_, fun c hc => hother c (h.first c hc), fun d hd c hc => ?_⟩
  · rw [nodup_append]
    refine ⟨h.nodup, nodup_singleton b, fun c hc d hd heq => hnew ?_⟩
    rw [← mem_singleton.mp hd, ← heq]
    exact hc
  · rcases mem_append.mp hc with hc | hc
    · exact hb.tail ⟨mem_reverse.mp hc, hinside'⟩
    · exact h.stacked c (mem_cons_of_mem b hc) hinside'
  · rcases mem_append.mp hc with hc | hc
    · exact h.found c hc
    · rw [mem_singleton.mp hc]
      exact hb
  · rcases mem_append.mp hd with hd | hd
    · exact hother c (h.closed d hd c hc)
    · rw [mem_singleton.mp hd] at hc
      exact .inr (mem_append_left _ (mem_reverse.mpr hc.1))

theorem toPush_append {nodes out : List α} {a : α} (ha : a ∈ nodes) (hnew : a ∉ out) :
    toPush next nodes (out ++ [a]) + (next a).length ≤ toPush next nodes out := by
  have hless : ∀ l : List α, toPush next l (out ++ [a]) ≤ toPush next l out := by
    intro l
    induction l with
    | nil => exact Nat.le_refl _
    | cons b l ih =>
      simp only [toPush, filter_cons] at ih ⊢
      by_cases hb : b ∈ out
      · simpa [hb] using ih
      · by_cases hba : b = a
        · subst hba
          simp only [mem_append, mem_singleton, or_true, not_true_eq_false, decide_false, hb, not_false_eq_true,
            decide_true, if_true, map_cons, sum_cons, Bool.false_eq_true, if_false] at ih ⊢
          omega
        · simp only [mem_append, mem_singleton, hb, hba, or_self, not_false_eq_true, decide_true, if_true,
            map_cons, sum_cons] at ih ⊢
          omega
  induction nodes with
  | nil => cases ha
  | cons b nodes ih =>
    have hrest := hless nodes
    simp only [toPush, filter_cons] at ih hrest ⊢
    by_cases hba : b = a
    · subst hba
      simp only [mem_append, mem_singleton, or_true, not_true_eq_false, decide_false, hnew, not_false_eq_true,
        decide_true, if_true, map_cons, sum_cons, Bool.false_eq_true, if_false] at hrest ⊢
      omega
    · have ih := ih ((mem_cons.mp ha).resolve_left (Ne.symm hba))
      by_cases hb : b ∈ out
      · simpa [hb] using ih
      · simp only [mem_append, mem_singleton, hb, hba, or_self, not_false_eq_true, decide_true, if_true,
          map_cons, sum_cons] at ih ⊢
        omega

variable (hnodes : ∀ b, inside b = true → b ∈ nodes)

include hnodes

theorem drain_spec {pops : ℕ}
    (h : Walking next inside a stack out) (hpops : stack.length + toPush next nodes out ≤ pops) :
    Walking next inside a [] (drain next inside pops stack out) := by
  induction pops generalizing stack out with
  | zero =>
    obtain rfl : stack = [] := length_eq_zero_iff.mp (by omega)
    exact h
  | succ pops ih =>
    cases stack with
    | nil => exact h
    | cons b stack =>
      rw [length_cons] at hpops
      rw [drain]
      by_cases hskip : b ∈ out ∨ inside b = false
      · rw [if_pos hskip]
        exact ih (h.skip hskip) (by omega)
      · rw [if_neg hskip]
        obtain ⟨hnew, hinside⟩ := not_or.mp hskip
        rw [Bool.not_eq_false] at hinside
        have hpush := @toPush_append α _ next _ _ _ (hnodes b hinside) hnew
        refine ih (h.enter hnew hinside) ?_
        rw [length_append, length_reverse]
        omega

theorem walking_behind (a : α) : Walking next inside a [] (behind next inside nodes a) := by
  refine drain_spec hnodes ⟨.nil, fun b hb hinside => .single ⟨mem_reverse.mp hb, hinside⟩,
    nofun, fun b hb => .inr (mem_reverse.mpr hb.1), nofun⟩ ?_
  rw [length_reverse]

/-- **The walk finds what is behind a node**, each once. -/
theorem mem_behind_iff (a b : α) : b ∈ behind next inside nodes a ↔ TransGen (Behind next inside) a b := (walking_behind hnodes a).mem_iff b

theorem nodup_behind (a : α) : (behind next inside nodes a).Nodup := (walking_behind hnodes a).nodup

end StackWalk
