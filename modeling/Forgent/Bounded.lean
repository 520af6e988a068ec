import Forgent.Value

/-!
# Tables of bounded size

A table that may hold at most `cap` entries loses its entries of the least rank, one after the other, the
first of several in the order of the keys.
-/

namespace Forgent

open Std.ExtTreeMap

/-- The first entry of the least rank. -/
def minByKey {α β : Type} [LT β] [DecidableLT β] (rank : α → β) : List α → Option α
  | [] => none
  | a :: l =>
    match minByKey rank l with
    | none => some a
    | some b => if rank b < rank a then some b else some a

namespace Table

variable {α β : Type} [LT β] [DecidableLT β]

/-- Removes entries of the least rank while there are more than `cap`, at most `rounds` of them. -/
def evictFor (rank : α → β) (cap : ℕ) : ℕ → Table α → Table α
  | 0, t => t
  | rounds + 1, t =>
    if cap < t.size then
      match minByKey (fun e : String × α => rank e.2) t.toList with
      | some e => evictFor rank cap rounds (t.erase e.1)
      | none => t
    else t

/-- Removes entries of the least rank while there are more than `cap`. -/
def evict (rank : α → β) (cap : ℕ) (t : Table α) : Table α := t.evictFor rank cap t.size

end Table

section

variable {α β : Type} [LT β] [DecidableLT β] {rank : α → β} {l : List α}

theorem minByKey_mem {a : α} (h : minByKey rank l = some a) : a ∈ l := by
  induction l with
  | nil => cases h
  | cons x l ih =>
    rw [minByKey] at h
    cases hl : minByKey rank l with
    | none =>
      rw [hl] at h
      cases h
      exact List.mem_cons_self
    | some b =>
      simp only [hl] at h
      split at h
      · exact List.mem_cons_of_mem _ (ih (hl.trans h))
      · cases h
        exact List.mem_cons_self

theorem minByKey_isSome (h : l ≠ []) : (minByKey rank l).isSome := by
  cases l with
  | nil => exact absurd rfl h
  | cons x l =>
    rw [minByKey]
    cases minByKey rank l with
    | none => rfl
    | some b =>
      show (if rank b < rank x then some b else some x).isSome = true
      split <;> rfl

namespace Table

variable {t : Table α} {cap rounds : ℕ} {key : String} {v : α}

theorem getElem?_evictFor (h : (t.evictFor rank cap rounds)[key]? = some v) : t[key]? = some v := by
  induction rounds generalizing t with
  | zero => exact h
  | succ rounds ih =>
    rw [evictFor] at h
    split at h
    · cases hmin : minByKey (fun e : String × α => rank e.2) t.toList with
      | none =>
        rw [hmin] at h
        exact h
      | some e =>
        rw [hmin] at h
        have hkept := ih h
        rw [getElem?_erase] at hkept
        split at hkept
        · cases hkept
        · exact hkept
    · exact h

theorem getElem?_evict (h : (t.evict rank cap)[key]? = some v) : t[key]? = some v :=
  getElem?_evictFor h

theorem size_evictFor (h : t.size ≤ cap + rounds) : (t.evictFor rank cap rounds).size ≤ cap := by
  induction rounds generalizing t with
  | zero => exact h
  | succ rounds ih =>
    rw [evictFor]
    split
    · rename_i hfull
      have hne : t.toList ≠ [] := by
        intro hnil
        rw [← length_toList, hnil] at hfull
        exact absurd hfull (Nat.not_lt_zero _)
      obtain ⟨e, he⟩ := Option.isSome_iff_exists.mp
        (minByKey_isSome hne : (minByKey (fun e : String × α => rank e.2) t.toList).isSome)
      have hmem : t.contains e.1 = true := by
        rw [contains_eq_isSome_getElem?, mem_toList_iff_getElem?_eq_some.mp (minByKey_mem he)]
        rfl
      rw [he]
      apply ih
      rw [size_erase, if_pos hmem]
      omega
    · omega

theorem size_evict : (t.evict rank cap).size ≤ cap := size_evictFor (by omega)

theorem evict_eq_self (h : t.size ≤ cap) : t.evict rank cap = t := by
  rw [evict]
  cases t.size with
  | zero => rfl
  | succ n =>
    rw [evictFor, if_neg (by omega)]

end Table

end

end Forgent
