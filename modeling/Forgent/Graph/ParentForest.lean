import Mathlib.Data.List.Nodup
import Mathlib.Data.List.Perm.Subperm
import Mathlib.Order.Basic

/-!
# The forest of some items and the items above them

An item names its parent.  The nodes of the forest are some items and what is above them; what has no parent among the nodes
is at the top.

* `ancestors`: the walk to the top, which stops at what it has seen.
* `flat`: the forest, written out; it has no node twice (`nodup_flat`), and every node with a top above it (`mem_flat`).
-/

namespace ParentForest

open List

variable {α : Type*}

/-! ### Levels -/

section

variable (parent : α → Option α)

/-- How far an item is below the top, among some items. -/
inductive Level (inside : α → Prop) : ℕ → α → Prop
  | top {a : α} : inside a → (∀ p, parent a = some p → ¬ inside p) → Level inside 0 a
  | under {n : ℕ} {a p : α} : inside a → parent a = some p → Level inside n p → Level inside (n + 1) a

/-- The item that many steps above. -/
def up : ℕ → α → Option α
  | 0, a => some a
  | n + 1, a => (up n a).bind parent

end

variable {parent : α → Option α} {inside : α → Prop} {nodes : List α} {sorted : List α → List α} {n m : ℕ} {a b : α}

section

variable (h : Level parent inside n a)

include h

theorem Level.mem : inside a := by
  cases h <;> assumption

theorem Level.unique (h' : Level parent inside m a) : n = m := by
  induction h generalizing m with
  | top _ htop =>
    cases h' with
    | top => rfl
    | under _ hp hlevel => exact absurd hlevel.mem (htop _ hp)
  | under _ hp hlevel ih =>
    cases h' with
    | top _ htop => exact absurd hlevel.mem (htop _ hp)
    | under _ hp' hlevel' =>
      cases hp.symm.trans hp'
      rw [ih hlevel']

theorem Level.path : ∃ l : List α, l.length = n + 1 ∧ l.Nodup ∧ ∀ b ∈ l, ∃ i ≤ n, Level parent inside i b := by
  induction h with
  | @top a ha htop =>
    refine ⟨[a], rfl, nodup_singleton a, fun b hb => ?_⟩
    exact ⟨0, Nat.le_refl 0, mem_singleton.mp hb ▸ .top ha htop⟩
  | @under n a p ha hp hlevel ih =>
    obtain ⟨l, hlength, hnodup, hl⟩ := ih
    refine ⟨a :: l, by rw [length_cons, hlength], nodup_cons.mpr ⟨fun hmem => ?_, hnodup⟩, fun b hb => ?_⟩
    · obtain ⟨i, hi, hlevel'⟩ := hl a hmem
      exact absurd (hlevel'.unique (.under ha hp hlevel)) (Nat.ne_of_lt (Nat.lt_succ_of_le hi))
    · rcases mem_cons.mp hb with rfl | hb
      · exact ⟨n + 1, Nat.le_refl _, .under ha hp hlevel⟩
      · obtain ⟨i, hi, hlevel'⟩ := hl b hb
        exact ⟨i, Nat.le_succ_of_le hi, hlevel'⟩

end

theorem Level.lt_length (h : Level parent (· ∈ nodes) n a) : n < nodes.length := by
  obtain ⟨l, hlength, hnodup, hl⟩ := h.path
  have hsub : l ⊆ nodes := fun b hb => (hl b hb).choose_spec.2.mem
  have hle := (hnodup.subperm hsub).length_le
  omega

theorem Level.among (hclosed : ∀ a, inside a → ∀ p, parent a = some p → inside p) (h : Level parent inside n a)
    {found : List α} (ha : a ∈ found) (hfound : ∀ b ∈ found, ∀ p, parent b = some p → p ∈ found)
    (hnodes : ∀ b ∈ found, b ∈ nodes) : Level parent (· ∈ nodes) n a := by
  induction h with
  | top hin htop => exact .top (hnodes _ ha) fun p hp => absurd (hclosed _ hin p hp) (htop p hp)
  | under _ hp _ ih => exact .under (hnodes _ ha) hp (ih (hfound _ ha _ hp))

/-! ### The forest -/

variable [DecidableEq α]

section

variable (parent : α → Option α)

/-- What is above an item. -/
def ancestors : ℕ → List α → α → List α
  | 0, _, _ => []
  | steps + 1, seen, a =>
    match parent a with
    | none => []
    | some p => if p ∈ seen then [] else p :: ancestors steps (p :: seen) p

variable (nodes : List α)

def children (a : α) : List α := nodes.filter fun child => parent child = some a

def tops : List α := nodes.filter fun a => (parent a).all (· ∉ nodes)

/-- A node and what is under it, down to a depth. -/
def flat (sorted : List α → List α) : ℕ → α → List α
  | 0, a => [a]
  | depth + 1, a => a :: (sorted (children parent nodes a)).flatMap (flat sorted depth)

end

/-! ### No node twice -/

variable {depth : ℕ} {p : α} {steps : ℕ} {seen : List α}

theorem exists_up (hsorted : ∀ l b, b ∈ sorted l → b ∈ l) (h : Level parent (· ∈ nodes) n a)
    (hb : b ∈ flat parent nodes sorted depth a) : ∃ k, Level parent (· ∈ nodes) (n + k) b ∧ up parent k b = some a := by
  induction depth generalizing a n with
  | zero =>
    cases mem_singleton.mp hb
    exact ⟨0, h, rfl⟩
  | succ depth ih =>
    rcases mem_cons.mp hb with rfl | hb
    · exact ⟨0, h, rfl⟩
    · obtain ⟨child, hchild, hb⟩ := mem_flatMap.mp hb
      obtain ⟨hnode, hp⟩ := mem_filter.mp (hsorted _ _ hchild)
      have hp : parent child = some a := of_decide_eq_true hp
      obtain ⟨k, hlevel, hup⟩ := ih (.under hnode hp h) hb
      refine ⟨k + 1, by rwa [Nat.add_right_comm, Nat.add_assoc] at hlevel, ?_⟩
      rw [up, hup]
      exact hp

theorem nodup_flatMap_flat (hsorted : ∀ l b, b ∈ sorted l → b ∈ l) (hnodup : ∀ l, (sorted l).Nodup) {l : List α}
    (hl : l.Nodup) (hlevel : ∀ a ∈ l, Level parent (· ∈ nodes) n a) : (l.flatMap (flat parent nodes sorted depth)).Nodup := by
  induction depth generalizing l n with
  | zero => rwa [show (flat parent nodes sorted 0) = fun a => [a] from rfl, flatMap_singleton' l]
  | succ depth ih =>
    refine nodup_flatMap.mpr ⟨fun a ha => ?_, hl.imp_of_mem fun {a b} ha hb hne c hc hc' => ?_⟩
    · have hchildren : ∀ child ∈ sorted (children parent nodes a), Level parent (· ∈ nodes) (n + 1) child := by
        intro child hchild
        obtain ⟨hnode, hp⟩ := mem_filter.mp (hsorted _ _ hchild)
        exact .under hnode (of_decide_eq_true hp) (hlevel a ha)
      refine nodup_cons.mpr ⟨fun hmem => ?_, ih (hnodup _) hchildren⟩
      obtain ⟨child, hchild, hmem⟩ := mem_flatMap.mp hmem
      obtain ⟨k, hbelow, -⟩ := exists_up hsorted (hchildren child hchild) hmem
      have := (hlevel a ha).unique hbelow
      omega
    · obtain ⟨k, hk, hup⟩ := exists_up hsorted (hlevel a ha) hc
      obtain ⟨k', hk', hup'⟩ := exists_up hsorted (hlevel b hb) hc'
      cases Nat.add_left_cancel (hk.unique hk')
      exact hne (Option.some.inj (hup.symm.trans hup'))

theorem level_tops (h : a ∈ tops parent nodes) : Level parent (· ∈ nodes) 0 a := by
  obtain ⟨hnode, htop⟩ := mem_filter.mp h
  refine .top hnode fun p hp => ?_
  rw [hp] at htop
  exact of_decide_eq_true htop

/-- **The forest has no node twice**, whatever the parents are. -/
theorem nodup_flat (hsorted : ∀ l b, b ∈ sorted l → b ∈ l) (hnodup : ∀ l, (sorted l).Nodup) (depth : ℕ) :
    ((sorted (tops parent nodes)).flatMap (flat parent nodes sorted depth)).Nodup :=
  nodup_flatMap_flat hsorted hnodup (hnodup _) fun a ha => level_tops (hsorted _ a ha)

/-! ### Every node with a top above it -/

theorem mem_flat_self (depth : ℕ) (a : α) : a ∈ flat parent nodes sorted depth a := by
  cases depth <;> exact mem_cons_self

theorem flat_child (h : p ∈ flat parent nodes sorted depth a)
    (hb : b ∈ sorted (children parent nodes p)) : b ∈ flat parent nodes sorted (depth + 1) a := by
  induction depth generalizing a with
  | zero =>
    cases mem_singleton.mp h
    exact mem_cons_of_mem _ (mem_flatMap.mpr ⟨b, hb, mem_cons_self⟩)
  | succ depth ih =>
    rcases mem_cons.mp h with rfl | h
    · exact mem_cons_of_mem _ (mem_flatMap.mpr ⟨b, hb, mem_cons_self⟩)
    · obtain ⟨child, hchild, h⟩ := mem_flatMap.mp h
      exact mem_cons_of_mem _ (mem_flatMap.mpr ⟨child, hchild, ih h⟩)

theorem ancestors_inside (hclosed : ∀ a, inside a → ∀ p, parent a = some p → inside p)
    (ha : inside a) (hb : b ∈ ancestors parent steps seen a) : inside b := by
  induction steps generalizing seen a with
  | zero => cases hb
  | succ steps ih =>
    rw [ancestors] at hb
    split at hb
    · cases hb
    · next p hp =>
      split at hb
      · cases hb
      · rcases mem_cons.mp hb with rfl | hb
        · exact hclosed a ha b hp
        · exact ih (hclosed a ha p hp) hb

theorem ancestors_closed (hclosed : ∀ a, inside a → ∀ p, parent a = some p → inside p)
    (h : Level parent inside n a) (hn : n ≤ steps) (hseen : ∀ b ∈ seen, ∀ i, Level parent inside i b → n ≤ i)
    (hb : b ∈ a :: ancestors parent steps seen a) (hp : parent b = some p) : p ∈ ancestors parent steps seen a := by
  induction h generalizing steps seen with
  | @top a ha htop =>
    have hnone : parent a = none := Option.eq_none_iff_forall_ne_some.mpr fun q hq => htop q hq (hclosed a ha q hq)
    have hnil : ancestors parent steps seen a = [] := by
      cases steps with
      | zero => rfl
      | succ steps => rw [ancestors, hnone]
    rw [hnil] at hb
    cases mem_singleton.mp hb
    rw [hnone] at hp
    cases hp
  | @under n a q _ hq hlevel ih =>
    obtain ⟨steps, rfl⟩ := Nat.exists_eq_add_of_le' (Nat.le_trans (Nat.succ_pos n) hn)
    have hnew : q ∉ seen := fun hmem => absurd (hseen q hmem _ hlevel) (Nat.not_succ_le_self n)
    have hwalk : ancestors parent (steps + 1) seen a = q :: ancestors parent steps (q :: seen) q := by
      rw [ancestors, hq]
      exact if_neg hnew
    rw [hwalk] at hb ⊢
    rcases mem_cons.mp hb with rfl | hb
    · cases hq.symm.trans hp
      exact mem_cons_self
    · refine mem_cons_of_mem _ (ih (Nat.le_of_succ_le_succ hn) (fun c hc i hi => ?_) hb)
      rcases mem_cons.mp hc with rfl | hc
      · exact Nat.le_of_eq (hlevel.unique hi)
      · exact Nat.le_of_succ_le (hseen c hc i hi)

/-- **The forest has every node that has a top above it.** -/
theorem mem_flat (hsorted : ∀ l b, b ∈ l → b ∈ nodes → b ∈ sorted l) (h : Level parent (· ∈ nodes) n a)
    (hdepth : n ≤ depth) : a ∈ (sorted (tops parent nodes)).flatMap (flat parent nodes sorted depth) := by
  obtain ⟨more, rfl⟩ := Nat.exists_eq_add_of_le hdepth
  clear hdepth
  induction h with
  | @top a ha htop =>
    have hmem : a ∈ tops parent nodes := by
      refine mem_filter.mpr ⟨ha, ?_⟩
      rw [Option.all_eq_true]
      exact fun p hp => decide_eq_true (htop p hp)
    exact mem_flatMap.mpr ⟨a, hsorted _ a hmem ha, mem_flat_self _ a⟩
  | @under n a p ha hp hlevel ih =>
    obtain ⟨top, htop, hunder⟩ := mem_flatMap.mp ih
    rw [Nat.add_right_comm]
    refine mem_flatMap.mpr ⟨top, htop, flat_child hunder (hsorted _ a ?_ ha)⟩
    exact mem_filter.mpr ⟨ha, decide_eq_true hp⟩

end ParentForest
