import Mathlib.Data.List.Infix
import Mathlib.Data.Set.Function

/-!
# Priority runs of a dependency graph

A **priority run** visits the nodes of a dependency graph one at a time.  A node may be visited once
all its dependencies are, and among the nodes that may be visited the one with the smallest key goes
first.  The run is stated over arbitrary node and key types, as a relation, with no queue and no
counters: an implementation is connected to it by showing that what it visits is a `Run`.

* `Run.unique`: with keys that tell the nodes apart, two complete runs of one graph are equal;
* `Run.filter`: on a set of nodes closed under dependencies, the run of the larger graph restricts to
  the run of the smaller one (what is added later never reorders what was there);
* `Complete.mem_of_rank`: a graph with a rank that every edge decreases is visited in full;
* `Run.map`: runs are carried along a relabelling of the nodes.
-/

namespace PriorityRun

open List

variable {α β κ : Type*} [LinearOrder κ]

/-- A node is ready after `done`: it is a node of the graph, it is not done, its dependencies are. -/
def Ready (nodes : Set α) (deps : α → Set α) (done : List α) (x : α) : Prop :=
  x ∈ nodes ∧ x ∉ done ∧ ∀ d ∈ deps x, d ∈ done

/-- The lists a priority run can have visited so far. -/
inductive Run (nodes : Set α) (deps : α → Set α) (key : α → κ) : List α → Prop
  | nil : Run nodes deps key []
  | snoc {l : List α} {x : α} : Run nodes deps key l → Ready nodes deps l x →
      (∀ y, Ready nodes deps l y → key x ≤ key y) → Run nodes deps key (l ++ [x])

/-- Nothing is left to visit. -/
def Complete (nodes : Set α) (deps : α → Set α) (l : List α) : Prop :=
  ∀ x, ¬ Ready nodes deps l x

variable {nodes : Set α} {deps : α → Set α} {key : α → κ} {l m : List α}

/-! ### What a run has visited -/

section

variable (h : Run nodes deps key l)

include h

theorem Run.mem_nodes : ∀ x ∈ l, x ∈ nodes := by
  induction h with
  | nil => simp
  | snoc _ hx _ ih =>
    intro y hy
    rcases mem_append.mp hy with hy | hy
    · exact ih y hy
    · rw [mem_singleton.mp hy]
      exact hx.1

theorem Run.nodup : l.Nodup := by
  induction h with
  | nil => simp
  | snoc _ hx _ ih =>
    rw [nodup_append]
    refine ⟨ih, by simp, ?_⟩
    intro a ha b hb hab
    rw [mem_singleton.mp hb] at hab
    exact hx.2.1 (hab ▸ ha)

theorem Run.deps_before : ∀ p x s, l = p ++ x :: s → ∀ d ∈ deps x, d ∈ p := by
  induction h with
  | nil => intro p x s hl; simp at hl
  | @snoc l x _ hx _ ih =>
    intro p y s hl d hd
    rcases eq_nil_or_concat s with rfl | ⟨s', z, rfl⟩
    · obtain ⟨rfl, hy⟩ := append_inj' hl rfl
      rw [singleton_inj] at hy
      subst hy
      exact hx.2.2 d hd
    · have hl' : l ++ [x] = (p ++ y :: s') ++ [z] := by simpa using hl
      exact ih p y s' (append_inj' hl' rfl).1 d hd

theorem Run.closed {x d : α} (hx : x ∈ l) (hd : d ∈ deps x) : d ∈ l := by
  obtain ⟨p, s, rfl⟩ := append_of_mem hx
  exact mem_append_left _ (h.deps_before p x s rfl d hd)

end

theorem Run.of_key_le {κ' : Type*} [LinearOrder κ'] {key' : α → κ'}
    (hkey : ∀ x y, key x ≤ key y → key' x ≤ key' y) (h : Run nodes deps key l) : Run nodes deps key' l := by
  induction h with
  | nil => exact .nil
  | snoc _ hx hmin ih => exact ih.snoc hx fun y hy => hkey _ _ (hmin y hy)

theorem Run.congr_deps {deps' : α → Set α} (hd : ∀ x ∈ nodes, deps x = deps' x)
    (h : Run nodes deps key l) : Run nodes deps' key l := by
  have hready : ∀ l x, Ready nodes deps' l x ↔ Ready nodes deps l x := by
    intro l x
    refine and_congr_right fun hx => ?_
    rw [hd x hx]
  induction h with
  | nil => exact .nil
  | snoc _ hx hmin ih =>
    exact ih.snoc ((hready _ _).mpr hx) fun y hy => hmin y ((hready _ _).mp hy)

/-! ### Uniqueness -/

theorem Run.prefix_of_length_le (hk : Set.InjOn key nodes) (hl : Run nodes deps key l)
    (hm : Run nodes deps key m) (hlen : l.length ≤ m.length) : l <+: m := by
  induction hm generalizing l with
  | nil =>
    rw [length_nil, Nat.le_zero, length_eq_zero_iff] at hlen
    rw [hlen]
  | @snoc m x hm hx hmin ih =>
    cases hl with
    | nil => exact nil_prefix
    | @snoc l y hl hy hymin =>
      rw [length_append, length_append, length_singleton, length_singleton] at hlen
      have hlm : l <+: m := ih hl (by omega)
      rcases Nat.lt_or_ge l.length m.length with hlt | hge
      · exact (ih (hl.snoc hy hymin) (by rw [length_append, length_singleton]; omega)).trans (prefix_append m [x])
      · have hEq : l = m := hlm.eq_of_length (le_antisymm hlm.length_le hge)
        subst hEq
        have hxy : x = y := hk hx.1 hy.1 (le_antisymm (hmin y hy) (hymin x hx))
        rw [hxy]

theorem Run.length_le_of_complete (hk : Set.InjOn key nodes) (hl : Run nodes deps key l)
    (hm : Run nodes deps key m) (hc : Complete nodes deps m) : l.length ≤ m.length := by
  by_contra hlt
  have hml : m <+: l := hm.prefix_of_length_le hk hl (by omega)
  obtain ⟨s, rfl⟩ := hml
  cases s with
  | nil => simp at hlt
  | cons y s =>
    -- the node the longer run visits next was ready for the complete one
    have hy : y ∉ m := by
      have := hl.nodup
      rw [nodup_append] at this
      exact fun hmem => this.2.2 y hmem y (by simp) rfl
    exact hc y ⟨hl.mem_nodes y (by simp), hy, hl.deps_before m y s rfl⟩

/-- **Determinism.**  Keys that tell the nodes apart leave one complete run. -/
theorem Run.unique (hk : Set.InjOn key nodes) (hl : Run nodes deps key l)
    (hm : Run nodes deps key m) (hcl : Complete nodes deps l) (hcm : Complete nodes deps m) : l = m :=
  (hl.prefix_of_length_le hk hm (hl.length_le_of_complete hk hm hcm)).eq_of_length
    (le_antisymm (hl.length_le_of_complete hk hm hcm) (hm.length_le_of_complete hk hl hcl))

/-! ### Restriction to a closed set of nodes -/

section Restrict

variable {S : Set α} [DecidablePred (· ∈ S)]

theorem ready_filter_iff (hclosed : ∀ x ∈ S, ∀ d ∈ deps x, d ∈ S) {x : α} (hx : x ∈ S) (hS : S ⊆ nodes) :
    Ready S deps (l.filter (· ∈ S)) x ↔ Ready nodes deps l x := by
  constructor
  · rintro ⟨_, hnot, hdeps⟩
    refine ⟨hS hx, fun h => hnot (by simp [h, hx]), fun d hd => ?_⟩
    exact (mem_filter.mp (hdeps d hd)).1
  · rintro ⟨_, hnot, hdeps⟩
    refine ⟨hx, fun h => hnot (mem_filter.mp h).1, fun d hd => ?_⟩
    simp [hdeps d hd, hclosed x hx d hd]

/-- **Stability.**  A run restricted to a closed set of nodes is the run of that set. -/
theorem Run.filter (hS : S ⊆ nodes) (hclosed : ∀ x ∈ S, ∀ d ∈ deps x, d ∈ S)
    (h : Run nodes deps key l) : Run S deps key (l.filter (· ∈ S)) := by
  induction h with
  | nil => exact .nil
  | @snoc l x _ hx hmin ih =>
    by_cases hxS : x ∈ S
    · rw [filter_append, filter_cons_of_pos (by simpa using hxS), filter_nil]
      refine ih.snoc ((ready_filter_iff hclosed hxS hS).mpr hx) fun y hy => ?_
      exact hmin y ((ready_filter_iff hclosed hy.1 hS).mp hy)
    · rw [filter_append, filter_cons_of_neg (by simpa using hxS), filter_nil, append_nil]
      exact ih

end Restrict

/-! ### Graphs that are visited in full -/

theorem Complete.mem_of_rank (hc : Complete nodes deps l) (rank : α → ℕ)
    (hrank : ∀ x ∈ nodes, ∀ d ∈ deps x, d ∈ nodes ∧ rank d < rank x) : ∀ x ∈ nodes, x ∈ l := by
  intro x
  induction hr : rank x using Nat.strong_induction_on generalizing x with
  | _ r ih =>
    intro hx
    by_contra hnot
    refine hc x ⟨hx, hnot, fun d hd => ?_⟩
    obtain ⟨hdn, hdr⟩ := hrank x hx d hd
    exact ih (rank d) (hr ▸ hdr) d rfl hdn

theorem complete_of_forall_mem (h : ∀ x ∈ nodes, x ∈ l) : Complete nodes deps l :=
  fun x hx => hx.2.1 (h x hx.1)

/-! ### Relabelling -/

theorem Run.map {nodes' : Set β} {deps' : β → Set β} {key' : β → κ} (f : α → β)
    (hinj : Set.InjOn f nodes) (hnodes : nodes' = f '' nodes) (hdeps : ∀ x ∈ nodes, deps' (f x) = f '' deps x)
    (hsub : ∀ x ∈ nodes, ∀ d ∈ deps x, d ∈ nodes)
    (hkey : ∀ x ∈ nodes, key' (f x) = key x) (h : Run nodes deps key l) : Run nodes' deps' key' (l.map f) := by
  have hready : ∀ {l : List α} {x : α}, (∀ y ∈ l, y ∈ nodes) → x ∈ nodes →
      (Ready nodes' deps' (l.map f) (f x) ↔ Ready nodes deps l x) := by
    intro l x hl hx
    have hmem : ∀ y ∈ nodes, f y ∈ l.map f ↔ y ∈ l := by
      intro y hy
      constructor
      · intro h
        obtain ⟨z, hz, hzy⟩ := List.mem_map.mp h
        rwa [← hinj (hl z hz) hy hzy]
      · exact List.mem_map_of_mem
    rw [Ready, Ready, hmem x hx, hdeps x hx, hnodes]
    refine and_congr ⟨fun _ => hx, fun _ => ⟨x, hx, rfl⟩⟩ (and_congr Iff.rfl ?_)
    constructor
    · exact fun h d hd => (hmem d (hsub x hx d hd)).mp (h (f d) ⟨d, hd, rfl⟩)
    · rintro h _ ⟨d, hd, rfl⟩
      exact (hmem d (hsub x hx d hd)).mpr (h d hd)
  induction h with
  | nil => exact .nil
  | @snoc l x hl hx hmin ih =>
    rw [map_append, map_singleton]
    refine ih.snoc ((hready hl.mem_nodes hx.1).mpr hx) fun y hy => ?_
    obtain ⟨z, hz, rfl⟩ : y ∈ f '' nodes := hnodes ▸ hy.1
    rw [hkey x hx.1, hkey z hz]
    exact hmin z ((hready hl.mem_nodes hz).mp hy)

end PriorityRun
