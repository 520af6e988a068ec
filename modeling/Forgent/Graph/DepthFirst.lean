import Forgent.Graph.Acyclic
import Forgent.Traverse

/-!
# Depth-first search

Two searches over a graph that is given by the list of successors of each node.

* `findCycle` walks along the edges with the path it is on, and stops at an edge that leads back to the
  path; `findCycle_eq_ok_iff`: it stops nowhere exactly when nothing that the start reaches lies on a cycle.
* `search` walks along the edges with the nodes it has seen, and stops at the first node that is looked
  for; `search_isSome_iff`: it stops nowhere exactly when no node behind the start is looked for;
  `mem_behind_iff`: what it has seen when it looks for nothing is what is behind the start.

Both run on fuel, and as much fuel as there are nodes is enough.
-/

namespace DepthFirst

open Relation FiniteGraph List Option

variable {α : Type*} [DecidableEq α]

/-- How many nodes are still to be seen. -/
def unseen (nodes seen : List α) : ℕ := (nodes.filter fun a => a ∉ seen).length

theorem unseen_le_length (nodes seen : List α) : unseen nodes seen ≤ nodes.length :=
  length_filter_le _ _

theorem unseen_mono (nodes : List α) {seen seen' : List α} (h : ∀ a ∈ seen, a ∈ seen') :
    unseen nodes seen' ≤ unseen nodes seen := by
  show (nodes.filter _).length ≤ (nodes.filter _).length
  rw [← countP_eq_length_filter, ← countP_eq_length_filter]
  apply countP_mono_left
  intro a _ ha
  simp only [decide_eq_true_eq] at ha ⊢
  exact fun hseen => ha (h a hseen)

theorem unseen_cons_lt {nodes seen : List α} {a : α} (ha : a ∈ nodes) (hnew : a ∉ seen) :
    unseen nodes (a :: seen) < unseen nodes seen := by
  show (nodes.filter _).length < (nodes.filter _).length
  have hsub : nodes.filter (fun b => b ∉ a :: seen) = (nodes.filter fun b => b ∉ seen).filter fun b => b ≠ a := by
    rw [List.filter_filter]
    apply filter_congr
    intro b _
    simp only [mem_cons, not_or, ne_eq, Bool.decide_and]
  rw [hsub]
  apply length_filter_lt_length_iff_exists.mpr
  exact ⟨a, mem_filter.mpr ⟨ha, by simpa using hnew⟩, by simp⟩

theorem foldlM_induction {σ ε β : Type*} {f : σ → β → Except ε σ} {P : List β → σ → Prop} {l : List β}
    {s s' : σ} (h : l.foldlM f s = .ok s') (hstart : P [] s)
    (hstep : ∀ done b s s', b ∈ l → P done s → f s b = .ok s' → P (done ++ [b]) s') : P l s' := by
  induction l using reverseRecOn generalizing s' with
  | nil =>
    cases h
    exact hstart
  | append_singleton l b ih =>
    rw [foldlM_append] at h
    obtain ⟨middle, hl, hb⟩ := Forgent.bind_eq_ok.mp h
    obtain ⟨last, hb, hlast⟩ := Forgent.bind_eq_ok.mp hb
    cases hlast
    refine hstep l b middle s' (by simp) (ih hl fun done c t t' hc => ?_) hb
    exact hstep done c t t' (mem_append_left _ hc)

/-! ### Cycles -/

section

variable (next : α → List α) (nodes : List α) {fuel : ℕ}

/-- Walk from `a`, behind the nodes of `path`.  The error is the cycle that was found. -/
def findCycle : ℕ → List α → List α → α → Except (List α) (List α)
  | 0, _, visited, _ => .ok visited
  | fuel + 1, path, visited, a =>
    (next a).foldlM (fun visited c =>
      if c ∈ path ++ [a] then .error ((path ++ [a]).dropWhile (· ≠ c) ++ [c])
      else if c ∉ visited ∧ c ∈ nodes then findCycle fuel (path ++ [a]) visited c
      else .ok visited) (a :: visited)

/-- The edges of the graph. -/
def Edge (a b : α) : Prop := b ∈ next a

/-- What holds between two steps: what was left behind leads neither back to the path nor to anything
new, and it lies on no cycle. -/
structure Settled (path visited : List α) : Prop where
  path_visited : ∀ a ∈ path, a ∈ visited
  closed : ∀ a ∈ visited, a ∉ path → ∀ c ∈ next a, c ∈ nodes → c ∈ visited ∧ c ∉ path
  acyclic : ∀ a ∈ visited, a ∉ path → ¬ TransGen (Edge next) a a

variable {next nodes} {path visited : List α} {a : α} {start : α}

omit [DecidableEq α] in
theorem Settled.push (h : Settled next nodes path visited) (ha : a ∉ visited) :
    Settled next nodes (path ++ [a]) (a :: visited) := by
  have hold : ∀ b ∈ a :: visited, b ∉ path ++ [a] → b ∈ visited ∧ b ∉ path := by
    intro b hb hpath
    rw [mem_append, mem_singleton, not_or] at hpath
    exact ⟨(mem_cons.mp hb).resolve_left hpath.2, hpath.1⟩
  refine ⟨fun b hb => ?_, fun b hb hpath c hc hnode => ?_, fun b hb hpath => ?_⟩
  · rcases mem_append.mp hb with hb | hb
    · exact mem_cons_of_mem a (h.path_visited b hb)
    · rw [mem_singleton.mp hb]
      exact mem_cons_self
  · obtain ⟨hvisited, hpath'⟩ := hold b hb hpath
    obtain ⟨hcv, hcp⟩ := h.closed b hvisited hpath' c hc hnode
    refine ⟨mem_cons_of_mem a hcv, fun hmem => ?_⟩
    rcases mem_append.mp hmem with hmem | hmem
    · exact hcp hmem
    · exact ha (mem_singleton.mp hmem ▸ hcv)
  · obtain ⟨hvisited, hpath'⟩ := hold b hb hpath
    exact h.acyclic b hvisited hpath'

theorem Settled.stays (h : Settled next nodes path visited)
    (hleaf : ∀ a ∉ nodes, next a = []) {b : α} (hpath : ReflTransGen (Edge next) a b)
    (ha : a ∈ nodes → a ∈ visited ∧ a ∉ path) : b ∈ nodes → b ∈ visited ∧ b ∉ path := by
  induction hpath with
  | refl => exact ha
  | @tail b c _ hbc ih =>
    intro hc
    have hb : b ∈ nodes := by
      by_contra hnot
      rw [Edge, hleaf b hnot] at hbc
      cases hbc
    obtain ⟨hvisited, hb'⟩ := ih hb
    exact h.closed b hvisited hb' c hbc hc

theorem Settled.pop (h : Settled next nodes (path ++ [a]) visited) (hleaf : ∀ a ∉ nodes, next a = []) (ha : a ∉ path)
    (hnext : ∀ c ∈ next a, c ∉ path ++ [a] ∧ (c ∈ nodes → c ∈ visited)) : Settled next nodes path visited := by
  have hmem : ∀ b, b ∉ path → b ≠ a → b ∉ path ++ [a] := by
    intro b hb hne hmem
    rcases mem_append.mp hmem with hmem | hmem
    · exact hb hmem
    · exact hne (mem_singleton.mp hmem)
  have hweaken : ∀ {c}, c ∉ path ++ [a] → c ∉ path := fun hc hmem => hc (mem_append_left _ hmem)
  refine ⟨fun b hb => h.path_visited b (mem_append_left _ hb), fun b hb hpath c hc hnode => ?_,
    fun b hb hpath => ?_⟩
  · by_cases hba : b = a
    · subst hba
      exact ⟨(hnext c hc).2 hnode, hweaken (hnext c hc).1⟩
    · obtain ⟨hcv, hcp⟩ := h.closed b hb (hmem b hpath hba) c hc hnode
      exact ⟨hcv, hweaken hcp⟩
  · by_cases hba : b = a
    · subst hba
      intro hcycle
      obtain ⟨c, hbc, hcb⟩ := TransGen.head'_iff.mp hcycle
      have hnode : b ∈ nodes := by
        by_contra hnot
        rw [Edge, hleaf b hnot] at hbc
        cases hbc
      have hstays := h.stays hleaf hcb fun hc => ⟨(hnext c hbc).2 hc, (hnext c hbc).1⟩
      exact (hstays hnode).2 (by simp)
    · exact h.acyclic b hb (hmem b hpath hba)

/-- What holds while the successors of `a` are visited, when those of `done` are. -/
def Visiting (next : α → List α) (nodes path visited : List α) (a : α) (done s : List α) : Prop :=
  Settled next nodes (path ++ [a]) s ∧ (∀ b ∈ a :: visited, b ∈ s) ∧
    ∀ c ∈ done, c ∉ path ++ [a] ∧ (c ∈ nodes → c ∈ s)

/-- **A walk that finds no cycle settles its start.** -/
theorem findCycle_settled (hleaf : ∀ a ∉ nodes, next a = []) {visited' : List α}
    (h : findCycle next nodes fuel path visited a = .ok visited') (hfuel : unseen nodes visited ≤ fuel)
    (ha : a ∈ nodes) (hnew : a ∉ visited) (hsettled : Settled next nodes path visited) :
    Settled next nodes path visited' ∧ a ∈ visited' ∧ ∀ b ∈ visited, b ∈ visited' := by
  induction fuel generalizing path visited visited' a with
  | zero =>
    have := unseen_cons_lt ha hnew
    omega
  | succ fuel ih =>
    have hpath : a ∉ path := fun hmem => hnew (hsettled.path_visited a hmem)
    have hstart : Visiting next nodes path visited a [] (a :: visited) :=
      ⟨hsettled.push hnew, fun b hb => hb, by simp⟩
    have hfold : Visiting next nodes path visited a (next a) visited' := by
      refine foldlM_induction h hstart ?_
      intro done c s s' _ hvisiting hc
      obtain ⟨hs, hsub, hdone⟩ := hvisiting
      have hkeep : ∀ t : List α, (∀ b ∈ s, b ∈ t) → c ∉ path ++ [a] → (c ∈ nodes → c ∈ t) →
          ∀ b ∈ done ++ [c], b ∉ path ++ [a] ∧ (b ∈ nodes → b ∈ t) := by
        intro t hst hcp hct b hb
        rcases mem_append.mp hb with hb | hb
        · exact ⟨(hdone b hb).1, fun hnode => hst b ((hdone b hb).2 hnode)⟩
        · rw [mem_singleton.mp hb]
          exact ⟨hcp, hct⟩
      split at hc
      · cases hc
      · rename_i hcp
        split at hc
        · rename_i hwalk
          have hle : unseen nodes s ≤ fuel := by
            have h₁ := unseen_mono nodes hsub
            have h₂ := unseen_cons_lt ha hnew
            omega
          obtain ⟨hs', hc', hsub'⟩ := ih hc hle hwalk.2 hwalk.1 hs
          exact ⟨hs', fun b hb => hsub' b (hsub b hb), hkeep s' hsub' hcp fun _ => hc'⟩
        · rename_i hskip
          cases hc
          refine ⟨hs, hsub, hkeep s (fun _ hb => hb) hcp fun hnode => ?_⟩
          by_contra hnot
          exact hskip ⟨hnot, hnode⟩
    obtain ⟨hs, hsub, hnext⟩ := hfold
    exact ⟨hs.pop hleaf hpath hnext, hsub a mem_cons_self, fun b hb => hsub b (mem_cons_of_mem a hb)⟩

/-- **A cycle that is found is one**, and the start reaches it. -/
theorem findCycle_error {cycle : List α} (h : findCycle next nodes fuel path visited a = .error cycle)
    (hpath : ∀ b ∈ path ++ [a], ReflTransGen (Edge next) start b ∧ ReflTransGen (Edge next) b a) :
    ∃ c, ReflTransGen (Edge next) start c ∧ TransGen (Edge next) c c := by
  induction fuel generalizing path visited a with
  | zero => cases h
  | succ fuel ih =>
    rw [findCycle] at h
    -- the fold stops at a successor that is on the path, or whose walk finds a cycle
    have hstop : ∀ (l : List α) (s : List α), (∀ c ∈ l, c ∈ next a) →
        l.foldlM (fun visited c =>
          if c ∈ path ++ [a] then .error ((path ++ [a]).dropWhile (· ≠ c) ++ [c])
          else if c ∉ visited ∧ c ∈ nodes then findCycle next nodes fuel (path ++ [a]) visited c
          else .ok visited) s = .error cycle →
        ∃ c, ReflTransGen (Edge next) start c ∧ TransGen (Edge next) c c := by
      intro l
      induction l with
      | nil =>
        intro s _ hs
        cases hs
      | cons c l ihl =>
        intro s hl hs
        rw [foldlM_cons] at hs
        have hac : Edge next a c := hl c mem_cons_self
        have hrest := fun t => ihl t fun d hd => hl d (mem_cons_of_mem c hd)
        split at hs
        · rename_i hcp
          obtain ⟨hstart, hca⟩ := hpath c hcp
          exact ⟨c, hstart, TransGen.tail' hca hac⟩
        · split at hs
          · cases hwalk : findCycle next nodes fuel (path ++ [a]) s c with
            | ok t =>
              rw [hwalk] at hs
              exact hrest t hs
            | error cycle' =>
              rw [hwalk] at hs
              refine ih (hwalk.trans hs) fun b hb => ?_
              rcases mem_append.mp hb with hb | hb
              · exact ⟨(hpath b hb).1, (hpath b hb).2.tail hac⟩
              · rw [mem_singleton.mp hb]
                exact ⟨(hpath a (by simp)).1.tail hac, .refl⟩
          · exact hrest s hs
    exact hstop (next a) (a :: visited) (fun _ hc => hc) h

/-- **The search finds a cycle exactly when the start reaches one.** -/
theorem findCycle_eq_ok_iff (hleaf : ∀ a ∉ nodes, next a = []) (hstart : start ∈ nodes) :
    (∃ visited, findCycle next nodes nodes.length [] [] start = .ok visited) ↔
      ∀ c, ReflTransGen (Edge next) start c → ¬ TransGen (Edge next) c c := by
  constructor
  · intro hok c hreach hcycle
    obtain ⟨visited, h⟩ := hok
    obtain ⟨hs, hmem, _⟩ := findCycle_settled hleaf h (unseen_le_length _ _) hstart (by simp)
      ⟨by simp, by simp, by simp⟩
    have hc : c ∈ nodes := by
      by_contra hnot
      obtain ⟨d, hcd, _⟩ := TransGen.head'_iff.mp hcycle
      rw [Edge, hleaf c hnot] at hcd
      cases hcd
    have hstays := hs.stays hleaf hreach fun _ => ⟨hmem, by simp⟩
    exact hs.acyclic c (hstays hc).1 (by simp) hcycle
  · intro hacyclic
    cases h : findCycle next nodes nodes.length [] [] start with
    | ok visited => exact ⟨visited, rfl⟩
    | error cycle =>
      have hpath : ∀ b ∈ [] ++ [start], ReflTransGen (Edge next) start b ∧ ReflTransGen (Edge next) b start := by
        intro b hb
        rw [nil_append, mem_singleton] at hb
        rw [hb]
        exact ⟨.refl, .refl⟩
      obtain ⟨c, hreach, hcycle⟩ := findCycle_error h hpath
      exact absurd hcycle (hacyclic c hreach)

end

/-! ### Nodes that are looked for -/

section

variable (next : α → List α) (enter hit : α → Bool) {fuel : ℕ}

/-- Visit the successors of `a` that were not seen yet; none when a node that is looked for was found. -/
def search : ℕ → List α → α → Option (List α)
  | 0, seen, _ => some seen
  | fuel + 1, seen, a =>
    (next a).foldlM (fun seen c =>
      if c ∈ seen then some seen
      else if !enter c then some (c :: seen)
      else if hit c then none
      else search fuel (c :: seen) c) seen

/-- One step behind a node that is entered. -/
def Behind (a b : α) : Prop := b ∈ next a ∧ enter b = true

variable {next enter hit} {nodes seen : List α} {a : α} {seen' : List α}

theorem foldlM_option_induction {σ β : Type*} {f : σ → β → Option σ} {P : List β → σ → Prop} {l : List β}
    {s s' : σ} (h : l.foldlM f s = some s') (hstart : P [] s)
    (hstep : ∀ done b s s', b ∈ l → P done s → f s b = some s' → P (done ++ [b]) s') : P l s' := by
  induction l using reverseRecOn generalizing s' with
  | nil =>
    cases h
    exact hstart
  | append_singleton l b ih =>
    rw [foldlM_append] at h
    obtain ⟨middle, hl, hb⟩ := bind_eq_some_iff.mp h
    rw [foldlM_cons] at hb
    obtain ⟨last, hb, hlast⟩ := bind_eq_some_iff.mp hb
    cases hlast
    refine hstep l b middle s' (by simp) (ih hl fun done c t t' hc => ?_) hb
    exact hstep done c t t' (mem_append_left _ hc)

theorem exists_foldlM {σ β : Type*} {f : σ → β → Option σ} {P : List β → σ → Prop} {l : List β} {s : σ} (hstart : P [] s)
    (hstep : ∀ done b s, b ∈ l → P done s → ∃ s', f s b = some s' ∧ P (done ++ [b]) s') :
    ∃ s', l.foldlM f s = some s' ∧ P l s' := by
  induction l using reverseRecOn with
  | nil => exact ⟨s, rfl, hstart⟩
  | append_singleton l b ih =>
    obtain ⟨middle, hl, hmiddle⟩ := ih fun done c t hc => hstep done c t (mem_append_left _ hc)
    obtain ⟨last, hb, hlast⟩ := hstep l b middle (by simp) hmiddle
    refine ⟨last, ?_, hlast⟩
    rw [foldlM_append, hl]
    show [b].foldlM f middle = some last
    rw [foldlM_cons, hb]
    rfl

/-- What the nodes that were seen since say, when the successors of `done` were visited. -/
def Searching (next : α → List α) (enter hit : α → Bool) (seen done s : List α) : Prop :=
  (∀ b ∈ seen, b ∈ s) ∧ (∀ c ∈ done, c ∈ s) ∧
    ∀ b ∈ s, b ∉ seen → enter b = true → hit b = false ∧ ∀ c ∈ next b, c ∈ s

/-- What a search that finds nothing leaves: it has seen the successors of its start, and of every node that
it entered, and none of these is looked for. -/
theorem search_some (hnodes : ∀ a, ∀ c ∈ next a, c ∈ nodes)
    (h : search next enter hit fuel seen a = some seen') (hfuel : unseen nodes seen < fuel) :
    Searching next enter hit seen (next a) seen' := by
  induction fuel generalizing seen seen' a with
  | zero => omega
  | succ fuel ih =>
    have hstart : Searching next enter hit seen [] seen :=
      ⟨fun b hb => hb, by simp, fun b hb hnew => absurd hb hnew⟩
    refine foldlM_option_induction h hstart ?_
    intro done c s s' hc hsearching hstep
    obtain ⟨hsub, hdone, hclosed⟩ := hsearching
    have hsnoc : ∀ t : List α, (∀ b ∈ s, b ∈ t) → c ∈ t → ∀ b ∈ done ++ [c], b ∈ t := by
      intro t hst hct b hb
      rcases mem_append.mp hb with hb | hb
      · exact hst b (hdone b hb)
      · rw [mem_singleton.mp hb]
        exact hct
    split at hstep
    · rename_i hcs
      cases hstep
      exact ⟨hsub, hsnoc s (fun b hb => hb) hcs, hclosed⟩
    · rename_i hcs
      have hcons : ∀ b ∈ s, b ∈ c :: s := fun b hb => mem_cons_of_mem c hb
      split at hstep
      · rename_i henter
        cases hstep
        refine ⟨fun b hb => hcons b (hsub b hb), hsnoc _ hcons mem_cons_self, fun b hb hnew hb' => ?_⟩
        rcases mem_cons.mp hb with rfl | hb
        · rw [hb'] at henter
          cases henter
        · obtain ⟨hhit, hnext⟩ := hclosed b hb hnew hb'
          exact ⟨hhit, fun d hd => hcons d (hnext d hd)⟩
      · split at hstep
        · cases hstep
        · rename_i hhit
          have hle : unseen nodes (c :: s) < fuel := by
            have h₁ := unseen_cons_lt (hnodes a c hc) hcs
            have h₂ := unseen_mono nodes hsub
            omega
          obtain ⟨hsub', hnext', hclosed'⟩ := ih hstep hle
          have hst : ∀ b ∈ s, b ∈ s' := fun b hb => hsub' b (hcons b hb)
          refine ⟨fun b hb => hst b (hsub b hb), hsnoc s' hst (hsub' c mem_cons_self),
            fun b hb hnew hb' => ?_⟩
          by_cases hbc : b = c
          · subst hbc
            exact ⟨by simpa using hhit, hnext'⟩
          · by_cases hbs : b ∈ s
            · obtain ⟨hhit', hnext⟩ := hclosed b hbs hnew hb'
              exact ⟨hhit', fun d hd => hst d (hnext d hd)⟩
            · exact hclosed' b hb (by simp [hbc, hbs]) hb'

theorem search_none (h : search next enter hit fuel seen a = none) :
    ∃ b, TransGen (Behind next enter) a b ∧ hit b = true := by
  induction fuel generalizing seen a with
  | zero => cases h
  | succ fuel ih =>
    rw [search] at h
    have hstop : ∀ (l s : List α), (∀ c ∈ l, c ∈ next a) →
        l.foldlM (fun seen c =>
          if c ∈ seen then some seen
          else if !enter c then some (c :: seen)
          else if hit c then none
          else search next enter hit fuel (c :: seen) c) s = none →
        ∃ b, TransGen (Behind next enter) a b ∧ hit b = true := by
      intro l
      induction l with
      | nil =>
        intro s _ hs
        cases hs
      | cons c l ihl =>
        intro s hl hs
        rw [foldlM_cons] at hs
        have hac : c ∈ next a := hl c mem_cons_self
        have hrest := fun t => ihl t fun d hd => hl d (mem_cons_of_mem c hd)
        split at hs
        · exact hrest s hs
        · split at hs
          · exact hrest _ hs
          · rename_i henter
            have hstep : Behind next enter a c := ⟨hac, by simpa using henter⟩
            split at hs
            · rename_i hhit
              exact ⟨c, .single hstep, hhit⟩
            · cases hwalk : search next enter hit fuel (c :: s) c with
              | some t =>
                rw [hwalk] at hs
                exact hrest t hs
              | none =>
                obtain ⟨b, hcb, hhit⟩ := ih hwalk
                exact ⟨b, .head hstep hcb, hhit⟩
    exact hstop (next a) seen (fun _ hc => hc) h

/-- **The search finds nothing exactly when no node behind the start is looked for**; cycles do not matter. -/
theorem search_isSome_iff (hnodes : ∀ a, ∀ c ∈ next a, c ∈ nodes) :
    (search next enter hit (nodes.length + 1) [] a).isSome = true ↔
      ∀ b, TransGen (Behind next enter) a b → hit b = false := by
  constructor
  · intro hsome b hb
    obtain ⟨seen, h⟩ := isSome_iff_exists.mp hsome
    obtain ⟨_, hnext, hclosed⟩ := search_some hnodes h (Nat.lt_succ_of_le (unseen_le_length _ _))
    have hseen : b ∈ seen ∧ enter b = true := by
      induction hb with
      | single hab => exact ⟨hnext _ hab.1, hab.2⟩
      | tail _ hbc ih => exact ⟨(hclosed _ ih.1 (by simp) ih.2).2 _ hbc.1, hbc.2⟩
    exact (hclosed b hseen.1 (by simp) hseen.2).1
  · intro hnone
    cases h : search next enter hit (nodes.length + 1) [] a with
    | some seen => rfl
    | none =>
      obtain ⟨b, hb, hhit⟩ := search_none h
      rw [hnone b hb] at hhit
      cases hhit

/-! ### Nodes behind the start -/

theorem search_reaches (h : search next enter hit fuel seen a = some seen') :
    ∀ b ∈ seen', b ∈ seen ∨ TransGen (fun a b => b ∈ next a) a b := by
  induction fuel generalizing seen seen' a with
  | zero =>
    cases h
    exact fun b hb => .inl hb
  | succ fuel ih =>
    have hseen : ∀ b ∈ seen, b ∈ seen ∨ TransGen (fun a b => b ∈ next a) a b := fun b hb => .inl hb
    refine foldlM_option_induction (P := fun _ s => ∀ b ∈ s, b ∈ seen ∨ TransGen (fun a b => b ∈ next a) a b)
      h hseen ?_
    intro done c s s' hc hs hstep b hb
    have hcons : ∀ b ∈ c :: s, b ∈ seen ∨ TransGen (fun a b => b ∈ next a) a b := by
      intro b hb
      rcases mem_cons.mp hb with rfl | hb
      · exact .inr (.single hc)
      · exact hs b hb
    split at hstep
    · cases hstep
      exact hs b hb
    · split at hstep
      · cases hstep
        exact hcons b hb
      · split at hstep
        · cases hstep
        · rcases ih hstep b hb with hb | hb
          · exact hcons b hb
          · exact .inr (.head hc hb)

/-- The nodes behind `a`. -/
def behind (next : α → List α) (fuel : ℕ) (a : α) : List α :=
  (search next (fun _ => true) (fun _ => false) fuel [] a).getD []

/-- **The walk sees exactly what is behind its start**; cycles do not matter. -/
theorem mem_behind_iff (hnodes : ∀ a, ∀ c ∈ next a, c ∈ nodes) {b : α} :
    b ∈ behind next (nodes.length + 1) a ↔ TransGen (fun a b => b ∈ next a) a b := by
  have hsome : (search next (fun _ => true) (fun _ => false) (nodes.length + 1) [] a).isSome = true :=
    (search_isSome_iff hnodes).mpr fun _ _ => rfl
  obtain ⟨seen, h⟩ := isSome_iff_exists.mp hsome
  have hbehind : behind next (nodes.length + 1) a = seen := by
    rw [behind, h]
    rfl
  rw [hbehind]
  constructor
  · intro hb
    exact (search_reaches h b hb).resolve_left (by simp)
  · intro hb
    obtain ⟨_, hnext, hclosed⟩ := search_some hnodes h (Nat.lt_succ_of_le (unseen_le_length _ _))
    induction hb with
    | single hab => exact hnext _ hab
    | tail _ hbc ih => exact (hclosed _ ih (by simp) rfl).2 _ hbc

end

end DepthFirst
