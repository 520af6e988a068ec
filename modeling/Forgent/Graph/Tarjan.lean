import Forgent.Graph.DepthFirst

/-!
# Strongly connected components

Tarjan's algorithm: one depth-first walk numbers the nodes in the order it meets them, keeps those whose component is not
complete on a stack, and takes a component from the stack when it leaves the node by which it entered it.  An edge from a
node to itself is reported as it is met.

* `State`, `strongconnect`, `walk`: the algorithm, on fuel.
* `Sound`: what holds between two steps; `Connected`: what one call does.
* `exists_walk`: it ends on every graph, and what it reports is right.
-/

namespace Tarjan

open Relation DepthFirst List Option

variable {α : Type*} [DecidableEq α]

/-! ### The algorithm -/

structure State (α : Type*) where
  index : ℕ
  /-- The top is the first. -/
  stack : List α
  indices : α → Option ℕ
  lowlink : α → ℕ
  cycles : List (List α)

namespace State

def initial : State α := ⟨0, [], fun _ => none, fun _ => 0, []⟩

variable (s : State α)

def enter (a : α) : State α where
  index := s.index + 1
  stack := a :: s.stack
  indices := fun b => if b = a then some s.index else s.indices b
  lowlink := fun b => if b = a then s.index else s.lowlink b
  cycles := s.cycles

def lower (a : α) (n : ℕ) : State α :=
  { s with lowlink := fun b => if b = a then min (s.lowlink a) n else s.lowlink b }

def report (cycle : List α) : State α := { s with cycles := s.cycles ++ [cycle] }

/-- Take a node and what is above it from the stack; more than one of them are a cycle. -/
def pop (a : α) : State α :=
  let scc := s.stack.takeWhile (· ≠ a) ++ [a]
  { s with
    stack := (s.stack.dropWhile (· ≠ a)).tail
    cycles := if 1 < scc.length then s.cycles ++ [scc] else s.cycles }

/-- A node that nothing below it on the stack is reached from is the last of its component. -/
def leave (a : α) : State α := if s.indices a = some (s.lowlink a) then s.pop a else s

end State

section

variable (next : α → List α)

/-- The turn of one successor, with the call for a node that has no number yet. -/
def visit (call : State α → α → Option (State α)) (a : α) (s : State α) (b : α) : Option (State α) :=
  if b = a then some (s.report [a])
  else
    match s.indices b with
    | none => (call s b).map fun s => s.lower a (s.lowlink b)
    | some index => some (if b ∈ s.stack then s.lower a index else s)

/-- None is a call that ran out of fuel. -/
def strongconnect : ℕ → State α → α → Option (State α)
  | 0, _, _ => none
  | fuel + 1, s, a => ((next a).foldlM (visit (strongconnect fuel) a) (s.enter a)).map fun s => s.leave a

/-- Start from every node that has no number yet. -/
def walk (nodes : List α) : Option (State α) :=
  nodes.foldlM (fun s a => if (s.indices a).isNone then strongconnect next nodes.length s a else some s) .initial

end

/-! ### What holds between two steps -/

abbrev Reach (next : α → List α) : α → α → Prop := ReflTransGen (Edge next)

/-- The nodes of a list reach each other, and every node that does is one of them. -/
structure IsComponent (next : α → List α) (c : List α) : Prop where
  nodup : c.Nodup
  mem_iff : ∀ a ∈ c, ∀ b, b ∈ c ↔ Reach next a b ∧ Reach next b a

namespace State

variable (s : State α)

def Visited (a : α) : Prop := (s.indices a).isSome = true

def rank (a : α) : ℕ := (s.indices a).getD 0

/-- A node whose component is complete. -/
def Done (a : α) : Prop := s.Visited a ∧ a ∉ s.stack

end State

structure Reported (next : α → List α) (s : State α) : Prop where
  component : ∀ c ∈ s.cycles, 1 < c.length → IsComponent next c ∧ ∀ a ∈ c, s.Done a
  complete : ∀ a, s.Done a → ∀ b, b ≠ a → Reach next a b → Reach next b a → ∃ c ∈ s.cycles, 1 < c.length ∧ a ∈ c
  disjoint : (s.cycles.filter fun c => 1 < c.length).Pairwise List.Disjoint
  nonempty : ∀ c ∈ s.cycles, c ≠ []

/-- What holds while the nodes of the path are being walked.  What is on the stack is reached from the nodes of the path
that are below it, and reaches one of them; what is not any more leads to nothing that is. -/
structure Sound (next : α → List α) (path : List α) (s : State α) : Prop where
  visited : ∀ a ∈ s.stack, s.Visited a
  numbered : ∀ a, s.Visited a → s.rank a < s.index
  sorted : s.stack.Pairwise fun a b => s.rank b < s.rank a
  onStack : ∀ g ∈ path, g ∈ s.stack
  explored : ∀ a, s.Visited a → a ∉ path → ∀ b ∈ next a, s.Visited b
  closed : ∀ a, s.Done a → ∀ b ∈ next a, s.Done b
  up : ∀ g ∈ path, ∀ a ∈ s.stack, s.rank g ≤ s.rank a → Reach next g a
  down : ∀ a ∈ s.stack, ∃ g ∈ path, s.rank g ≤ s.rank a ∧ Reach next a g
  reported : Reported next s

/-- The numbers and the low links of the nodes that were visited stay. -/
def Keeps (s t : State α) : Prop := ∀ a, s.Visited a → t.indices a = s.indices a ∧ t.lowlink a = s.lowlink a

/-- How often a node is reported alone, when it was visited since. -/
def singlesSince (next : α → List α) (s t : State α) (a : α) : ℕ :=
  if (t.indices a).isSome ∧ (s.indices a).isNone then (next a).count a else 0

/-- **What one call does.** -/
structure Connected (next : α → List α) (path : List α) (s : State α) (a : α) (t : State α) : Prop where
  sound : Sound next path t
  keeps : Keeps s t
  index : t.indices a = some s.index
  stack : ∃ above, t.stack = above ++ s.stack ∧ ∀ b ∈ above, ¬ s.Visited b
  low_le : t.lowlink a ≤ t.rank a
  low : t.lowlink a = t.rank a ∨ ∃ b ∈ s.stack, t.rank b = t.lowlink a ∧ Reach next a b
  crossing : ∀ b ∈ t.stack, ¬ s.Visited b → ∀ c ∈ next b, c ∈ s.stack → t.lowlink a ≤ t.rank c
  singles : ∀ b, t.cycles.count [b] = s.cycles.count [b] + singlesSince next s t b

/-- What holds while the successors of a node are visited: `done` were, and `s` is the state before the node. -/
structure Visiting (next : α → List α) (path : List α) (s : State α) (a : α) (done : List α) (t : State α) : Prop where
  fresh : ¬ s.Visited a
  sound : Sound next (a :: path) t
  keeps : Keeps s t
  index : t.indices a = some s.index
  stack : ∃ above, t.stack = above ++ a :: s.stack ∧ ∀ b ∈ above, ¬ s.Visited b
  low_le : t.lowlink a ≤ t.rank a
  low : t.lowlink a = t.rank a ∨ ∃ b ∈ s.stack, t.rank b = t.lowlink a ∧ Reach next a b
  crossing : ∀ b ∈ t.stack, b ≠ a → ¬ s.Visited b → ∀ c ∈ next b, c ∈ s.stack → t.lowlink a ≤ t.rank c
  crossingDone : ∀ c ∈ done, c ∈ s.stack → t.lowlink a ≤ t.rank c
  visited : ∀ c ∈ done, t.Visited c
  singles : ∀ b, t.cycles.count [b] = s.cycles.count [b] + if b = a then done.count a else singlesSince next s t b

variable {next : α → List α} {path : List α} {s t u : State α} {a b : α}

/-! ### Small facts -/

omit [DecidableEq α] in
theorem rank_of_keeps (h : Keeps s t) (ha : s.Visited a) : t.rank a = s.rank a := by
  rw [State.rank, State.rank, (h a ha).1]

omit [DecidableEq α] in
theorem Keeps.visited (h : Keeps s t) (ha : s.Visited a) : t.Visited a := by
  rw [State.Visited, (h a ha).1]
  exact ha

omit [DecidableEq α] in
theorem Keeps.trans (h : Keeps s t) (h' : Keeps t u) : Keeps s u := by
  intro a ha
  obtain ⟨hindex, hlow⟩ := h a ha
  obtain ⟨hindex', hlow'⟩ := h' a (h.visited ha)
  exact ⟨hindex'.trans hindex, hlow'.trans hlow⟩

omit [DecidableEq α] in
theorem not_visited_iff : ¬ s.Visited a ↔ s.indices a = none := by
  rw [State.Visited, Bool.not_eq_true, isSome_eq_false_iff, isNone_iff_eq_none]

omit [DecidableEq α] in
theorem Sound.nodup (h : Sound next path s) : s.stack.Nodup :=
  h.sorted.imp fun hlt heq => by
    rw [heq] at hlt
    exact Nat.lt_irrefl _ hlt

omit [DecidableEq α] in
theorem Sound.done_of_reach (h : Sound next path s) (ha : s.Done a) (hreach : Reach next a b) : s.Done b := by
  induction hreach with
  | refl => exact ha
  | tail _ hedge ih => exact h.closed _ ih _ hedge

/-! ### The steps that change one thing -/

theorem Sound.lower (h : Sound next path s) (a : α) (n : ℕ) : Sound next path (s.lower a n) :=
  ⟨h.visited, h.numbered, h.sorted, h.onStack, h.explored, h.closed, h.up, h.down,
    ⟨h.reported.component, h.reported.complete, h.reported.disjoint, h.reported.nonempty⟩⟩

omit [DecidableEq α] in
theorem Sound.report (h : Sound next path s) (a : α) : Sound next path (s.report [a]) := by
  refine ⟨h.visited, h.numbered, h.sorted, h.onStack, h.explored, h.closed, h.up, h.down, ?_⟩
  have hmem : ∀ c ∈ s.cycles ++ [[a]], c ∈ s.cycles ∨ c = [a] := by
    intro c hc
    simpa using hc
  refine ⟨fun c hc hlength => ?_, fun b hb c hne hbc hcb => ?_, ?_, fun c hc => ?_⟩
  · rcases hmem c hc with hc | rfl
    · exact h.reported.component c hc hlength
    · exact absurd hlength (by simp)
  · obtain ⟨cycle, hcycle, hrest⟩ := h.reported.complete b hb c hne hbc hcb
    exact ⟨cycle, mem_append_left _ hcycle, hrest⟩
  · show ((s.cycles ++ [[a]]).filter fun c => 1 < c.length).Pairwise List.Disjoint
    rw [filter_append]
    simpa using h.reported.disjoint
  · rcases hmem c hc with hc | rfl
    · exact h.reported.nonempty c hc
    · exact cons_ne_nil a []

theorem count_report (a b : α) : (s.report [a]).cycles.count [b] = s.cycles.count [b] + if b = a then 1 else 0 := by
  show (s.cycles ++ [[a]]).count [b] = _
  rw [count_append, count_singleton]
  by_cases hba : b = a
  · simp [hba]
  · simp [hba, Ne.symm hba]

omit [DecidableEq α] in
theorem Reported.congr (h : Reported next s) (hcycles : t.cycles = s.cycles) (hdone : ∀ a, t.Done a ↔ s.Done a) :
    Reported next t := by
  refine ⟨fun c hc hlength => ?_, fun b hb c hne hbc hcb => ?_, ?_, fun c hc => ?_⟩
  · rw [hcycles] at hc
    obtain ⟨hcomponent, hall⟩ := h.component c hc hlength
    exact ⟨hcomponent, fun a ha => (hdone a).mpr (hall a ha)⟩
  · rw [hcycles]
    exact h.complete b ((hdone b).mp hb) c hne hbc hcb
  · rw [hcycles]
    exact h.disjoint
  · rw [hcycles] at hc
    exact h.nonempty c hc

/-! ### A node is entered -/

theorem visited_enter : (s.enter a).Visited b ↔ b = a ∨ s.Visited b := by
  show ((if b = a then some s.index else s.indices b).isSome = true) ↔ _
  by_cases h : b = a
  · simp [h]
  · rw [if_neg h]
    simp [h, State.Visited]

theorem rank_enter_self : (s.enter a).rank a = s.index := by
  show ((if a = a then some s.index else s.indices a).getD 0) = s.index
  rw [if_pos rfl]
  rfl

theorem rank_enter_of_ne (h : b ≠ a) : (s.enter a).rank b = s.rank b := by
  show ((if b = a then some s.index else s.indices b).getD 0) = s.rank b
  rw [if_neg h]
  rfl

theorem done_enter (hnew : ¬ s.Visited a) : (s.enter a).Done b ↔ s.Done b := by
  show ((s.enter a).Visited b ∧ b ∉ a :: s.stack) ↔ s.Visited b ∧ b ∉ s.stack
  rw [visited_enter, mem_cons, not_or]
  constructor
  · rintro ⟨hb, hne, hstack⟩
    exact ⟨hb.resolve_left hne, hstack⟩
  · rintro ⟨hb, hstack⟩
    exact ⟨.inr hb, fun heq => hnew (heq ▸ hb), hstack⟩

/-- **A node is entered** when every node of the path reaches it. -/
theorem Sound.enter (h : Sound next path s) (hnew : ¬ s.Visited a) (hpath : ∀ g ∈ path, Reach next g a) :
    Sound next (a :: path) (s.enter a) := by
  have hne : ∀ b, s.Visited b → b ≠ a := fun b hb heq => hnew (heq ▸ hb)
  have hrank : ∀ b, s.Visited b → (s.enter a).rank b = s.rank b := fun b hb => rank_enter_of_ne (hne b hb)
  have hgray : ∀ g ∈ path, s.Visited g := fun g hg => h.visited g (h.onStack g hg)
  refine ⟨fun b hb => ?_, fun b hb => ?_, ?_, fun g hg => ?_, fun b hb hout c hc => ?_, fun b hb c hc => ?_,
    fun g hg b hb hle => ?_, fun b hb => ?_, h.reported.congr rfl fun b => done_enter hnew⟩
  · rcases mem_cons.mp hb with rfl | hb
    · exact visited_enter.mpr (.inl rfl)
    · exact visited_enter.mpr (.inr (h.visited b hb))
  · show (s.enter a).rank b < s.index + 1
    rcases visited_enter.mp hb with rfl | hb
    · rw [rank_enter_self]
      omega
    · rw [hrank b hb]
      exact Nat.lt_succ_of_lt (h.numbered b hb)
  · show (a :: s.stack).Pairwise _
    rw [pairwise_cons]
    refine ⟨fun b hb => ?_, h.sorted.imp_of_mem fun {b c} hb hc hlt => ?_⟩
    · rw [rank_enter_self, hrank b (h.visited b hb)]
      exact h.numbered b (h.visited b hb)
    · rw [hrank b (h.visited b hb), hrank c (h.visited c hc)]
      exact hlt
  · rcases mem_cons.mp hg with rfl | hg
    · exact mem_cons_self
    · exact mem_cons_of_mem a (h.onStack g hg)
  · rw [mem_cons, not_or] at hout
    have hb' := (visited_enter.mp hb).resolve_left hout.1
    exact visited_enter.mpr (.inr (h.explored b hb' hout.2 c hc))
  · exact (done_enter hnew).mpr (h.closed b ((done_enter hnew).mp hb) c hc)
  · rcases mem_cons.mp hb with rfl | hb
    · rcases mem_cons.mp hg with rfl | hg
      · exact .refl
      · exact hpath g hg
    · have hvisited := h.visited b hb
      rw [hrank b hvisited] at hle
      rcases mem_cons.mp hg with rfl | hg
      · rw [rank_enter_self] at hle
        have := h.numbered b hvisited
        omega
      · rw [hrank g (hgray g hg)] at hle
        exact h.up g hg b hb hle
  · rcases mem_cons.mp hb with rfl | hb
    · exact ⟨b, mem_cons_self, Nat.le_refl _, .refl⟩
    · obtain ⟨g, hg, hle, hreach⟩ := h.down b hb
      refine ⟨g, mem_cons_of_mem a hg, ?_, hreach⟩
      rw [hrank g (hgray g hg), hrank b (h.visited b hb)]
      exact hle

theorem singlesSince_self (b : α) : singlesSince next s s b = 0 := by
  rw [singlesSince, if_neg]
  rintro ⟨hsome, hnone⟩
  rw [isNone_iff_eq_none] at hnone
  rw [hnone] at hsome
  cases hsome

theorem Visiting.start (h : Sound next path s) (hnew : ¬ s.Visited a) (hpath : ∀ g ∈ path, Reach next g a) :
    Visiting next path s a [] (s.enter a) := by
  have hne : ∀ b, s.Visited b → b ≠ a := fun b hb heq => hnew (heq ▸ hb)
  have hlow : (s.enter a).lowlink a = (s.enter a).rank a := by
    rw [rank_enter_self]
    exact if_pos rfl
  refine ⟨hnew, h.enter hnew hpath, fun b hb => ⟨if_neg (hne b hb), if_neg (hne b hb)⟩, if_pos rfl,
    ⟨[], rfl, fun b hb => by cases hb⟩, Nat.le_of_eq hlow, .inl hlow, fun b hb hba hfresh => ?_,
    nofun, nofun, fun b => ?_⟩
  · exact absurd (h.visited b ((mem_cons.mp hb).resolve_left hba)) hfresh
  · show s.cycles.count [b] = s.cycles.count [b] + if b = a then 0 else singlesSince next s (s.enter a) b
    by_cases hba : b = a
    · rw [if_pos hba]
      rfl
    · have hsame : singlesSince next s (s.enter a) b = singlesSince next s s b := by
        have hindices : (s.enter a).indices b = s.indices b := if_neg hba
        rw [singlesSince, hindices]
        rfl
      rw [if_neg hba, hsame, singlesSince_self]
      rfl

/-! ### A successor is visited -/

theorem lowlink_lower_self (n : ℕ) : (s.lower a n).lowlink a = min (s.lowlink a) n := if_pos rfl

theorem lowlink_lower_of_ne (n : ℕ) (h : b ≠ a) : (s.lower a n).lowlink b = s.lowlink b := if_neg h

namespace Visiting

variable {done : List α}

section

variable (h : Visiting next path s a done t)

include h

theorem rank_eq : t.rank a = s.index := by
  rw [State.rank, h.index]
  rfl

theorem entered : t.Visited a := by
  rw [State.Visited, h.index]
  rfl

theorem below (hb : b ∈ t.stack) (hlt : t.rank b < t.rank a) : b ∈ s.stack := by
  obtain ⟨above, hstack, _⟩ := h.stack
  have hsorted := h.sound.sorted
  rw [hstack] at hb hsorted
  rcases mem_append.mp hb with hb | hb
  · have := (pairwise_append.mp hsorted).2.2 b hb a mem_cons_self
    omega
  · rcases mem_cons.mp hb with rfl | hb
    · exact absurd hlt (Nat.lt_irrefl _)
    · exact hb

theorem report : Visiting next path s a (done ++ [a]) (t.report [a]) := by
  refine ⟨h.fresh, h.sound.report a, h.keeps, h.index, h.stack, h.low_le, h.low, h.crossing, fun c hc hstack => ?_,
    fun c hc => ?_, fun b => ?_⟩
  · rcases mem_append.mp hc with hc | hc
    · exact h.crossingDone c hc hstack
    · rw [mem_singleton.mp hc]
      exact h.low_le
  · rcases mem_append.mp hc with hc | hc
    · exact h.visited c hc
    · rw [mem_singleton.mp hc]
      exact h.entered
  · rw [count_report, h.singles b]
    show _ = s.cycles.count [b] + if b = a then (done ++ [a]).count a else singlesSince next s t b
    by_cases hba : b = a
    · simp only [hba, if_true, count_append, count_singleton_self]
      omega
    · simp only [hba, if_false]
      omega

end

theorem count_other (hne : b ≠ a) : (done ++ [b]).count a = done.count a := by
  rw [count_append, count_singleton, beq_eq_false_iff_ne.mpr hne]
  rfl

/-- A successor that has a number already. -/
theorem met (h : Visiting next path s a done t) (hb : b ∈ next a) (hne : b ≠ a) {index : ℕ} (hindex : t.indices b = some index) :
    Visiting next path s a (done ++ [b]) (if b ∈ t.stack then t.lower a index else t) := by
  have hvisited : t.Visited b := by
    rw [State.Visited, hindex]
    rfl
  have hrank : t.rank b = index := by
    rw [State.rank, hindex]
    rfl
  have hdone : ∀ c ∈ done ++ [b], t.Visited c := by
    intro c hc
    rcases mem_append.mp hc with hc | hc
    · exact h.visited c hc
    · rw [mem_singleton.mp hc]
      exact hvisited
  have hstack : ∀ c ∈ s.stack, c ∈ t.stack := by
    obtain ⟨above, heq, _⟩ := h.stack
    intro c hc
    rw [heq]
    exact mem_append_right above (mem_cons_of_mem a hc)
  have hsingles : ∀ c, t.cycles.count [c] =
      s.cycles.count [c] + if c = a then (done ++ [b]).count a else singlesSince next s t c := by
    intro c
    rw [count_other hne]
    exact h.singles c
  split
  · next hon =>
    have hle : (t.lower a index).lowlink a ≤ t.lowlink a := by
      rw [lowlink_lower_self]
      exact Nat.min_le_left _ _
    refine ⟨h.fresh, h.sound.lower a index, fun c hc => ?_, h.index, h.stack, Nat.le_trans hle h.low_le, ?_,
      fun c hc hca hfresh d hd hd' => Nat.le_trans hle (h.crossing c hc hca hfresh d hd hd'), fun c hc hc' => ?_, hdone, hsingles⟩
    · obtain ⟨hsame, hlow⟩ := h.keeps c hc
      exact ⟨hsame, (lowlink_lower_of_ne index fun heq : c = a => h.fresh (heq ▸ hc)).trans hlow⟩
    · rw [lowlink_lower_self]
      show min (t.lowlink a) index = t.rank a ∨ ∃ c ∈ s.stack, t.rank c = min (t.lowlink a) index ∧ Reach next a c
      rcases Nat.lt_or_ge index (t.lowlink a) with hlt | hge
      · rw [Nat.min_eq_right (Nat.le_of_lt hlt)]
        have hbelow := h.low_le
        exact .inr ⟨b, h.below hon (by omega), hrank, .single hb⟩
      · rw [Nat.min_eq_left hge]
        exact h.low
    · rcases mem_append.mp hc with hc | hc
      · exact Nat.le_trans hle (h.crossingDone c hc hc')
      · rw [mem_singleton.mp hc, lowlink_lower_self]
        show min (t.lowlink a) index ≤ t.rank b
        omega
  · next hoff =>
    refine ⟨h.fresh, h.sound, h.keeps, h.index, h.stack, h.low_le, h.low, h.crossing, fun c hc hc' => ?_, hdone, hsingles⟩
    rcases mem_append.mp hc with hc | hc
    · exact h.crossingDone c hc hc'
    · rw [mem_singleton.mp hc] at hc'
      exact absurd (hstack b hc') hoff

theorem singlesSince_trans (h : Keeps s t) (h' : Keeps t u) (b : α) :
    singlesSince next s t b + singlesSince next t u b = singlesSince next s u b := by
  simp only [singlesSince]
  have hst := h.visited (a := b)
  have htu := h'.visited (a := b)
  simp only [State.Visited] at hst htu
  cases hs : s.indices b <;> cases ht : t.indices b <;> cases hu : u.indices b <;> simp_all

/-- A successor that has no number yet, and what the call for it does. -/
theorem call (h : Visiting next path s a done t) (hb : b ∈ next a) (hne : b ≠ a) (hnew : ¬ t.Visited b)
    (hcall : Connected next (a :: path) t b u) : Visiting next path s a (done ++ [b]) (u.lower a (u.lowlink b)) := by
  have hkeeps : Keeps s u := h.keeps.trans hcall.keeps
  have hrank : ∀ c, t.Visited c → u.rank c = t.rank c := fun c hc => rank_of_keeps hcall.keeps hc
  have hlow : u.lowlink a = t.lowlink a := (hcall.keeps a h.entered).2
  have hle : (u.lower a (u.lowlink b)).lowlink a ≤ t.lowlink a := by
    rw [lowlink_lower_self, hlow]
    exact Nat.min_le_left _ _
  have hle' : (u.lower a (u.lowlink b)).lowlink a ≤ u.lowlink b := by
    rw [lowlink_lower_self]
    exact Nat.min_le_right _ _
  obtain ⟨above, hstack, habove⟩ := h.stack
  obtain ⟨above', hstack', habove'⟩ := hcall.stack
  have hold : ∀ c ∈ s.stack, c ∈ t.stack := by
    intro c hc
    rw [hstack]
    exact mem_append_right above (mem_cons_of_mem a hc)
  have hranks : ∀ c ∈ s.stack, u.rank c = t.rank c := fun c hc => hrank c (h.sound.visited c (hold c hc))
  refine ⟨h.fresh, hcall.sound.lower a _, fun c hc => ?_, (hcall.keeps a h.entered).1.trans h.index, ?_, ?_, ?_,
    fun c hc hca hfresh d hd hd' => ?_, fun c hc hc' => ?_, fun c hc => ?_, fun c => ?_⟩
  · obtain ⟨hsame, hlow⟩ := hkeeps c hc
    exact ⟨hsame, (lowlink_lower_of_ne _ fun heq : c = a => h.fresh (heq ▸ hc)).trans hlow⟩
  · refine ⟨above' ++ above, ?_, fun c hc => ?_⟩
    · show u.stack = above' ++ above ++ a :: s.stack
      rw [hstack', hstack, append_assoc]
    · rcases mem_append.mp hc with hc | hc
      · exact fun hvisited => habove' c hc (h.keeps.visited hvisited)
      · exact habove c hc
  · show (u.lower a (u.lowlink b)).lowlink a ≤ u.rank a
    rw [hrank a h.entered]
    exact Nat.le_trans hle h.low_le
  · show (u.lower a (u.lowlink b)).lowlink a = u.rank a ∨
      ∃ c ∈ s.stack, u.rank c = (u.lower a (u.lowlink b)).lowlink a ∧ Reach next a c
    rw [lowlink_lower_self, hlow, hrank a h.entered]
    rcases Nat.lt_or_ge (u.lowlink b) (t.lowlink a) with hlt | hge
    · rw [Nat.min_eq_right (Nat.le_of_lt hlt)]
      have hlow_le := h.low_le
      rcases hcall.low with heq | ⟨c, hc, hrankc, hreach⟩
      · -- a node that was met later has a greater number
        have hlate : u.rank b = t.index := by
          rw [State.rank, hcall.index]
          rfl
        have := h.sound.numbered a h.entered
        omega
      · have hsame := hrank c (h.sound.visited c hc)
        exact .inr ⟨c, h.below hc (by omega), hrankc, .head hb hreach⟩
    · rw [Nat.min_eq_left hge]
      rcases h.low with heq | ⟨c, hc, hrankc, hreach⟩
      · exact .inl heq
      · exact .inr ⟨c, hc, (hranks c hc).trans hrankc, hreach⟩
  · show (u.lower a (u.lowlink b)).lowlink a ≤ u.rank d
    by_cases hct : t.Visited c
    · have hcstack : c ∈ t.stack := by
        rcases mem_append.mp (hstack' ▸ hc) with hc | hc
        · exact absurd hct (habove' c hc)
        · exact hc
      rw [hranks d hd']
      exact Nat.le_trans hle (h.crossing c hcstack hca hfresh d hd hd')
    · exact Nat.le_trans hle' (hcall.crossing c hc hct d hd (hold d hd'))
  · show (u.lower a (u.lowlink b)).lowlink a ≤ u.rank c
    rcases mem_append.mp hc with hc | hc
    · rw [hranks c hc']
      exact Nat.le_trans hle (h.crossingDone c hc hc')
    · rw [mem_singleton.mp hc] at hc'
      exact absurd (h.sound.visited b (hold b hc')) hnew
  · show u.Visited c
    rcases mem_append.mp hc with hc | hc
    · exact hcall.keeps.visited (h.visited c hc)
    · rw [mem_singleton.mp hc, State.Visited, hcall.index]
      rfl
  · show u.cycles.count [c] = s.cycles.count [c] + if c = a then (done ++ [b]).count a else singlesSince next s u c
    rw [hcall.singles c, h.singles c, count_other hne]
    by_cases hca : c = a
    · have hzero : singlesSince next t u c = 0 := by
        rw [singlesSince, if_neg]
        rw [hca, h.index]
        simp
      rw [if_pos hca, if_pos hca, hzero]
      rfl
    · rw [if_neg hca, if_neg hca, ← singlesSince_trans h.keeps hcall.keeps c]
      omega

end Visiting

/-! ### A node is left -/

namespace Visiting

variable (h : Visiting next path s a (next a) t)

include h

theorem singles_all (b : α) : t.cycles.count [b] = s.cycles.count [b] + singlesSince next s t b := by
  rw [h.singles b]
  split
  · next heq =>
    rw [heq, singlesSince, if_pos]
    exact ⟨h.entered, isNone_iff_eq_none.mpr (not_visited_iff.mp h.fresh)⟩
  · rfl

theorem crossing_all {c : α} (hb : b ∈ t.stack) (hfresh : ¬ s.Visited b)
    (hc : c ∈ next b) (hc' : c ∈ s.stack) : t.lowlink a ≤ t.rank c := by
  by_cases hba : b = a
  · exact h.crossingDone c (hba ▸ hc) hc'
  · exact h.crossing b hb hba hfresh c hc hc'

theorem explored_all (hb : t.Visited b) (hout : b ∉ path) : ∀ c ∈ next b, t.Visited c := by
  by_cases hba : b = a
  · exact hba ▸ h.visited
  · exact h.sound.explored b hb (not_mem_cons_of_ne_of_not_mem hba hout)

theorem stay (hlow : t.lowlink a ≠ t.rank a) : Connected next path s a t := by
  obtain ⟨b, hb, hrank, hreach⟩ := h.low.resolve_left hlow
  have hless : t.rank b < t.rank a := by
    have := h.low_le
    omega
  obtain ⟨above, hstack, habove⟩ := h.stack
  have hbt : b ∈ t.stack := by
    rw [hstack]
    exact mem_append_right above (mem_cons_of_mem a hb)
  have hdown : ∀ g ∈ a :: path, t.rank g < t.rank a → g ∈ path := by
    intro g hg hlt
    rcases mem_cons.mp hg with rfl | hg
    · exact absurd hlt (Nat.lt_irrefl _)
    · exact hg
  refine ⟨⟨h.sound.visited, h.sound.numbered, h.sound.sorted, fun g hg => h.sound.onStack g (mem_cons_of_mem a hg),
    fun c hc hout => h.explored_all hc hout, h.sound.closed, fun g hg => h.sound.up g (mem_cons_of_mem a hg),
    fun c hc => ?_, h.sound.reported⟩, h.keeps, h.index, ⟨above ++ [a], ?_, fun c hc => ?_⟩, h.low_le, .inr ⟨b, hb, hrank, hreach⟩,
    fun c hc hfresh d hd hd' => h.crossing_all hc hfresh hd hd', h.singles_all⟩
  · obtain ⟨g, hg, hle, hreach'⟩ := h.sound.down c hc
    rcases mem_cons.mp hg with rfl | hg
    · obtain ⟨g', hg', hle', hreach''⟩ := h.sound.down b hbt
      exact ⟨g', hdown g' hg' (by omega), by omega, hreach'.trans (hreach.trans hreach'')⟩
    · exact ⟨g, hg, hle, hreach'⟩
  · rw [hstack, append_assoc]
    rfl
  · rcases mem_append.mp hc with hc | hc
    · exact habove c hc
    · rw [mem_singleton.mp hc]
      exact h.fresh

theorem mem_scc {above : List α} (hstack : t.stack = above ++ a :: s.stack) :
    b ∈ above ++ [a] ↔ b ∈ t.stack ∧ b ∉ s.stack := by
  have hnodup := h.sound.nodup
  rw [hstack] at hnodup
  obtain ⟨_, hrest, hapart⟩ := nodup_append.mp hnodup
  rw [hstack]
  constructor
  · intro hb
    rcases mem_append.mp hb with hb | hb
    · refine ⟨mem_append_left _ hb, fun hs => hapart b hb b (mem_cons_of_mem a hs) rfl⟩
    · rw [mem_singleton.mp hb]
      exact ⟨mem_append_right above mem_cons_self, (nodup_cons.mp hrest).1⟩
  · rintro ⟨hb, hout⟩
    rcases mem_append.mp hb with hb | hb
    · exact mem_append_left [a] hb
    · exact mem_append_right above (mem_singleton.mpr ((mem_cons.mp hb).resolve_right hout))

variable {above : List α}

theorem rank_scc (hstack : t.stack = above ++ a :: s.stack) (hb : b ∈ above ++ [a]) : t.rank a ≤ t.rank b := by
  have hsorted := h.sound.sorted
  rw [hstack] at hsorted
  rcases mem_append.mp hb with hb | hb
  · exact Nat.le_of_lt ((pairwise_append.mp hsorted).2.2 b hb a mem_cons_self)
  · rw [mem_singleton.mp hb]

theorem rank_below (hstack : t.stack = above ++ a :: s.stack) (hb : b ∈ s.stack) : t.rank b < t.rank a := by
  have hsorted := h.sound.sorted
  rw [hstack] at hsorted
  exact (pairwise_cons.mp (pairwise_append.mp hsorted).2.1).1 b hb

/-- **Where nothing below the node is reached from it**, what is on the stack from it upwards leads only to itself and to what
is complete. -/
theorem stays (hs : Sound next path s) (hlow : t.lowlink a = t.rank a)
    (hstack : t.stack = above ++ a :: s.stack) {c : α} (hb : b ∈ above ++ [a]) (hreach : Reach next b c) :
    c ∈ above ++ [a] ∨ t.Done c := by
  induction hreach with
  | refl => exact .inl hb
  | @tail c d _ hedge ih =>
    rcases ih with hc | hc
    · obtain ⟨hct, hcs⟩ := (h.mem_scc hstack).mp hc
      have hout : c ∉ path := fun hpath => hcs (hs.onStack c hpath)
      have hd : t.Visited d := h.explored_all (h.sound.visited c hct) hout d hedge
      by_cases hdt : d ∈ t.stack
      · by_cases hds : d ∈ s.stack
        · have hfresh : ¬ s.Visited c := by
            rcases mem_append.mp hc with hc | hc
            · obtain ⟨above', hstack', habove⟩ := h.stack
              have hsame : above = above' := append_cancel_right (hstack.symm.trans hstack')
              exact habove c (hsame ▸ hc)
            · rw [mem_singleton.mp hc]
              exact h.fresh
          have hcross := h.crossing_all hct hfresh hedge hds
          have := h.rank_below hstack hds
          omega
        · exact .inl ((h.mem_scc hstack).mpr ⟨hdt, hds⟩)
      · exact .inr ⟨hd, hdt⟩
    · exact .inr (h.sound.closed c hc d hedge)

/-- **It is a component.** -/
theorem component (hs : Sound next path s) (hlow : t.lowlink a = t.rank a)
    (hstack : t.stack = above ++ a :: s.stack) : IsComponent next (above ++ [a]) := by
  have hnode : ∀ b ∈ above ++ [a], Reach next a b ∧ Reach next b a := by
    intro b hb
    have hbt := ((h.mem_scc hstack).mp hb).1
    refine ⟨h.sound.up a mem_cons_self b hbt (h.rank_scc hstack hb), ?_⟩
    obtain ⟨g, hg, _, hreach⟩ := h.sound.down b hbt
    rcases mem_cons.mp hg with rfl | hg
    · exact hreach
    · have hgs := hs.onStack g hg
      rcases h.stays hs hlow hstack hb hreach with hscc | hdone
      · exact absurd hgs ((h.mem_scc hstack).mp hscc).2
      · refine absurd ?_ hdone.2
        rw [hstack]
        exact mem_append_right above (mem_cons_of_mem a hgs)
  refine ⟨?_, fun b hb c => ⟨fun hc => ?_, fun ⟨hbc, hcb⟩ => ?_⟩⟩
  · have hnodup := h.sound.nodup
    rw [hstack, append_cons] at hnodup
    exact (nodup_append.mp hnodup).1
  · exact ⟨(hnode b hb).2.trans (hnode c hc).1, (hnode c hc).2.trans (hnode b hb).1⟩
  · rcases h.stays hs hlow hstack hb hbc with hscc | hdone
    · exact hscc
    · exact absurd ((h.mem_scc hstack).mp hb).1 (h.sound.done_of_reach hdone hcb).2

theorem pop_eq (hstack : t.stack = above ++ a :: s.stack) : t.pop a = { t with
      stack := s.stack
      cycles := if 1 < (above ++ [a]).length then t.cycles ++ [above ++ [a]] else t.cycles } := by
  have hnot : ∀ b ∈ above, b ≠ a := by
    have hnodup := h.sound.nodup
    rw [hstack] at hnodup
    exact fun b hb => (nodup_append.mp hnodup).2.2 b hb a mem_cons_self
  have htake : t.stack.takeWhile (· ≠ a) = above := by
    rw [hstack, takeWhile_append_of_pos fun b hb => decide_eq_true (hnot b hb)]
    simp
  have hdrop : t.stack.dropWhile (· ≠ a) = a :: s.stack := by
    rw [hstack, dropWhile_append_of_pos fun b hb => decide_eq_true (hnot b hb)]
    simp
  rw [State.pop, htake, hdrop]
  rfl

/-- What is reported of the complete components, when one more is. -/
theorem reported_pop (hs : Sound next path s) (hlow : t.lowlink a = t.rank a)
    (hstack : t.stack = above ++ a :: s.stack) : Reported next (t.pop a) := by
  have hcomponent := h.component hs hlow hstack
  rw [h.pop_eq hstack]
  generalize hscc : above ++ [a] = scc at hcomponent
  have hmem : ∀ b, b ∈ scc ↔ b ∈ t.stack ∧ b ∉ s.stack := fun b => hscc ▸ h.mem_scc hstack
  have hsub : ∀ b ∈ s.stack, b ∈ t.stack := by
    intro b hb
    rw [hstack]
    exact mem_append_right above (mem_cons_of_mem a hb)
  have hdone : ∀ b, t.Done b → t.Visited b ∧ b ∉ s.stack := fun b hb => ⟨hb.1, fun hbs => hb.2 (hsub b hbs)⟩
  have hnew : ∀ b ∈ scc, t.Visited b ∧ b ∉ s.stack := fun b hb =>
    ⟨h.sound.visited b ((hmem b).mp hb).1, ((hmem b).mp hb).2⟩
  have hreported := h.sound.reported
  by_cases hlength : 1 < scc.length
  · rw [if_pos hlength]
    have hcases : ∀ c ∈ t.cycles ++ [scc], c ∈ t.cycles ∨ c = scc := by
      intro c hc
      simpa using hc
    refine ⟨fun c hc hc' => ?_, fun b hb c hne hbc hcb => ?_, ?_, fun c hc => ?_⟩
    · rcases hcases c hc with hc | rfl
      · obtain ⟨hold, hall⟩ := hreported.component c hc hc'
        exact ⟨hold, fun b hb => hdone b (hall b hb)⟩
      · exact ⟨hcomponent, hnew⟩
    · obtain ⟨hvisited, hout⟩ := hb
      by_cases hbt : b ∈ t.stack
      · exact ⟨scc, by simp, hlength, (hmem b).mpr ⟨hbt, hout⟩⟩
      · obtain ⟨cycle, hcycle, hrest⟩ := hreported.complete b ⟨hvisited, hbt⟩ c hne hbc hcb
        exact ⟨cycle, mem_append_left _ hcycle, hrest⟩
    · show ((t.cycles ++ [scc]).filter fun c => 1 < c.length).Pairwise List.Disjoint
      rw [filter_append, pairwise_append]
      refine ⟨hreported.disjoint, by simp [hlength], fun c hc c' hc' b hb hb' => ?_⟩
      obtain ⟨hc, hclength⟩ := mem_filter.mp hc
      have hsame : c' = scc := by
        have := (mem_filter.mp hc').1
        simpa using this
      have hold := ((hreported.component c hc (of_decide_eq_true hclength)).2 b hb).2
      exact hold ((hmem b).mp (hsame ▸ hb')).1
    · rcases hcases c hc with hc | rfl
      · exact hreported.nonempty c hc
      · rw [← hscc]
        simp
  · rw [if_neg hlength]
    refine ⟨fun c hc hc' => ?_, fun b hb c hne hbc hcb => ?_, hreported.disjoint, hreported.nonempty⟩
    · obtain ⟨hold, hall⟩ := hreported.component c hc hc'
      exact ⟨hold, fun b hb => hdone b (hall b hb)⟩
    · obtain ⟨hvisited, hout⟩ := hb
      by_cases hbt : b ∈ t.stack
      · -- a component of one node has no other one
        have hbscc : b ∈ scc := (hmem b).mpr ⟨hbt, hout⟩
        have hcscc : c ∈ scc := (hcomponent.mem_iff b hbscc c).mpr ⟨hbc, hcb⟩
        obtain ⟨d, hd⟩ : ∃ d, scc = [d] := by
          rw [← length_eq_one_iff]
          have := length_pos_of_mem hbscc
          omega
        rw [hd, mem_singleton] at hbscc hcscc
        exact absurd (hcscc.trans hbscc.symm) hne
      · exact hreported.complete b ⟨hvisited, hbt⟩ c hne hbc hcb

/-- The node is the first of its component, which is taken from the stack. -/
theorem taken (hs : Sound next path s) (hlow : t.lowlink a = t.rank a) : Connected next path s a (t.pop a) := by
  obtain ⟨above, hstack, habove⟩ := h.stack
  have hreported := h.reported_pop hs hlow hstack
  have hpop := h.pop_eq hstack
  have hsub : ∀ b ∈ s.stack, b ∈ t.stack := by
    intro b hb
    rw [hstack]
    exact mem_append_right above (mem_cons_of_mem a hb)
  have hstays : ∀ b, t.Visited b → b ∉ s.stack → ∀ c ∈ next b, t.Visited c ∧ c ∉ s.stack := by
    intro b hb hout c hc
    by_cases hbt : b ∈ t.stack
    · have hbscc := (h.mem_scc hstack).mpr ⟨hbt, hout⟩
      rcases h.stays hs hlow hstack hbscc (.single hc) with hcscc | hdone
      · obtain ⟨hct, hcs⟩ := (h.mem_scc hstack).mp hcscc
        exact ⟨h.sound.visited c hct, hcs⟩
      · exact ⟨hdone.1, fun hcs => hdone.2 (hsub c hcs)⟩
    · obtain ⟨hvisited, hct⟩ := h.sound.closed b ⟨hb, hbt⟩ c hc
      exact ⟨hvisited, fun hcs => hct (hsub c hcs)⟩
  have hsorted : s.stack.Pairwise fun b c => t.rank c < t.rank b := by
    have hsorted := h.sound.sorted
    rw [hstack, append_cons] at hsorted
    exact (pairwise_append.mp hsorted).2.1
  have hcount : ∀ b, (t.pop a).cycles.count [b] = t.cycles.count [b] := by
    intro b
    rw [hpop]
    show (if 1 < (above ++ [a]).length then t.cycles ++ [above ++ [a]] else t.cycles).count [b] = _
    split
    · next hlength =>
      have hne : above ++ [a] ≠ [b] := fun heq => by
        rw [heq] at hlength
        exact absurd hlength (by simp)
      rw [count_append, count_singleton, beq_eq_false_iff_ne.mpr hne]
      rfl
    · rfl
  rw [hpop] at hreported hcount ⊢
  refine ⟨⟨fun b hb => h.sound.visited b (hsub b hb), h.sound.numbered, hsorted, hs.onStack,
    fun b hb hout => h.explored_all hb hout, fun b hb => hstays b hb.1 hb.2,
    fun g hg b hb => h.sound.up g (mem_cons_of_mem a hg) b (hsub b hb), fun b hb => ?_, hreported⟩, h.keeps, h.index,
    ⟨[], rfl, fun b hb => by cases hb⟩, h.low_le, .inl hlow, fun b hb hfresh => absurd (hs.visited b hb) hfresh, fun b => ?_⟩
  · obtain ⟨g, hg, hle, hreach⟩ := h.sound.down b (hsub b hb)
    have hless := h.rank_below hstack hb
    rcases mem_cons.mp hg with rfl | hg
    · omega
    · exact ⟨g, hg, hle, hreach⟩
  · rw [hcount b]
    exact h.singles_all b

theorem leave (hs : Sound next path s) : Connected next path s a (t.leave a) := by
  have hrank := h.rank_eq
  rw [State.leave, h.index]
  split
  · next heq => exact h.taken hs (by rw [hrank]; exact (Option.some.inj heq).symm)
  · next hne =>
    refine h.stay fun hlow => hne ?_
    rw [hlow, hrank]

end Visiting

/-! ### The calls, and all of them -/

/-- How many nodes have no number yet. -/
def unvisited (nodes : List α) (s : State α) : ℕ := (nodes.filter fun a => (s.indices a).isNone).length

omit [DecidableEq α] in
variable {nodes : List α}

theorem unvisited_lt (hkeeps : ∀ b, s.Visited b → t.Visited b) (ha : a ∈ nodes) (hnew : ¬ s.Visited a)
    (hvisited : t.Visited a) : unvisited nodes t < unvisited nodes s := by
  have hsub : nodes.filter (fun b => (t.indices b).isNone) =
      (nodes.filter fun b => (s.indices b).isNone).filter fun b => (t.indices b).isNone := by
    rw [List.filter_filter]
    refine filter_congr fun b _ => ?_
    have hb := hkeeps b
    simp only [State.Visited] at hb
    cases hs : s.indices b <;> cases ht : t.indices b <;> simp_all
  show (nodes.filter _).length < (nodes.filter _).length
  rw [hsub]
  apply length_filter_lt_length_iff_exists.mpr
  refine ⟨a, mem_filter.mpr ⟨ha, isNone_iff_eq_none.mpr (not_visited_iff.mp hnew)⟩, ?_⟩
  rw [isNone_iff_eq_none]
  exact isSome_iff_ne_none.mp hvisited

/-- **A call ends**, with as much fuel as there are nodes without a number. -/
theorem exists_strongconnect (hnext : ∀ a, ∀ b ∈ next a, b ∈ nodes) {fuel : ℕ} (hs : Sound next path s)
    (ha : a ∈ nodes) (hnew : ¬ s.Visited a) (hpath : ∀ g ∈ path, Reach next g a) (hfuel : unvisited nodes s ≤ fuel) :
    ∃ t, strongconnect next fuel s a = some t ∧ Connected next path s a t := by
  induction fuel generalizing path s a with
  | zero =>
    have hmem : a ∈ nodes.filter fun b => (s.indices b).isNone :=
      mem_filter.mpr ⟨ha, isNone_iff_eq_none.mpr (not_visited_iff.mp hnew)⟩
    have hpos := length_pos_of_mem hmem
    rw [unvisited] at hfuel
    omega
  | succ fuel ih =>
    obtain ⟨t, ht, hvisiting⟩ := exists_foldlM (l := next a) (f := visit (strongconnect next fuel) a)
      (Visiting.start hs hnew hpath) fun done b t hb h => by
        rw [visit]
        by_cases hba : b = a
        · rw [if_pos hba, hba]
          exact ⟨_, rfl, h.report⟩
        · rw [if_neg hba]
          cases hindex : t.indices b with
          | some index => exact ⟨_, rfl, h.met hb hba hindex⟩
          | none =>
            have hless := unvisited_lt (fun c => h.keeps.visited) ha hnew h.entered
            have hreach : ∀ g ∈ a :: path, Reach next g b := by
              intro g hg
              rcases mem_cons.mp hg with rfl | hg
              · exact .single hb
              · exact (hpath g hg).tail hb
            obtain ⟨u, hu, hcall⟩ := ih h.sound (hnext a b hb) (not_visited_iff.mpr hindex) hreach (by omega)
            refine ⟨u.lower a (u.lowlink b), ?_, h.call hb hba (not_visited_iff.mpr hindex) hcall⟩
            show (strongconnect next fuel t b).map _ = _
            rw [hu]
            rfl
    exact ⟨t.leave a, by rw [strongconnect, ht]; rfl, hvisiting.leave hs⟩

/-- What the walk reports. -/
structure Cyclic (next : α → List α) (cycles : List (List α)) : Prop where
  /-- Of more than one node, the components. -/
  component : ∀ c ∈ cycles, 1 < c.length → IsComponent next c
  complete : ∀ a b, a ≠ b → Reach next a b → Reach next b a → ∃ c ∈ cycles, a ∈ c ∧ b ∈ c
  disjoint : (cycles.filter fun c => 1 < c.length).Pairwise List.Disjoint
  /-- Of one node, its edges to itself. -/
  single : ∀ c ∈ cycles, ¬ 1 < c.length → ∃ a, c = [a] ∧ a ∈ next a
  count : ∀ a, cycles.count [a] = (next a).count a

/-- What holds between two starts: nothing is on the stack. -/
structure Walking (next : α → List α) (done : List α) (s : State α) : Prop where
  sound : Sound next [] s
  visited : ∀ a ∈ done, s.Visited a
  singles : ∀ b, s.cycles.count [b] = if (s.indices b).isSome then (next b).count b else 0

omit [DecidableEq α] in
theorem sound_initial : Sound next [] (State.initial : State α) := by
  have hnone : ∀ a, ¬ (State.initial : State α).Visited a := fun a => not_visited_iff.mpr rfl
  refine ⟨nofun, fun a ha => absurd ha (hnone a), .nil, nofun,
    fun a ha => absurd ha (hnone a), fun a ha => absurd ha.1 (hnone a), nofun,
    nofun, ?_⟩
  exact ⟨nofun, fun a ha => absurd ha.1 (hnone a), .nil, nofun⟩

/-- **The walk ends on every graph**, and reports the components of more than one node, and the edges from a node to
itself. -/
theorem exists_walk (hnext : ∀ a, ∀ b ∈ next a, b ∈ nodes) (hleaf : ∀ a ∉ nodes, next a = []) :
    ∃ s, walk next nodes = some s ∧ Cyclic next s.cycles := by
  have hstart : Walking next [] (State.initial : State α) :=
    ⟨sound_initial, nofun, fun b => rfl⟩
  obtain ⟨s, hs, hwalking⟩ := exists_foldlM (l := nodes)
    (f := fun s a => if (s.indices a).isNone then strongconnect next nodes.length s a else some s) hstart
    fun done a s ha h => by
      by_cases hnone : (s.indices a).isNone
      · rw [if_pos hnone]
        have hnew : ¬ s.Visited a := not_visited_iff.mpr (isNone_iff_eq_none.mp hnone)
        obtain ⟨t, ht, hcall⟩ := exists_strongconnect hnext h.sound ha hnew nofun
          (length_filter_le _ nodes)
        refine ⟨t, ht, hcall.sound, fun b hb => ?_, fun b => ?_⟩
        · rcases mem_append.mp hb with hb | hb
          · exact hcall.keeps.visited (h.visited b hb)
          · rw [mem_singleton.mp hb, State.Visited, hcall.index]
            rfl
        · rw [hcall.singles b, h.singles b, singlesSince]
          have hkeeps := hcall.keeps.visited (a := b)
          simp only [State.Visited] at hkeeps
          cases hs : s.indices b <;> cases ht : t.indices b <;> simp_all
      · rw [if_neg hnone]
        refine ⟨s, rfl, h.sound, fun b hb => ?_, h.singles⟩
        rcases mem_append.mp hb with hb | hb
        · exact h.visited b hb
        · rw [isNone_iff_eq_none] at hnone
          rw [mem_singleton.mp hb]
          exact isSome_iff_ne_none.mpr hnone
  have hempty : ∀ a, a ∉ s.stack := by
    intro a ha
    obtain ⟨g, hg, _⟩ := hwalking.sound.down a ha
    cases hg
  have hcount : ∀ a, s.cycles.count [a] = (next a).count a := by
    intro a
    rw [hwalking.singles a]
    by_cases ha : a ∈ nodes
    · exact if_pos (hwalking.visited a ha)
    · rw [hleaf a ha]
      split <;> rfl
  refine ⟨s, hs, fun c hc hlength => (hwalking.sound.reported.component c hc hlength).1, fun a b hne hab hba => ?_,
    hwalking.sound.reported.disjoint, fun c hc hlength => ?_, hcount⟩
  · -- a node that another one comes back to is a successor
    have ha : a ∈ nodes := by
      rcases Relation.ReflTransGen.cases_tail hba with heq | ⟨c, _, hedge⟩
      · exact absurd heq hne
      · exact hnext c a hedge
    obtain ⟨c, hc, hlength, hac⟩ := hwalking.sound.reported.complete a ⟨hwalking.visited a ha, hempty a⟩ b hne.symm hab hba
    have hcomponent := (hwalking.sound.reported.component c hc hlength).1
    exact ⟨c, hc, hac, (hcomponent.mem_iff a hac b).mpr ⟨hab, hba⟩⟩
  · obtain ⟨a, rfl⟩ : ∃ a, c = [a] := by
      rw [← length_eq_one_iff]
      have := length_pos_iff.mpr (hwalking.sound.reported.nonempty c hc)
      omega
    refine ⟨a, rfl, ?_⟩
    rw [← count_pos_iff, ← hcount a, count_pos_iff]
    exact hc

end Tarjan
