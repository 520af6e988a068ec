import Forgent.Graph.DepthFirst

/-!
# The longest chain

A depth-first search for the longest chain that starts at one of some nodes.  The depth of a node is remembered together
with the successor it was reached by, and a node on the path that is walked counts nothing; the chain is then traced along
what was remembered.

* `depthOf`, `deepest`, `trace`, `search`: the search, on fuel.
* `exists_search`: it ends on every graph, with a chain of the depth that it reports, and on an acyclic graph no chain from
  one of the nodes is longer.
-/

namespace LongestChain

open Relation FiniteGraph DepthFirst List

variable {α : Type*} [DecidableEq α]

/-- What is remembered of the nodes that were walked: the depth, and the successor that it comes from. -/
structure Memo (α : Type*) where
  depth : α → Option ℕ
  deepest : α → Option α

def Memo.empty : Memo α := ⟨fun _ => none, fun _ => none⟩

def Memo.set (memo : Memo α) (a : α) (depth : ℕ) (chosen : Option α) : Memo α where
  depth := fun b => if b = a then some depth else memo.depth b
  deepest := fun b => if b = a then chosen else memo.deepest b

/-- The deepest successor so far, and what is remembered. -/
structure Best (α : Type*) where
  depth : ℕ
  chosen : Option α
  memo : Memo α

/-- The first strict maximum wins. -/
def Best.improve (best : Best α) (c : α) (found : ℕ × Memo α) : Best α :=
  if best.depth < found.1 then ⟨found.1, some c, found.2⟩ else { best with memo := found.2 }

section

variable (next : α → List α)

/-- The depth of a node, behind the nodes of the guard.  None is a search that ran out of fuel. -/
def depthOf : ℕ → List α → Memo α → α → Option (ℕ × Memo α)
  | 0, _, _, _ => none
  | fuel + 1, guard, memo, a =>
    match memo.depth a with
    | some depth => some (depth, memo)
    | none =>
      if a ∈ guard then some (0, memo)
      else
        ((next a).foldlM (fun (best : Best α) c => (depthOf fuel (a :: guard) best.memo c).map (best.improve c))
          ⟨0, none, memo⟩).map fun best => (best.depth + 1, best.memo.set a (best.depth + 1) best.chosen)

/-- The deepest of the nodes. -/
def deepest (fuel : ℕ) (candidates : List α) : Option (Best α) :=
  candidates.foldlM (fun best c => (depthOf next fuel [] best.memo c).map (best.improve c)) ⟨0, none, .empty⟩

end

/-- Follow what was remembered.  None is a trace that ran out of fuel. -/
def trace (deepest : α → Option α) : ℕ → Option α → Option (List α)
  | _, none => some []
  | 0, some _ => none
  | fuel + 1, some a => (trace deepest fuel (deepest a)).map (a :: ·)

/-- The depth and the chain. -/
def search (next : α → List α) (fuel : ℕ) (candidates : List α) : Option (ℕ × List α) := do
  let best ← deepest next fuel candidates
  let path ← trace best.memo.deepest best.depth best.chosen
  return (best.depth, path)

/-! ### What is remembered -/

section

variable {next : α → List α} {memo : Memo α} {a : α} {guard : List α} {depth : ℕ} {best : Best α}

/-- No chain from the node is longer. -/
def Bounds (next : α → List α) (a : α) (depth : ℕ) : Prop :=
  ∀ l : List α, (a :: l).IsChain (Edge next) → (a :: l).length ≤ depth

/-- What is remembered of a node: its depth is one more than that of the successor it comes from, and on an acyclic graph
nothing is deeper. -/
structure Sound (next : α → List α) (memo : Memo α) : Prop where
  link : ∀ a depth, memo.depth a = some depth →
    (memo.deepest a = none ∧ depth = 1) ∨
      ∃ c d, memo.deepest a = some c ∧ c ∈ next a ∧ memo.depth c = some d ∧ 0 < d ∧ depth = d + 1
  longest : Acyclic (Edge next) → ∀ a depth, memo.depth a = some depth → Bounds next a depth

omit [DecidableEq α] in
theorem Sound.pos (h : Sound next memo) (ha : memo.depth a = some depth) : 0 < depth := by
  rcases h.link a depth ha with ⟨_, rfl⟩ | ⟨c, d, _, _, _, _, rfl⟩
  · exact Nat.one_pos
  · exact Nat.succ_pos d

omit [DecidableEq α] in
theorem sound_empty : Sound next (Memo.empty : Memo α) where
  link := nofun
  longest := nofun

/-- Nothing that is remembered changes, and nothing is remembered of the nodes of the guard. -/
structure Later (guard : List α) (memo memo' : Memo α) : Prop where
  kept : ∀ a depth, memo.depth a = some depth → memo'.depth a = some depth ∧ memo'.deepest a = memo.deepest a
  guarded : ∀ a ∈ guard, memo.depth a = none → memo'.depth a = none

omit [DecidableEq α] in
theorem Later.refl (guard : List α) (memo : Memo α) : Later guard memo memo :=
  ⟨fun _ _ h => ⟨h, rfl⟩, fun _ _ h => h⟩

omit [DecidableEq α] in
theorem Later.trans {memo' memo'' : Memo α} (h : Later guard memo memo')
    (h' : Later guard memo' memo'') : Later guard memo memo'' where
  kept := by
    intro a depth ha
    obtain ⟨hdepth, hdeepest⟩ := h.kept a depth ha
    obtain ⟨hdepth', hdeepest'⟩ := h'.kept a depth hdepth
    exact ⟨hdepth', hdeepest'.trans hdeepest⟩
  guarded := fun a ha hnone => h'.guarded a ha (h.guarded a ha hnone)

/-- What a call answers: a node of the guard counts nothing, and of any other node the depth is remembered. -/
structure Answers (next : α → List α) (guard : List α) (memo : Memo α) (a : α) (found : ℕ × Memo α) : Prop where
  sound : Sound next found.2
  later : Later guard memo found.2
  depth : (a ∈ guard ∧ found.1 = 0) ∨ found.2.depth a = some found.1

/-! ### The successors of a node -/

/-- What the best successor is, when the successors of `done` were walked.  On an acyclic graph none of them is on the
path, and so each has its depth. -/
structure Exploring (next : α → List α) (guard : List α) (memo : Memo α) (done : List α) (best : Best α) : Prop where
  sound : Sound next best.memo
  later : Later guard memo best.memo
  chosen : (best.chosen = none ∧ best.depth = 0) ∨
    ∃ c, best.chosen = some c ∧ c ∈ done ∧ best.memo.depth c = some best.depth
  longest : ∀ c ∈ done, c ∈ guard ∨ ∃ d, best.memo.depth c = some d ∧ d ≤ best.depth

omit [DecidableEq α] in
/-- **One successor more.** -/
theorem Exploring.improve {done : List α} {c : α} {found : ℕ × Memo α}
    (h : Exploring next guard memo done best) (hanswers : Answers next guard best.memo c found) :
    Exploring next guard memo (done ++ [c]) (best.improve c found) := by
  have hlater : Later guard memo found.2 := h.later.trans hanswers.later
  -- what the successors so far are remembered with is still there
  have hkept : ∀ b d, best.memo.depth b = some d → found.2.depth b = some d := fun b d hb => (hanswers.later.kept b d hb).1
  have hold : ∀ bound, best.depth ≤ bound → ∀ b ∈ done, b ∈ guard ∨ ∃ d, found.2.depth b = some d ∧ d ≤ bound := by
    intro bound hbound b hb
    rcases h.longest b hb with hb | ⟨d, hd, hle⟩
    · exact .inl hb
    · exact .inr ⟨d, hkept b d hd, Nat.le_trans hle hbound⟩
  have hnew : ∀ bound, found.1 ≤ bound → c ∈ guard ∨ ∃ d, found.2.depth c = some d ∧ d ≤ bound := by
    intro bound hbound
    rcases hanswers.depth with ⟨hc, _⟩ | hc
    · exact .inl hc
    · exact .inr ⟨found.1, hc, hbound⟩
  rw [Best.improve]
  split
  · next hless =>
    refine ⟨hanswers.sound, hlater, .inr ⟨c, rfl, by simp, ?_⟩, fun b hb => ?_⟩
    · rcases hanswers.depth with ⟨_, hzero⟩ | hc
      · omega
      · exact hc
    · rcases mem_append.mp hb with hb | hb
      · exact hold found.1 (by omega) b hb
      · rw [mem_singleton.mp hb]
        exact hnew found.1 (Nat.le_refl _)
  · next hless =>
    refine ⟨hanswers.sound, hlater, ?_, fun b hb => ?_⟩
    · rcases h.chosen with hnone | ⟨b, hb, hdone, hdepth⟩
      · exact .inl hnone
      · exact .inr ⟨b, hb, mem_append_left [c] hdone, hkept b _ hdepth⟩
    · rcases mem_append.mp hb with hb | hb
      · exact hold best.depth (Nat.le_refl _) b hb
      · rw [mem_singleton.mp hb]
        exact hnew best.depth (by omega)

/-- A node all of whose successors were walked is remembered. -/
theorem Exploring.remember
    (h : Exploring next (a :: guard) memo (next a) best) (ha : a ∉ guard) (hnone : memo.depth a = none)
    (hpath : ∀ g ∈ a :: guard, ReflTransGen (Edge next) g a) :
    Answers next guard memo a (best.depth + 1, best.memo.set a (best.depth + 1) best.chosen) := by
  have hnew : best.memo.depth a = none := h.later.guarded a mem_cons_self hnone
  have hother : ∀ {b : α} {d : ℕ}, best.memo.depth b = some d → b ≠ a := by
    rintro b d hb rfl
    rw [hnew] at hb
    cases hb
  have hset : ∀ {b : α} {d : ℕ}, best.memo.depth b = some d →
      (best.memo.set a (best.depth + 1) best.chosen).depth b = some d := by
    intro b d hb
    exact (if_neg (hother hb)).trans hb
  refine ⟨⟨fun b depth hb => ?_, fun hacyc b depth hb => ?_⟩, ⟨fun b depth hb => ?_, fun b hb hb' => ?_⟩, .inr (if_pos rfl)⟩
  · by_cases hba : b = a
    · subst hba
      have hdepth : best.depth + 1 = depth := Option.some.inj ((if_pos rfl).symm.trans hb)
      have hdeepest : (best.memo.set b (best.depth + 1) best.chosen).deepest b = best.chosen := if_pos rfl
      rcases h.chosen with ⟨hchosen, hzero⟩ | ⟨c, hchosen, hc, hdc⟩
      · exact .inl ⟨hdeepest.trans hchosen, by omega⟩
      · exact .inr ⟨c, best.depth, hdeepest.trans hchosen, hc, hset hdc, h.sound.pos hdc, hdepth.symm⟩
    · have hb' : best.memo.depth b = some depth := (if_neg hba).symm.trans hb
      have hdeepest : (best.memo.set a (best.depth + 1) best.chosen).deepest b = best.memo.deepest b := if_neg hba
      rcases h.sound.link b depth hb' with ⟨hno, hone⟩ | ⟨c, d, hc, hcb, hdc, hpos, hsucc⟩
      · exact .inl ⟨hdeepest.trans hno, hone⟩
      · exact .inr ⟨c, d, hdeepest.trans hc, hcb, hset hdc, hpos, hsucc⟩
  · by_cases hba : b = a
    · subst hba
      have hdepth : best.depth + 1 = depth := Option.some.inj ((if_pos rfl).symm.trans hb)
      intro l hl
      cases l with
      | nil =>
        show 1 ≤ depth
        omega
      | cons c l =>
        obtain ⟨hedge, hl⟩ := isChain_cons_cons.mp hl
        rcases h.longest c hedge with hguard | ⟨d, hdc, hle⟩
        · -- a successor on the path closes a cycle
          exact absurd (TransGen.tail' (hpath c hguard) hedge) (hacyc c)
        · have hbound := h.sound.longest hacyc c d hdc l hl
          show (c :: l).length + 1 ≤ depth
          omega
    · exact h.sound.longest hacyc b depth ((if_neg hba).symm.trans hb)
  · obtain ⟨hdepth, hdeepest⟩ := h.later.kept b depth hb
    exact ⟨hset hdepth, (if_neg (hother hdepth)).trans hdeepest⟩
  · have hba : b ≠ a := fun heq => ha (heq ▸ hb)
    exact (if_neg hba).trans (h.later.guarded b (mem_cons_of_mem a hb) hb')

/-- **A call ends**, with as much fuel as there are nodes off the path. -/
theorem exists_depthOf {nodes : List α} (hleaf : ∀ a ∉ nodes, next a = []) {fuel : ℕ} {guard : List α} {memo : Memo α} {a : α}
    (hfuel : unseen nodes guard < fuel) (hsound : Sound next memo) (hpath : ∀ g ∈ guard, ReflTransGen (Edge next) g a) :
    ∃ found, depthOf next fuel guard memo a = some found ∧ Answers next guard memo a found := by
  induction fuel generalizing guard memo a with
  | zero => omega
  | succ fuel ih =>
    rw [depthOf]
    cases hmemo : memo.depth a with
    | some depth => exact ⟨(depth, memo), rfl, hsound, .refl guard memo, .inr hmemo⟩
    | none =>
      by_cases ha : a ∈ guard
      · rw [if_pos ha]
        exact ⟨(0, memo), rfl, hsound, .refl guard memo, .inl ⟨ha, rfl⟩⟩
      · rw [if_neg ha]
        have hpath' : ∀ g ∈ a :: guard, ReflTransGen (Edge next) g a := by
          intro g hg
          rcases mem_cons.mp hg with rfl | hg
          · exact .refl
          · exact hpath g hg
        have hstart : Exploring next (a :: guard) memo [] ⟨0, none, memo⟩ :=
          ⟨hsound, .refl (a :: guard) memo, .inl ⟨rfl, rfl⟩, fun c hc => by cases hc⟩
        obtain ⟨best, hbest, hexplored⟩ := exists_foldlM (l := next a) (f := fun (best : Best α) c =>
          (depthOf next fuel (a :: guard) best.memo c).map (best.improve c)) hstart fun done c best hc hexploring => by
            have hnode : a ∈ nodes := by
              by_contra hnot
              rw [hleaf a hnot] at hc
              cases hc
            have hless := unseen_cons_lt hnode ha
            obtain ⟨found, hfound, hanswers⟩ := ih (by omega) hexploring.sound fun g hg => (hpath' g hg).tail hc
            exact ⟨best.improve c found, by rw [hfound]; rfl, hexploring.improve hanswers⟩
        exact ⟨_, by rw [hbest]; rfl, hexplored.remember ha hmemo hpath'⟩

theorem exists_deepest {nodes : List α} (hleaf : ∀ a ∉ nodes, next a = []) (candidates : List α) :
    ∃ best, deepest next (nodes.length + 1) candidates = some best ∧ Exploring next [] .empty candidates best := by
  refine exists_foldlM ⟨sound_empty, .refl [] .empty, .inl ⟨rfl, rfl⟩, fun c hc => by cases hc⟩
    fun done c best hc hexploring => ?_
  have hfuel := unseen_le_length nodes ([] : List α)
  obtain ⟨found, hfound, hanswers⟩ := @exists_depthOf α _ next nodes hleaf (nodes.length + 1) [] _ c (by omega)
    hexploring.sound nofun
  exact ⟨best.improve c found, by rw [hfound]; rfl, hexploring.improve hanswers⟩

/-! ### The chain -/

omit [DecidableEq α] in
theorem Sound.exists_trace (h : Sound next memo) (ha : memo.depth a = some depth) :
    ∃ l, trace memo.deepest depth (some a) = some (a :: l) ∧ (a :: l).IsChain (Edge next) ∧ (a :: l).length = depth := by
  induction depth generalizing a with
  | zero => exact absurd (h.pos ha) (Nat.lt_irrefl 0)
  | succ depth ih =>
    rcases h.link a (depth + 1) ha with ⟨hnone, hone⟩ | ⟨c, d, hc, hedge, hd, _, hsucc⟩
    · refine ⟨[], ?_, .singleton a, hone.symm⟩
      show (trace memo.deepest depth (memo.deepest a)).map (a :: ·) = some [a]
      rw [hnone]
      cases depth <;> rfl
    · obtain rfl : d = depth := by omega
      obtain ⟨l, htrace, hchain, hlength⟩ := ih hd
      refine ⟨c :: l, ?_, isChain_cons_cons.mpr ⟨hedge, hchain⟩, ?_⟩
      · show (trace memo.deepest d (memo.deepest a)).map (a :: ·) = some (a :: c :: l)
        rw [hc, htrace]
        rfl
      · show (c :: l).length + 1 = d + 1
        omega

end

/-- What the search answers: a chain of the graph that has the reported depth and starts at one of the nodes, and on an
acyclic graph none that starts there is longer. -/
structure Longest (next : α → List α) (candidates : List α) (depth : ℕ) (path : List α) : Prop where
  chain : path.IsChain (Edge next)
  length_eq : path.length = depth
  head : ∀ a ∈ path.head?, a ∈ candidates
  longest : Acyclic (Edge next) → ∀ a ∈ candidates, ∀ l : List α, (a :: l).IsChain (Edge next) → (a :: l).length ≤ depth

/-- **The search ends, on every graph, and is right.** -/
theorem exists_search {next : α → List α} {nodes : List α} (hleaf : ∀ a ∉ nodes, next a = []) (candidates : List α) :
    ∃ depth path, search next (nodes.length + 1) candidates = some (depth, path) ∧ Longest next candidates depth path := by
  obtain ⟨best, hbest, hexplored⟩ := exists_deepest hleaf candidates
  have hlongest : Acyclic (Edge next) → ∀ a ∈ candidates, ∀ l : List α, (a :: l).IsChain (Edge next) →
      (a :: l).length ≤ best.depth := by
    intro hacyc a ha l hl
    rcases hexplored.longest a ha with hguard | ⟨d, hd, hle⟩
    · cases hguard
    · exact Nat.le_trans (hexplored.sound.longest hacyc a d hd l hl) hle
  rw [search, hbest]
  rcases hexplored.chosen with ⟨hnone, hzero⟩ | ⟨a, ha, hmem, hdepth⟩
  · refine ⟨best.depth, [], ?_, .nil, hzero.symm, nofun, hlongest⟩
    show (trace best.memo.deepest best.depth best.chosen).bind _ = _
    rw [hnone, hzero]
    rfl
  · obtain ⟨l, htrace, hchain, hlength⟩ := hexplored.sound.exists_trace hdepth
    refine ⟨best.depth, a :: l, ?_, hchain, hlength, fun b hb => ?_, hlongest⟩
    · show (trace best.memo.deepest best.depth best.chosen).bind _ = _
      rw [ha, htrace]
      rfl
    · obtain rfl : a = b := Option.some.inj hb
      exact hmem

end LongestChain
