import Forgent.DepGraph
import Forgent.Members
import Mathlib.Data.Int.ConditionallyCompleteOrder

/-!
# The ready frontier

`frontier` collects the items that can be started at a step, and sorts them.  An item can be started when it is
not started yet, its dependencies are resolved, and no descendant of it is open; the descendants are found by
a walk over the index of the children, which remembers what it has seen.

`Ready` says what is collected, and `readyKey` what is sorted by.  `frontier_exact` holds of every map of items
whose dependencies are lists, whose two keys are integers, and whose parents can be names in the index.
-/

namespace Forgent

open Json List Option

/-! ### Sorting by a key -/

section

variable {α β : Type*} [LinearOrder β] {keyOf : α → β} {l : List α}

theorem not_sublist_swap {a b : α} (hl : l.Nodup) (h : [a, b].Sublist l) : ¬ [b, a].Sublist l := by
  induction l with
  | nil => simp
  | cons c l ih =>
    obtain ⟨hc, hl⟩ := nodup_cons.mp hl
    have hhead : ∀ x y, [x, y].Sublist (c :: l) → ([x, y].Sublist l ∨ x = c) ∧ (y ∈ l) := by
      intro x y hxy
      rcases sublist_cons_iff.mp hxy with hxy | ⟨r, hr, hxy⟩
      · exact ⟨.inl hxy, hxy.subset (by simp)⟩
      · cases hr
        exact ⟨.inr rfl, singleton_sublist.mp hxy⟩
    intro hba
    obtain ⟨hfirst, hb⟩ := hhead a b h
    obtain ⟨hfirst', ha⟩ := hhead b a hba
    rcases hfirst with hab | rfl
    · rcases hfirst' with hba | rfl
      · exact ih hl hab hba
      · exact hc hb
    · exact hc ha

theorem sublist_or_swap {a b : α} (ha : a ∈ l) (hb : b ∈ l) (hne : a ≠ b) : [a, b].Sublist l ∨ [b, a].Sublist l := by
  have hsymm : Std.Symm fun x y => [x, y].Sublist l ∨ [y, x].Sublist l := ⟨fun _ _ => Or.symm⟩
  have hpair : l.Pairwise fun x y => [x, y].Sublist l ∨ [y, x].Sublist l :=
    pairwise_iff_forall_sublist.mpr .inl
  exact hpair.forall ha hb hne

/-- **The sort by a key is stable**: what has the same key stays in its order. -/
theorem pairwise_insertionSort_key (hl : l.Nodup) : (l.insertionSort fun a b => keyOf a ≤ keyOf b).Pairwise fun a b =>
    keyOf a < keyOf b ∨ keyOf a = keyOf b ∧ [a, b].Sublist l := by
  let r : α → α → Prop := fun a b => keyOf a ≤ keyOf b
  have htotal : Std.Total r := ⟨fun a b => le_total (keyOf a) (keyOf b)⟩
  have htrans : IsTrans α r := ⟨fun _ _ _ => le_trans⟩
  have hnodup : (l.insertionSort r).Nodup := (perm_insertionSort r l).nodup_iff.mpr hl
  rw [pairwise_iff_forall_sublist]
  intro a b hab
  have hle : r a b := pairwise_iff_forall_sublist.mp (pairwise_insertionSort r l) hab
  rcases lt_or_eq_of_le hle with hlt | heq
  · exact .inl hlt
  · refine .inr ⟨heq, ?_⟩
    have hne : a ≠ b := by simpa using hnodup.sublist hab
    have ha : a ∈ l := (mem_insertionSort r).mp (hab.subset (by simp))
    have hb : b ∈ l := (mem_insertionSort r).mp (hab.subset (by simp))
    -- standing the other way round, they would do so behind the sort, too
    refine (sublist_or_swap ha hb hne).resolve_right fun hba => ?_
    have hsorted : [b, a].Sublist (l.insertionSort r) := pair_sublist_insertionSort heq.symm.le hba
    exact not_sublist_swap hnodup hab hsorted

end

namespace Frontier

open WorkItem Relation

/-! ### Statuses -/

/-- Not started: by the category, or by the status where no category was recorded. -/
def isTodoStatus (item : Fields) : Bool :=
  match item["statusCategory"]? with
  | some category => same (some category) (some (.str "todo"))
  | none => same item["status"]? (some (.str "todo"))

/-- `TAIL_RESOLVED_STATUSES`. -/
def tailResolvedStatuses : List String := ["delivered", "retrospective", "cleanup", "done"]

/-- `LEGACY_CANCELED_STATUS`. -/
def legacyCanceledStatus : String := "wontfix"

def isCanceledStatus (item : Option Fields) : Bool :=
  match item with
  | none => false
  | some item =>
    if isOneOf tailResolvedStatuses item["status"]? then false
    else
      match item["statusCategory"]? with
      | some category => same (some category) (some (.str "canceled"))
      | none => same item["status"]? (some (.str legacyCanceledStatus))

def isResolvedStatus (item : Option Fields) : Bool :=
  match item with
  | none => false
  | some item => isOneOf tailResolvedStatuses item["status"]? || isCanceledStatus (some item)

/-! ### Descendants -/

/-- The members that every object has: under these names an empty object finds something that is no list. -/
def objectPrototype : List String :=
  ["constructor", "toString", "valueOf", "toLocaleString", "hasOwnProperty", "isPrototypeOf", "propertyIsEnumerable",
    "__proto__", "__defineGetter__", "__defineSetter__", "__lookupGetter__", "__lookupSetter__"]

section

variable (host : Host) (work : WorkMap)

/-- The parent that an item names. -/
def parentOf (item : Fields) : Option String :=
  if truthy item["parent"]? then some (key host.arithmetic item["parent"]?) else none

/-- `index[parent].push(id)`, behind `if (!index[parent]) index[parent] = []`; none is the error of a push to what
is no list. -/
def pushChild (index : Table (List String)) (parent id : String) : Option (Table (List String)) :=
  if objectPrototype.contains parent then none else some (Table.push index parent id)

def indexChild (index : Table (List String)) (e : String × Fields) : Option (Table (List String)) :=
  match parentOf host e.2 with
  | none => some index
  | some parent => pushChild index parent e.1

def indexChildrenByParent : Option (Table (List String)) := work.foldlM (indexChild host) ∅

/-- A descendant is not resolved.  The walk remembers what it has seen; it starts from an item, whose id is never
the name of a member that every object has. -/
def hasOpenDescendant (id : String) (childrenByParent : Table (List String)) : Bool :=
  (DepthFirst.search (fun parent => childrenByParent.getD parent []) (fun child => (work.lookup child).isSome)
    (fun child => !isResolvedStatus (work.lookup child)) (work.length + 1) [] id).isNone

/-! ### The frontier -/

/-- `item.deps.every(dep => isResolvedStatus(work[dep]))`; none is the error of dependencies that are no list. -/
def depsReady (item : Fields) : Option Bool :=
  (arrayOf item["deps"]?).map fun deps => deps.all fun dep => isResolvedStatus (work.lookup (text host.arithmetic dep))

def standsAt (phase : String) (item : Fields) : Bool :=
  let step := stepForPhase host.arithmetic host.domains item
  (step phase).any fun phaseStep =>
    same (orElse item["workflowStep"]? ((step "execute").map .str)) (some (.str phaseStep))

/-- The turn of one item in the loop of `frontier`. -/
def isReady (childrenByParent : Table (List String)) (phase id : String) (item : Fields) : Option Bool :=
  if !isTodoStatus item then some false
  else if !standsAt host phase item then some false
  else if hasOpenDescendant work id childrenByParent then some false
  else depsReady host work item

/-- `a - b` of integers. -/
def minus : Option Json → Option Json → ℤ
  | some (.num (.int m)), some (.num (.int n)) => m - n
  | _, _ => 0

def compareReadyOrder (a b : Fields) : ℤ :=
  if !same a["priority"]? b["priority"]? then
    if a["priority"]?.isNone then 1
    else if b["priority"]?.isNone then -1
    else minus a["priority"]? b["priority"]?
  else if !same a["intent"]? b["intent"]? then
    if a["intent"]?.isNone then 1
    else if b["intent"]?.isNone then -1
    else minus b["intent"]? a["intent"]?
  else 0

def collectReady (childrenByParent : Table (List String)) (phase : String) : Option (List Fields) :=
  work.foldlM (fun ready e => (isReady host work childrenByParent phase e.1 e.2).map fun ok =>
    if ok then ready ++ [e.2] else ready) []

/-- `frontier`; none when it throws.  The sort of the language is stable, as this one is. -/
def frontier (phase : String) : Option (List Fields) := do
  let childrenByParent ← indexChildrenByParent host work
  let ready ← collectReady host work childrenByParent phase
  return ready.insertionSort fun a b => compareReadyOrder a b ≤ 0

/-! ### What the frontier is -/


def Child (parent id : String) : Prop := ∃ item, (id, item) ∈ work ∧ parentOf host item = some parent

def Resolved (id : String) : Prop := isResolvedStatus (work.lookup id) = true

/-- The item can be started. -/
structure Ready (phase id : String) (item : Fields) : Prop where
  declared : (id, item) ∈ work
  todo : isTodoStatus item = true
  step : standsAt host phase item = true
  deps : ∃ deps, item["deps"]? = some (.arr deps) ∧ ∀ dep ∈ deps, Resolved work (text host.arithmetic dep)
  descendants : ∀ id', TransGen (Child host work) id id' → Resolved work id'

end

/-- From the lowest to the highest, and what is not there last. -/
def ascending (value : Option Json) : WithTop ℤ :=
  match value with
  | some (.num (.int n)) => (n : ℤ)
  | _ => ⊤

/-- From the highest to the lowest, and what is not there last. -/
def descending (value : Option Json) : WithTop ℤᵒᵈ :=
  match value with
  | some (.num (.int n)) => (OrderDual.toDual n : ℤᵒᵈ)
  | _ => ⊤

/-- By priority, and then by intent. -/
def readyKey (item : Fields) : WithTop ℤ ×ₗ WithTop ℤᵒᵈ :=
  toLex (ascending item["priority"]?, descending item["intent"]?)

/-- A key that is not there, or an integer. -/
def IsKey (value : Option Json) : Prop := value = none ∨ ∃ n : ℤ, value = some (.num (.int n))

/-- In front of each other: by their keys, and as they were declared where these agree. -/
def InOrder (declared : List Fields) (a b : Fields) : Prop :=
  readyKey a < readyKey b ∨ readyKey a = readyKey b ∧ [a, b].Sublist declared

/-- What the frontier reads of an item is as it wants it. -/
structure Readable (host : Host) (item : Fields) : Prop where
  deps : ∃ deps, item["deps"]? = some (.arr deps)
  priority : IsKey item["priority"]?
  intent : IsKey item["intent"]?
  parent : ∀ parent, parentOf host item = some parent → parent ∉ objectPrototype

/-! ### The index and the walk over it -/

variable {host : Host} {work : WorkMap} {phase : String} {index : Table (List String)} {x y : Option Json}

theorem mem_push {parent id parent' id' : String} : id' ∈ (Table.push index parent id).getD parent' [] ↔
      id' ∈ index.getD parent' [] ∨ parent = parent' ∧ id = id' := by
  show id' ∈ (index.insert parent (index.getD parent [] ++ [id])).getD parent' [] ↔ _
  rw [Std.ExtTreeMap.getD_insert]
  by_cases hsame : parent = parent'
  · subst hsame
    simp [eq_comm]
  · simp [hsame]

/-- **The index has the children of every parent.** -/
theorem mem_childrenByParent (h : indexChildrenByParent host work = some index)
    (parent id : String) : id ∈ index.getD parent [] ↔ Child host work parent id := by
  have hindex : ∀ parent id, id ∈ index.getD parent [] ↔ Child host work parent id := by
    refine DepthFirst.foldlM_option_induction (P := fun done (index : Table (List String)) =>
      ∀ parent id, id ∈ index.getD parent [] ↔ Child host done parent id) h ?_ ?_
    · intro parent id
      simp [Child]
    · intro done e index index' _ ih hstep parent id
      have hchild : Child host (done ++ [e]) parent id ↔
          Child host done parent id ∨ parentOf host e.2 = some parent ∧ e.1 = id := by
        constructor
        · rintro ⟨item, hmem, hparent⟩
          rcases mem_append.mp hmem with hmem | hmem
          · exact .inl ⟨item, hmem, hparent⟩
          · cases mem_singleton.mp hmem
            exact .inr ⟨hparent, rfl⟩
        · rintro (⟨item, hmem, hparent⟩ | ⟨hparent, rfl⟩)
          · exact ⟨item, mem_append_left _ hmem, hparent⟩
          · exact ⟨e.2, by simp, hparent⟩
      rw [hchild, ← ih]
      unfold indexChild at hstep
      split at hstep
      · rename_i hnone
        cases hstep
        simp [hnone]
      · rename_i named hnamed
        unfold pushChild at hstep
        split at hstep
        · cases hstep
        · cases hstep
          rw [mem_push, hnamed, Option.some.injEq]
  exact hindex parent id

theorem indexChildrenByParent_isSome : (indexChildrenByParent host work).isSome = true ↔
    ∀ e ∈ work, ∀ parent, parentOf host e.2 = some parent → parent ∉ objectPrototype := by
  have hstep : ∀ (index : Table (List String)) (e : String × Fields), (indexChild host index e).isSome = true ↔
      ∀ parent, parentOf host e.2 = some parent → parent ∉ objectPrototype := by
    intro index e
    unfold indexChild
    split
    · rename_i hnone
      simp [hnone]
    · rename_i named hnamed
      unfold pushChild
      split
      · rename_i hproto
        simpa [hnamed] using hproto
      · rename_i hproto
        simpa [hnamed] using hproto
  have hfold : ∀ index : Table (List String), (work.foldlM (indexChild host) index).isSome = true ↔
      ∀ e ∈ work, ∀ parent, parentOf host e.2 = some parent → parent ∉ objectPrototype := by
    induction work with
    | nil => simp
    | cons e work ih =>
      intro index
      rw [foldlM_cons, forall_mem_cons, ← hstep index e]
      cases hindex : indexChild host index e with
      | none => simp
      | some index' => simpa using ih index'
  exact hfold ∅

/-- **The walk finds every open descendant**, through chains of any length and round cycles. -/
theorem hasOpenDescendant_eq_false (h : indexChildrenByParent host work = some index)
    (id : String) : hasOpenDescendant work id index = false ↔
      ∀ id', TransGen (Child host work) id id' → Resolved work id' := by
  have hmem := mem_childrenByParent h
  have hnodes : ∀ parent, ∀ child ∈ index.getD parent [], child ∈ work.map Prod.fst := by
    intro parent child hchild
    obtain ⟨item, hitem, _⟩ := (hmem parent child).mp hchild
    exact List.mem_map_of_mem (f := Prod.fst) hitem
  -- a child is in the map, so the walk enters it
  have hbehind : DepthFirst.Behind (fun parent => index.getD parent []) (fun child => (work.lookup child).isSome) =
      Child host work := by
    funext parent child
    apply propext
    show child ∈ index.getD parent [] ∧ (work.lookup child).isSome = true ↔ _
    rw [hmem, and_iff_left_iff_imp]
    rintro ⟨item, hitem, _⟩
    rw [lookup_isSome_iff]
    exact ⟨(child, item), hitem, by simp⟩
  have hlength : work.length = (work.map Prod.fst).length := (length_map _).symm
  rw [hasOpenDescendant, isNone_eq_false_iff, hlength, DepthFirst.search_isSome_iff hnodes, hbehind]
  simp only [Resolved, Bool.not_eq_eq_eq_not, Bool.not_false]

/-! ### What is collected -/

theorem depsReady_eq_true {item : Fields} : depsReady host work item = some true ↔
    ∃ deps, item["deps"]? = some (.arr deps) ∧ ∀ dep ∈ deps, Resolved work (text host.arithmetic dep) := by
  unfold depsReady arrayOf
  split
  · rename_i deps hdeps
    rw [hdeps]
    simp [Resolved]
  · rename_i hno
    constructor
    · intro h
      cases h
    · rintro ⟨deps, hdeps, _⟩
      exact absurd hdeps (hno deps)

/-- **What is collected can be started.** -/
theorem isReady_eq_true (h : indexChildrenByParent host work = some index) {e : String × Fields} (he : e ∈ work) :
    isReady host work index phase e.1 e.2 = some true ↔ Ready host work phase e.1 e.2 := by
  rw [isReady]
  cases htodo : isTodoStatus e.2 with
  | false => simpa using fun hready : Ready host work phase e.1 e.2 => absurd hready.todo (by simp [htodo])
  | true =>
    cases hstep : standsAt host phase e.2 with
    | false => simpa using fun hready : Ready host work phase e.1 e.2 => absurd hready.step (by simp [hstep])
    | true =>
      have hwalk := hasOpenDescendant_eq_false h e.1
      cases hopen : hasOpenDescendant work e.1 index with
      | true =>
        rw [hopen] at hwalk
        have hdescendants := mt hwalk.mpr (by simp)
        simpa using fun hready : Ready host work phase e.1 e.2 => hdescendants hready.descendants
      | false =>
        show depsReady host work e.2 = some true ↔ _
        rw [depsReady_eq_true]
        constructor
        · intro hdeps
          exact ⟨he, htodo, hstep, hdeps, hwalk.mp hopen⟩
        · intro hready
          exact hready.deps

variable (host work phase) in
theorem isReady_isSome (index : Table (List String)) (id : String) {item : Fields}
    (hdeps : ∃ deps, item["deps"]? = some (.arr deps)) : (isReady host work index phase id item).isSome = true := by
  obtain ⟨deps, hdeps⟩ := hdeps
  have hsome : (depsReady host work item).isSome = true := by
    rw [depsReady, hdeps]
    rfl
  rw [isReady]
  split
  · rfl
  · split
    · rfl
    · split
      · rfl
      · exact hsome

theorem collectReady_eq (hdeps : ∀ e ∈ work, ∃ deps, e.2["deps"]? = some (.arr deps)) :
    collectReady host work index phase =
      some ((work.filter fun e => isReady host work index phase e.1 e.2 = some true).map Prod.snd) := by
  have hfold : ∀ (l : WorkMap) (start : List Fields), (∀ e ∈ l, ∃ deps, e.2["deps"]? = some (.arr deps)) →
      l.foldlM (fun ready e => (isReady host work index phase e.1 e.2).map fun ok =>
        if ok then ready ++ [e.2] else ready) start =
      some (start ++ (l.filter fun e => isReady host work index phase e.1 e.2 = some true).map Prod.snd) := by
    intro l
    induction l with
    | nil =>
      intro start _
      simp
    | cons e l ih =>
      intro start hl
      obtain ⟨he, hl⟩ := forall_mem_cons.mp hl
      obtain ⟨ok, hok⟩ := isSome_iff_exists.mp
        (isReady_isSome host work phase index e.1 he)
      rw [foldlM_cons, hok, map_some]
      show l.foldlM _ (if ok then start ++ [e.2] else start) = _
      rw [ih _ hl]
      cases ok with
      | false | true => simp [hok]
  exact hfold work [] hdeps

/-! ### What is sorted -/

theorem same_iff_ascending (hx : IsKey x) (hy : IsKey y) : same x y = true ↔ ascending x = ascending y := by
  rcases hx with rfl | ⟨m, rfl⟩ <;> rcases hy with rfl | ⟨n, rfl⟩ <;> simp [same, ascending]

theorem same_iff_descending (hx : IsKey x) (hy : IsKey y) : same x y = true ↔ descending x = descending y := by
  rcases hx with rfl | ⟨m, rfl⟩ <;> rcases hy with rfl | ⟨n, rfl⟩ <;> simp [same, descending]

theorem ascending_lt (hx : IsKey x) (hy : IsKey y) (hne : ascending x ≠ ascending y) :
    (if x.isNone then 1 else if y.isNone then -1 else minus x y : ℤ) ≤ 0 ↔ ascending x < ascending y := by
  rcases hx with rfl | ⟨m, rfl⟩ <;> rcases hy with rfl | ⟨n, rfl⟩
  · exact absurd rfl hne
  · simp [ascending]
  · simp [ascending]
  · have hmn : m ≠ n := fun heq => hne (heq ▸ rfl)
    show m - n ≤ 0 ↔ ((m : ℤ) : WithTop ℤ) < ((n : ℤ) : WithTop ℤ)
    rw [WithTop.coe_lt_coe]
    omega

theorem descending_lt (hx : IsKey x) (hy : IsKey y) (hne : descending x ≠ descending y) :
    (if x.isNone then 1 else if y.isNone then -1 else minus y x : ℤ) ≤ 0 ↔ descending x < descending y := by
  rcases hx with rfl | ⟨m, rfl⟩ <;> rcases hy with rfl | ⟨n, rfl⟩
  · exact absurd rfl hne
  · simp [descending]
  · simp [descending]
  · have hmn : m ≠ n := fun heq => hne (heq ▸ rfl)
    show n - m ≤ 0 ↔ ((OrderDual.toDual m : ℤᵒᵈ) : WithTop ℤᵒᵈ) < ((OrderDual.toDual n : ℤᵒᵈ) : WithTop ℤᵒᵈ)
    rw [WithTop.coe_lt_coe, OrderDual.toDual_lt_toDual]
    omega

/-- **The comparison is that of the keys.** -/
theorem compareReadyOrder_nonpos {a b : Fields} (hpa : IsKey a["priority"]?) (hia : IsKey a["intent"]?)
    (hpb : IsKey b["priority"]?) (hib : IsKey b["intent"]?) : compareReadyOrder a b ≤ 0 ↔ readyKey a ≤ readyKey b := by
  rw [readyKey, readyKey, Prod.Lex.toLex_le_toLex, compareReadyOrder]
  by_cases hpriority : ascending a["priority"]? = ascending b["priority"]?
  · rw [(same_iff_ascending hpa hpb).mpr hpriority]
    by_cases hintent : descending a["intent"]? = descending b["intent"]?
    · rw [(same_iff_descending hia hib).mpr hintent]
      simp [hpriority, hintent]
    · rw [Bool.eq_false_iff.mpr (mt (same_iff_descending hia hib).mp hintent)]
      have hlt := descending_lt hia hib hintent
      simp only [Bool.not_true, Bool.false_eq_true, if_false, Bool.not_false, if_true, hlt, hpriority, lt_irrefl, false_or,
        true_and, le_iff_lt_or_eq, hintent, or_false]
  · rw [Bool.eq_false_iff.mpr (mt (same_iff_ascending hpa hpb).mp hpriority)]
    have hlt := ascending_lt hpa hpb hpriority
    simp only [Bool.not_false, if_true, hlt, hpriority, false_and, or_false]

/-! ### The whole frontier -/

/-- **The frontier is exact**: of items that are all different, whose members are as it wants them, it returns those
that can be started, each once, in their order. -/
theorem exists_frontier (phase : String) (hread : ∀ e ∈ work, Readable host e.2) (hnodup : (work.map Prod.snd).Nodup) :
    ∃ ready, frontier host work phase = some ready ∧ (∀ item, item ∈ ready ↔ ∃ id, Ready host work phase id item) ∧
      ready.Nodup ∧ ready.Pairwise (InOrder (work.map Prod.snd)) := by
  obtain ⟨index, hindex⟩ := isSome_iff_exists.mp
    (indexChildrenByParent_isSome.mpr fun e he => (hread e he).parent)
  let found := (work.filter fun e => isReady host work index phase e.1 e.2 = some true).map Prod.snd
  have hfound : collectReady host work index phase = some found := collectReady_eq fun e he => (hread e he).deps
  have hsub : found.Sublist (work.map Prod.snd) := filter_sublist.map Prod.snd
  have hfoundNodup : found.Nodup := hnodup.sublist hsub
  have hmem : ∀ item, item ∈ found ↔ ∃ id, Ready host work phase id item := by
    intro item
    constructor
    · intro hitem
      obtain ⟨e, he, rfl⟩ := List.mem_map.mp hitem
      obtain ⟨hework, hready⟩ := mem_filter.mp he
      exact ⟨e.1, (isReady_eq_true hindex hework).mp (of_decide_eq_true hready)⟩
    · rintro ⟨id, hready⟩
      have htrue := (isReady_eq_true hindex hready.declared).mpr hready
      exact List.mem_map.mpr ⟨(id, item), mem_filter.mpr ⟨hready.declared, decide_eq_true htrue⟩, rfl⟩
  have hsort : (found.insertionSort fun a b => compareReadyOrder a b ≤ 0) =
      found.insertionSort fun a b => readyKey a ≤ readyKey b := by
    have hreadable : ∀ item ∈ found, Readable host item := by
      intro item hitem
      obtain ⟨e, he, rfl⟩ := List.mem_map.mp (hsub.subset hitem)
      exact hread e he
    have hcongr := map_insertionSort (fun a b => compareReadyOrder a b ≤ 0) (fun a b => readyKey a ≤ readyKey b) id
      found fun a ha b hb => compareReadyOrder_nonpos (hreadable a ha).priority (hreadable a ha).intent
        (hreadable b hb).priority (hreadable b hb).intent
    simpa using hcongr
  refine ⟨found.insertionSort fun a b => compareReadyOrder a b ≤ 0, ?_, fun item => ?_, ?_, ?_⟩
  · rw [frontier, hindex]
    show (collectReady host work index phase).bind _ = _
    rw [hfound]
    rfl
  · rw [mem_insertionSort]
    exact hmem item
  · exact (perm_insertionSort _ found).nodup_iff.mpr hfoundNodup
  · rw [hsort]
    refine (pairwise_insertionSort_key hfoundNodup).imp fun hab => ?_
    exact hab.imp_right fun hsame => ⟨hsame.1, hsame.2.trans hsub⟩

end Frontier

end Forgent
