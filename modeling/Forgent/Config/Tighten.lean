import Forgent.Config.GlobalOnly

/-!
# Settings that a project may only tighten

A project file may replace the value at a `tighten` path, but by no weaker one.  The check compares what the project wrote
at such a path with what the layers beneath merge to there.  It says nothing where the project file removes the path from
above, as a null does that switches an entry off.
-/

namespace Forgent.Config

open List Option

section Reaching

variable {rules : Path → Option MergeRule} {rest path : Path} {top : Json}

/-- A value that the top layer holds behind mappings merged key by key, at a path that is replaced whole, is what the merge
has there. -/
theorem merge_reaches {depth : ℕ} {merged value : Json} {below : List Json}
    (hmerged : mergeNode rules depth path (top :: below) = .ok merged)
    (habove : ∀ front back node, rest = front ++ back → back ≠ [] → jsonAt top front = some node →
      isObject node = true ∧ ruleFor rules (path ++ front) node = .deep)
    (hat : jsonAt top rest = some value) (hwhole : ruleFor rules (path ++ rest) value ≠ .deep) :
    jsonAt merged rest = some value := by
  induction rest generalizing depth path top merged below with
  | nil =>
    obtain rfl : top = value := some.inj hat
    rw [append_nil] at hwhole
    cases depth with
    | zero => cases hmerged
    | succ depth =>
      rw [mergeNode_whole hmerged (.inl hwhole)]
      rfl
  | cons segment rest ih =>
    obtain ⟨hobject, hdeep⟩ := habove [] (segment :: rest) top rfl (by simp) rfl
    rw [append_nil] at hdeep
    obtain ⟨kid, hkid, hrest⟩ := bind_eq_some_iff.mp hat
    cases segment with
    | index i =>
      rw [childOf_index_of_isObject hobject] at hkid
      cases hkid
    | key key =>
      cases depth with
      | zero => cases hmerged
      | succ depth =>
        obtain ⟨-, hmerge⟩ := mergeNode_deep hmerged hdeep hobject
        have hholders : ∀ maps, holders (top :: maps) key = kid :: holders maps key := by
          intro maps
          rw [holders_cons, hkid]
          rfl
        obtain ⟨kidmerged, hkidmerged, hkidmerge⟩ := hmerge.child key (by rw [hholders]; simp)
        rw [hholders] at hkidmerge
        show (childOf merged (.key key)).bind _ = _
        rw [hkidmerged]
        apply ih hkidmerge _ hrest
        · rwa [append_assoc]
        · intro front back node hsplit hback hnode
          rw [append_assoc]
          apply habove (.key key :: front) back node (by rw [hsplit]; rfl) hback
          show (childOf top (.key key)).bind _ = _
          rw [hkid]
          exact hnode

theorem passes_of_not_held (hne : rest ≠ [])
    (habove : ∀ front back node, rest = front ++ back → back ≠ [] → jsonAt top front = some node →
      isObject node = true ∧ ruleFor rules (path ++ front) node = .deep)
    (hat : jsonAt top rest = none) : Passes rules path top none none rest := by
  induction rest generalizing path top with
  | nil => exact absurd rfl hne
  | cons segment rest ih =>
    obtain ⟨hobject, hdeep⟩ := habove [] (segment :: rest) top rfl (by simp) rfl
    rw [append_nil] at hdeep
    refine ⟨hobject, hdeep, by simp, by simp, ?_⟩
    cases hkid : childOf top segment with
    | none => rfl
    | some kid =>
      rw [jsonAt, hkid] at hat
      cases rest with
      | nil => cases hat
      | cons next rest =>
        apply ih (by simp) _ hat
        intro front back node hsplit hback hnode
        rw [append_assoc]
        apply habove (segment :: front) back node (by rw [hsplit]; rfl) hback
        show (childOf top segment).bind _ = _
        rw [hkid]
        exact hnode

end Reaching

theorem lowers_self (value : Json) : lowers value value = false := by
  cases value with
  | obj fields =>
    have hpolicy : ((childOf (.obj fields) (.key "policy")).filter (· ≠ .null)).any
        (fun p => childOf (.obj fields) (.key "policy") ≠ some p) = false := by
      cases childOf (.obj fields) (.key "policy") with
      | none => rfl
      | some p => by_cases h : p = .null <;> simp [Option.filter, h]
    rw [lowers]
    simp only [lt_irrefl, decide_false, Bool.false_or, Bool.and_not_self, Bool.or_false]
    exact hpolicy
  | bool b => cases b <;> rfl
  | _ => simp [lowers]

section Snapshots

variable {ctx : Context} {srcs : Sources} {path : Path}

def belowProject (ctx : Context) (srcs : Sources) : List Layer :=
  (layersOver ctx (filesOf ctx srcs (keptGlobal ctx srcs))).filter fun layer => layer.name ≠ "project"

theorem layers_eq : layersOver ctx (filesOf ctx srcs (keptGlobal ctx srcs)) =
    (if projectLayer ctx srcs = .null then [] else [⟨"project", projectLayer ctx srcs⟩]) ++ belowProject ctx srcs := by
  rw [belowProject, layersOver, filesOf]
  generalize detected ctx _ = found
  generalize (keptGlobal ctx srcs).getD .null = global
  generalize srcs.accounts.getD .null = accounts
  generalize projectLayer ctx srcs = project
  by_cases hproject : project = .null <;> by_cases hglobal : global = .null <;> by_cases haccounts : accounts = .null <;>
    by_cases hfound : found = .null <;> by_cases hstandard : ctx.standard = .null <;>
    simp [present, hproject, hglobal, haccounts, hfound, hstandard]

theorem isTighten_iff : isTighten ctx path = true ↔
    ∃ r, resolve ctx.schemas path = some r ∧ r.merge = some "tighten" := by
  rw [isTighten, decide_eq_true_eq]
  exact bind_eq_some_iff

/-- Above `path` the layer has nothing but mappings merged key by key. -/
def LeadsTo (schemas : Schemas) (layer : Json) (path : Path) : Prop :=
  ∀ front back node, path = front ++ back → back ≠ [] → jsonAt layer front = some node → MergedByKey schemas front node

theorem not_lowered {layer lower value given : Json} {below : List Layer}
    (h : lowered ctx (⟨"project", layer⟩ :: below) = .ok []) (hbelow : below ≠ []) (hlower : mergeOf ctx below = .ok lower)
    (hpath : isTighten ctx path = true) (hleads : LeadsTo ctx.schemas layer path) (hat : jsonAt layer path = some value)
    (hnull : jsonAt layer path ≠ some .null) (hgiven : jsonAt lower path = some given) : lowers given value = false := by
  have hne : path ≠ [] := by
    intro heq
    obtain ⟨r, hr, -⟩ := isTighten_iff.mp hpath
    rw [heq] at hr
    cases hr
  have hvisited : (path, value) ∈ descend (fun path _ => !isTighten ctx path) [] layer := by
    apply mem_descend hat hne
    intro front back kid hsplit hfront hback hkid
    rw [nil_append, Bool.not_eq_true']
    by_contra htight
    obtain ⟨r, hr, hrule⟩ := isTighten_iff.mp (Bool.not_eq_false _ ▸ htight)
    cases (hleads front back kid hsplit hback hkid).2 r hr with
    | inl hnone =>
      rw [hnone] at hrule
      cases hrule
    | inr hdeep =>
      rw [hdeep] at hrule
      exact absurd hrule (by decide)
  rw [lowered, if_neg (by simpa using hbelow), hlower] at h
  have hnone := map_eq_nil_iff.mp (Except.ok.inj h)
  have hout := filter_eq_nil_iff.mp hnone (path, value) hvisited
  have hvalue : value ≠ .null := fun heq => hnull (heq ▸ hat)
  simpa [hpath, hvalue, hgiven] using hout

/-- **A project file does not weaken what it may only tighten**: where it has nothing but mappings merged key by key above
a `tighten` path, and no null there, the value in force is as firm as the layers beneath give it. -/
theorem project_only_tightens {merged lower given : Json} {path : Path} (h : build ctx srcs = .ok merged)
    (hlower : mergeOf ctx (belowProject ctx srcs) = .ok lower) (hpath : isTighten ctx path = true)
    (habove : projectLayer ctx srcs = .null ∨ LeadsTo ctx.schemas (projectLayer ctx srcs) path)
    (hnull : jsonAt (projectLayer ctx srcs) path ≠ some .null) (hgiven : jsonAt lower path = some given)
    (hheld : given ≠ .null) : ∃ value, jsonAt merged path = some value ∧ value ≠ .null ∧ lowers given value = false := by
  have hbuilt := built_of_build h
  have hmerge := hbuilt.merge
  have htight := hbuilt.tight
  rw [layers_eq] at hmerge htight
  obtain ⟨r, hr, hrule⟩ := isTighten_iff.mp hpath
  have hne : path ≠ [] := by
    intro heq
    rw [heq] at hr
    cases hr
  have hbelow : belowProject ctx srcs ≠ [] := by
    intro hnil
    rw [hnil] at hlower
    obtain rfl : Json.null = lower := Except.ok.inj hlower
    cases path with
    | nil => exact hne rfl
    | cons segment rest => cases segment <;> cases hgiven
  by_cases hproject : projectLayer ctx srcs = .null
  · rw [if_pos hproject, nil_append, hlower] at hmerge
    cases hmerge
    exact ⟨given, hgiven, hheld, lowers_self given⟩
  · rw [if_neg hproject] at hmerge htight
    have hleads := habove.resolve_left hproject
    have hdeep : ∀ front back node, path = front ++ back → back ≠ [] → jsonAt (projectLayer ctx srcs) front = some node →
        isObject node = true ∧ ruleFor (ruleAt ctx.schemas) ([] ++ front) node = .deep :=
      fun front back node hsplit hback hnode =>
        ⟨(hleads front back node hsplit hback hnode).1, ruleFor_of_mergedByKey (hleads front back node hsplit hback hnode)⟩
    have hmerged := merge_of_mergeOf hmerge
    cases hat : jsonAt (projectLayer ctx srcs) path with
    | none =>
      have hpasses := passes_of_not_held hne hdeep hat
      have hsame : jsonAt merged path = jsonAt lower path := by
        refine @merge_passes _ _ (maxDepth + 1) _ _ _ ((belowProject ctx srcs).map Layer.json) [] _ _ _ hpasses ?_ ?_
        · simpa using hmerged
        · unfold Gives
          rw [if_neg (by simpa using hbelow)]
          exact ⟨lower, by simpa using merge_of_mergeOf hlower, rfl⟩
      exact ⟨given, hsame.trans hgiven, hheld, lowers_self given⟩
    | some value =>
      have hreplace : ruleFor (ruleAt ctx.schemas) ([] ++ path) value ≠ .deep := by
        rw [nil_append, ruleFor, ruleAt, hr, bind_some, hrule]
        simp
      refine ⟨value, merge_reaches hmerged hdeep hat hreplace, fun heq => hnull (heq ▸ hat), ?_⟩
      exact not_lowered htight hbelow hlower hpath hleads hat hnull hgiven

end Snapshots

/-! ### A capability with its confinement -/

namespace CapabilitySample

def schemas : Schemas := [
  ⟨"runner", .obj [("additionalProperties", .obj [
    ("type", .arr [.str "object", .str "null"]),
    ("properties", .obj [("confinement", .obj [("x-fgos-merge", .str "tighten")])])])]⟩]

def context : Context where
  schemas := schemas
  standard := .obj []
  detect _ := none
  validateSections _ _ := .ok []

def entry (mode : String) : Json := .obj [("review", .obj [("confinement", .obj [("mode", .str mode)])])]

def sources (project : Json) : Sources where
  project := some (.obj [("runner", project)])
  trusted := none
  global := some (.obj [("runner", entry "preferred")])
  accounts := none
  token := false

def confinement : Path := [.key "runner", .key "review", .key "confinement"]

theorem append_cases {front back : Path} (h : confinement = front ++ back) (hback : back ≠ []) :
    front = [] ∨ front = [.key "runner"] ∨ front = [.key "runner", .key "review"] := by
  rcases front with _ | ⟨a, _ | ⟨b, _ | ⟨c, front⟩⟩⟩
  · exact .inl rfl
  · simp_all [confinement]
  · simp_all [confinement]
  · have hnil := (append_eq_nil_iff.mp (List.cons.inj (List.cons.inj (List.cons.inj h).2).2).2.symm).2
    exact absurd hnil hback

theorem leadsTo : LeadsTo schemas (projectLayer context (sources (entry "required"))) confinement := by
  intro front back node hsplit hback hat
  have hmerge : ((resolve schemas front).all fun r => r.merge = none) = true ∧ isObject node = true := by
    rcases append_cases hsplit hback with rfl | rfl | rfl
    all_goals
      cases hat
      exact ⟨by decide, rfl⟩
  refine ⟨hmerge.2, fun r hr => .inl ?_⟩
  simpa [hr] using hmerge.1

end CapabilitySample

/-- The project may ask for more. -/
theorem project_only_tightens_capability : ∃ merged lower,
    build CapabilitySample.context (CapabilitySample.sources (CapabilitySample.entry "required")) = .ok merged ∧
    mergeOf CapabilitySample.context
      (belowProject CapabilitySample.context (CapabilitySample.sources (CapabilitySample.entry "required"))) = .ok lower ∧
    ∃ value, jsonAt merged CapabilitySample.confinement = some value ∧ value ≠ .null ∧
      lowers (.obj [("mode", .str "preferred")]) value = false :=
  ⟨_, _, rfl, rfl, @project_only_tightens CapabilitySample.context
    (CapabilitySample.sources (CapabilitySample.entry "required")) _ _ _ _ rfl rfl (by decide)
    (.inr CapabilitySample.leadsTo) (by decide) (by rfl) (by decide)⟩

/-- A null of the project switches the capability off, and the confinement that the global file requires is gone. -/
theorem project_switches_off : ∃ merged lower given,
    build CapabilitySample.context (CapabilitySample.sources (.obj [("review", .null)])) = .ok merged ∧
    mergeOf CapabilitySample.context
      (belowProject CapabilitySample.context (CapabilitySample.sources (.obj [("review", .null)]))) = .ok lower ∧
    isTighten CapabilitySample.context CapabilitySample.confinement = true ∧
    jsonAt lower CapabilitySample.confinement = some given ∧ given ≠ .null ∧
    jsonAt merged CapabilitySample.confinement = none := by
  refine ⟨.obj [("runner", .obj [("review", .null)])], .obj [("runner", CapabilitySample.entry "preferred")],
    .obj [("mode", .str "preferred")], ?_, ?_, ?_, ?_, ?_, ?_⟩
  all_goals decide

end Forgent.Config
