import Forgent.Config.Beneath
import Forgent.Config.Snapshot

/-!
# Global-only keys

A project file and the snapshot with and without it.  Where the guard looked at everything that the project layer holds,
the two snapshots agree at every global-only key.  A project file that is a scalar is never looked at: it is accepted,
and it is the whole snapshot.
-/

namespace Forgent.Config

open List

/-! ### The detected layer of the two snapshots -/

section Detected

variable {schemas : Schemas} {q : Path}

theorem keys_of_mem_detectWalk {fuel : ℕ} {node : At} {inherited : Inherited} {path : Path}
    (hpath : path ≠ [] ∧ KeyPath path) (h : q ∈ detectWalk schemas fuel node inherited path) : q ≠ [] ∧ KeyPath q := by
  have hself : ∀ here : Inherited, q ∈ (if 1 < path.length ∧ here.value "x-fgos-absent" = some "detected" then [path] else []) →
      q ≠ [] ∧ KeyPath q := by
    intro here hq
    split at hq
    · obtain rfl := mem_singleton.mp hq
      exact hpath
    · cases hq
  induction fuel generalizing node inherited path with
  | zero =>
    rw [detectWalk] at h
    split at h
    · cases h
    · exact hself _ (by simpa using h)
  | succ fuel ih =>
    rw [detectWalk] at h
    split at h
    · cases h
    · cases mem_append.mp h with
      | inl hq => exact hself _ hq
      | inr hq =>
        obtain ⟨⟨name, kid⟩, -, hkid⟩ := mem_flatMap.mp hq
        cases name with
        | none => cases hkid
        | some name =>
          have hlonger : path ++ [.key name] ≠ [] ∧ KeyPath (path ++ [.key name]) := by
            exact ⟨by simp, forall_mem_append.mpr ⟨hpath.2, forall_mem_singleton.mpr ⟨name, rfl⟩⟩⟩
          refine ih hlonger hkid fun here hq => ?_
          split at hq
          · obtain rfl := mem_singleton.mp hq
            exact hlonger
          · cases hq

theorem keys_of_mem_detectPaths (h : q ∈ detectPaths schemas) : q ≠ [] ∧ KeyPath q := by
  obtain ⟨⟨s, i⟩, -, hq⟩ := mem_flatMap.mp h
  exact keys_of_mem_detectWalk ⟨by simp, by simp [KeyPath]⟩ hq

/-- A layer that holds something. -/
def held (v : Json) : Option Json := if v = .null then none else some v

theorem held_jsonPut {node v : Json} (h : q ≠ [] ∧ KeyPath q) :
    held (jsonPut node q (some v)) = putAt (held node) q v := by
  obtain ⟨hne, hkeys⟩ := h
  cases q with
  | nil => exact absurd rfl hne
  | cons segment q =>
    obtain ⟨key, rfl⟩ := hkeys segment mem_cons_self
    have hobject := isObject_jsonPut node v key q
    rw [held, if_neg (by intro heq; rw [heq] at hobject; cases hobject), putAt]
    rw [held]
    split
    · next hnull => rw [hnull]; rfl
    · rfl

variable {rules : Path → Option MergeRule} (detect : Path → Option Json)

def detectAt (layer : Json) (path : Path) : Json :=
  match detect path with
  | some value => jsonPut layer path (some value)
  | none => layer

theorem Passes.detected {paths : List Path} {open' : Path → Bool} {top d d' : Json} {rest : Path}
    (h : Passes rules [] top (held d) (held d') rest) (hkeys : ∀ q ∈ paths, q ≠ [] ∧ KeyPath q)
    (hoff : ∀ q ∈ paths, (jsonAt top q).isSome = true → ¬ q <+: rest) :
    Passes rules [] top (held ((paths.filter fun q => !(jsonAt top q).isSome && open' q).foldl (detectAt detect) d))
      (held ((paths.filter open').foldl (detectAt detect) d')) rest := by
  induction paths generalizing d d' with
  | nil => exact h
  | cons q paths ih =>
    have hkeysq := hkeys q mem_cons_self
    have ih' := fun {d d'} h => @ih d d' h (forall_mem_cons.mp hkeys).2 (forall_mem_cons.mp hoff).2
    by_cases hopen : open' q = true
    · rw [filter_cons_of_pos (p := open') hopen, foldl_cons]
      by_cases htop : (jsonAt top q).isSome = true
      · rw [filter_cons_of_neg (by simp [htop])]
        apply ih'
        rw [detectAt]
        split
        · next value _ =>
          rw [held_jsonPut hkeysq]
          exact h.put_held hkeysq.2 htop (hoff q mem_cons_self htop)
        · exact h
      · rw [filter_cons_of_pos (by simp [htop, hopen]), foldl_cons]
        apply ih'
        rw [detectAt, detectAt]
        split
        · next value _ =>
          rw [held_jsonPut hkeysq, held_jsonPut hkeysq]
          exact h.put hkeysq.2 (by simpa using htop)
        · exact h
    · rw [filter_cons_of_neg (by simp [hopen]), filter_cons_of_neg hopen]
      exact ih' h

end Detected

/-! ### The project layer passes every global-only key by -/

section Passing

variable {schemas : Schemas} {layer : Json} {path : Path} {node : Json}

theorem ruleFor_of_mergedByKey (h : MergedByKey schemas path node) : ruleFor (ruleAt schemas) path node = .deep := by
  obtain ⟨hobject, hmerge⟩ := h
  rw [ruleFor, hobject, ruleAt]
  cases hresolve : resolve schemas path with
  | none => rfl
  | some r =>
    cases hmerge r hresolve with
    | inl hnone => simp [hnone]
    | inr hdeep => simp [hdeep]

/-- A mapping without refusals passes every global-only key by. -/
theorem passes_of_judge {rest : Path} (hjudge : judge schemas .project layer = [])
    (hroot : isObject layer = true) (hunmixed : Unmixed schemas layer)
    (hshallow : ∀ path rest node, path ≠ [] → GlobalOnly schemas (path ++ rest) → searchDepth < rest.length →
      jsonAt layer path = some node → MergedByKey schemas path node)
    (hat : jsonAt layer path = some node) (hglobal : GlobalOnly schemas (path ++ rest)) (hne : rest ≠ []) :
    Passes (ruleAt schemas) path node none none rest := by
  induction rest generalizing path node with
  | nil => exact absurd rfl hne
  | cons segment rest ih =>
    have hmerged : MergedByKey schemas path node := by
      by_cases hpath : path = []
      · subst hpath
        obtain rfl : layer = node := Option.some.inj hat
        exact ⟨hroot, fun r hr => by cases hr⟩
      · by_cases hlength : (segment :: rest).length ≤ searchDepth
        · have hlocate : (locate schemas path).isSome = true := by
            have := isSome_locate_of_globalOnly hglobal
            rw [locate_append hpath] at this
            exact Option.isSome_of_isSome_bind this
          exact merged_by_key_of_allowed hglobal hpath (by simp) hlength (allowed_of_judge_eq_nil hjudge hat hpath hlocate)
        · exact hshallow path (segment :: rest) node hpath hglobal (by omega) hat
    refine ⟨hmerged.1, ruleFor_of_mergedByKey hmerged, by simp, by simp, ?_⟩
    cases hkid : childOf node segment with
    | none => rfl
    | some kid =>
      have hatkid : jsonAt layer (path ++ [segment]) = some kid := by
        rw [jsonAt_append, hat, ← hkid]
        exact jsonAt_singleton node segment
      have hglobal' : GlobalOnly schemas ((path ++ [segment]) ++ rest) := by rwa [append_assoc]
      cases rest with
      | nil =>
        rw [append_nil] at hglobal'
        rw [not_held_of_judge hjudge hunmixed hglobal'] at hatkid
        cases hatkid
      | cons next rest => exact ih hatkid hglobal' (by simp)

end Passing

/-! ### The two snapshots -/

section Snapshots

variable {ctx : Context} {srcs : Sources}

def Sources.withoutProject (srcs : Sources) : Sources := { srcs with project := none, trusted := none }

/-- The guard looked at all that the project layer holds: it is a mapping, also what came from the trusted file was judged,
no other scope is stated below a global-only key that it holds, no global-only key lies deeper than the guard looks below a
node that is not merged key by key, and it holds no detectable key above a global-only one. -/
structure Confined (ctx : Context) (srcs : Sources) : Prop where
  root : projectLayer ctx srcs = .null ∨ isObject (projectLayer ctx srcs) = true
  judged : srcs.trusted.isSome = true → judge ctx.schemas .project (projectLayer ctx srcs) = []
  unmixed : Unmixed ctx.schemas (projectLayer ctx srcs)
  shallow : ∀ path rest node, path ≠ [] → GlobalOnly ctx.schemas (path ++ rest) → searchDepth < rest.length →
    jsonAt (projectLayer ctx srcs) path = some node → MergedByKey ctx.schemas path node
  undetected : ∀ path ∈ detectPaths ctx.schemas, (jsonAt (projectLayer ctx srcs) path).isSome = true →
    ∀ rest, rest ≠ [] → ¬ GlobalOnly ctx.schemas (path ++ rest)

theorem jsons_layersOver (files : List Layer) :
    (layersOver ctx files).map Layer.json = (present files).map Layer.json ++
      (held (detected ctx ((present files).map Layer.json ++ [ctx.standard]))).toList ++ (held ctx.standard).toList := by
  have hpresent : ∀ name json, (present [⟨name, json⟩]).map Layer.json = (held json).toList := by
    intro name json
    by_cases hnull : json = .null <;> simp [present, held, hnull]
  have hsplit : ∀ (files : List Layer) (x y : Layer),
      present (present files ++ [x, y]) = present files ++ present [x] ++ present [y] := by
    intro files x y
    simp [present, filter_append, List.filter_filter, filter_cons]
    split <;> split <;> rfl
  rw [layersOver, hsplit, map_append, map_append, hpresent, hpresent]

theorem merge_of_mergeOf {layers : List Layer} {merged : Json} (h : mergeOf ctx layers = .ok merged) :
    mergeNode (ruleAt ctx.schemas) (maxDepth + 1) [] (layers.map Layer.json) = .ok merged := by
  unfold mergeOf mergeLayers at h
  split at h
  · next value hvalue =>
    cases h
    exact hvalue
  · cases h

theorem judge_projectLayer (hjudge : judgeSources ctx srcs (keptGlobal ctx srcs) = []) (h : Confined ctx srcs) :
    judge ctx.schemas .project (projectLayer ctx srcs) = [] := by
  cases htrusted : srcs.trusted with
  | some trusted => exact h.judged (by rw [htrusted]; rfl)
  | none =>
    rw [projectLayer, htrusted]
    cases hproject : srcs.project with
    | none => rfl
    | some project =>
      rw [judgeSources, hproject, append_assoc, append_eq_nil_iff] at hjudge
      exact hjudge.1

end Snapshots

/-! ### A gateway that only the global file sets -/

namespace GatewaySample

/-- A section that only the global file may hold, and one that either file may hold. -/
def schemas : Schemas := [
  ⟨"gateway", .obj [("x-fgos-scope", .str "global-only"), ("properties", .obj [("port", .obj [])])]⟩,
  ⟨"lock", .obj []⟩]

def context : Context where
  schemas := schemas
  standard := .obj [("gateway", .obj [("port", .nat 80)])]
  detect _ := none
  validateSections _ _ := .ok []

def sources (project : Json) : Sources where
  project := some project
  trusted := none
  global := some (.obj [("gateway", .obj [("port", .nat 8080)])])
  accounts := none
  token := false

def port : Path := [.key "gateway", .key "port"]

def project : Json := .obj [("lock", .nat 5)]

theorem held_cases {path : Path} (h : (jsonAt project path).isSome = true) : path = [] ∨ path = [.key "lock"] := by
  cases path with
  | nil => exact .inl rfl
  | cons segment rest =>
    right
    cases segment with
    | index i => cases h
    | key name =>
      by_cases hname : name = "lock"
      · subst hname
        cases rest with
        | nil => rfl
        | cons next rest => cases next <;> cases h
      · have hnone : childOf project (.key name) = none := by
          show List.lookup name [("lock", Json.nat 5)] = none
          rw [lookup_cons, beq_false_of_ne hname]
          rfl
        rw [jsonAt, hnone] at h
        cases h

theorem not_globalOnly_lock {rest : Path} : ¬ GlobalOnly schemas (.key "lock" :: rest) := by
  cases rest with
  | nil => decide
  | cons segment rest =>
    rintro ⟨r, hr, -⟩
    have hnone : locate schemas (.key "lock" :: segment :: rest) = none := by
      rw [show (Segment.key "lock" :: segment :: rest) = [.key "lock"] ++ segment :: rest from rfl, locate_append (by simp)]
      have hlock : locate schemas [.key "lock"] = some (⟨1, .obj []⟩, Inherited.empty) := by rfl
      rw [hlock]
      cases segment <;> rfl
    rw [resolve, hnone] at hr
    cases hr

theorem confined : Confined context (sources project) where
  root := .inr rfl
  judged := by
    intro h
    cases h
  unmixed := by
    intro path rest hglobal hheld hlocate
    exfalso
    cases held_cases hheld with
    | inl hnil => exact ne_nil_of_globalOnly hglobal (append_eq_nil_iff.mp hnil).1
    | inr hlock =>
      cases path with
      | nil => exact ne_nil_of_globalOnly hglobal rfl
      | cons segment path =>
        obtain rfl : segment = .key "lock" := (List.cons.inj hlock).1
        exact not_globalOnly_lock hglobal
  shallow := by
    intro path rest node hne hglobal hlength hat
    have hheld : (jsonAt (projectLayer context (sources project)) path).isSome = true := by
      rw [hat]
      rfl
    have hlock := (held_cases hheld).resolve_left hne
    rw [hlock] at hglobal
    exact absurd hglobal not_globalOnly_lock
  undetected := by
    intro path hpath
    have hnone : detectPaths schemas = [] := by decide
    change path ∈ detectPaths schemas at hpath
    rw [hnone] at hpath
    cases hpath

end GatewaySample

end Forgent.Config
