import Forgent.Config.Schema

/-!
# Which file may hold which key

`packages/config/rust/src/scope.rs`: `judge` walks a parsed file against the section schemas and refuses the keys that
belong in another file, and `trustedProject` takes the command values from the trusted checkout.

In a value of which nothing is refused no global-only key is held, and every described node above a global-only key is a
mapping merged key by key.  Two kinds of input pass the guard all the same: a key with another scope below a global-only
one, and a global-only key farther down than the guard looks.
-/

namespace Forgent.Config

/-- The file a value was read from. -/
inductive SourceKind where
  | project
  | global
  | accounts
deriving DecidableEq

/-- The `x-fgos-file` a key must carry to live in this source. -/
def SourceKind.file : SourceKind → String
  | .accounts => "accounts"
  | _ => "config"

/-- What is wrong with a key, and the file it belongs in. -/
structure Refusal where
  code : String
  path : Path
  belongsIn : Option String
  keyword : Option String
deriving DecidableEq

/-- Deepest schema path searched below a node, so a recursive `$ref` ends. -/
def searchDepth : ℕ := 12

section

variable (schemas : Schemas) {source : SourceKind} {value node : Json} {path : Path}

/-- Whether a `global-only` node sits below. -/
def globalOnlyBelow : ℕ → At × Inherited → Bool
  | 0, _ => false
  | depth + 1, (node, inherited) =>
    (children node).any fun (_, kid) =>
      match enter schemas kid inherited with
      | none => false
      | some (kid, inherited) =>
        inherited.value "x-fgos-scope" = some "global-only" || globalOnlyBelow depth (kid, inherited)

/-- Whether a filled mapping holds a key that no schema describes. -/
def hidesUndescribed (path : Path) (node : Json) : Bool :=
  (fieldsOf node).any fun (key, _) => (locate schemas (path ++ [.key key])).isNone

def filled (node : Json) : Bool := !(fieldsOf node).isEmpty

inductive Verdict where
  | undescribed
  | refused (code : String) (belongsIn : String)
  | allowed
deriving DecidableEq

/-- What `judge` makes of one node. -/
def verdict (source : SourceKind) (path : Path) (node : Json) : Verdict :=
  match locate schemas path with
  | none => .undescribed
  | some here =>
    let r := Resolved.of here.2
    -- In the accounts file a mapping is only a container of account keys.
    let wrongFile := r.file ≠ source.file ∧ ¬ (filled node ∧ source = .accounts)
    if wrongFile then .refused "config-key-in-wrong-file" r.file
    else if !filled node ∧ source = .project ∧ r.scope = "global-only" then .refused "config-key-out-of-scope" "global"
    else if !filled node ∧ source = .global ∧ r.scope = "project-only" then .refused "config-key-out-of-scope" "project"
    -- A null, scalar, list or replaced map above a global-only key hides or overwrites it.
    else if source = .project ∧ ¬ (isObject node ∧ (r.merge = none ∨ r.merge = some "deep")) ∧
        globalOnlyBelow schemas searchDepth here then .refused "config-key-out-of-scope" "global"
    -- An entry of a global-only map whose own keys no schema describes is refused whole.
    else if source = .project ∧ r.scope = "global-only" ∧ hidesUndescribed schemas path node then
      .refused "config-key-out-of-scope" "global"
    else .allowed

def Verdict.refusal (path : Path) : Verdict → Option Refusal
  | .refused code belongsIn => some ⟨code, path, some belongsIn, none⟩
  | _ => none

/-- Every key of a value that the source may not hold. -/
def judge (source : SourceKind) (value : Json) : List Refusal :=
  (descend (fun path node => verdict schemas source path node = .allowed) [] value).filterMap fun (path, node) =>
    (verdict schemas source path node).refusal path

def isCommand (path : Path) : Bool := (resolve schemas path).any fun r => r.sensitivity = "command"

def isKey : Segment → Bool
  | .key _ => true
  | .index _ => false

/-- The topmost `command` paths of a value, cut at the first list index: a list comes whole from one file. -/
def commandTops (value : Json) : List Path :=
  (((descend (fun path _ => !isCommand schemas path) [] value).filter fun (path, _) => isCommand schemas path).map
    fun (path, _) => path.takeWhile isKey).eraseDups

/-- The project file with every `command` subtree taken from the trusted file, or removed when that file lacks it. -/
def trustedProject (project trusted : Json) : Json :=
  (commandTops schemas project ++ commandTops schemas trusted).foldl (fun out top => jsonPut out top (jsonAt trusted top))
    project

variable {schemas}

theorem verdict_of_judge_eq_nil (h : judge schemas source value = [])
    (hmem : (path, node) ∈ descend (fun path node => verdict schemas source path node = .allowed) [] value) :
    verdict schemas source path node = .allowed ∨ locate schemas path = none := by
  have hnone := List.filterMap_eq_nil_iff.mp h (path, node) hmem
  cases hlocate : locate schemas path with
  | none => exact .inr rfl
  | some here =>
    left
    cases hverdict : verdict schemas source path node with
    | allowed => rfl
    | undescribed =>
      rw [verdict, hlocate] at hverdict
      simp only at hverdict
      repeat' split at hverdict
      all_goals cases hverdict
    | refused code belongsIn =>
      simp only [hverdict] at hnone
      cases hnone

theorem allowed_of_judge_eq_nil
    (h : judge schemas source value = []) (hat : jsonAt value path = some node) (hne : path ≠ [])
    (hlocate : (locate schemas path).isSome = true) : verdict schemas source path node = .allowed := by
  induction hlength : path.length using Nat.strong_induction_on generalizing path node with
  | _ n ih =>
    have hmem : (path, node) ∈ descend (fun path node => verdict schemas source path node = .allowed) [] value := by
      apply mem_descend hat hne
      intro front back kid hsplit hfront hback hkid
      have hlocatefront : (locate schemas front).isSome = true := by
        rw [hsplit, locate_append hfront] at hlocate
        exact Option.isSome_of_isSome_bind hlocate
      have hlt : front.length < n := by
        have := List.length_pos_iff.mpr hback
        rw [← hlength, hsplit, List.length_append]
        omega
      exact decide_eq_true (ih front.length hlt hkid hfront hlocatefront rfl)
    apply (verdict_of_judge_eq_nil h hmem).resolve_right
    intro hnone
    rw [hnone] at hlocate
    cases hlocate

end

/-! ### What the guard catches -/

open Option

variable {schemas : Schemas}

/-- The schemas make `path` global-only. -/
def GlobalOnly (schemas : Schemas) (path : Path) : Prop := ∃ r, resolve schemas path = some r ∧ r.scope = "global-only"

instance (path : Path) : Decidable (GlobalOnly schemas path) :=
  decidable_of_iff ((resolve schemas path).any (fun r => r.scope = "global-only") = true) (by
    rw [GlobalOnly]
    cases resolve schemas path <;> simp)

theorem value_of_scope {inherited : Inherited} (h : (Resolved.of inherited).scope = "global-only") :
    inherited.value "x-fgos-scope" = some "global-only" := by
  change (inherited.value "x-fgos-scope").getD "" = "global-only" at h
  cases hvalue : inherited.value "x-fgos-scope" with
  | none =>
    rw [hvalue] at h
    exact absurd h (by decide)
  | some scope =>
    rw [hvalue] at h
    exact congrArg some h

theorem globalOnlyBelow_of_down {rest : Path} {depth : ℕ} {here there : At × Inherited} (hne : rest ≠ [])
    (hlength : rest.length ≤ depth) (hdown : rest.foldlM (down schemas) here = some there)
    (hscope : there.2.value "x-fgos-scope" = some "global-only") : globalOnlyBelow schemas depth here = true := by
  induction rest generalizing depth here with
  | nil => exact absurd rfl hne
  | cons segment rest ih =>
    cases depth with
    | zero => exact absurd hlength (Nat.not_succ_le_zero _)
    | succ depth =>
      rw [List.foldlM_cons] at hdown
      obtain ⟨kid, hkid, hrest⟩ := bind_eq_some_iff.mp hdown
      obtain ⟨below, hchild, henter⟩ := bind_eq_some_iff.mp hkid
      obtain ⟨name, hname⟩ := schemaChild_mem_children hchild
      rw [globalOnlyBelow, List.any_eq_true]
      refine ⟨(name, below), hname, ?_⟩
      dsimp only
      rw [henter]
      cases rest with
      | nil =>
        obtain rfl : kid = there := Option.some.inj hrest
        simp [hscope]
      | cons next rest =>
        have hbelow := ih (by simp) (Nat.le_of_succ_le_succ hlength) hrest
        simp [hbelow]

section Judged

variable {layer : Json} {path : Path}

/-- A key below a global-only one that the schemas describe is global-only too, where `layer` holds it. -/
def Unmixed (schemas : Schemas) (layer : Json) : Prop :=
  ∀ path rest, GlobalOnly schemas path → (jsonAt layer (path ++ rest)).isSome = true →
    (locate schemas (path ++ rest)).isSome = true → GlobalOnly schemas (path ++ rest)

theorem ne_nil_of_globalOnly (h : GlobalOnly schemas path) : path ≠ [] := by
  rintro rfl
  obtain ⟨r, hr, -⟩ := h
  cases hr

theorem isSome_locate_of_globalOnly (h : GlobalOnly schemas path) : (locate schemas path).isSome = true := by
  obtain ⟨r, hr, -⟩ := h
  obtain ⟨here, hhere, -⟩ := map_eq_some_iff.mp hr
  rw [hhere]
  rfl

theorem filled_of_allowed {node : Json} (h : GlobalOnly schemas path)
    (hallowed : verdict schemas .project path node = .allowed) :
    filled node = true ∧ hidesUndescribed schemas path node = false := by
  obtain ⟨r, hr, hscope⟩ := h
  obtain ⟨here, hhere, rfl⟩ := map_eq_some_iff.mp hr
  rw [verdict, hhere] at hallowed
  dsimp only at hallowed
  repeat' split at hallowed
  all_goals try cases hallowed
  next h₁ h₂ h₃ h₄ h₅ => exact ⟨by simpa [hscope] using h₂, by simpa [hscope] using h₅⟩

/-- In a value of which nothing is refused no global-only key is held. -/
theorem not_held_of_judge (hjudge : judge schemas .project layer = []) (hunmixed : Unmixed schemas layer)
    (hglobal : GlobalOnly schemas path) : jsonAt layer path = none := by
  cases hat : jsonAt layer path with
  | none => rfl
  | some node =>
    exfalso
    -- Each held global-only node is a filled mapping, so a smaller one is held below it.
    induction hsize : sizeOf node using Nat.strong_induction_on generalizing path node with
    | _ n ih =>
      have hallowed := allowed_of_judge_eq_nil hjudge hat (ne_nil_of_globalOnly hglobal) (isSome_locate_of_globalOnly hglobal)
      obtain ⟨hfilled, hdescribed⟩ := filled_of_allowed hglobal hallowed
      cases node with
      | obj fields =>
        cases fields with
        | nil => cases hfilled
        | cons field fields =>
          obtain ⟨key, kid⟩ := field
          have hkid : jsonAt layer (path ++ [.key key]) = some kid := by
            rw [jsonAt_append, hat]
            show jsonAt _ [.key key] = _
            rw [jsonAt_singleton]
            exact List.lookup_cons_self
          have hlocate : (locate schemas (path ++ [.key key])).isSome = true := by
            rw [hidesUndescribed, List.any_eq_false] at hdescribed
            have := hdescribed (key, kid) List.mem_cons_self
            rw [isSome_iff_ne_none]
            simpa using this
          have hbelow := hunmixed path [.key key] hglobal (by rw [hkid]; rfl) hlocate
          have hlt : sizeOf kid < n := by
            rw [← hsize]
            simp only [Json.obj.sizeOf_spec, List.cons.sizeOf_spec, Prod.mk.sizeOf_spec]
            omega
          exact ih (sizeOf kid) hlt hbelow kid hkid rfl
      | _ => cases hfilled

/-- The node at `path` is a mapping, and its schema asks for nothing but a merge key by key. -/
def MergedByKey (schemas : Schemas) (path : Path) (node : Json) : Prop :=
  isObject node = true ∧ ∀ r, resolve schemas path = some r → r.merge = none ∨ r.merge = some "deep"

theorem merged_by_key_of_allowed {rest : Path} {node : Json} (hglobal : GlobalOnly schemas (path ++ rest))
    (hpath : path ≠ []) (hne : rest ≠ []) (hlength : rest.length ≤ searchDepth)
    (hallowed : verdict schemas .project path node = .allowed) : MergedByKey schemas path node := by
  obtain ⟨r, hr, hscope⟩ := hglobal
  obtain ⟨there, hthere, rfl⟩ := map_eq_some_iff.mp hr
  rw [locate_append hpath] at hthere
  obtain ⟨here, hhere, hdown⟩ := bind_eq_some_iff.mp hthere
  have hbelow := globalOnlyBelow_of_down hne hlength hdown (value_of_scope hscope)
  rw [verdict, hhere] at hallowed
  dsimp only at hallowed
  by_contra hnot
  have hcut : ¬ (isObject node = true ∧ ((Resolved.of here.2).merge = none ∨ (Resolved.of here.2).merge = some "deep")) := by
    intro hboth
    apply hnot
    refine ⟨hboth.1, fun r' hr' => ?_⟩
    rw [resolve, hhere] at hr'
    cases hr'
    exact hboth.2
  repeat' split at hallowed
  all_goals try cases hallowed
  next h₁ h₂ h₃ h₄ h₅ => exact h₄ ⟨rfl, hcut, hbelow⟩

end Judged

end Forgent.Config
