import Forgent.Config.Merge
import Forgent.Config.Scope

/-!
# The snapshot

`packages/config/rust/src/snapshot.rs`: the effective value of every key.  The sources come in as they were parsed, and
the check of a value against the section schemas, a third-party validator, is a field of the context.  A source that is
misplaced or invalid fails the whole snapshot.
-/

namespace Forgent.Config

/-- A failed keyword, and where. -/
structure Violation where
  path : Path
  keyword : String
deriving DecidableEq

structure Context where
  schemas : Schemas
  standard : Json
  detect : Path → Option Json
  /-- `validate_sections`: a value against the schemas of the wanted sections. -/
  validateSections : Json → (String → Bool) → Except Refusal (List Violation)

/-- The parsed sources; `token` says whether the token file is there. -/
structure Sources where
  project : Option Json
  trusted : Option Json
  global : Option Json
  accounts : Option Json
  token : Bool

/-! ### Environment facts -/

section

variable (schemas : Schemas)

/-- The detectable paths at and below a node; the section root itself is never one. -/
def detectWalk : ℕ → At → Inherited → Path → List Path
  | fuel, node, inherited, path =>
    match enter schemas node inherited with
    | none => []
    | some (node, inherited) =>
      (if 1 < path.length ∧ inherited.value "x-fgos-absent" = some "detected" then [path] else []) ++
        match fuel with
        | 0 => []
        | fuel + 1 => (children node).flatMap fun (name, kid) =>
          match name with
          | none => []
          | some name => detectWalk fuel kid inherited (path ++ [.key name])

/-- The length of a path below which nothing is detected. -/
def detectDepth : ℕ := 12

/-- The paths that may be detected: named properties only. -/
def detectPaths : List Path :=
  schemas.zipIdx.flatMap fun (s, i) => detectWalk schemas (detectDepth - 1) ⟨i, s.root⟩ Inherited.empty [.key s.name]

/-- The merge rule of the schema node at a path; a `tighten` node is replaced whole like a `replace` one. -/
def ruleAt (path : Path) : Option MergeRule :=
  match (resolve schemas path).bind Resolved.merge with
  | some "deep" => some .deep
  | some "replace" | some "tighten" => some .replace
  | some "leaf" => some .leaf
  | _ => none

end

/-- Whether a value in the wrong file has anything to carry. -/
def carries : Json → Bool
  | .null => false
  | .obj fields => !fields.isEmpty
  | .arr items => !items.isEmpty
  | _ => true

/-- How firmly a confinement mode holds. -/
def modeRank : Option String → ℕ
  | some "required" => 2
  | some "preferred" => 1
  | _ => 0

/-- Whether `higher` is a weaker setting than `lower` for a path that may only be tightened. -/
def lowers (lower higher : Json) : Bool :=
  match lower, higher with
  | .obj _, .obj _ =>
    let rank := fun entry : Json => modeRank (entry.get "mode").asStr
    let opens := fun entry : Json => entry.get "allowInvocationOverride" = .bool true
    let policy := (childOf lower (.key "policy")).filter (· ≠ .null)
    rank higher < rank lower || policy.any (fun p => childOf higher (.key "policy") ≠ some p) ||
      (opens higher && !opens lower)
  | _, _ => lower = .bool true && higher ≠ .bool true

structure Layer where
  name : String
  json : Json

/-- The layers that hold something: a null holds nothing. -/
def present (layers : List Layer) : List Layer := layers.filter fun layer => layer.json ≠ .null

section

variable (ctx : Context)

/-- The global file without the keys its destination holds already, or that hold nothing. -/
def withoutHeld (global : Json) (accounts : Option Json) (token : Bool) : Json :=
  let shadowed := fun (path : Path) (value : Json) =>
    match ((resolve ctx.schemas path).map Resolved.file).getD "config" with
    | "accounts" => accounts.any (fun a => (jsonAt a path).isSome) || !carries value
    | "token" => token || !carries value
    | _ => false
  let elsewhere := fun (path : Path) (_ : Json) =>
    !(["accounts", "token"].contains (((resolve ctx.schemas path).map Resolved.file).getD "config"))
  ((descend elsewhere [] global).filter fun (path, value) => shadowed path value).foldl
    (fun kept (path, _) => jsonPut kept path none) global

/-- The global file as it is merged. -/
def keptGlobal (srcs : Sources) : Option Json :=
  srcs.global.map fun global => withoutHeld ctx global srcs.accounts srcs.token

/-- The refusals of the sources; the trusted file is judged by no one. -/
def judgeSources (srcs : Sources) (global : Option Json) : List Refusal :=
  (srcs.project.elim [] (judge ctx.schemas .project)) ++ (global.elim [] (judge ctx.schemas .global)) ++
    srcs.accounts.elim [] (judge ctx.schemas .accounts)

/-- The project layer: with another trusted root its command values come from there. -/
def projectLayer (srcs : Sources) : Json :=
  let project := srcs.project.getD .null
  match srcs.trusted with
  | some trusted => trustedProject ctx.schemas project trusted
  | none => project

/-- The detected values: paths that no file and no standard value holds. -/
def detected (layers : List Json) : Json :=
  ((detectPaths ctx.schemas).filter fun path => !(layers.any fun json => (jsonAt json path).isSome)).foldl
    (fun detected path =>
      match ctx.detect path with
      | some value => jsonPut detected path (some value)
      | none => detected) .null

/-- The layers of a snapshot over the given files, highest priority first. -/
def layersOver (files : List Layer) : List Layer :=
  let files := present files
  present (files ++ [⟨"detected", detected ctx (files.map Layer.json ++ [ctx.standard])⟩, ⟨"standard", ctx.standard⟩])

def refusalOfMerge : MergeError → Refusal
  | .depthExceeded path => ⟨"config-schema", path, none, some "depth-exceeded"⟩
  | .typeMismatch path => ⟨"config-schema", path, none, some "merge-type-mismatch"⟩

def mergeOf (layers : List Layer) : Except (List Refusal) Json :=
  match mergeLayers (ruleAt ctx.schemas) (layers.map Layer.json) with
  | .ok merged => .ok merged
  | .error err => .error [refusalOfMerge err]

def isTighten (path : Path) : Bool := (resolve ctx.schemas path).bind Resolved.merge = some "tighten"

/-- Every path of the project layer whose node is `tighten` and whose value lowers what the layers beneath merge to. -/
def lowered (layers : List Layer) : Except (List Refusal) (List Refusal) :=
  match layers with
  | project :: below =>
    if project.name ≠ "project" ∨ below = [] then .ok []
    else do
      let below ← mergeOf ctx below
      return ((descend (fun path _ => !isTighten ctx path) [] project.json).filter fun (path, value) =>
          isTighten ctx path && value ≠ .null && (jsonAt below path).any (lowers · value)).map
        fun (path, _) => ⟨"config-confinement-lowered", path, none, none⟩
  | [] => .ok []

/-- The files of a snapshot as layers. -/
def filesOf (srcs : Sources) (global : Option Json) : List Layer :=
  [⟨"project", projectLayer ctx srcs⟩, ⟨"global", global.getD .null⟩, ⟨"accounts", srcs.accounts.getD .null⟩]

/-- `build`: the effective value, or every refusal. -/
def build (srcs : Sources) : Except (List Refusal) Json := do
  let global := keptGlobal ctx srcs
  let errors := judgeSources ctx srcs global
  if errors ≠ [] then throw errors
  let layers := layersOver ctx (filesOf ctx srcs global)
  let merged ← mergeOf ctx layers
  -- Only the sections a file wrote are validated; the rest is the bundled standard.
  let written := fun name : String =>
    [srcs.project, srcs.trusted, global, srcs.accounts].any fun file => (file.bind (childOf · (.key name))).isSome
  let violations ← (ctx.validateSections merged written).mapError ([·])
  let invalid := (violations.filter fun v => (resolve ctx.schemas v.path).isSome).map fun v =>
    (⟨"config-schema", v.path, none, some v.keyword⟩ : Refusal)
  let weaker ← lowered ctx layers
  if invalid ++ weaker ≠ [] then throw (invalid ++ weaker)
  return merged

/-- What an accepted snapshot passed. -/
structure Built (srcs : Sources) (merged : Json) : Prop where
  judged : judgeSources ctx srcs (keptGlobal ctx srcs) = []
  merge : mergeOf ctx (layersOver ctx (filesOf ctx srcs (keptGlobal ctx srcs))) = .ok merged
  tight : lowered ctx (layersOver ctx (filesOf ctx srcs (keptGlobal ctx srcs))) = .ok []

variable {ctx}

theorem built_of_build {srcs : Sources} {merged : Json} (h : build ctx srcs = .ok merged) : Built ctx srcs merged := by
  unfold build at h
  dsimp only at h
  generalize hglobal : keptGlobal ctx srcs = global at h
  by_cases hjudge : judgeSources ctx srcs global = []
  · rw [if_neg (not_not_intro hjudge)] at h
    obtain ⟨value, hmerge, h⟩ := bind_eq_ok.mp h
    obtain ⟨violations, -, h⟩ := bind_eq_ok.mp h
    obtain ⟨weaker, htight, h⟩ := bind_eq_ok.mp h
    change (if _ then _ else _) = _ at h
    split at h
    · cases h
    · next hnone =>
      obtain rfl : value = merged := Except.ok.inj h
      have hweaker : weaker = [] := (List.append_eq_nil_iff.mp (not_not.mp hnone)).2
      subst hglobal
      exact ⟨hjudge, hmerge, hweaker ▸ htight⟩
  · rw [if_pos hjudge] at h
    cases h

end

end Forgent.Config
