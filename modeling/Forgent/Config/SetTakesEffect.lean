import Forgent.Config.Through
import Forgent.Config.Write
import Mathlib.Data.List.TakeWhile

/-!
# A set takes effect

What a commit of one `Set` puts into its file is in force in the snapshot afterwards, where the layers above the file let
the path through.  A mapping that is merged key by key is in force with each of its own values, beside those of the layers
beneath.  A value equal to the bundled standard is not written; the standard itself is then the layer that gives it.
-/

namespace Forgent.Config

open List Option

/-! ### A value put at a path of keys -/

variable {p : Path}

theorem isSome_jsonPut_some {t : Path} {node value : Json} (hkeys : KeyPath p) :
    (jsonAt (jsonPut node (p ++ t) (some value)) p).isSome = true := by
  induction p generalizing node with
  | nil => rfl
  | cons segment p ih =>
    obtain ⟨key, rfl⟩ := hkeys segment mem_cons_self
    rw [cons_append]
    show ((childOf (jsonPut node (.key key :: (p ++ t)) (some value)) (.key key)).bind _).isSome = true
    rw [childOf_jsonPut, if_pos rfl]
    split
    · next hnil =>
      rw [(append_eq_nil_iff.mp hnil).1]
      rfl
    · exact ih (forall_mem_cons.mp hkeys).2

theorem jsonAt_jsonPut {node : Json} (new : Option Json) (hne : p ≠ []) (hkeys : KeyPath p) : jsonAt (jsonPut node p new) p = new := by
  induction p generalizing node with
  | nil => exact absurd rfl hne
  | cons segment p ih =>
    obtain ⟨key, rfl⟩ := hkeys segment mem_cons_self
    have hrest := (forall_mem_cons.mp hkeys).2
    show (childOf (jsonPut node (.key key :: p) new) (.key key)).bind _ = new
    cases new with
    | some value =>
      rw [childOf_jsonPut, if_pos rfl]
      by_cases hnil : p = []
      · rw [if_pos hnil, hnil]
        rfl
      · rw [if_neg hnil]
        exact ih hnil hrest
    | none =>
      rw [childOf_jsonPut_none, if_pos rfl]
      split
      · rfl
      · next hnil =>
        cases childOf node (.key key) with
        | none => rfl
        | some kid => exact ih hnil hrest

/-! ### The layer of the target -/

section Layers

variable {ctx : Context} {srcs : Sources} {layer : Layer} {path : Path} {value : Json} {leaf : Json} {rest q : Path}
  {kind : SourceKind} {other : Layer}

def SourceKind.name : SourceKind → String
  | .project => "project"
  | .global => "global"
  | .accounts => "accounts"

/-- What a snapshot takes from a file. -/
def fileLayer (ctx : Context) (srcs : Sources) (kind : SourceKind) : Layer where
  name := kind.name
  json := match kind with
    | .project => projectLayer ctx srcs
    | .global => (keptGlobal ctx srcs).getD .null
    | .accounts => srcs.accounts.getD .null

def layersOf (ctx : Context) (srcs : Sources) : List Layer := layersOver ctx (filesOf ctx srcs (keptGlobal ctx srcs))

/-- The layers of a higher priority than the one with a name. -/
def layersAbove (ctx : Context) (srcs : Sources) (name : String) : List Layer :=
  (layersOf ctx srcs).takeWhile fun layer => layer.name ≠ name

theorem mem_layersOf (h : layer ∈ layersOf ctx srcs) :
    (∃ kind, layer = fileLayer ctx srcs kind) ∨ layer.name = "detected" ∨ layer = ⟨"standard", ctx.standard⟩ := by
  have hmem : layer ∈ [fileLayer ctx srcs .project, fileLayer ctx srcs .global, fileLayer ctx srcs .accounts] ∨
      layer.name = "detected" ∨ layer = ⟨"standard", ctx.standard⟩ := by
    obtain ⟨hlayers, -⟩ := mem_filter.mp h
    cases mem_append.mp hlayers with
    | inl hfile => exact .inl (mem_of_mem_filter hfile)
    | inr hrest =>
      right
      simp only [mem_cons, not_mem_nil, or_false] at hrest
      exact hrest.imp (fun heq => by rw [heq]) id
  refine hmem.imp_left fun hfile => ?_
  simp only [mem_cons, not_mem_nil, or_false] at hfile
  rcases hfile with rfl | rfl | rfl <;> exact ⟨_, rfl⟩

theorem layers_split (hmem : layer ∈ layersOf ctx srcs)
    (honly : ∀ other ∈ layersOf ctx srcs, other.name = layer.name → other = layer) :
    ∃ below, (layersOf ctx srcs).map Layer.json = (layersAbove ctx srcs layer.name).map Layer.json ++ layer.json :: below := by
  have hsplit : layersOf ctx srcs = layersAbove ctx srcs layer.name ++ (layersOf ctx srcs).dropWhile (fun other => other.name ≠ layer.name) :=
    takeWhile_append_dropWhile.symm
  cases hdrop : (layersOf ctx srcs).dropWhile (fun other => other.name ≠ layer.name) with
  | nil =>
    have hall := dropWhile_eq_nil_iff.mp hdrop layer hmem
    simp at hall
  | cons first rest =>
    have hname : first.name = layer.name := by
      have := head?_dropWhile_not (fun other : Layer => decide (other.name ≠ layer.name)) (layersOf ctx srcs)
      rw [hdrop] at this
      simpa using this
    have hfirst : first ∈ layersOf ctx srcs := by
      rw [hsplit, hdrop]
      simp
    rw [hdrop, honly first hfirst hname] at hsplit
    exact ⟨rest.map Layer.json, by rw [hsplit, map_append, map_cons]⟩

/-- A path with nothing but mappings merged key by key above it in a layer, and nothing at it. -/
def LetsPass (schemas : Schemas) (layer : Json) (path : Path) : Prop := LeadsTo schemas layer path ∧ jsonAt layer path = none

theorem LetsPass.through {layer : Json} {path : Path} (h : LetsPass ctx.schemas layer path) :
    LetsThrough (ruleAt ctx.schemas) [] layer path :=
  ⟨fun front back node hsplit hback hnode => ⟨(h.1 front back node hsplit hback hnode).1,
    ruleFor_of_mergedByKey (h.1 front back node hsplit hback hnode)⟩, h.2⟩

/-- A value that is not merged with those beneath it. -/
def Whole (schemas : Schemas) (path : Path) (value : Json) : Prop :=
  ruleFor (ruleAt schemas) path value ≠ .deep ∨ isObject value = false

theorem in_force {merged : Json}
    (hmerge : mergeOf ctx (layersOf ctx srcs) = .ok merged) (hmem : layer ∈ layersOf ctx srcs)
    (honly : ∀ other ∈ layersOf ctx srcs, other.name = layer.name → other = layer)
    (habove : ∀ other ∈ layersAbove ctx srcs layer.name, LetsPass ctx.schemas other.json path)
    (hat : jsonAt layer.json (path ++ rest) = some leaf) (hwhole : Whole ctx.schemas (path ++ rest) leaf) :
    jsonAt merged (path ++ rest) = some leaf := by
  obtain ⟨below, hsplit⟩ := layers_split hmem honly
  have hmerged := merge_of_mergeOf hmerge
  rw [hsplit] at hmerged
  apply merge_reaches_through hmerged _ hat hwhole
  intro json hjson
  obtain ⟨other, hother, rfl⟩ := List.mem_map.mp hjson
  exact (habove other hother).through.longer rest

theorem fileLayer_only (h : other ∈ layersOf ctx srcs)
    (hname : other.name = (fileLayer ctx srcs kind).name) : other = fileLayer ctx srcs kind := by
  rcases mem_layersOf h with ⟨kind', rfl⟩ | hdetected | rfl
  · have hkind : kind' = kind := by
      change kind'.name = kind.name at hname
      revert hname
      cases kind <;> cases kind' <;> decide
    rw [hkind]
  · rw [hdetected] at hname
    change "detected" = kind.name at hname
    cases kind <;> exact absurd hname (by decide)
  · change "standard" = kind.name at hname
    cases kind <;> exact absurd hname (by decide)

theorem standard_only (h : other ∈ layersOf ctx srcs) (hname : other.name = "standard") :
    other = ⟨"standard", ctx.standard⟩ := by
  rcases mem_layersOf h with ⟨kind', rfl⟩ | hdetected | rfl
  · change kind'.name = "standard" at hname
    cases kind' <;> exact absurd hname (by decide)
  · rw [hdetected] at hname
    exact absurd hname (by decide)
  · rfl

theorem fileLayer_mem (h : (fileLayer ctx srcs kind).json ≠ .null) : fileLayer ctx srcs kind ∈ layersOf ctx srcs := by
  have hfile : fileLayer ctx srcs kind ∈ present (filesOf ctx srcs (keptGlobal ctx srcs)) := by
    refine mem_filter.mpr ⟨?_, decide_eq_true h⟩
    cases kind <;> simp [filesOf, fileLayer, SourceKind.name]
  exact mem_filter.mpr ⟨mem_append_left _ hfile, decide_eq_true h⟩

theorem standard_mem (h : ctx.standard ≠ .null) : ⟨"standard", ctx.standard⟩ ∈ layersOf ctx srcs :=
  mem_filter.mpr ⟨mem_append_right _ (by simp), decide_eq_true h⟩

theorem ne_null_of_jsonAt (hne : path ≠ []) (h : jsonAt value path = some leaf) : value ≠ .null := by
  rintro rfl
  cases path with
  | nil => exact hne rfl
  | cons segment rest => cases segment <;> cases h

/-! ### What the layer of the target has of its file -/

/-- Paths that part at two keys. -/
def Beside (p q : Path) : Prop :=
  ∃ front a b p' q', p = front ++ Segment.key a :: p' ∧ q = front ++ Segment.key b :: q' ∧ a ≠ b

theorem jsonAt_jsonPut_beside {p : Path} (h : Beside p q) (node : Json) (new : Option Json) :
    jsonAt (jsonPut node p new) q = jsonAt node q := by
  obtain ⟨front, a, b, p', q', rfl, rfl, hne⟩ := h
  cases new with
  | none =>
    apply jsonAt_jsonPut_none
    · intro hprefix
      have hkeys := (prefix_append_right_inj front).mp hprefix
      exact hne (Segment.key.inj (cons_prefix_cons.mp hkeys).1)
    · intro hprefix
      have hkeys := (prefix_append_right_inj front).mp hprefix
      exact hne (Segment.key.inj (cons_prefix_cons.mp hkeys).1).symm
  | some value =>
    induction front generalizing node with
    | nil =>
      show (childOf (jsonPut node (.key a :: p') (some value)) (.key b)).bind _ = (childOf node (.key b)).bind _
      rw [childOf_jsonPut, if_neg (Ne.symm hne)]
    | cons segment front ih =>
      cases segment with
      | index i => rfl
      | key key =>
        show (childOf (jsonPut node (.key key :: (front ++ .key a :: p')) (some value)) (.key key)).bind _ =
          (childOf node (.key key)).bind _
        rw [childOf_jsonPut, if_pos rfl, if_neg (by simp), bind_some]
        refine (ih _).trans ?_
        cases childOf node (.key key) with
        | none => cases front <;> rfl
        | some kid => rfl

theorem jsonAt_trustedProject {project trusted : Json}
    (h : ∀ top ∈ commandTops ctx.schemas project ++ commandTops ctx.schemas trusted, Beside top path) :
    jsonAt (trustedProject ctx.schemas project trusted) path = jsonAt project path := by
  unfold trustedProject
  generalize commandTops ctx.schemas project ++ commandTops ctx.schemas trusted = tops at h
  have hfold : ∀ out : Json, jsonAt (tops.foldl (fun out top => jsonPut out top (jsonAt trusted top)) out) path = jsonAt out path := by
    induction tops with
    | nil => exact fun _ => rfl
    | cons top tops ih =>
      intro out
      rw [foldl_cons, ih (forall_mem_cons.mp h).2]
      exact jsonAt_jsonPut_beside (h top mem_cons_self) out _
  exact hfold project

theorem not_elsewhere (hjudge : judge ctx.schemas .global (jsonPut .null path (some value)) = [])
    (hne : q ≠ []) (hat : (jsonAt (jsonPut .null path (some value)) q).isSome = true) :
    ((resolve ctx.schemas q).map Resolved.file).getD "config" = "config" := by
  obtain ⟨node, hnode⟩ := isSome_iff_exists.mp hat
  cases hlocate : locate ctx.schemas q with
  | none =>
    rw [resolve, hlocate]
    rfl
  | some here =>
    have hallowed := allowed_of_judge_eq_nil hjudge hnode hne (by rw [hlocate]; rfl)
    rw [resolve, hlocate]
    show (Resolved.of here.2).file = "config"
    by_contra hfile
    rw [verdict, hlocate] at hallowed
    have hwrong : (Resolved.of here.2).file ≠ SourceKind.file .global ∧ ¬ (filled node ∧ SourceKind.global = .accounts) :=
      ⟨hfile, fun h => by cases h.2⟩
    simp only [if_pos hwrong] at hallowed
    cases hallowed

/-- The values that are left out of the global file are none that a request may set. -/
theorem jsonAt_withoutHeld {global : Json} {accounts : Option Json} {token : Bool} (hne : path ≠ [])
    (hjudge : judge ctx.schemas .global (jsonPut .null path (some value)) = []) (hat : jsonAt global path = some value) :
    jsonAt (withoutHeld ctx global accounts token) (path ++ rest) = jsonAt global (path ++ rest) := by
  -- A path that is related to that of the request, and held, is one that the request sets.
  have hset : ∀ q : Path, KeyPath q → (jsonAt global q).isSome = true →
      (q <+: path ++ rest ∨ path ++ rest <+: q) → (jsonAt (jsonPut .null path (some value)) q).isSome = true := by
    intro q hkeys hheld hrelated
    have hcases : q <+: path ∨ path <+: q := by
      cases hrelated with
      | inl hprefix => exact prefix_or_prefix_of_prefix hprefix (prefix_append path rest)
      | inr hprefix => exact .inr ((prefix_append path rest).trans hprefix)
    cases hcases with
    | inl hprefix =>
      obtain ⟨t, rfl⟩ := hprefix
      exact isSome_jsonPut_some hkeys
    | inr hprefix =>
      obtain ⟨t, rfl⟩ := hprefix
      rw [jsonAt_append, jsonAt_jsonPut _ hne fun segment hsegment => hkeys segment (mem_append_left _ hsegment)]
      rwa [jsonAt_append, hat] at hheld
  have hfold : ∀ (removed : List (Path × Json)) (kept : Json),
      (∀ entry ∈ removed, ((resolve ctx.schemas entry.1).map Resolved.file).getD "config" ≠ "config") →
      (∀ p, (jsonAt kept p).isSome = true → (jsonAt global p).isSome = true) →
      jsonAt (removed.foldl (fun kept entry => jsonPut kept entry.1 none) kept) (path ++ rest) = jsonAt kept (path ++ rest) := by
    intro removed
    induction removed with
    | nil => exact fun _ _ _ => rfl
    | cons entry removed ih =>
      intro kept hfile hkept
      obtain ⟨q, v⟩ := entry
      rw [foldl_cons, ih _ (fun other hother => hfile other (mem_cons_of_mem _ hother))
        fun p hp => hkept p (isSome_of_jsonPut_none hp)]
      by_cases hself : (∃ i, Segment.index i ∈ q) ∨ jsonAt kept q = none
      · rw [jsonPut_none_self hself]
      · rw [not_or] at hself
        have hkeys : KeyPath q := by
          intro segment hsegment
          cases segment with
          | key name => exact ⟨name, rfl⟩
          | index i => exact absurd ⟨i, hsegment⟩ hself.1
        have hheld := hkept q (isSome_iff_ne_none.mpr hself.2)
        have hunrelated : ¬ (q <+: path ++ rest ∨ path ++ rest <+: q) := by
          intro hrelated
          apply hfile (q, v) mem_cons_self
          by_cases hnil : q = []
          · rw [hnil]
            rfl
          · exact not_elsewhere hjudge hnil (hset q hkeys hheld hrelated)
        exact jsonAt_jsonPut_none (fun h => hunrelated (.inl h)) fun h => hunrelated (.inr h)
  unfold withoutHeld
  dsimp only
  refine hfold _ global (fun entry hentry hconfig => ?_) fun _ h => h
  have hshadowed := (mem_filter.mp hentry).2
  obtain ⟨q, v⟩ := entry
  rw [hconfig] at hshadowed
  cases hshadowed

end Layers

/-! ### A commit of one set -/

section Commit

variable {ctx : Context} {ed : Editor} {files files' : Files} {req : Request} {applied : List (Path × Bool)}

/-- In a checkout that is linked to another one, the commands of the two project files lie beside a path. -/
def CommandsBeside (schemas : Schemas) (files : Files) (path : Path) : Prop :=
  ∀ project trusted, files.project = some project → files.trusted = some trusted →
    ∀ top ∈ commandTops schemas project.json ++ commandTops schemas trusted, Beside top path

theorem fileLayer_at {path rest : Path} {value leaf : Json} {file : File} {kind : SourceKind} (hne : path ≠ [])
    (hfile : files.get kind = some file) (hjudge : judge ctx.schemas kind (jsonPut .null path (some value)) = [])
    (hat : jsonAt file.json path = some value) (hleaf : jsonAt value rest = some leaf)
    (hbeside : kind = .project → CommandsBeside ctx.schemas files (path ++ rest)) :
    jsonAt (fileLayer ctx files.sources kind).json (path ++ rest) = some leaf := by
  have hheld : jsonAt file.json (path ++ rest) = some leaf := by
    rw [jsonAt_append, hat]
    exact hleaf
  cases kind with
  | project =>
    have hproject : files.sources.project = some file.json := congrArg (Option.map File.json) hfile
    show jsonAt (projectLayer ctx files.sources) (path ++ rest) = some leaf
    rw [projectLayer, hproject]
    cases htrusted : files.sources.trusted with
    | none => exact hheld
    | some trusted => exact (jsonAt_trustedProject (hbeside rfl file trusted hfile htrusted)).trans hheld
  | global =>
    have hglobal : files.sources.global = some file.json := congrArg (Option.map File.json) hfile
    show jsonAt ((keptGlobal ctx files.sources).getD .null) (path ++ rest) = some leaf
    rw [keptGlobal, hglobal]
    exact (jsonAt_withoutHeld hne hjudge hat).trans hheld
  | accounts =>
    have haccounts : files.sources.accounts = some file.json := congrArg (Option.map File.json) hfile
    show jsonAt (files.sources.accounts.getD .null) (path ++ rest) = some leaf
    rw [haccounts]
    exact hheld

/-- **A set takes effect.**  A value that is not the standard's is in the file, the snapshot builds, and each part of the
value that is taken whole is in force where the layers above let the path pass.  A value equal to the standard's leaves no
key in the file, and the standard is in force where every layer above it lets the path pass. -/
theorem set_takes_effect {path : Path} {value : Json} (hedits : req.edits = [.set path value])
    (hcommit : commit ctx ed files req = .ok (files', applied)) : (standardIs ctx path value = false →
      (∃ file, files'.get req.target = some file ∧ jsonAt file.json path = some value) ∧
      ∃ merged, build ctx files'.sources = .ok merged ∧
        ((∀ layer ∈ layersAbove ctx files'.sources req.target.name, LetsPass ctx.schemas layer.json path) →
          ∀ rest leaf, jsonAt value rest = some leaf → Whole ctx.schemas (path ++ rest) leaf →
            (req.target = .project → CommandsBeside ctx.schemas files' (path ++ rest)) →
            jsonAt merged (path ++ rest) = some leaf)) ∧ (standardIs ctx path value = true →
      (∀ front key, path = front ++ [.key key] → ∀ file, files'.get req.target = some file → jsonAt file.json path = none) ∧
      ∀ merged, build ctx files'.sources = .ok merged →
        (∀ layer ∈ layersAbove ctx files'.sources "standard", LetsPass ctx.schemas layer.json path) →
        ∀ rest leaf, jsonAt ctx.standard (path ++ rest) = some leaf → Whole ctx.schemas (path ++ rest) leaf →
          jsonAt merged (path ++ rest) = some leaf) := by
  obtain ⟨reason, file, hadmitted, hproduce, hafter⟩ := commit_ok hcommit
  obtain ⟨hpaths, hjudge⟩ := admitted_ok hadmitted
  have hne : path ≠ [] := hpaths (.set path value) (by rw [hedits]; simp)
  rw [hedits] at hjudge
  change judge ctx.schemas req.target (jsonPut .null path (some value)) = [] at hjudge
  have hedit := editFile_ok (produce_single hedits hproduce)
  constructor
  · intro hstandard
    have hwritten : ∀ held, written ctx held (.set path value) = some (some value) := by
      intro held
      rw [written, if_neg (by simp [hstandard])]
    obtain ⟨new, hnew, hjson, happlied⟩ := hedit.resolve_left fun h => by
      rw [hwritten] at h
      cases h.1
    obtain rfl : some value = new := some.inj ((hwritten _).symm.trans hnew)
    have hat : jsonAt file.json path = some value := jsonAt_applySet hjson
    obtain ⟨-, rfl, merged, hbuild⟩ := hafter.resolve_left fun h => by
      rw [h.1] at happlied
      cases happlied
    have hget := files.get_put file req.target
    refine ⟨⟨file, hget, hat⟩, merged, hbuild, fun habove rest leaf hleaf hwhole hbeside => ?_⟩
    have hlayer := fileLayer_at hne hget hjudge hat hleaf hbeside
    have hnull := ne_null_of_jsonAt (fun h => hne (append_eq_nil_iff.mp h).1) hlayer
    exact in_force (built_of_build hbuild).merge (fileLayer_mem hnull) (fun _ hother hname => fileLayer_only hother hname)
      habove hlayer hwhole
  · intro hstandard
    refine ⟨fun front key hpath file' hfile' => ?_, fun merged hbuild habove rest leaf hleaf hwhole => ?_⟩
    · cases hedit with
      | inl hnothing =>
        obtain ⟨hwritten, heq⟩ := hnothing
        obtain ⟨hfile, happlied⟩ := Prod.mk.inj heq
        subst happlied
        obtain ⟨-, rfl⟩ := hafter.resolve_right fun h => h.1 rfl
        rw [hfile', getD_some] at hwritten
        by_contra hheld
        change written ctx (jsonAt file'.json path).isSome (.set path value) = none at hwritten
        rw [written, if_pos hstandard] at hwritten
        rw [if_pos (isSome_iff_ne_none.mpr hheld)] at hwritten
        cases hwritten
      | inr hchanged =>
        obtain ⟨new, hnew, hjson, happlied⟩ := hchanged
        obtain ⟨-, rfl, -⟩ := hafter.resolve_left fun h => by
          rw [h.1] at happlied
          cases happlied
        rw [files.get_put file req.target] at hfile'
        cases hfile'
        have hremoved : new = none := by
          rw [written, if_pos hstandard] at hnew
          split at hnew
          · exact (some.inj hnew).symm
          · cases hnew
        subst hremoved
        change applyRemove _ path = some file.json at hjson
        rw [hpath] at hjson ⊢
        exact jsonAt_applyRemove hjson
    · have hnull := ne_null_of_jsonAt (fun h => hne (append_eq_nil_iff.mp h).1) hleaf
      exact in_force (built_of_build hbuild).merge (standard_mem hnull) (fun _ hother hname => standard_only hother hname)
        habove hleaf hwhole

end Commit

/-! ### A port and some labels -/

namespace ServerSample

def context : Context where
  schemas := [⟨"server", .obj [("properties", .obj [("port", .obj []), ("labels", .obj [])])]⟩]
  standard := .obj [("server", .obj [("port", .nat 1), ("labels", .obj [("region", .str "eu")])])]
  detect _ := none
  validateSections _ _ := .ok []

def editor : Editor where
  header := "header"
  revision text := text
  write _ _ _ _ := some "edited"

def port : Path := [.key "server", .key "port"]

def labels : Path := [.key "server", .key "labels"]

def files (project global : Option Json) : Files where
  project := project.map (⟨"before", ·⟩)
  global := global.map (⟨"before", ·⟩)
  accounts := none
  trusted := none
  token := false

def request (target : SourceKind) (expected : Option String) (path : Path) (value : Json) : Request :=
  ⟨target, [.set path value], true, expected, false, false⟩

def serverPort (n : ℕ) : Json := .obj [("server", .obj [("port", .nat n)])]

end ServerSample

open ServerSample in
/-- A port in the project file, with another one in the global file. -/
theorem set_takes_effect_port : ∃ files' merged,
    commit context editor (files none (some (serverPort 2))) (request .project none port (.nat 5)) = .ok (files', [(port, false)]) ∧
    build context files'.sources = .ok merged ∧ jsonAt merged port = some (.nat 5) := by
  have hcommit : commit context editor (files none (some (serverPort 2))) (request .project none port (.nat 5)) =
      .ok ((files none (some (serverPort 2))).put ⟨"edited", serverPort 5⟩ .project, [(port, false)]) := by decide
  obtain ⟨-, merged, hbuild, hforce⟩ := (set_takes_effect rfl hcommit).1 (by decide)
  refine ⟨_, merged, hcommit, hbuild, ?_⟩
  have habove : layersAbove context ((files none (some (serverPort 2))).put ⟨"edited", serverPort 5⟩ .project).sources
      SourceKind.project.name = [] := by rfl
  refine hforce (fun layer hlayer => ?_) [] (.nat 5) rfl (.inr rfl) nofun
  rw [show SourceKind.project.name = (request .project none port (.nat 5)).target.name from rfl] at habove
  rw [habove] at hlayer
  cases hlayer

open ServerSample in
/-- A port equal to the standard's does not override the global file; labels are merged with those of the standard; a null of
the project hides the port of the global file. -/
theorem set_without_effect :
    (∃ files' merged, commit context editor (files none (some (serverPort 2))) (request .project none port (.nat 1)) =
        .ok (files', []) ∧ build context files'.sources = .ok merged ∧ jsonAt merged port = some (.nat 2)) ∧
    (∃ files' merged, commit context editor (files none none) (request .project none labels (.obj [("tier", .str "a")])) =
        .ok (files', [(labels, false)]) ∧ build context files'.sources = .ok merged ∧
      jsonAt merged labels = some (.obj [("tier", .str "a"), ("region", .str "eu")])) ∧
    ∃ files' merged, commit context editor (files (some (.obj [("server", .null)])) none) (request .global none port (.nat 5)) =
        .ok (files', [(port, false)]) ∧ build context files'.sources = .ok merged ∧ jsonAt merged port = none ∧
      jsonAt (.obj [("server", .null)]) port = none :=
  ⟨⟨files none (some (serverPort 2)), .obj [("server", .obj [("port", .nat 2), ("labels", .obj [("region", .str "eu")])])],
      by decide, by decide, rfl⟩,
    ⟨(files none none).put ⟨"edited", .obj [("server", .obj [("labels", .obj [("tier", .str "a")])])]⟩ .project,
      .obj [("server", .obj [("labels", .obj [("tier", .str "a"), ("region", .str "eu")]), ("port", .nat 1)])],
      by decide, by decide, rfl⟩,
    (files (some (.obj [("server", .null)])) none).put ⟨"edited", serverPort 5⟩ .global, .obj [("server", .null)],
    by decide, by decide, rfl, rfl⟩

end Forgent.Config
