import Forgent.Config.RelocateSteps

/-!
# Nothing that moves is lost

A key of the global file that carries something is in the source or, with the same canonical text, in its destination, at
every step of every run in which the other transactions keep what the destinations hold.  A finish removes only keys that are
held or carry nothing, and the other keys keep their values and their order.
-/

namespace Forgent.Config

open List Option

section

variable {ctx : Context} {ed : Editor} {c : Codec} {render : Json → String} {meaning : String → Json} {reason : Bool}
  {applied : List (Path × Bool)} {schemas : Schemas} {accounts : Json} {found : List Key} {req : Request}
  {base : Option File} {file : File}

/-! ### What a text means -/

/-- A text has one meaning, which an edit changes as it says, and texts are told apart by their revisions. -/
structure Reads (ed : Editor) (meaning : String → Json) : Prop where
  header : meaning ed.header = .null
  write : ∀ {file : File} {acknowledge : Bool} {path : Path} {new : Option Json} {text : String} {json : Json},
    meaning file.text = file.json → ed.write file acknowledge path new = some text →
    new.elim (applyRemove file.json path) (applySet file.json path) = some json → meaning text = json
  revision : Function.Injective ed.revision

def Meant (meaning : String → Json) (file : Option File) : Prop := ∀ f, file = some f → meaning f.text = f.json

section

variable (hreads : Reads ed meaning)

include hreads

theorem editFile_meant {acknowledge : Bool} {base result : File × List (Path × Bool)} {edit : Edit}
    (hbase : meaning base.1.text = base.1.json) (h : editFile ctx ed acknowledge reason base edit = .ok result) :
    meaning result.1.text = result.1.json := by
  unfold editFile at h
  split at h
  · exact Except.ok.inj h ▸ hbase
  · split at h
    · cases h
    · dsimp only at h
      split at h
      · next json text hjson htext =>
        cases h
        exact hreads.write hbase htext hjson
      · cases h

theorem foldlM_meant {acknowledge reason : Bool} {edits : List Edit} {base result : File × List (Path × Bool)}
    (hbase : meaning base.1.text = base.1.json) (h : edits.foldlM (editFile ctx ed acknowledge reason) base = .ok result) :
    meaning result.1.text = result.1.json := by
  induction edits generalizing base with
  | nil => exact Except.ok.inj h ▸ hbase
  | cons edit edits ih =>
    rw [foldlM_cons] at h
    obtain ⟨next, hedit, h⟩ := bind_eq_ok.mp h
    exact ih (editFile_meant hreads hbase hedit) h

theorem produce_meant (hbase : Meant meaning base) (h : produce ctx ed req reason base = .ok (file, applied)) :
    meaning file.text = file.json := by
  refine @foldlM_meant ctx ed meaning hreads _ _ req.edits (base.getD ⟨ed.header, .null⟩, []) (file, applied) ?_ h
  cases base with
  | none => exact hreads.header
  | some f => exact hbase f rfl

theorem valueOf_of_revision {a b : Option File} (ha : Meant meaning a) (hb : Meant meaning b)
    (h : a.map (fun file => ed.revision file.text) = b.map fun file => ed.revision file.text) : valueOf a = valueOf b := by
  cases a with
  | none =>
    cases b with
    | none => rfl
    | some g => cases h
  | some f =>
    cases b with
    | none => cases h
    | some g =>
      have htext : f.text = g.text := hreads.revision (Option.some.inj h)
      show f.json = g.json
      rw [← ha f rfl, ← hb g rfl, htext]

end

/-! ### Keys that were missing -/

/-- Keys of which none lies below another, and of which the accounts file has none. -/
structure Fresh (schemas : Schemas) (accounts : Json) (found : List Key) : Prop where
  pairwise : found.Pairwise fun a b => Unrelated a.path b.path
  topmost : ∀ key ∈ found, Topmost schemas key.path
  unique : ∀ key ∈ found, uniqueKeys key.value = true
  absent : ∀ key ∈ found, key.token = false → jsonAt accounts key.path = none

theorem Fresh.sublist {part : List Key} (h : Fresh schemas accounts found)
    (hsub : part.Sublist found) : Fresh schemas accounts part :=
  ⟨h.pairwise.sublist hsub, fun key hkey => h.topmost key (hsub.subset hkey), fun key hkey => h.unique key (hsub.subset hkey),
    fun key hkey => h.absent key (hsub.subset hkey)⟩

theorem mem_leafEntries {entry : Path × Json} (h : entry ∈ leafEntries found) :
    ∃ key ∈ found, key.path <+: entry.1 := by
  obtain ⟨key, hkey, hentry⟩ := mem_flatMap.mp h
  exact ⟨key, hkey, prefix_of_mem_leaves hentry⟩

theorem Fresh.entries_pairwise (h : Fresh schemas accounts found) :
    (leafEntries found).Pairwise fun a b => Unrelated a.1 b.1 := by
  unfold leafEntries
  rw [pairwise_flatMap]
  refine ⟨fun key hkey => leaves_pairwise key.path (h.unique key hkey), h.pairwise.imp fun {a b} hab x hx y hy => ?_⟩
  obtain ⟨p, hp⟩ := prefix_of_mem_leaves hx
  obtain ⟨q, hq⟩ := prefix_of_mem_leaves hy
  rw [← hp, ← hq]
  exact (hab.longer p).symm.longer q |>.symm

theorem Fresh.entries_absent (h : Fresh schemas accounts found)
    (htoken : ∀ key ∈ found, key.token = false) : ∀ entry ∈ leafEntries found, jsonAt accounts entry.1 = none := by
  intro entry hentry
  obtain ⟨key, hkey, rest, hrest⟩ := mem_leafEntries hentry
  rw [← hrest, jsonAt_append, h.absent key hkey (htoken key hkey)]
  rfl

theorem jsonAt_of_fresh (hfresh : Fresh ctx.schemas (valueOf base) found) (htoken : ∀ key ∈ found, key.token = false)
    (hedits : req.edits = leafEdits found) (h : produce ctx ed req reason base = .ok (file, applied)) {path : Path}
    (htop : Topmost ctx.schemas path) (hheld : (jsonAt (valueOf base) path).isSome = true) :
    jsonAt file.json path = jsonAt (valueOf base) path := by
  have hset := produce_sets hedits hfresh.entries_pairwise (hfresh.entries_absent htoken) h
  refine setAll_unrelated hset fun entry hentry => ?_
  obtain ⟨key, hkey, rest, hrest⟩ := mem_leafEntries (mem_of_mem_filter hentry)
  rw [← hrest]
  refine Unrelated.longer ((hfresh.topmost key hkey).unrelated htop fun heq => ?_) rest
  rw [← heq, hfresh.absent key hkey (htoken key hkey)] at hheld
  cases hheld

/-! ### What a call knows -/

def InOne (ctx : Context) (ed : Editor) (c : Codec) (start : Json) (m : Machine) : Prop :=
  ∀ key ∈ keysIn ctx.schemas start, carries key.value = true →
    jsonAt m.source.file.json key.path = some key.value ∨ HeldEqual c (m.dest ed) key

/-- The source is the first one without some of its keys. -/
def Without (schemas : Schemas) (start : Json) (m : Machine) : Prop :=
  ∃ gone, m.source.file.json = removeAll start gone ∧ ∀ p ∈ gone, keysOnly p = true ∧ ∃ key ∈ keysIn schemas start, key.path = p

/-- What other transactions do not take away: the moved keys that are held. -/
def Keeps (ctx : Context) (ed : Editor) (c : Codec) (start : Json) (m m' : Machine) : Prop :=
  ∀ key ∈ keysIn ctx.schemas start, HeldEqual c (m.dest ed) key → HeldEqual c (m'.dest ed) key

/-- What a copy found out when it read its destinations. -/
def Learned (ctx : Context) (ed : Editor) (meaning : String → Json) (expected : Option String) (accounts : Json) (found : List Key) :
    Prop :=
  ∃ read, Meant meaning read ∧ accounts = valueOf read ∧ expected = read.map (fun file => ed.revision file.text) ∧
    Fresh ctx.schemas accounts found

def CopyHolds (ctx : Context) (ed : Editor) (meaning : String → Json) (m : Machine) : Copying → Prop
  | .opened found | .tokenRead found _ => (∀ key ∈ found, Topmost ctx.schemas key.path ∧ uniqueKeys key.value = true) ∧
    found.Pairwise fun a b => Unrelated a.path b.path
  | .filling _ left dest edits | .ensuring _ _ left dest edits => ∃ before,
    Learned ctx ed meaning dest.revision dest.accounts (before ++ left) ∧ edits = leafEdits (before.filter fun key => !key.token)
  | .writing _ req phase => req.target = .accounts ∧ (∃ accounts found, Learned ctx ed meaning req.expected accounts found ∧
      (∀ key ∈ found, key.token = false) ∧ req.edits = leafEdits found) ∧ Making ctx ed m.accounts req phase
  | _ => True

/-- The keys of the source that carry something are held. -/
def AllHeld (ed : Editor) (c : Codec) (m : Machine) (found : List Key) : Prop :=
  ∀ key ∈ found, carries key.value = true → HeldEqual c (m.dest ed) key

def FinishHolds (ctx : Context) (ed : Editor) (c : Codec) (m : Machine) : Finishing → Prop
  | .opened source found => m.source = source ∧ found = keysIn ctx.schemas source.file.json
  | .tokenRead source found token => m.source = source ∧ found = keysIn ctx.schemas source.file.json ∧ token = m.token
  | .checked source found | .backedUp source found | .rewriting source found =>
    m.source = source ∧ found = keysIn ctx.schemas source.file.json ∧ AllHeld ed c m found
  | _ => True

def CallHolds (ctx : Context) (ed : Editor) (c : Codec) (meaning : String → Json) (m : Machine) (k : Call) : Prop :=
  (∀ lock, k.owns = some lock → m.locked lock = true) ∧
    match k with
    | .write commit => Making ctx ed (m.files.get commit.req.target) commit.req commit.phase
    | .copy phase => CopyHolds ctx ed meaning m phase
    | .finish phase => FinishHolds ctx ed c m phase
    | .stopped => True

def KeepsApart (k l : Call) : Prop := ∀ lock, k.owns = some lock → l.owns ≠ some lock

/-- What holds of the machine: the accounts file means what its text says, and nothing is lost. -/
structure Custody (ctx : Context) (ed : Editor) (c : Codec) (meaning : String → Json) (start : Source) (steady : Prop) (m : Machine) :
    Prop where
  meant : Meant meaning m.accounts
  without : Without ctx.schemas start.file.json m
  inOne : steady → InOne ctx ed c start.file.json m

end

section

variable {ctx : Context} {ed : Editor} {c : Codec} {render : Json → String} {meaning : String → Json} {start : Source} {steady : Prop}
  {m m' : Machine} {gives : Bool} {found : List Key} {commit commit' : Commit} {phase : Finishing}

theorem HeldEqual.congr {d d' : Dest} {key : Key} (htoken : d'.token = d.token) (haccounts : d'.accounts = d.accounts)
    (h : HeldEqual c d key) : HeldEqual c d' key := by
  obtain ⟨there, text, hthere, htext⟩ := h
  refine ⟨there, text, ?_, htext⟩
  unfold Dest.have at hthere ⊢
  rw [htoken, haccounts]
  exact hthere

theorem Custody.of_held (h : Custody ctx ed c meaning start steady m) (hsource : m'.source = m.source)
    (hmeant : Meant meaning m'.accounts)
    (hheld : steady → ∀ key ∈ keysIn ctx.schemas start.file.json, HeldEqual c (m.dest ed) key → HeldEqual c (m'.dest ed) key) :
    Custody ctx ed c meaning start steady m' where
  meant := hmeant
  without := by
    obtain ⟨gone, hjson, hgone⟩ := h.without
    exact ⟨gone, by rw [hsource, hjson], hgone⟩
  inOne := by
    intro hsteady key hkey hcarries
    rw [hsource]
    exact (h.inOne hsteady key hkey hcarries).imp_right (hheld hsteady key hkey)

theorem Custody.of_same (h : Custody ctx ed c meaning start steady m) (hsame : SameGlobal m m') : Custody ctx ed c meaning start steady m' := by
  obtain ⟨hsource, haccounts, htoken⟩ := hsame
  refine h.of_held hsource (by rw [haccounts]; exact h.meant) fun _ key _ hheld =>
    @HeldEqual.congr c (m.dest ed) (m'.dest ed) key htoken ?_ hheld
  show valueOf m'.accounts = valueOf m.accounts
  rw [haccounts]

theorem held_of_copy (hreads : Reads ed meaning) (hmeant : Meant meaning m.accounts) {req : Request} {reason : Bool} {file : File}
    {applied : List (Path × Bool)} {accounts : Json} (hlearned : Learned ctx ed meaning req.expected accounts found)
    (htoken : ∀ key ∈ found, key.token = false) (hedits : req.edits = leafEdits found)
    (hproduce : produce ctx ed req reason m.accounts = .ok (file, applied))
    (hrevision : m.accounts.map (fun file => ed.revision file.text) = req.expected) {key : Key} (htop : Topmost ctx.schemas key.path)
    (hheld : HeldEqual c (m.dest ed) key) (hsame : m'.token = m.token) (haccounts : m'.accounts = some file) :
    HeldEqual c (m'.dest ed) key := by
  obtain ⟨read, hread, rfl, hexpected, hfresh⟩ := hlearned
  rw [← valueOf_of_revision hreads hmeant hread (hrevision.trans hexpected)] at hfresh
  obtain ⟨there, text, hthere, htext⟩ := hheld
  refine ⟨there, text, ?_, htext⟩
  unfold Dest.have at hthere ⊢
  split
  · next hkey =>
    rw [if_pos hkey] at hthere
    show m'.token.map Json.str = some there
    rw [hsame]
    exact hthere
  · next hkey =>
    rw [if_neg hkey] at hthere
    change jsonAt (valueOf m.accounts) key.path = some there at hthere
    show jsonAt (valueOf m'.accounts) key.path = some there
    rw [haccounts]
    show jsonAt file.json key.path = some there
    rw [jsonAt_of_fresh hfresh htoken hedits hproduce htop (by rw [hthere]; rfl), hthere]

theorem copy_custody (hreads : Reads ed meaning) (h : Custody ctx ed c meaning start steady m) {phase phase' : Copying}
    (hholds : CopyHolds ctx ed meaning m phase) (hnext : copyNext ctx ed c m gives phase = some (m', phase')) :
    Custody ctx ed c meaning start steady m' := by
  obtain ⟨hsource, -, hfiles⟩ := copyNext_files hnext
  rcases hfiles with hsame | ⟨found, text, left, dest, edits, rfl, haccounts, htoken⟩ |
    ⟨found, req, inner, s, inner', rfl, -, htoken, hcommit, haccounts⟩
  · exact h.of_same hsame
  · refine h.of_held hsource (by rw [haccounts]; exact h.meant) fun _ key _ hheld => ?_
    obtain ⟨there, text', hthere, htext⟩ := hheld
    refine ⟨there, text', ?_, htext⟩
    unfold Dest.have at hthere ⊢
    split
    · next hkey =>
      rw [if_pos hkey] at hthere
      change m.token.map Json.str = some there at hthere
      show m'.token.map Json.str = some there
      rw [htoken]
      cases hold : m.token with
      | none =>
        rw [hold] at hthere
        cases hthere
      | some old =>
        rw [hold] at hthere
        exact hthere
    · next hkey =>
      rw [if_neg hkey] at hthere
      show jsonAt (valueOf m'.accounts) key.path = some there
      rw [haccounts]
      exact hthere
  · obtain ⟨htarget, ⟨accounts, ks, hlearned, hnotoken, hedits⟩, hmaking⟩ := hholds
    cases commitNext_files hcommit with
    | inl hsame =>
      rw [hsame] at haccounts
      exact h.of_same ⟨hsource, haccounts, htoken⟩
    | inr hinstall =>
      obtain ⟨file, applied, read, there, rfl, hput, -⟩ := hinstall
      obtain ⟨⟨reason, hproduce⟩, hrevision⟩ := hmaking
      have hnew : m'.accounts = some file := by
        rw [haccounts, hput, htarget]
        rfl
      refine h.of_held hsource (fun f hf => ?_) fun _ key hkey hheld => ?_
      · rw [hnew] at hf
        cases hf
        exact produce_meant hreads h.meant hproduce
      · have htop := ((mem_keysIn start.unique).mp hkey).1
        exact held_of_copy hreads h.meant hlearned hnotoken hedits hproduce hrevision htop hheld htoken hnew

/-- What a copy knows after its own step. -/
theorem copy_holds (h : Custody ctx ed c meaning start steady m) {phase phase' : Copying} (hholds : CopyHolds ctx ed meaning m phase)
    (hnext : copyNext ctx ed c m gives phase = some (m', phase')) : CopyHolds ctx ed meaning m' phase' := by
  cases phase with
  | starting confined =>
    rw [copyNext] at hnext
    split at hnext
    · cases hnext
      trivial
    · split at hnext
      · cases hnext
        trivial
      · next found hfound =>
        cases hnext
        obtain ⟨rfl, -⟩ := keys_ok hfound
        refine ⟨fun key hkey => ?_, keysIn_pairwise m.source.unique⟩
        obtain ⟨htop, hat, -⟩ := (mem_keysIn m.source.unique).mp hkey
        exact ⟨htop, uniqueKeys_jsonAt m.source.unique hat⟩
  | opened found | ensuring found text left dest edits =>
    cases hnext
    exact hholds
  | tokenRead found token =>
    obtain ⟨hkeys, hpairwise⟩ := hholds
    rw [copyNext] at hnext
    split at hnext
    · cases hnext
      trivial
    · next all hstates =>
      cases hnext
      obtain ⟨-, hmissing⟩ := states_ok hstates
      refine ⟨[], ⟨m.accounts, h.meant, rfl, rfl, ?_⟩, rfl⟩
      rw [nil_append, hmissing]
      refine ⟨hpairwise.sublist filter_sublist, fun key hkey => (hkeys key (mem_of_mem_filter hkey)).1,
        fun key hkey => (hkeys key (mem_of_mem_filter hkey)).2, fun key hkey htoken => ?_⟩
      have hheld := of_decide_eq_true (mem_filter.mp hkey).2
      have hnone := (missing_of_held hheld).2
      unfold Dest.have at hnone
      rw [htoken] at hnone
      exact hnone
  | filling found left dest edits =>
    obtain ⟨before, hlearned, hedits⟩ := hholds
    cases left with
    | nil =>
      rw [copyNext] at hnext
      split at hnext
      · cases hnext
        trivial
      · cases hnext
        obtain ⟨read, hread, haccounts, hexpected, hfresh⟩ := hlearned
        rw [append_nil] at hfresh
        refine ⟨rfl, ⟨dest.accounts, before.filter fun key => !key.token, ⟨read, hread, haccounts, hexpected,
          hfresh.sublist filter_sublist⟩, fun key hkey => ?_, hedits⟩, trivial⟩
        simpa using (mem_filter.mp hkey).2
    | cons key left =>
      have hafter : before ++ key :: left = before ++ [key] ++ left := by
        rw [append_assoc]
        rfl
      rw [hafter] at hlearned
      rw [copyNext] at hnext
      split at hnext
      · next htoken =>
        split at hnext
        · split at hnext
          · cases hnext
            trivial
          · cases hnext
        · cases hnext
          refine ⟨before ++ [key], hlearned, ?_⟩
          rw [hedits, filter_append, filter_cons_of_neg (by simp [htoken]), filter_nil, append_nil]
      · next htoken =>
        cases hnext
        refine ⟨before ++ [key], hlearned, ?_⟩
        rw [hedits, filter_append, filter_cons_of_pos (by simp [htoken]), filter_nil]
        unfold leafEdits leafEntries
        rw [flatMap_append, map_append]
  | writing found req inner =>
    obtain ⟨htarget, hlearned, hmaking⟩ := hholds
    by_cases hdone : ∃ outcome, inner = .done outcome
    · obtain ⟨outcome, rfl⟩ := hdone
      cases outcome <;>
      · cases hnext
        trivial
    · rw [copyNext_writing fun outcome heq => hdone ⟨outcome, heq⟩] at hnext
      obtain ⟨⟨s, inner'⟩, hcommit, heq⟩ := map_eq_some_iff.mp hnext
      cases heq
      refine ⟨htarget, hlearned, ?_⟩
      have hstep := making_step (by rw [htarget]; exact hmaking) hcommit
      rw [htarget] at hstep
      exact hstep
  | written found =>
    cases hnext
    trivial
  | verifying found token =>
    rw [copyNext] at hnext
    split at hnext <;>
    · cases hnext
      trivial
  | done outcome => cases hnext

theorem write_holds (hmaking : Making ctx ed (m.files.get commit.req.target) commit.req commit.phase)
    (hnext : writeNext ctx ed m gives commit = some (m', commit')) :
    Making ctx ed (m'.files.get commit'.req.target) commit'.req commit'.phase := by
  obtain ⟨req, phase⟩ := commit
  unfold writeNext at hnext
  split at hnext
  · cases phase with
    | starting =>
      cases hnext
      trivial
    | _ => cases hnext
  · next htarget =>
    obtain ⟨⟨s, phase'⟩, hcommit, heq⟩ := map_eq_some_iff.mp hnext
    cases heq
    have hstep := making_step hmaking hcommit
    dsimp only at htarget hstep ⊢
    generalize req.target = target at htarget hstep ⊢
    cases target with
    | global => exact absurd rfl htarget
    | project | accounts => exact hstep

theorem write_custody (hreads : Reads ed meaning) (h : Custody ctx ed c meaning start steady m)
    (hmaking : Making ctx ed (m.files.get commit.req.target) commit.req commit.phase)
    (hnext : writeNext ctx ed m gives commit = some (m', commit')) (hkeeps : steady → Keeps ctx ed c start.file.json m m') :
    Custody ctx ed c meaning start steady m' := by
  obtain ⟨hsource, htoken, -, hfiles⟩ := writeNext_files hnext
  refine h.of_held hsource ?_ hkeeps
  cases hfiles with
  | inl hsame =>
    rw [hsame.2]
    exact h.meant
  | inr hcommit =>
    obtain ⟨htarget, s, hcommit, -, haccounts⟩ := hcommit
    rw [haccounts]
    cases commitNext_files hcommit with
    | inl hsame =>
      rw [hsame]
      exact h.meant
    | inr hinstall =>
      obtain ⟨file, applied, read, there, hphase, hput, -⟩ := hinstall
      rw [hput]
      by_cases hkind : commit.req.target = .accounts
      · rw [hkind]
        rw [hkind, hphase] at hmaking
        obtain ⟨⟨reason, hproduce⟩, -⟩ := hmaking
        intro f hf
        cases hf
        exact produce_meant hreads h.meant hproduce
      · have hother := Files.get_put_of_ne m.shared.files file (Ne.symm hkind)
        change ((m.shared.files.put file commit.req.target).accounts) = m.accounts at hother
        rw [hother]
        exact h.meant

/-- Removing the keys of the source that are held, or carry nothing, loses none. -/
theorem rewriting_custody (h : Custody ctx ed c meaning start steady m) {source : Source}
    (hholds : FinishHolds ctx ed c m (.rewriting source found)) (hsource : m'.source = source.without render found)
    (haccounts : m'.accounts = m.accounts) (htoken : m'.token = m.token) : Custody ctx ed c meaning start steady m' := by
  obtain ⟨rfl, rfl, hheld⟩ := hholds
  have hjson : m'.source.file.json = removeAll m.source.file.json (paths (keysIn ctx.schemas m.source.file.json)) := by
    rw [hsource]
    rfl
  obtain ⟨gone, hgone, hkeys⟩ := h.without
  -- A key of the source now is one of the first source.
  have hfirst : ∀ {key}, key ∈ keysIn ctx.schemas m.source.file.json →
      Topmost ctx.schemas key.path ∧ ∃ first ∈ keysIn ctx.schemas start.file.json, first.path = key.path := by
    intro key hkey
    obtain ⟨htop, hat, htokenFile⟩ := (mem_keysIn m.source.unique).mp hkey
    have hsome : (jsonAt start.file.json key.path).isSome = true := by
      apply @isSome_of_removeAll gone
      rw [← hgone, hat]
      rfl
    obtain ⟨value, hvalue⟩ := isSome_iff_exists.mp hsome
    exact ⟨htop, ⟨key.path, key.token, value⟩, (mem_keysIn start.unique).mpr ⟨htop, hvalue, htokenFile⟩, rfl⟩
  refine ⟨by rw [haccounts]; exact h.meant, ?_, fun hsteady key hkey hcarries => ?_⟩
  · refine ⟨gone ++ (paths (keysIn ctx.schemas m.source.file.json)).filter keysOnly, ?_, fun p hp => ?_⟩
    · rw [hjson, removeAll_append, ← hgone, removeAll_filter]
    · cases mem_append.mp hp with
      | inl hold => exact hkeys p hold
      | inr hnew =>
        obtain ⟨hmem, hp'⟩ := mem_filter.mp hnew
        obtain ⟨key, hkey, rfl⟩ := List.mem_map.mp hmem
        obtain ⟨-, first, hmem', hpath⟩ := hfirst hkey
        exact ⟨hp', first, hmem', hpath⟩
  · have hsame : ∀ {k}, HeldEqual c (m.dest ed) k → HeldEqual c (m'.dest ed) k := by
      intro k hk
      refine @HeldEqual.congr c (m.dest ed) (m'.dest ed) k htoken ?_ hk
      show valueOf m'.accounts = valueOf m.accounts
      rw [haccounts]
    cases h.inOne hsteady key hkey hcarries with
    | inr hin => exact .inr (hsame hin)
    | inl hat =>
      obtain ⟨htop, -, htokenFile⟩ := (mem_keysIn start.unique).mp hkey
      -- The key is one that is removed now.
      have hmem : key ∈ keysIn ctx.schemas m.source.file.json := (mem_keysIn m.source.unique).mpr ⟨htop, hat, htokenFile⟩
      exact .inr (hsame (hheld key hmem hcarries))

theorem finish_custody (h : Custody ctx ed c meaning start steady m) {phase' : Finishing} (hholds : FinishHolds ctx ed c m phase)
    (hnext : finishNext ctx ed c render m gives phase = some (m', phase')) : Custody ctx ed c meaning start steady m' := by
  obtain ⟨-, haccounts, htoken, hsource⟩ := finishNext_files hnext
  cases hsource with
  | inl hsame => exact h.of_same ⟨hsame, haccounts, htoken⟩
  | inr hrewriting =>
    obtain ⟨source, found, rfl, hsource⟩ := hrewriting
    exact rewriting_custody h hholds hsource haccounts htoken

/-- What a finish knows after its own step. -/
theorem finish_holds {phase' : Finishing} (hholds : FinishHolds ctx ed c m phase)
    (hnext : finishNext ctx ed c render m gives phase = some (m', phase')) : FinishHolds ctx ed c m' phase' := by
  cases phase with
  | starting machineChecked confined =>
    rw [finishNext] at hnext
    split at hnext
    · cases hnext
      trivial
    · split at hnext <;>
      · cases hnext
        trivial
  | waiting =>
    rw [finishNext] at hnext
    split at hnext
    · split at hnext
      · cases hnext
        trivial
      · cases hnext
    · cases hnext
      trivial
  | holding =>
    rw [finishNext] at hnext
    split at hnext
    · cases hnext
      trivial
    · next found hfound =>
      obtain ⟨hkeys, -⟩ := keys_ok hfound
      split at hnext
      · cases hnext
        trivial
      · cases hnext
        exact ⟨rfl, hkeys⟩
  | opened source found =>
    cases hnext
    exact ⟨hholds.1, hholds.2, rfl⟩
  | tokenRead source found token =>
    obtain ⟨hsource, hkeys, htoken⟩ := hholds
    rw [finishNext] at hnext
    split at hnext
    · cases hnext
      trivial
    · next all hstates =>
      cases hnext
      refine ⟨hsource, hkeys, fun key hkey hcarries => ?_⟩
      have hheld := (states_ok hstates).1 key hkey
      rw [htoken] at hheld
      exact heldEqual_of_held (hheld.resolve_right fun hmissing => by cases hmissing.1) hcarries
  | checked source found =>
    cases hnext
    exact hholds
  | backedUp source found =>
    rw [finishNext] at hnext
    split at hnext
    · cases hnext
      exact hholds
    · cases hnext
      trivial
  | rewriting source found | releasing outcome =>
    cases hnext
    trivial
  | done outcome => cases hnext

/-- What a call knows while the files under its lock stay. -/
theorem CallHolds.stays {k : Call} (h : CallHolds ctx ed c meaning m k)
    (hlocks : ∀ lock, k.owns = some lock → m'.locked lock = true) (hglobal : k.owns = some .globalConfig → SameGlobal m m')
    (hproject : k.owns = some .projectConfig → m'.project = m.project) : CallHolds ctx ed c meaning m' k := by
  refine ⟨hlocks, ?_⟩
  obtain ⟨-, hknows⟩ := h
  cases k with
  | write commit =>
    obtain ⟨req, phase⟩ := commit
    -- What is to be installed rests on the target, which is under the lock.
    have htarget : (Commit.mk req phase).owns = some req.target.lock → req.target ≠ .global →
        m'.files.get req.target = m.files.get req.target := by
      intro howns hne
      change (Commit.mk req phase).owns = some .globalConfig → _ at hglobal
      change (Commit.mk req phase).owns = some .projectConfig → _ at hproject
      rw [howns] at hglobal hproject
      generalize req.target = target at hne hglobal hproject ⊢
      cases target with
      | global => exact absurd rfl hne
      | project => exact hproject rfl
      | accounts => exact (hglobal rfl).2.1
    have hsource : (Commit.mk req phase).owns = some req.target.lock → req.target = .global →
        m'.files.get req.target = m.files.get req.target := by
      intro howns heq
      change (Commit.mk req phase).owns = some .globalConfig → _ at hglobal
      rw [howns] at hglobal
      rw [heq] at hglobal ⊢
      show some m'.source.file = some m.source.file
      rw [(hglobal rfl).1]
    have hall : (Commit.mk req phase).owns = some req.target.lock → m'.files.get req.target = m.files.get req.target := by
      intro howns
      by_cases heq : req.target = .global
      · exact hsource howns heq
      · exact htarget howns heq
    cases phase with
    | reading | checking | installing =>
      show Making ctx ed (m'.files.get req.target) req _
      rw [hall rfl]
      exact hknows
    | _ => trivial
  | copy phase =>
    cases phase with
    | writing found req inner =>
      obtain ⟨htarget, hlearned, hmaking⟩ := hknows
      refine ⟨htarget, hlearned, ?_⟩
      have hlock : req.target.lock = .globalConfig := by
        rw [htarget]
        rfl
      cases inner with
      | reading | checking | installing =>
        have hsame := hglobal (congrArg some hlock)
        rw [hsame.2.1]
        exact hmaking
      | _ => trivial
    | opened | tokenRead | filling | ensuring => exact hknows
    | _ => trivial
  | finish phase =>
    have hdest : SameGlobal m m' → ∀ {found}, AllHeld ed c m found → AllHeld ed c m' found := by
      intro hsame found hall key hkey hcarries
      refine @HeldEqual.congr c (m.dest ed) (m'.dest ed) key hsame.2.2 ?_ (hall key hkey hcarries)
      show valueOf m'.accounts = valueOf m.accounts
      rw [hsame.2.1]
    cases phase with
    | opened source found =>
      have hsame := hglobal rfl
      exact ⟨hsame.1.trans hknows.1, hknows.2⟩
    | tokenRead source found token =>
      have hsame := hglobal rfl
      exact ⟨hsame.1.trans hknows.1, hknows.2.1, hknows.2.2.trans hsame.2.2.symm⟩
    | checked | backedUp | rewriting =>
      have hsame := hglobal rfl
      exact ⟨hsame.1.trans hknows.1, hknows.2.1, hdest hsame hknows.2.2⟩
    | _ => trivial
  | stopped => trivial

end

/-! ### Every run -/

section

variable {ctx : Context} {ed : Editor} {c : Codec} {render : Json → String} {meaning : String → Json} {start : Source} {steady : Prop}
  {k : Call} {m : Machine}

/-- The relocation in which other transactions keep the moved keys that are held, where `steady` asks for it. -/
abbrev relocationOf (ctx : Context) (ed : Editor) (c : Codec) (render : Json → String) (start : Source) (steady : Prop) :
    Interleave Machine Call :=
  relocation ctx ed c render fun m m' => steady → Keeps ctx ed c start.file.json m m'

theorem owns_of_begins (h : k.begins) : k.owns = none := by
  cases k with
  | write commit =>
    obtain ⟨req, phase⟩ := commit
    obtain rfl : phase = .starting := h
    rfl
  | copy phase =>
    obtain ⟨confined, rfl⟩ := h
    rfl
  | finish phase =>
    obtain ⟨machineChecked, confined, rfl⟩ := h
    rfl
  | stopped => rfl

theorem callHolds_of_begins (h : k.begins) : CallHolds ctx ed c meaning m k := by
  refine ⟨fun lock hlock => ?_, ?_⟩
  · rw [owns_of_begins h] at hlock
    cases hlock
  · cases k with
    | write commit =>
      obtain ⟨req, phase⟩ := commit
      obtain rfl : phase = .starting := h
      trivial
    | copy phase =>
      obtain ⟨confined, rfl⟩ := h
      trivial
    | finish phase =>
      obtain ⟨machineChecked, confined, rfl⟩ := h
      trivial
    | stopped => trivial

theorem call_step (hreads : Reads ed meaning) {m' : Machine} {k' : Call} {gives : Bool}
    (h : Custody ctx ed c meaning start steady m) (hholds : CallHolds ctx ed c meaning m k)
    (hnext : callNext ctx ed c render m gives k = some (m', k'))
    (hkeeps : (∃ commit, k = .write commit) → steady → Keeps ctx ed c start.file.json m m') :
    Custody ctx ed c meaning start steady m' ∧ CallHolds ctx ed c meaning m' k' := by
  have hlocks := (callNext_locks hnext hholds.1).1
  obtain ⟨-, hknows⟩ := hholds
  cases k with
  | write commit =>
    obtain ⟨⟨m₁, commit'⟩, hwrite, heq⟩ := map_eq_some_iff.mp hnext
    cases heq
    exact ⟨write_custody hreads h hknows hwrite (hkeeps ⟨commit, rfl⟩), hlocks, write_holds hknows hwrite⟩
  | copy phase =>
    obtain ⟨⟨m₁, phase'⟩, hcopy, heq⟩ := map_eq_some_iff.mp hnext
    cases heq
    exact ⟨copy_custody hreads h hknows hcopy, hlocks, copy_holds h hknows hcopy⟩
  | finish phase =>
    obtain ⟨⟨m₁, phase'⟩, hfinish, heq⟩ := map_eq_some_iff.mp hnext
    cases heq
    exact ⟨finish_custody h hknows hfinish, hlocks, finish_holds hknows hfinish⟩
  | stopped => cases hnext

theorem relocation_exclusion (hreads : Reads ed meaning) : (relocationOf ctx ed c render start steady).Exclusion
    (Custody ctx ed c meaning start steady) (CallHolds ctx ed c meaning) KeepsApart where
  symm := fun h lock hl hk => h lock hk hl
  begins := by
    intro m k _ hbegins
    refine ⟨callHolds_of_begins hbegins, fun l _ lock hlock => ?_⟩
    rw [owns_of_begins hbegins] at hlock
    cases hlock
  step := by
    intro m k m' k' h hholds hstep
    cases hstep with
    | inl hnext =>
      obtain ⟨⟨gives, hnext⟩, hkeeps⟩ := hnext
      obtain ⟨hcustody, hholds'⟩ := call_step hreads h hholds hnext hkeeps
      refine ⟨hcustody, hholds', fun l hl hapart => ?_⟩
      have hothers : ∀ lock, l.owns = some lock → m'.locked lock = true ∧ k'.owns ≠ some lock := fun lock hlock =>
        (callNext_locks hnext hholds.1).2 lock (fun hown => hapart lock hown hlock) (hl.1 lock hlock)
      have hfiles := callNext_unowned hnext fun found req inner heq => by
        subst heq
        exact hholds.2.1
      refine ⟨hl.stays (fun lock hlock => (hothers lock hlock).1) (fun hlock => hfiles.1 fun hown => hapart _ hown hlock)
        fun hlock => hfiles.2 fun hown => hapart _ hown hlock, fun lock hown hlock => (hothers lock hlock).2 hown⟩
    | inr hstop =>
      obtain ⟨rfl, rfl⟩ := hstop
      have hsame : SameGlobal m (m.release k.owns) := ⟨rfl, rfl, rfl⟩
      refine ⟨h.of_same hsame, ⟨nofun, trivial⟩, fun l hl hapart => ⟨?_, fun lock hown => by cases hown⟩⟩
      refine hl.stays (fun lock hlock => ?_) (fun _ => hsame) fun _ => rfl
      exact ((LocksKept.release k.owns).2 lock (fun hown => hapart lock hown hlock) (hl.1 lock hlock)).1
  around := fun _ haround => haround.elim

/-- Where every source of keys is as it began, and no call is under way. -/
def quietMachine (m : Machine) : Interleave.World Machine Call := ⟨m, []⟩

end

end Forgent.Config
