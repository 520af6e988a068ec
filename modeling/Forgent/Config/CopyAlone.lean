import Forgent.Config.NothingLost

/-!
# A copy with nothing else under way

Where no destination holds another value, the transaction accepts the leaves that are missing, and none of them is the
standard's value, a copy that is not stopped ends with every key in its destination.
-/

namespace Forgent.Config

open List Option

section

variable {ctx : Context} {ed : Editor} {c : Codec} {m : Machine} {found : List Key}

/-! ### A commit alone -/

/-- The steps of a commit while nothing else moves. -/
abbrev CommitGoes (ctx : Context) (ed : Editor) (req : Request) : Shared × Committing → Shared × Committing → Prop :=
  Relation.ReflTransGen fun a b => commitNext ctx ed a.1 req false a.2 = some b

theorem current_of_commit {files files' : Files} {req : Request} {applied : Applied} (h : commit ctx ed files req = .ok (files', applied)) :
    current ed req (files.get req.target) = .ok (files.get req.target) := by
  obtain ⟨reason, -, h⟩ := bind_eq_ok.mp h
  obtain ⟨base, hcurrent, -⟩ := bind_eq_ok.mp h
  obtain ⟨rfl, -⟩ := current_ok hcurrent
  exact hcurrent

theorem files_taken (files : Files) :
    ((files.unread.take files .project).take files .global).take files .accounts = files := rfl

theorem locked_restored {locked : Lock → Bool} {lock : Lock} (hfree : locked lock = false) :
    (fun other => decide (other ≠ lock) && (decide (other = lock) || locked other)) = locked := by
  funext other
  by_cases heq : other = lock
  · rw [heq, hfree]
    simp
  · simp [heq]

/-- A commit that is accepted, step by step. -/
theorem commit_goes {s : Shared} {files' : Files} {req : Request} {applied : Applied}
    (h : commit ctx ed s.files req = .ok (files', applied)) (hfree : s.locked req.target.lock = false) :
    ∃ file, CommitGoes ctx ed req (s, .starting) (⟨files', s.locked⟩, .done (.ok (file, applied))) := by
  obtain ⟨reason, file, hadmitted, hproduce, hafter⟩ := commit_ok h
  have hcurrent := current_of_commit h
  let held : Lock → Bool := fun lock => lock = req.target.lock || s.locked lock
  have hstart : CommitGoes ctx ed req (s, .starting) (⟨s.files, held⟩, .holding reason) := by
    refine .head (b := (s, .waiting reason)) ?_ (.single ?_)
    · rw [commitNext, hadmitted]
    · rw [commitNext, hfree]
      rfl
  have hend : ∀ files outcome, CommitGoes ctx ed req (⟨files, held⟩, .releasing outcome) (⟨files, s.locked⟩, .done outcome) := by
    intro files outcome
    refine .single ?_
    rw [commitNext]
    dsimp only
    rw [locked_restored hfree]
  have hholding : ∀ {next}, (if applied = [] then some ((⟨s.files, held⟩ : Shared), Committing.releasing (.ok (file, applied)))
      else some (⟨s.files, held⟩, .reading file applied [.project, .global, .accounts] s.files.unread)) = some next →
      commitNext ctx ed ⟨s.files, held⟩ req false (.holding reason) = some next := by
    intro next hnext
    rw [commitNext, hcurrent]
    dsimp only
    rw [hproduce]
    exact hnext
  refine ⟨file, hstart.trans ?_⟩
  cases hafter with
  | inl hnothing =>
    obtain ⟨happlied, rfl⟩ := hnothing
    exact .head (hholding (if_pos happlied)) (hend _ _)
  | inr hinstall =>
    obtain ⟨happlied, rfl, merged, hbuild⟩ := hinstall
    refine .head (hholding (if_neg happlied)) ?_
    refine .head rfl (.head rfl (.head rfl ?_))
    rw [files_taken]
    refine .head (b := (⟨s.files, held⟩, .checking file applied s.files)) ?_ ?_
    · rw [commitNext, hbuild]
    refine .head (b := (⟨s.files, held⟩, .installing file applied s.files (s.files.get req.target).isSome)) ?_ ?_
    · rw [commitNext, hcurrent]
    refine .head (b := (⟨s.files.put file req.target, held⟩, .releasing (.ok (file, applied)))) ?_ (hend _ _)
    show (if (!(s.files.get req.target).isSome && (s.files.get req.target).isSome) = true then _ else _) = _
    rw [if_neg (by simp)]

/-! ### A copy alone -/

/-- The steps of a copy while nothing else moves. -/
abbrev CopyGoes (ctx : Context) (ed : Editor) (c : Codec) : Machine × Copying → Machine × Copying → Prop :=
  Relation.ReflTransGen fun a b => copyNext ctx ed c a.1 false a.2 = some b

theorem writing_goes {m : Machine} {found : List Key} {req : Request} (htarget : req.target = .accounts) {phase : Committing}
    {b : Shared × Committing} (h : CommitGoes ctx ed req (m.withoutProject, phase) b) :
    ∃ accounts locked, ({ m with accounts := accounts, locked := locked } : Machine).withoutProject = b.1 ∧
      CopyGoes ctx ed c (m, .writing found req phase) ({ m with accounts := accounts, locked := locked }, .writing found req b.2) := by
  induction h with
  | refl => exact ⟨m.accounts, m.locked, rfl, .refl⟩
  | @tail a b hrun hstep ih =>
    obtain ⟨accounts, locked, hview, hgoes⟩ := ih
    obtain ⟨s, p⟩ := a
    obtain ⟨s', p'⟩ := b
    dsimp only at hview hgoes hstep
    rw [← hview] at hstep
    refine ⟨s'.files.accounts, s'.locked, ?_, hgoes.tail ?_⟩
    · have hfiles : s'.files = { ({ m with accounts := accounts, locked := locked } : Machine).withoutProject.files with
          accounts := s'.files.accounts } := by
        cases commitNext_files hstep with
        | inl hsame => rw [hsame]
        | inr hinstall =>
          obtain ⟨file, applied, read, there, -, hput, -⟩ := hinstall
          rw [hput, htarget]
          rfl
      obtain ⟨files', locked'⟩ := s'
      dsimp only at hfiles ⊢
      rw [hfiles]
      rfl
    · have hnot : ∀ outcome, p ≠ .done outcome := by
        rintro outcome rfl
        cases hstep
      show copyNext ctx ed c _ false (.writing found req p) = _
      rw [copyNext_writing hnot, hstep]
      rfl

/-- The token after the missing keys were filled in: the first one stays. -/
def tokenAfter (token : Option String) (missing : List Key) : Option String :=
  missing.foldl (fun token key => if key.token then some (token.getD (key.value.asStr.getD "")) else token) token

theorem release_take {lock : Lock} (hfree : m.locked lock = false) (token : Option String) :
    ({ m.take lock with token := token } : Machine).release (some lock) = { m with token := token } := by
  have hlocked : (fun other => decide (some other ≠ some lock) && (decide (other = lock) || m.locked other)) = m.locked := by
    funext other
    by_cases heq : other = lock
    · rw [heq, hfree]
      simp
    · simp [heq]
  show ({ m with token := token, locked := fun other => decide (some other ≠ some lock) && (decide (other = lock) || m.locked other) } :
    Machine) = _
  rw [hlocked]

theorem filling_goes {m : Machine} {found left : List Key} {dest : Dest} {edits : List Edit} (hfree : m.locked .globalConfig = false) :
    CopyGoes ctx ed c (m, .filling found left dest edits)
      ({ m with token := tokenAfter m.token left }, .filling found [] dest (edits ++ leafEdits (left.filter fun key => !key.token))) := by
  induction left generalizing m edits with
  | nil =>
    show CopyGoes ctx ed c _ (m, .filling found [] dest (edits ++ []))
    rw [append_nil]
  | cons key left ih =>
    by_cases htoken : key.token = true
    · rw [filter_cons_of_neg (by simp [htoken])]
      have htake : copyNext ctx ed c m false (.filling found (key :: left) dest edits) =
          some (m.take .globalConfig, .ensuring found (key.value.asStr.getD "") left dest edits) := by
        rw [copyNext, if_pos htoken, if_neg (by simp [hfree])]
      have hensure : copyNext ctx ed c (m.take .globalConfig) false (.ensuring found (key.value.asStr.getD "") left dest edits) =
          some ({ m with token := some (m.token.getD (key.value.asStr.getD "")) }, .filling found left dest edits) := by
        rw [copyNext]
        exact congrArg (fun m => some (m, _)) (release_take hfree _)
      refine .head htake (.head hensure ?_)
      have hrest := @ih { m with token := some (m.token.getD (key.value.asStr.getD "")) } edits hfree
      have hafter : tokenAfter m.token (key :: left) = tokenAfter (some (m.token.getD (key.value.asStr.getD ""))) left := by
        unfold tokenAfter
        rw [foldl_cons, if_pos htoken]
      rw [hafter]
      exact hrest
    · rw [filter_cons_of_pos (by simp [htoken])]
      refine .head (b := (m, .filling found left dest (edits ++ leafEdits [key]))) ?_ ?_
      · rw [copyNext, if_neg htoken]
      · have hrest := @ih m (edits ++ leafEdits [key]) hfree
        have hafter : tokenAfter m.token (key :: left) = tokenAfter m.token left := by
          unfold tokenAfter
          rw [foldl_cons, if_neg htoken]
        have hedits : edits ++ leafEdits [key] ++ leafEdits (left.filter fun key => !key.token) =
            edits ++ leafEdits (key :: left.filter fun key => !key.token) := by
          rw [append_assoc]
          congr 1
          unfold leafEdits leafEntries
          rw [← map_append, ← flatMap_append]
          rfl
        rw [hafter, ← hedits]
        exact hrest

/-! ### What is held afterwards -/

theorem tokenAfter_some (token : String) (missing : List Key) : tokenAfter (some token) missing = some token := by
  unfold tokenAfter
  induction missing with
  | nil => rfl
  | cons key missing ih =>
    rw [foldl_cons]
    by_cases htoken : key.token = true
    · rw [if_pos htoken]
      exact ih
    · rw [if_neg htoken]
      exact ih

theorem tokenAfter_none {missing : List Key} (h : ∃ key ∈ missing, key.token = true) :
    ∃ key ∈ missing, key.token = true ∧ tokenAfter none missing = some (key.value.asStr.getD "") := by
  induction missing with
  | nil =>
    obtain ⟨key, hkey, -⟩ := h
    cases hkey
  | cons key missing ih =>
    by_cases htoken : key.token = true
    · refine ⟨key, mem_cons_self, htoken, ?_⟩
      unfold tokenAfter
      rw [foldl_cons, if_pos htoken]
      exact tokenAfter_some _ missing
    · have hrest : ∃ other ∈ missing, other.token = true := by
        obtain ⟨other, hother, hothertoken⟩ := h
        cases mem_cons.mp hother with
        | inl heq => exact absurd (heq ▸ hothertoken) htoken
        | inr hmem => exact ⟨other, hmem, hothertoken⟩
      obtain ⟨other, hother, hothertoken, hafter⟩ := ih hrest
      refine ⟨other, mem_cons_of_mem _ hother, hothertoken, ?_⟩
      unfold tokenAfter
      rw [foldl_cons, if_neg htoken]
      exact hafter

theorem applied_prefix {acknowledge reason : Bool} {edits : List Edit} {base result : File × Applied}
    (h : edits.foldlM (editFile ctx ed acknowledge reason) base = .ok result) : base.2 <+: result.2 := by
  induction edits generalizing base with
  | nil => exact Except.ok.inj h ▸ prefix_refl _
  | cons edit edits ih =>
    rw [foldlM_cons] at h
    obtain ⟨next, hedit, h⟩ := bind_eq_ok.mp h
    refine List.IsPrefix.trans ?_ (ih h)
    cases editFile_ok hedit with
    | inl hnothing => exact hnothing.2 ▸ prefix_refl _
    | inr hchanged =>
      obtain ⟨new, -, -, happlied⟩ := hchanged
      rw [happlied]
      exact prefix_append _ _

theorem applied_ne_nil {req : Request} {reason : Bool} {base : Option File} {file : File} {applied : Applied} {path : Path}
    {value : Json} {edits : List Edit} (hedits : req.edits = .set path value :: edits) (hstandard : standardIs ctx path value = false)
    (h : produce ctx ed req reason base = .ok (file, applied)) : applied ≠ [] := by
  rw [produce, hedits, foldlM_cons] at h
  obtain ⟨next, hedit, h⟩ := bind_eq_ok.mp h
  have hprefix := applied_prefix h
  cases editFile_ok hedit with
  | inl hnothing =>
    have hwritten := hnothing.1
    rw [written, if_neg (by simp [hstandard])] at hwritten
    cases hwritten
  | inr hchanged =>
    obtain ⟨new, -, -, happlied⟩ := hchanged
    rw [happlied] at hprefix
    rintro rfl
    rw [prefix_nil] at hprefix
    exact append_ne_nil_of_right_ne_nil _ (cons_ne_nil _ _) hprefix

theorem leaves_ne_nil {path : Path} {value : Json} (h : uniqueKeys value = true) : leaves path value ≠ [] := by
  have hshift := leaves_shift path [] value
  rw [append_nil] at hshift
  rw [hshift]
  intro hnil
  have hall := putAll_leaves h
  rw [map_eq_nil_iff.mp hnil] at hall
  cases hall

theorem jsonAt_of_filled {base json : Json} (hfresh : Fresh ctx.schemas base found)
    (htoken : ∀ key ∈ found, key.token = false) (hset : setAll base (leafEntries found) = some json) {key : Key} (hkey : key ∈ found) :
    jsonAt json key.path = some key.value := by
  obtain ⟨before, after, rfl⟩ := append_of_mem hkey
  have hpairwise := hfresh.pairwise
  rw [pairwise_append] at hpairwise
  obtain ⟨-, hafter, hbefore⟩ := hpairwise
  have hbeside : ∀ {others : List Key}, (∀ other ∈ others, Unrelated other.path key.path) →
      ∀ entry ∈ leafEntries others, Unrelated entry.1 key.path := by
    intro others hothers entry hentry
    obtain ⟨other, hother, rest, hrest⟩ := mem_leafEntries hentry
    rw [← hrest]
    exact (hothers other hother).longer rest
  have hentries : leafEntries (before ++ key :: after) = leafEntries before ++ (leaves key.path key.value ++ leafEntries after) := by
    unfold leafEntries
    rw [flatMap_append, flatMap_cons]
  rw [hentries] at hset
  obtain ⟨first, hfirst, hrest⟩ := setAll_append.mp hset
  obtain ⟨second, hsecond, hlast⟩ := setAll_append.mp hrest
  have hnone : jsonAt first key.path = none := by
    rw [setAll_unrelated hfirst (hbeside fun other hother => hbefore other hother key mem_cons_self)]
    exact hfresh.absent key hkey (htoken key hkey)
  have hvalue := setAll_leaves hnone (hfresh.unique key hkey) hsecond
  rw [setAll_unrelated hlast (hbeside fun other hother => ((pairwise_cons.mp hafter).1 other hother).symm), hvalue]

/-! ### The copy -/

/-- The keys that the destinations do not have. -/
def missingKeys (ed : Editor) (c : Codec) (m : Machine) (found : List Key) : List Key :=
  found.filter fun key => Dest.held c (m.dest ed) key = some .missing

def missingAccounts (ed : Editor) (c : Codec) (m : Machine) (found : List Key) : List Key :=
  (missingKeys ed c m found).filter fun key => !key.token

structure CanCopy (ctx : Context) (ed : Editor) (c : Codec) (m : Machine) (found : List Key) : Prop where
  opens : keys ctx.schemas m.source.file.json = .ok found
  free : m.locked .globalConfig = false
  held : ∀ key ∈ found, Dest.held c (m.dest ed) key = some .equal ∨ Dest.held c (m.dest ed) key = some .missing
  numbers : ∀ key ∈ found, carries key.value = true → (Json.write c key.value).isSome = true
  tokens : ∀ key ∈ found, ∀ other ∈ found, key.token = true → other.token = true → carries key.value = true →
    carries other.value = true → key.value = other.value
  accepted : missingAccounts ed c m found ≠ [] → ∃ files' applied,
    commit ctx ed ({ m with token := tokenAfter m.token (missingKeys ed c m found) } : Machine).withoutProject.files
      (copyRequest (m.dest ed) (leafEdits (missingAccounts ed c m found))) = .ok (files', applied)
  standard : ∀ entry ∈ leafEntries (missingAccounts ed c m found), standardIs ctx entry.1 entry.2 = false

theorem CanCopy.fresh (h : CanCopy ctx ed c m found) :
    Fresh ctx.schemas (valueOf m.accounts) (missingAccounts ed c m found) := by
  obtain ⟨rfl, -⟩ := keys_ok h.opens
  have hsub : (missingAccounts ed c m (keysIn ctx.schemas m.source.file.json)).Sublist (keysIn ctx.schemas m.source.file.json) :=
    filter_sublist.trans filter_sublist
  refine ⟨(keysIn_pairwise m.source.unique).sublist hsub, fun key hkey => ((mem_keysIn m.source.unique).mp (hsub.subset hkey)).1,
    fun key hkey => ?_, fun key hkey htoken => ?_⟩
  · exact uniqueKeys_jsonAt m.source.unique ((mem_keysIn m.source.unique).mp (hsub.subset hkey)).2.1
  · have hmissing := of_decide_eq_true (mem_filter.mp (mem_of_mem_filter hkey)).2
    have hnone := (missing_of_held hmissing).2
    unfold Dest.have at hnone
    rw [htoken] at hnone
    exact hnone

theorem CanCopy.no_token : ∀ key ∈ missingAccounts ed c m found, key.token = false := by
  intro key hkey
  simpa using (mem_filter.mp hkey).2

/-- The accounts file after the copy, with what it held and what it lacked. -/
def Filled (schemas : Schemas) (before after : Json) (found : List Key) : Prop :=
  (∀ path, Topmost schemas path → (jsonAt before path).isSome = true → jsonAt after path = jsonAt before path) ∧
    ∀ key ∈ found, jsonAt after key.path = some key.value

theorem copy_reaches_written (h : CanCopy ctx ed c m found) :
    ∃ accounts, Filled ctx.schemas (valueOf m.accounts) (valueOf accounts) (missingAccounts ed c m found) ∧
      CopyGoes ctx ed c (m, .starting false)
        ({ m with accounts := accounts, token := tokenAfter m.token (missingKeys ed c m found) }, .written found) := by
  obtain ⟨all, hall⟩ := @states_of_held c found (m.dest ed) true fun key hkey => (h.held key hkey).imp_right fun hmissing => ⟨rfl, hmissing⟩
  have hmissing : missingOf found all = missingKeys ed c m found := (states_ok hall).2
  let filled : Machine := { m with token := tokenAfter m.token (missingKeys ed c m found) }
  have hfilling : CopyGoes ctx ed c (m, .starting false)
      (filled, .filling found [] (m.dest ed) (leafEdits (missingAccounts ed c m found))) := by
    refine .head (b := (m, .opened found)) ?_ (.head (b := (m, .tokenRead found m.token)) rfl ?_)
    · rw [copyNext, if_neg (by simp), h.opens]
    · refine .head (b := (m, .filling found (missingKeys ed c m found) (m.dest ed) [])) ?_ ?_
      · rw [copyNext]
        simp only [show states c found (destOf ed m.token m.accounts) true = .ok all from hall]
        show some (m, Copying.filling found (missingOf found all) (m.dest ed) []) = _
        rw [hmissing]
      · exact @filling_goes ctx ed c m found (missingKeys ed c m found) (m.dest ed) [] h.free
  by_cases hnone : missingAccounts ed c m found = []
  · refine ⟨m.accounts, ⟨fun path _ _ => rfl, fun key hkey => ?_⟩, hfilling.tail ?_⟩
    · rw [hnone] at hkey
      cases hkey
    · rw [hnone]
      rfl
  · obtain ⟨files', applied, hcommit⟩ := h.accepted hnone
    obtain ⟨reason, file, -, hproduce, hafter⟩ := commit_ok hcommit
    have hstandard := h.standard
    -- Some leaf is written.
    have happlied : applied ≠ [] := by
      cases hentries : leafEntries (missingAccounts ed c m found) with
      | nil =>
        exfalso
        obtain ⟨key, hkey⟩ := exists_mem_of_ne_nil _ hnone
        have hempty := flatMap_eq_nil_iff.mp hentries key hkey
        exact leaves_ne_nil (h.fresh.unique key hkey) hempty
      | cons entry entries =>
        rw [hentries] at hstandard
        refine @applied_ne_nil ctx ed _ _ _ _ _ entry.1 entry.2 (entries.map fun entry => .set entry.1 entry.2) ?_
          (hstandard entry mem_cons_self) hproduce
        show leafEdits (missingAccounts ed c m found) = _
        rw [leafEdits, hentries, map_cons]
    obtain ⟨-, hfiles, -⟩ := hafter.resolve_left fun hempty => happlied hempty.1
    have hset := produce_sets rfl h.fresh.entries_pairwise (h.fresh.entries_absent CanCopy.no_token) hproduce
    rw [List.filter_eq_self.mpr fun entry hentry => by rw [h.standard entry hentry]; rfl] at hset
    obtain ⟨written, hgoes⟩ := @commit_goes ctx ed filled.withoutProject files' _ applied hcommit h.free
    obtain ⟨accounts, locked, hview, hwriting⟩ := @writing_goes ctx ed c filled found _ rfl .starting _ hgoes
    have haccounts : accounts = some file := by
      have hget := congrArg (fun s => s.files.accounts) hview
      dsimp only at hget
      rw [hfiles] at hget
      exact hget
    have hlocked : locked = m.locked := congrArg Shared.locked hview
    subst haccounts hlocked
    refine ⟨some file, ⟨fun path htop hheld => ?_, fun key hkey => jsonAt_of_filled h.fresh CanCopy.no_token hset hkey⟩, ?_⟩
    · exact jsonAt_of_fresh h.fresh CanCopy.no_token rfl hproduce htop hheld
    · refine hfilling.trans (.head (b := (filled, .writing found (copyRequest (m.dest ed)
        (leafEdits (missingAccounts ed c m found))) .starting)) ?_ (hwriting.tail rfl))
      rw [copyNext, if_neg]
      intro hempty
      apply hnone
      rw [List.isEmpty_iff, leafEdits, map_eq_nil_iff] at hempty
      by_contra hsome
      obtain ⟨key, hkey⟩ := exists_mem_of_ne_nil _ hsome
      exact leaves_ne_nil (h.fresh.unique key hkey) (flatMap_eq_nil_iff.mp hempty key hkey)

/-- Every key is held in the end. -/
theorem held_of_filled {m : Machine} {found : List Key} (h : CanCopy ctx ed c m found) {accounts : Option File}
    (hfilled : Filled ctx.schemas (valueOf m.accounts) (valueOf accounts) (missingAccounts ed c m found)) {key : Key} (hkey : key ∈ found) :
    Dest.held c (destOf ed (tokenAfter m.token (missingKeys ed c m found)) accounts) key = some .equal := by
  by_cases hcarries : carries key.value = true
  · apply held_of_heldEqual
    obtain ⟨hkeys, hlines⟩ := keys_ok h.opens
    have htop : Topmost ctx.schemas key.path := by
      rw [hkeys] at hkey
      exact ((mem_keysIn m.source.unique).mp hkey).1
    cases h.held key hkey with
    | inl hequal =>
      obtain ⟨there, text, hthere, htext⟩ := heldEqual_of_held hequal hcarries
      refine ⟨there, text, ?_, htext⟩
      unfold Dest.have at hthere ⊢
      split
      · next htoken =>
        rw [if_pos htoken] at hthere
        change m.token.map Json.str = some there at hthere
        obtain ⟨token, hold, hstr⟩ := map_eq_some_iff.mp hthere
        show (tokenAfter m.token _).map Json.str = some there
        rw [hold, tokenAfter_some, ← hstr]
        rfl
      · next htoken =>
        rw [if_neg htoken] at hthere
        change jsonAt (valueOf m.accounts) key.path = some there at hthere
        show jsonAt (valueOf accounts) key.path = some there
        rw [hfilled.1 key.path htop (by rw [hthere]; rfl), hthere]
    | inr hmissing =>
      obtain ⟨text, htext⟩ := isSome_iff_exists.mp (h.numbers key hkey hcarries)
      refine ⟨key.value, text, ?_, htext, htext⟩
      have hmem : key ∈ missingKeys ed c m found := mem_filter.mpr ⟨hkey, decide_eq_true hmissing⟩
      have hnone := (missing_of_held hmissing).2
      unfold Dest.have at hnone ⊢
      split
      · next htoken =>
        rw [if_pos htoken] at hnone
        have hempty : m.token = none := map_eq_none_iff.mp hnone
        show (tokenAfter m.token _).map Json.str = some key.value
        rw [hempty]
        obtain ⟨first, hfirst, hfirsttoken, hafter⟩ := tokenAfter_none ⟨key, hmem, htoken⟩
        have hfound : first ∈ found := mem_of_mem_filter hfirst
        have hfirstcarries := (missing_of_held (of_decide_eq_true (mem_filter.mp hfirst).2)).1
        have hsame := h.tokens key hkey first hfound htoken hfirsttoken hcarries hfirstcarries
        obtain ⟨line, hline, -⟩ := hlines first hfound hfirsttoken hfirstcarries
        rw [hafter, hsame, hline]
        rfl
      · next htoken =>
        exact hfilled.2 key (mem_filter.mpr ⟨hmem, by simpa using htoken⟩)
  · unfold Dest.held
    rw [if_pos (by simp [hcarries])]

theorem copy_succeeds (h : CanCopy ctx ed c m found) :
    ∃ m', CopyGoes ctx ed c (m, .starting false) (m', .done (.ok ⟨paths found, false⟩)) ∧ m'.source = m.source ∧
      ∀ key ∈ found, carries key.value = true → HeldEqual c (m'.dest ed) key := by
  obtain ⟨accounts, hfilled, hgoes⟩ := copy_reaches_written h
  have hheld := fun key hkey => @held_of_filled ctx ed c m found h accounts hfilled key hkey
  obtain ⟨all, hall⟩ := @states_of_held c found (destOf ed (tokenAfter m.token (missingKeys ed c m found)) accounts) false
    fun key hkey => .inl (hheld key hkey)
  refine ⟨{ m with accounts := accounts, token := tokenAfter m.token (missingKeys ed c m found) },
    hgoes.trans (.head rfl (.single ?_)), rfl, fun key hkey hcarries => heldEqual_of_held (hheld key hkey) hcarries⟩
  simp only [copyNext, hall]

end

end Forgent.Config
