import Forgent.Config.Relocate

/-!
# What the calls of a relocation touch

A call changes the source, the accounts file and the token only under the lock of the global scope, and the project file only
under its own.  So what a call found out under a lock stays as long as it holds it.
-/

namespace Forgent.Config

open Option

/-! ### A commit and its target -/

section Making

variable (ctx : Context) (ed : Editor)

/-- What a commit is to install was produced of its target, which has the revision the edits were made against. -/
def Making (now : Option File) (req : Request) : Committing → Prop
  | .reading file applied _ _ | .checking file applied _ | .installing file applied _ _ =>
    (∃ reason, produce ctx ed req reason now = .ok (file, applied)) ∧ now.map (fun file => ed.revision file.text) = req.expected
  | _ => True

variable {ctx : Context} {ed : Editor} {s s' : Shared} {req : Request} {gives : Bool} {phase phase' : Committing}

theorem making_step (hmaking : Making ctx ed (s.files.get req.target) req phase)
    (h : commitNext ctx ed s req gives phase = some (s', phase')) : Making ctx ed (s'.files.get req.target) req phase' := by
  cases phase with
  | starting | installing file applied read there =>
    rw [commitNext] at h
    split at h <;>
    · cases h
      trivial
  | waiting reason =>
    rw [commitNext] at h
    split at h
    · split at h
      · cases h
        trivial
      · cases h
    · cases h
      trivial
  | holding reason =>
    rw [commitNext] at h
    split at h
    · cases h
      trivial
    · next base hbase =>
      obtain ⟨rfl, hrevision⟩ := current_ok hbase
      split at h
      · cases h
        trivial
      · next file applied hproduce =>
        split at h
        · cases h
          trivial
        · cases h
          exact ⟨⟨reason, hproduce⟩, hrevision⟩
  | reading file applied left read =>
    cases left with
    | cons kind left =>
      cases h
      exact hmaking
    | nil =>
      rw [commitNext] at h
      split at h
      · cases h
        trivial
      · cases h
        exact hmaking
  | checking file applied read =>
    rw [commitNext] at h
    split at h
    · cases h
      trivial
    · cases h
      exact hmaking
  | releasing outcome =>
    cases h
    trivial
  | done outcome => cases h

theorem commitNext_unowned (h : commitNext ctx ed s req gives phase = some (s', phase'))
    (howns : (Commit.mk req phase).owns ≠ some req.target.lock) : s'.files = s.files := by
  cases commitNext_files h with
  | inl hsame => exact hsame
  | inr hinstall =>
    obtain ⟨file, applied, read, there, rfl, -⟩ := hinstall
    exact absurd rfl howns

theorem commitNext_other (h : commitNext ctx ed s req gives phase = some (s', phase')) {kind : SourceKind} (hne : kind ≠ req.target) :
    s'.files.get kind = s.files.get kind := by
  cases commitNext_files h with
  | inl hsame => rw [hsame]
  | inr hinstall =>
    obtain ⟨file, applied, read, there, -, hfiles, -⟩ := hinstall
    rw [hfiles]
    exact Files.get_put_of_ne _ _ hne

end Making

/-! ### Locks -/

section Steps

variable {ctx : Context} {ed : Editor} {c : Codec} {render : Json → String} {m m' : Machine} {gives : Bool}
  {commit commit' : Commit} {phase phase' : Finishing}

/-- A step that leaves the locks as they are keeps what the owners have. -/
def LocksKept (m m' : Machine) (before after : Option Lock) : Prop :=
  (∀ lock, after = some lock → m'.locked lock = true) ∧
    ∀ lock, before ≠ some lock → m.locked lock = true → m'.locked lock = true ∧ after ≠ some lock

theorem LocksKept.same {owns : Option Lock} (hlocked : m'.locked = m.locked) (howns : ∀ lock, owns = some lock → m.locked lock = true) :
    LocksKept m m' owns owns := by
  unfold LocksKept
  rw [hlocked]
  exact ⟨howns, fun lock hne hlock => ⟨hlock, hne⟩⟩

theorem LocksKept.take {lock : Lock} (hfree : ¬ m.locked lock = true) : LocksKept m (m.take lock) none (some lock) := by
  refine ⟨fun other heq => ?_, fun other _ hlocked => ⟨?_, fun heq => ?_⟩⟩
  · cases heq
    show (decide (lock = lock) || m.locked lock) = true
    simp
  · show (decide (other = lock) || m.locked other) = true
    rw [hlocked, Bool.or_true]
  · cases heq
    exact hfree hlocked

theorem LocksKept.release (owns : Option Lock) : LocksKept m (m.release owns) owns none := by
  refine ⟨nofun, fun lock hne hlocked => ⟨?_, fun heq => by cases heq⟩⟩
  show (decide (some lock ≠ owns) && m.locked lock) = true
  rw [hlocked, Bool.and_true]
  exact decide_eq_true (Ne.symm hne)

theorem copyNext_writing {found : List Key} {req : Request} {inner : Committing} (hnot : ∀ outcome, inner ≠ .done outcome) :
    copyNext ctx ed c m gives (.writing found req inner) = (commitNext ctx ed m.withoutProject req gives inner).map fun next =>
      ({ m with accounts := next.1.files.accounts, locked := next.1.locked }, .writing found req next.2) := by
  cases inner with
  | done outcome => exact absurd rfl (hnot outcome)
  | _ => rfl

/-- What a step of a copy does: nothing but reading, the lock for the token, the token, or a step of its transaction. -/
theorem copyNext_cases {phase phase' : Copying} (h : copyNext ctx ed c m gives phase = some (m', phase')) :
    (m' = m ∧ (Call.copy phase').owns = (Call.copy phase).owns) ∨
      (¬ m.locked .globalConfig = true ∧ m' = m.take .globalConfig ∧ (Call.copy phase).owns = none ∧
        (Call.copy phase').owns = some .globalConfig) ∨
      (∃ found text left dest edits, phase = .ensuring found text left dest edits ∧ (Call.copy phase').owns = none ∧
        m' = { m with token := some (m.token.getD text) }.release (some .globalConfig)) ∨
      ∃ found req inner s inner', phase = .writing found req inner ∧ phase' = .writing found req inner' ∧
        commitNext ctx ed m.withoutProject req gives inner = some (s, inner') ∧
        m' = { m with accounts := s.files.accounts, locked := s.locked } := by
  cases phase with
  | starting confined =>
    rw [copyNext] at h
    split at h
    · cases h
      exact .inl ⟨rfl, rfl⟩
    · split at h <;>
      · cases h
        exact .inl ⟨rfl, rfl⟩
  | tokenRead found token | verifying found token =>
    rw [copyNext] at h
    split at h <;>
    · cases h
      exact .inl ⟨rfl, rfl⟩
  | filling found left dest edits =>
    cases left with
    | nil =>
      rw [copyNext] at h
      split at h <;>
      · cases h
        exact .inl ⟨rfl, rfl⟩
    | cons key left =>
      rw [copyNext] at h
      split at h
      · split at h
        · split at h
          · cases h
            exact .inl ⟨rfl, rfl⟩
          · cases h
        · next hfree =>
          cases h
          exact .inr (.inl ⟨hfree, rfl, rfl, rfl⟩)
      · cases h
        exact .inl ⟨rfl, rfl⟩
  | ensuring found text left dest edits =>
    cases h
    exact .inr (.inr (.inl ⟨found, text, left, dest, edits, rfl, rfl, rfl⟩))
  | writing found req inner =>
    by_cases hdone : ∃ outcome, inner = .done outcome
    · obtain ⟨outcome, rfl⟩ := hdone
      cases outcome <;>
      · cases h
        exact .inl ⟨rfl, rfl⟩
    · rw [copyNext_writing fun outcome heq => hdone ⟨outcome, heq⟩] at h
      obtain ⟨⟨s, inner'⟩, hcommit, heq⟩ := map_eq_some_iff.mp h
      cases heq
      exact .inr (.inr (.inr ⟨found, req, inner, s, inner', rfl, rfl, hcommit, rfl⟩))
  | done outcome => cases h
  | _ =>
    cases h
    exact .inl ⟨rfl, rfl⟩

theorem copyNext_locks {phase phase' : Copying} (h : copyNext ctx ed c m gives phase = some (m', phase'))
    (howns : ∀ lock, (Call.copy phase).owns = some lock → m.locked lock = true) :
    LocksKept m m' (Call.copy phase).owns (Call.copy phase').owns := by
  rcases copyNext_cases h with ⟨rfl, heq⟩ | ⟨hfree, rfl, hbefore, hafter⟩ | ⟨found, text, left, dest, edits, rfl, hafter, rfl⟩ |
    ⟨found, req, inner, s, inner', rfl, rfl, hcommit, rfl⟩
  · rw [heq]
    exact .same rfl howns
  · rw [hbefore, hafter]
    exact .take hfree
  · rw [hafter]
    exact .release (some .globalConfig)
  · exact commitNext_locks hcommit howns

theorem finishNext_cases (h : finishNext ctx ed c render m gives phase = some (m', phase')) :
    (∃ backups, m' = { m with backups := backups } ∧ (Call.finish phase').owns = (Call.finish phase).owns) ∨
      (¬ m.locked .globalConfig = true ∧ m' = m.take .globalConfig ∧ (Call.finish phase).owns = none ∧
        (Call.finish phase').owns = some .globalConfig) ∨
      (∃ source found, phase = .rewriting source found ∧ m' = { m with source := source.without render found } ∧
        (Call.finish phase').owns = (Call.finish phase).owns) ∨
      (m' = m.release (some .globalConfig) ∧ (Call.finish phase).owns = some .globalConfig ∧ (Call.finish phase').owns = none) := by
  cases phase with
  | starting machineChecked confined | holding =>
    rw [finishNext] at h
    split at h
    · cases h
      exact .inl ⟨m.backups, rfl, rfl⟩
    · split at h <;>
      · cases h
        exact .inl ⟨m.backups, rfl, rfl⟩
  | waiting =>
    rw [finishNext] at h
    split at h
    · split at h
      · cases h
        exact .inl ⟨m.backups, rfl, rfl⟩
      · cases h
    · next hfree =>
      cases h
      exact .inr (.inl ⟨hfree, rfl, rfl, rfl⟩)
  | tokenRead source found token | backedUp source found =>
    rw [finishNext] at h
    split at h <;>
    · cases h
      exact .inl ⟨m.backups, rfl, rfl⟩
  | rewriting source found =>
    cases h
    exact .inr (.inr (.inl ⟨source, found, rfl, rfl, rfl⟩))
  | releasing outcome =>
    cases h
    exact .inr (.inr (.inr ⟨rfl, rfl, rfl⟩))
  | done outcome => cases h
  | _ =>
    cases h
    exact .inl ⟨_, rfl, rfl⟩

theorem finishNext_locks (h : finishNext ctx ed c render m gives phase = some (m', phase'))
    (howns : ∀ lock, (Call.finish phase).owns = some lock → m.locked lock = true) :
    LocksKept m m' (Call.finish phase).owns (Call.finish phase').owns := by
  rcases finishNext_cases h with ⟨_, rfl, heq⟩ | ⟨hfree, rfl, hbefore, hafter⟩ | ⟨_, _, _, rfl, heq⟩ | ⟨rfl, hbefore, hafter⟩
  · rw [heq]
    exact .same rfl howns
  · rw [hbefore, hafter]
    exact .take hfree
  · rw [heq]
    exact .same rfl howns
  · rw [hbefore, hafter]
    exact .release (some .globalConfig)

theorem writeNext_locks (h : writeNext ctx ed m gives commit = some (m', commit'))
    (howns : ∀ lock, commit.owns = some lock → m.locked lock = true) : LocksKept m m' commit.owns commit'.owns := by
  obtain ⟨req, phase⟩ := commit
  unfold writeNext at h
  split at h
  · cases phase with
    | starting =>
      cases h
      exact .same rfl howns
    | _ => cases h
  · obtain ⟨⟨s, phase'⟩, hcommit, heq⟩ := map_eq_some_iff.mp h
    cases heq
    exact commitNext_locks hcommit howns

theorem callNext_locks {k k' : Call} (h : callNext ctx ed c render m gives k = some (m', k'))
    (howns : ∀ lock, k.owns = some lock → m.locked lock = true) : LocksKept m m' k.owns k'.owns := by
  cases k with
  | write commit =>
    obtain ⟨⟨m₁, commit'⟩, hnext, heq⟩ := map_eq_some_iff.mp h
    cases heq
    exact writeNext_locks hnext howns
  | copy phase =>
    obtain ⟨⟨m₁, phase'⟩, hnext, heq⟩ := map_eq_some_iff.mp h
    cases heq
    exact copyNext_locks hnext howns
  | finish phase =>
    obtain ⟨⟨m₁, phase'⟩, hnext, heq⟩ := map_eq_some_iff.mp h
    cases heq
    exact finishNext_locks hnext howns
  | stopped => cases h

/-! ### What a call may change -/

/-- The files under the lock of the global scope are the same. -/
def SameGlobal (m m' : Machine) : Prop := m'.source = m.source ∧ m'.accounts = m.accounts ∧ m'.token = m.token

theorem copyNext_files {phase phase' : Copying} (h : copyNext ctx ed c m gives phase = some (m', phase')) :
    m'.source = m.source ∧ m'.project = m.project ∧ (SameGlobal m m' ∨
        (∃ found text left dest edits, phase = .ensuring found text left dest edits ∧ m'.accounts = m.accounts ∧
          m'.token = some (m.token.getD text)) ∨
        ∃ found req inner s inner', phase = .writing found req inner ∧ phase' = .writing found req inner' ∧ m'.token = m.token ∧
          commitNext ctx ed m.withoutProject req gives inner = some (s, inner') ∧ m'.accounts = s.files.accounts) := by
  rcases copyNext_cases h with ⟨rfl, -⟩ | ⟨-, rfl, -⟩ | ⟨found, text, left, dest, edits, hphase, -, rfl⟩ |
    ⟨found, req, inner, s, inner', hphase, hphase', hcommit, rfl⟩
  · exact ⟨rfl, rfl, .inl ⟨rfl, rfl, rfl⟩⟩
  · exact ⟨rfl, rfl, .inl ⟨rfl, rfl, rfl⟩⟩
  · exact ⟨rfl, rfl, .inr (.inl ⟨found, text, left, dest, edits, hphase, rfl, rfl⟩)⟩
  · exact ⟨rfl, rfl, .inr (.inr ⟨found, req, inner, s, inner', hphase, hphase', rfl, hcommit, rfl⟩)⟩

theorem finishNext_files (h : finishNext ctx ed c render m gives phase = some (m', phase')) :
    m'.project = m.project ∧ m'.accounts = m.accounts ∧ m'.token = m.token ∧
      (m'.source = m.source ∨ ∃ source found, phase = .rewriting source found ∧ m'.source = source.without render found) := by
  rcases finishNext_cases h with ⟨_, rfl, -⟩ | ⟨-, rfl, -⟩ | ⟨source, found, hphase, rfl, -⟩ | ⟨rfl, -⟩
  · exact ⟨rfl, rfl, rfl, .inl rfl⟩
  · exact ⟨rfl, rfl, rfl, .inl rfl⟩
  · exact ⟨rfl, rfl, rfl, .inr ⟨source, found, hphase, rfl⟩⟩
  · exact ⟨rfl, rfl, rfl, .inl rfl⟩

theorem writeNext_files (h : writeNext ctx ed m gives commit = some (m', commit')) :
    m'.source = m.source ∧ m'.token = m.token ∧ commit'.req = commit.req ∧
      (m'.project = m.project ∧ m'.accounts = m.accounts ∨
        commit.req.target ≠ .global ∧ ∃ s, commitNext ctx ed m.shared commit.req gives commit.phase = some (s, commit'.phase) ∧
          m'.project = s.files.project ∧ m'.accounts = s.files.accounts) := by
  obtain ⟨req, phase⟩ := commit
  unfold writeNext at h
  split at h
  · cases phase with
    | starting =>
      cases h
      exact ⟨rfl, rfl, rfl, .inl ⟨rfl, rfl⟩⟩
    | _ => cases h
  · next htarget =>
    obtain ⟨⟨s, phase'⟩, hcommit, heq⟩ := map_eq_some_iff.mp h
    cases heq
    exact ⟨rfl, rfl, rfl, .inr ⟨htarget, s, hcommit, rfl, rfl⟩⟩

theorem writeNext_unowned (h : writeNext ctx ed m gives commit = some (m', commit')) :
    (commit.owns ≠ some .globalConfig → m'.accounts = m.accounts) ∧ (commit.owns ≠ some .projectConfig → m'.project = m.project) := by
  obtain ⟨-, -, -, hfiles⟩ := writeNext_files h
  cases hfiles with
  | inl hsame => exact ⟨fun _ => hsame.2, fun _ => hsame.1⟩
  | inr hcommit =>
    obtain ⟨htarget, s, hcommit, hproject, haccounts⟩ := hcommit
    constructor
    · intro howns
      rw [haccounts]
      by_cases hkind : commit.req.target = .accounts
      · have hsame := commitNext_unowned hcommit (by rw [hkind]; exact howns)
        rw [hsame]
        rfl
      · exact commitNext_other hcommit (Ne.symm hkind)
    · intro howns
      rw [hproject]
      by_cases hkind : commit.req.target = .project
      · have hsame := commitNext_unowned hcommit (by rw [hkind]; exact howns)
        rw [hsame]
        rfl
      · exact commitNext_other hcommit (Ne.symm hkind)

/-- Only who holds the lock of a scope changes its files. -/
theorem callNext_unowned {k k' : Call} (h : callNext ctx ed c render m gives k = some (m', k'))
    (hcopy : ∀ found req inner, k = .copy (.writing found req inner) → req.target = .accounts) :
    (k.owns ≠ some .globalConfig → SameGlobal m m') ∧ (k.owns ≠ some .projectConfig → m'.project = m.project) := by
  cases k with
  | write commit =>
    obtain ⟨⟨m₁, commit'⟩, hnext, heq⟩ := map_eq_some_iff.mp h
    cases heq
    obtain ⟨hsource, htoken, -⟩ := writeNext_files hnext
    obtain ⟨haccounts, hproject⟩ := writeNext_unowned hnext
    exact ⟨fun howns => ⟨hsource, haccounts howns, htoken⟩, hproject⟩
  | copy phase =>
    obtain ⟨⟨m₁, phase'⟩, hnext, heq⟩ := map_eq_some_iff.mp h
    cases heq
    obtain ⟨hsource, hproject, hfiles⟩ := copyNext_files hnext
    refine ⟨fun howns => ?_, fun _ => hproject⟩
    rcases hfiles with hsame | ⟨found, text, left, dest, edits, rfl, -⟩ | ⟨found, req, inner, s, inner', rfl, -, htoken, hcommit, haccounts⟩
    · exact hsame
    · exact absurd rfl howns
    · have htarget := hcopy found req inner rfl
      have hsame := commitNext_unowned hcommit (by rw [htarget]; exact howns)
      exact ⟨hsource, by rw [haccounts, hsame]; rfl, htoken⟩
  | finish phase =>
    obtain ⟨⟨m₁, phase'⟩, hnext, heq⟩ := map_eq_some_iff.mp h
    cases heq
    obtain ⟨hproject, haccounts, htoken, hsource⟩ := finishNext_files hnext
    refine ⟨fun howns => ?_, fun _ => hproject⟩
    cases hsource with
    | inl hsame => exact ⟨hsame, haccounts, htoken⟩
    | inr hrewriting =>
      obtain ⟨source, found, rfl, -⟩ := hrewriting
      exact absurd rfl howns
  | stopped => cases h

end Steps

end Forgent.Config
