import Forgent.Config.Write
import Forgent.Exclusion

/-!
# Commits at the same time

`commit_observed` step by step: a commit holds the lock of its target's scope from the first check to the install, and reads
the other files one by one to validate what it produced.  The project file has a lock of its own; the global file and the
accounts share one.  No file is written outside a commit.
-/

namespace Forgent.Config

inductive Lock where
  | projectConfig
  | globalConfig
deriving DecidableEq

def SourceKind.lock : SourceKind → Lock
  | .project => .projectConfig
  | _ => .globalConfig

structure Shared where
  files : Files
  locked : Lock → Bool

abbrev Applied := List (Path × Bool)

/-- Where a commit is.  `read` are the files as they were read to validate the new one. -/
inductive Committing where
  | starting
  | waiting (reason : Bool)
  | holding (reason : Bool)
  | reading (file : File) (applied : Applied) (left : List SourceKind) (read : Files)
  | checking (file : File) (applied : Applied) (read : Files)
  | installing (file : File) (applied : Applied) (read : Files) (there : Bool)
  | releasing (outcome : Except (List Refusal) (File × Applied))
  | done (outcome : Except (List Refusal) (File × Applied))

structure Commit where
  req : Request
  phase : Committing

def Files.take (read now : Files) : SourceKind → Files
  | .project => { read with project := now.project }
  | .global => { read with global := now.global }
  | .accounts => { read with accounts := now.accounts }

/-- Before any of the files is read. -/
def Files.unread (files : Files) : Files := { files with project := none, global := none, accounts := none }

section

variable (ctx : Context) (ed : Editor)

/-- One step of a commit; `gives` says whether it gives up the wait for its lock. -/
def commitNext (s : Shared) (req : Request) (gives : Bool) : Committing → Option (Shared × Committing)
  | .starting =>
    match admitted ctx (s.files.get req.target) req with
    | .error refused => some (s, .done (.error refused))
    | .ok reason => some (s, .waiting reason)
  | .waiting reason =>
    if s.locked req.target.lock then
      if gives then some (s, .done (.error [conflict "lock-held"])) else none
    else some ({ s with locked := fun lock => lock = req.target.lock || s.locked lock }, .holding reason)
  | .holding reason =>
    match current ed req (s.files.get req.target) with
    | .error refused => some (s, .releasing (.error refused))
    | .ok base =>
      match produce ctx ed req reason base with
      | .error refused => some (s, .releasing (.error refused))
      | .ok (file, applied) =>
        if applied = [] then some (s, .releasing (.ok (file, applied)))
        else some (s, .reading file applied [.project, .global, .accounts] s.files.unread)
  | .reading file applied (kind :: left) read => some (s, .reading file applied left (read.take s.files kind))
  | .reading file applied [] read =>
    match build ctx (read.put file req.target).sources with
    | .error refused => some (s, .releasing (.error refused))
    | .ok _ => some (s, .checking file applied read)
  | .checking file applied read =>
    match current ed req (s.files.get req.target) with
    | .error refused => some (s, .releasing (.error refused))
    | .ok now => some (s, .installing file applied read now.isSome)
  | .installing file applied _ there =>
    -- A file that was not there is installed without overwrite.
    if !there && (s.files.get req.target).isSome then some (s, .releasing (.error [conflict "revision-changed"]))
    else some ({ s with files := s.files.put file req.target }, .releasing (.ok (file, applied)))
  | .releasing outcome =>
    some ({ s with locked := fun lock => lock ≠ req.target.lock && s.locked lock }, .done outcome)
  | .done _ => none

/-- An install while another file is not as it was read to validate the new one. -/
def Stale (s : Shared) (c : Commit) : Prop :=
  match c.phase with
  | .installing _ _ read _ => ∃ kind, kind ≠ c.req.target ∧ read.get kind ≠ s.files.get kind
  | _ => False

/-- Any number of commits at the same time.  With `steady` none installs over files that it did not validate against. -/
def commits (steady : Prop) : Interleave Shared Commit where
  begins c := c.phase = .starting
  step s c s' c' := (steady → ¬ Stale s c) ∧ ∃ gives, (commitNext ctx ed s c.req gives c.phase).map
    (fun (s, phase) => (s, Commit.mk c.req phase)) = some (s', c')
  around _ _ := False

end

/-! ### What a commit knows -/

/-- The lock that a commit holds. -/
def Commit.owns (c : Commit) : Option Lock :=
  match c.phase with
  | .starting | .waiting _ | .done _ => none
  | _ => some c.req.target.lock

section

variable (ctx : Context) (ed : Editor)

/-- What is to be installed was produced of the target as it is. -/
def Produced (s : Shared) (req : Request) (file : File) (applied : Applied) : Prop :=
  ∃ reason, produce ctx ed req reason (s.files.get req.target) = .ok (file, applied) ∧ applied ≠ []

/-- The trusted checkout and the token are as the snapshot takes them. -/
def SameRest (read files : Files) : Prop := read.trusted = files.trusted ∧ read.token = files.token

def PhaseHolds (s : Shared) (req : Request) : Committing → Prop
  | .reading file applied _ read => Produced ctx ed s req file applied ∧ SameRest read s.files
  | .checking file applied read => Produced ctx ed s req file applied ∧ SameRest read s.files ∧
    ∃ merged, build ctx (read.put file req.target).sources = .ok merged
  | .installing file applied read there => Produced ctx ed s req file applied ∧ SameRest read s.files ∧
    (∃ merged, build ctx (read.put file req.target).sources = .ok merged) ∧ there = (s.files.get req.target).isSome
  | _ => True

def Holds (s : Shared) (c : Commit) : Prop :=
  (∀ lock, c.owns = some lock → s.locked lock = true) ∧ PhaseHolds ctx ed s c.req c.phase

/-- Two commits never hold one lock. -/
def Apart (c d : Commit) : Prop := ∀ lock, c.owns = some lock → d.owns ≠ some lock

end

section

variable {ctx : Context} {ed : Editor} {s s' : Shared} {req : Request} {gives : Bool} {phase phase' : Committing}

theorem Files.get_put_of_ne (files : Files) (file : File) {kind other : SourceKind} (h : other ≠ kind) :
    (files.put file kind).get other = files.get other := by
  cases kind <;> cases other <;> first | rfl | exact absurd rfl h

theorem Files.sameRest_put (files : Files) (file : File) (kind : SourceKind) : SameRest files (files.put file kind) := by
  cases kind <;> exact ⟨rfl, rfl⟩

theorem Files.sameRest_take (read now : Files) (kind : SourceKind) : SameRest (read.take now kind) read := by
  cases kind <;> exact ⟨rfl, rfl⟩

theorem SameRest.trans {a b c : Files} (h : SameRest a b) (h' : SameRest b c) : SameRest a c :=
  ⟨h.1.trans h'.1, h.2.trans h'.2⟩

theorem commitNext_files (h : commitNext ctx ed s req gives phase = some (s', phase')) :
    s'.files = s.files ∨ ∃ file applied read there, phase = .installing file applied read there ∧
      s'.files = s.files.put file req.target ∧ phase' = .releasing (.ok (file, applied)) := by
  cases phase with
  | starting | checking file applied read =>
    rw [commitNext] at h
    split at h <;>
    · cases h
      exact .inl rfl
  | waiting reason =>
    rw [commitNext] at h
    split at h
    · split at h
      · cases h
        exact .inl rfl
      · cases h
    · cases h
      exact .inl rfl
  | holding reason =>
    rw [commitNext] at h
    split at h
    · cases h
      exact .inl rfl
    · split at h
      · cases h
        exact .inl rfl
      · split at h <;>
        · cases h
          exact .inl rfl
  | reading file applied left read =>
    cases left with
    | cons kind left =>
      cases h
      exact .inl rfl
    | nil =>
      rw [commitNext] at h
      split at h <;>
      · cases h
        exact .inl rfl
  | installing file applied read there =>
    rw [commitNext] at h
    split at h
    · cases h
      exact .inl rfl
    · cases h
      exact .inr ⟨file, applied, read, there, rfl, rfl, rfl⟩
  | releasing outcome =>
    cases h
    exact .inl rfl
  | done outcome => cases h

/-- A commit takes a lock that is free, gives its own back, and touches no other. -/
theorem commitNext_locks (h : commitNext ctx ed s req gives phase = some (s', phase'))
    (howns : ∀ lock, (Commit.mk req phase).owns = some lock → s.locked lock = true) :
    (∀ lock, (Commit.mk req phase').owns = some lock → s'.locked lock = true) ∧
      (∀ lock, (Commit.mk req phase).owns ≠ some lock → s.locked lock = true →
        s'.locked lock = true ∧ (Commit.mk req phase').owns ≠ some lock) := by
  -- A step within the same stretch of the lock.
  have hstay : s' = s → (Commit.mk req phase').owns = (Commit.mk req phase).owns →
      (∀ lock, (Commit.mk req phase').owns = some lock → s'.locked lock = true) ∧
        (∀ lock, (Commit.mk req phase).owns ≠ some lock → s.locked lock = true →
          s'.locked lock = true ∧ (Commit.mk req phase').owns ≠ some lock) := by
    rintro rfl hsame
    rw [hsame]
    exact ⟨howns, fun lock hother hlocked => ⟨hlocked, hother⟩⟩
  cases phase with
  | starting | checking file applied read =>
    rw [commitNext] at h
    split at h <;>
    · cases h
      exact hstay rfl rfl
  | waiting reason =>
    rw [commitNext] at h
    split at h
    · split at h
      · cases h
        exact hstay rfl rfl
      · cases h
    · next hfree =>
      cases h
      refine ⟨fun lock hlock => ?_, fun lock _ hlocked => ⟨?_, fun hlock => ?_⟩⟩
      · obtain rfl : req.target.lock = lock := Option.some.inj hlock
        simp
      · show (decide (lock = req.target.lock) || s.locked lock) = true
        rw [hlocked, Bool.or_true]
      · obtain rfl : req.target.lock = lock := Option.some.inj hlock
        exact hfree hlocked
  | holding reason =>
    rw [commitNext] at h
    split at h
    · cases h
      exact hstay rfl rfl
    · split at h
      · cases h
        exact hstay rfl rfl
      · split at h <;>
        · cases h
          exact hstay rfl rfl
  | reading file applied left read =>
    cases left with
    | cons kind left =>
      cases h
      exact hstay rfl rfl
    | nil =>
      rw [commitNext] at h
      split at h <;>
      · cases h
        exact hstay rfl rfl
  | installing file applied read there =>
    rw [commitNext] at h
    split at h
    · cases h
      exact hstay rfl rfl
    · cases h
      exact ⟨howns, fun lock hother hlocked => ⟨hlocked, hother⟩⟩
  | releasing outcome =>
    cases h
    refine ⟨nofun, fun lock hother hlocked => ⟨?_, fun hlock => by cases hlock⟩⟩
    have hne : lock ≠ req.target.lock := fun heq => hother (by rw [heq]; rfl)
    show (decide (lock ≠ req.target.lock) && s.locked lock) = true
    rw [hlocked, Bool.and_true]
    exact decide_eq_true hne
  | done outcome => cases h

/-- What a commit knows after its own step. -/
theorem phase_step (hholds : PhaseHolds ctx ed s req phase) (h : commitNext ctx ed s req gives phase = some (s', phase')) :
    PhaseHolds ctx ed s' req phase' := by
  cases phase with
  | starting | installing file applied read there =>
    rw [commitNext] at h
    split at h <;>
    · cases h
      trivial
  | waiting reason =>
    rw [commitNext] at h
    split at h
    · split at h
      · cases h
        trivial
      · cases h
    · cases h
      trivial
  | holding reason =>
    rw [commitNext] at h
    split at h
    · cases h
      trivial
    · next base hbase =>
      obtain ⟨rfl, -⟩ := current_ok hbase
      split at h
      · cases h
        trivial
      · next file applied hproduce =>
        split at h
        · cases h
          trivial
        · next happlied =>
          cases h
          exact ⟨⟨reason, hproduce, happlied⟩, rfl, rfl⟩
  | reading file applied left read =>
    obtain ⟨hproduced, hrest⟩ := hholds
    cases left with
    | cons kind left =>
      cases h
      exact ⟨hproduced, (Files.sameRest_take read s.files kind).trans hrest⟩
    | nil =>
      rw [commitNext] at h
      split at h
      · cases h
        trivial
      · next merged hbuild =>
        cases h
        exact ⟨hproduced, hrest, merged, hbuild⟩
  | checking file applied read =>
    obtain ⟨hproduced, hrest, hbuild⟩ := hholds
    rw [commitNext] at h
    split at h
    · cases h
      trivial
    · next now hnow =>
      obtain ⟨rfl, -⟩ := current_ok hnow
      cases h
      exact ⟨hproduced, hrest, hbuild, rfl⟩
  | releasing outcome =>
    cases h
    trivial
  | done outcome => cases h

theorem PhaseHolds.of_target (htarget : s'.files.get req.target = s.files.get req.target) (hrest : SameRest s.files s'.files)
    (h : PhaseHolds ctx ed s req phase) : PhaseHolds ctx ed s' req phase := by
  have hproduced : ∀ {file applied}, Produced ctx ed s req file applied → Produced ctx ed s' req file applied := by
    intro file applied hp
    rw [Produced] at hp ⊢
    rwa [htarget]
  cases phase with
  | reading file applied left read => exact ⟨hproduced h.1, h.2.trans hrest⟩
  | checking file applied read => exact ⟨hproduced h.1, h.2.1.trans hrest, h.2.2⟩
  | installing file applied read there =>
    obtain ⟨hp, hread, hbuild, hexists⟩ := h
    exact ⟨hproduced hp, hread.trans hrest, hbuild, by rw [htarget]; exact hexists⟩
  | _ => trivial

/-- The commits exclude each other by their locks. -/
theorem commits_exclusion (ctx : Context) (ed : Editor) (steady : Prop) :
    (commits ctx ed steady).Exclusion (fun _ => True) (Holds ctx ed) Apart where
  symm := fun h lock hl hk => h lock hk hl
  begins := by
    intro s c _ hbegins
    obtain ⟨req, phase⟩ := c
    obtain rfl : phase = .starting := hbegins
    refine ⟨⟨nofun, trivial⟩, fun d _ lock hlock => by cases hlock⟩
  step := by
    intro s c s' c' _ hholds hstep
    obtain ⟨-, gives, hnext⟩ := hstep
    obtain ⟨req, phase⟩ := c
    obtain ⟨⟨s₁, phase'⟩, hmoved, heq⟩ := Option.map_eq_some_iff.mp hnext
    obtain ⟨rfl, rfl⟩ := Prod.mk.inj heq
    clear hnext heq
    obtain ⟨howns, hothers⟩ := commitNext_locks hmoved hholds.1
    refine ⟨trivial, ⟨howns, phase_step hholds.2 hmoved⟩, fun d hd hapart => ?_⟩
    have hlocks : ∀ lock, d.owns = some lock → s₁.locked lock = true ∧ (Commit.mk req phase').owns ≠ some lock :=
      fun lock hlock => hothers lock (fun hown => hapart lock hown hlock) (hd.1 lock hlock)
    refine ⟨⟨fun lock hlock => (hlocks lock hlock).1, ?_⟩, fun lock hown hlock => (hlocks lock hlock).2 hown⟩
    cases commitNext_files hmoved with
    | inl hsame => exact hd.2.of_target (by rw [hsame]) (by rw [hsame]; exact ⟨rfl, rfl⟩)
    | inr hinstall =>
      obtain ⟨file, applied, read, there, rfl, hfiles, -⟩ := hinstall
      -- A commit that relies on its target holds the lock of it.
      by_cases hdowns : d.owns = some req.target.lock
      · exact absurd hdowns (hapart req.target.lock rfl)
      · have htarget : d.owns = none ∨ d.req.target ≠ req.target := by
          obtain ⟨dreq, dphase⟩ := d
          by_cases heq : dreq.target = req.target
          · left
            cases dphase <;> first | rfl | exact absurd (congrArg (fun kind => some (SourceKind.lock kind)) heq) hdowns
          · exact .inr heq
        cases htarget with
        | inl hnone =>
          obtain ⟨dreq, dphase⟩ := d
          cases dphase <;> trivial
        | inr hne =>
          exact hd.2.of_target (by rw [hfiles]; exact Files.get_put_of_ne _ _ hne)
            (by rw [hfiles]; exact Files.sameRest_put _ _ _)
  around := fun _ haround => haround.elim

end

end Forgent.Config
