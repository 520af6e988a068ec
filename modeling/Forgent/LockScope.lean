import Forgent.Graph.Acyclic
import Forgent.Segments
import Forgent.Traverse

/-!
# Ordered lock scopes

`packages/holder-lock/rust/src/scope.rs`: a lock of the registry is taken inside of a scope, and only at a rank above
all that the scope holds.  The kernel lock behind it is exclusive on the file that the path of the lock names when it is
opened.  Threads run side by side; each takes locks only through scopes that are seeded with all it holds.
-/

namespace Forgent.HolderLock

open List Function

inductive Kind where
  | lease
  | mutex
  | hotMutex
deriving DecidableEq, Repr

/-- A row of the registry. -/
structure Row where
  name : String
  kind : Kind
  rank : ℕ
  v3Path : String
deriving DecidableEq, Repr

/-- `lock-registry.v1.json`. -/
def registry : List Row := [
  ⟨"gateway", .lease, 10, "<fgosDir>/locks/gateway.lock"⟩,
  ⟨"runner", .lease, 10, "<fgosDir>/locks/runner.lock"⟩,
  ⟨"sessions", .mutex, 80, "<fgosDir>/locks/sessions.lock"⟩,
  ⟨"advance", .mutex, 80, "<workflowRunDir>/locks/advance.lock"⟩,
  ⟨"reconcile", .mutex, 80, "<fgosDir>/locks/reconcile.lock"⟩,
  ⟨"recovery", .mutex, 80, "<runDir>/locks/recovery.lock"⟩,
  ⟨"full-suite", .lease, 80, "<lockRoot>/full-suite.lock"⟩,
  ⟨"provider-account", .mutex, 80, "<lockRoot>/provider-account/<provider>/<account>.lock"⟩,
  ⟨"provider-state", .mutex, 80, "<lockRoot>/provider-state.lock"⟩,
  ⟨"worker-session", .mutex, 80, "<lockRoot>/worker-session/<id>.lock"⟩,
  ⟨"agent-trust-store", .mutex, 80, "<lockRoot>/agent-trust-store.lock"⟩,
  ⟨"identity-pins", .mutex, 80, "<lockRoot>/identity-pins.lock"⟩,
  ⟨"dispatch-cwd", .lease, 30, "<fgosDir>/locks/dispatch-cwd--<cwdDevIno>.lock"⟩,
  ⟨"main-checkout", .mutex, 50, "<fgosDir>/locks/main-checkout.lock"⟩,
  ⟨"merge-slot", .mutex, 20, "<fgosDir>/locks/merge-slot--<ref>.lock"⟩,
  ⟨"state", .hotMutex, 60, "<fgosDir>/locks/state.reclaim.lock"⟩,
  ⟨"porting-events", .hotMutex, 60, "<fgosDir>/locks/porting-events.reclaim.lock"⟩,
  ⟨"worktree-admin", .mutex, 40, "<fgosDir>/locks/worktree-admin.lock"⟩,
  ⟨"activation", .mutex, 80, "<fgosDir>/locks/activation-v2.lock"⟩,
  ⟨"install", .mutex, 80, "<lockRoot>/install.lock"⟩,
  ⟨"observe", .mutex, 80, "<fgosDir>/locks/observe.lock"⟩,
  ⟨"attempt", .lease, 15, "<runDir>/runs/<NN>/attempt.lock"⟩,
  ⟨"event-seal", .mutex, 58, "<eventOpenRoot>/locks/event-seal.lock"⟩,
  ⟨"event-append", .mutex, 70, "<eventOpenRoot>/locks/event-append.lock"⟩,
  ⟨"repo-config", .mutex, 80, "<fgosDir>/locks/repo-config.lock"⟩,
  ⟨"mailbox", .mutex, 80, "<fgosDir>/locks/mailbox.lock"⟩,
  ⟨"project-config", .mutex, 80, "<fgosDir>/locks/project-config.lock"⟩,
  ⟨"global-config", .mutex, 80, "<lockRoot>/global-config.lock"⟩]

/-- A held lock.  What file it is, is known to the kernel only. -/
structure Handle (File : Type) where
  name : String
  path : Text
  file : File
deriving DecidableEq, Repr

structure HeldLock where
  name : String
  rank : ℕ
deriving DecidableEq, Repr

inductive ScopeError where
  | unknownLock (name : String)
  | duplicateHeldRank (name : String)
  | invalidHandle
  | order (held : List HeldLock) (acquiring : HeldLock)
  | hotMutex
  | malformedTemplate
  | pathParamMissing (key : Text)
  | absolutePathRequired
deriving DecidableEq, Repr

def entry (name : String) : Except ScopeError Row :=
  match registry.find? fun row => row.name = name with
  | some row => .ok row
  | none => .error (.unknownLock name)

def rank (name : String) : Except ScopeError ℕ := do return (← entry name).rank

/-- Locks a scope acquired, and the caller's holds it was seeded with. -/
structure LockScope (File : Type) where
  seeded : List (Handle File)
  acquired : List (Handle File)
deriving Repr

variable {File : Type}

def LockScope.handles (scope : LockScope File) : List (Handle File) := scope.seeded ++ scope.acquired

/-- The check of `LockScope::seeded`; `validate` says whether a handle still stands for its file. -/
def checkSeeds (validate : Handle File → Bool) (ranks : List ℕ) : List (Handle File) → Except ScopeError Unit
  | [] => .ok ()
  | handle :: held => do
    if !validate handle then throw .invalidHandle
    let r ← rank handle.name
    if r ∈ ranks then throw (.duplicateHeldRank handle.name)
    checkSeeds validate (r :: ranks) held

def LockScope.seed (validate : Handle File → Bool) (held : List (Handle File)) : Except ScopeError (LockScope File) := do
  checkSeeds validate [] held
  return ⟨held, []⟩

def LockScope.holding (scope : LockScope File) : Except ScopeError (List HeldLock) :=
  scope.handles.mapM fun h => do return ⟨h.name, ← rank h.name⟩

def LockScope.assertCanAcquire (validate : Handle File → Bool) (scope : LockScope File) (name : String) :
    Except ScopeError Unit := do
  let acquiring : HeldLock := ⟨name, ← rank name⟩
  let held ← scope.holding
  if held.any fun h => acquiring.rank ≤ h.rank then throw (.order held acquiring)
  if !scope.handles.all validate then throw .invalidHandle

/-- The path of a template; inside of a placeholder `key` is what was read of its name. -/
def fill (params : List (Text × Text)) : Option Text → Text → Except ScopeError Text
  | none, [] => .ok []
  | some _, [] => .error .malformedTemplate
  | none, c :: rest =>
    if c = '<' then fill params (some []) rest else do return c :: (← fill params none rest)
  | some key, c :: rest =>
    if c = '>' then
      match (params.lookup key).filter fun value => value != [] && !value.any fun d => d = '<' || d = '>' with
      | some value => do return value ++ (← fill params none rest)
      | none => .error (.pathParamMissing key)
    else fill params (some (key ++ [c])) rest

/-- What `LockScope::acquire` does before it turns to the port: the order is checked, and the path made. -/
def LockScope.resolve (validate : Handle File → Bool) (scope : LockScope File) (name : String)
    (params : List (Text × Text)) : Except ScopeError Text := do
  scope.assertCanAcquire validate name
  let row ← entry name
  if row.kind = .hotMutex then throw .hotMutex
  let path ← fill params none row.v3Path.toList
  if path.head? ≠ some '/' then throw .absolutePathRequired
  return path

/-! ### Threads -/

/-- An acquisition under way in a scope. -/
structure Pending (File : Type) where
  scope : ℕ
  name : String
  path : Text
  file : File
deriving Repr

structure Thread (File : Type) where
  scopes : List (LockScope File)
  pending : Option (Pending File)

/-- The locks a thread holds are those its scopes acquired. -/
def Thread.held (thread : Thread File) : List (Handle File) := thread.scopes.flatMap LockScope.acquired

/-- What a thread may do next; whether it gets a lock depends on who holds the file. -/
inductive ThreadStep (free : File → Prop) : Thread File → Thread File → Prop
  | seed {thread : Thread File} {held : List (Handle File)} {scope : LockScope File} {validate : Handle File → Bool} :
      thread.pending = none → held ⊆ thread.held → LockScope.seed validate held = .ok scope →
      ThreadStep free thread { thread with scopes := thread.scopes ++ [scope] }
  | ask {thread : Thread File} {i : ℕ} {scope : LockScope File} {name : String} {params : List (Text × Text)} {path : Text}
      {validate : Handle File → Bool} {file : File} :
      thread.pending = none → thread.scopes[i]? = some scope →
      -- the scope knows of every lock the thread holds
      thread.held ⊆ scope.handles →
      scope.resolve validate name params = .ok path →
      ThreadStep free thread { thread with pending := some ⟨i, name, path, file⟩ }
  | reopen {thread : Thread File} {pending : Pending File} {file : File} :
      -- the file was replaced under the path, and the new one is opened
      thread.pending = some pending → ThreadStep free thread { thread with pending := some { pending with file } }
  | grant {thread : Thread File} {pending : Pending File} :
      thread.pending = some pending → free pending.file →
      ThreadStep free thread
        { scopes := thread.scopes.modify pending.scope fun scope =>
            { scope with acquired := scope.acquired ++ [⟨pending.name, pending.path, pending.file⟩] },
          pending := none }
  | giveUp {thread : Thread File} : ThreadStep free thread { thread with pending := none }
  | drop {thread : Thread File} {i : ℕ} {scope : LockScope File} :
      thread.pending = none → thread.scopes[i]? = some scope →
      -- what another scope borrowed is not dropped
      (∀ other ∈ thread.scopes.eraseIdx i, ∀ handle ∈ scope.acquired, handle ∉ other.seeded) →
      ThreadStep free thread { thread with scopes := thread.scopes.eraseIdx i }

variable {ι : Type} [DecidableEq ι] {validate : Handle File → Bool} {scope : LockScope File} {rankOf : File → ℕ}

abbrev State (ι File : Type) := ι → Thread File

/-- Nobody holds the file. -/
def Free (state : State ι File) (file : File) : Prop := ∀ t, ∀ handle ∈ (state t).held, handle.file ≠ file

def initial : State ι File := fun _ => ⟨[], none⟩

/-- A state that steps of threads lead to, through states that are all `good`. -/
inductive Reachable (good : State ι File → Prop) : State ι File → Prop
  | initial : good initial → Reachable good initial
  | step {state : State ι File} {t : ι} {thread : Thread File} :
      Reachable good state → ThreadStep (Free state) (state t) thread → good (Function.update state t thread) →
      Reachable good (Function.update state t thread)

/-- `t` waits for a file that `u` holds. -/
def WaitsFor (state : State ι File) (t u : ι) : Prop :=
  ∃ pending handle, (state t).pending = some pending ∧ handle ∈ (state u).held ∧ handle.file = pending.file

/-! ### What a thread holds and waits for -/

/-- The ranks of the held locks differ, and a thread waits above all of them. -/
structure Ordered (thread : Thread File) : Prop where
  distinct : thread.held.Pairwise fun g h => rank g.name ≠ rank h.name
  above : ∀ pending, thread.pending = some pending → ∃ r, rank pending.name = .ok r ∧
    ∀ handle ∈ thread.held, ∃ r', rank handle.name = .ok r' ∧ r' < r

theorem above_of_assertCanAcquire {name : String}
    (h : scope.assertCanAcquire validate name = .ok ()) :
    ∃ r, rank name = .ok r ∧ ∀ handle ∈ scope.handles, ∃ r', rank handle.name = .ok r' ∧ r' < r := by
  unfold LockScope.assertCanAcquire at h
  obtain ⟨r, hrank, h⟩ := bind_eq_ok.mp h
  obtain ⟨held, hheld, h⟩ := bind_eq_ok.mp h
  refine ⟨r, hrank, ?_⟩
  have hany : held.any (fun h => r ≤ h.rank) = false := by
    by_contra hany
    rw [Bool.not_eq_false] at hany
    simp only [Bind.bind, Except.bind, Pure.pure, Except.pure, hany, if_true] at h
    cases h
  intro handle hhandle
  obtain ⟨b, hb, hget⟩ := exists_mem_of_forall₂ (forall₂_of_mapM_ok hheld) handle hhandle
  obtain ⟨r', hr, hget⟩ := bind_eq_ok.mp hget
  obtain rfl : (⟨handle.name, r'⟩ : HeldLock) = b := Except.ok.inj hget
  have hlt := List.any_eq_false.mp hany _ hb
  exact ⟨r', hr, by simpa using hlt⟩

theorem assertCanAcquire_of_resolve {name : String}
    {params : List (Text × Text)} {path : Text} (h : scope.resolve validate name params = .ok path) :
    scope.assertCanAcquire validate name = .ok () := by
  obtain ⟨_, hcheck, -⟩ := bind_eq_ok.mp h
  exact hcheck

theorem held_modify (scopes : List (LockScope File)) (i : ℕ) (handle : Handle File) :
    ((scopes.modify i fun scope => { scope with acquired := scope.acquired ++ [handle] }).flatMap LockScope.acquired).Perm
        (handle :: scopes.flatMap LockScope.acquired) ∨
      (scopes.modify i fun scope => { scope with acquired := scope.acquired ++ [handle] }) = scopes := by
  induction scopes generalizing i with
  | nil => exact .inr (by simp)
  | cons scope scopes ih =>
    cases i with
    | zero =>
      left
      rw [modify_zero_cons, flatMap_cons, flatMap_cons, append_assoc]
      exact perm_middle
    | succ i =>
      rw [modify_succ_cons]
      cases ih i with
      | inl h =>
        left
        rw [flatMap_cons, flatMap_cons]
        exact (h.append_left _).trans perm_middle
      | inr h =>
        right
        rw [h]

theorem acquired_of_seed {held : List (Handle File)}
    (h : LockScope.seed validate held = .ok scope) : scope.acquired = [] := by
  obtain ⟨_, -, h⟩ := bind_eq_ok.mp h
  rw [← Except.ok.inj h]

/-- A step leaves the ranks of a thread in order. -/
theorem ThreadStep.ordered {free : File → Prop} {thread thread' : Thread File} (h : ThreadStep free thread thread')
    (hordered : Ordered thread) : Ordered thread' := by
  cases h with
  | @seed held scope validate hpending hheld hseed =>
    have hsame : (thread.scopes ++ [scope]).flatMap LockScope.acquired = thread.held := by
      rw [flatMap_append, flatMap_singleton, acquired_of_seed hseed, append_nil]
      rfl
    constructor
    · show (List.flatMap LockScope.acquired _).Pairwise _
      rw [hsame]
      exact hordered.distinct
    · intro pending hsome
      rw [hpending] at hsome
      cases hsome
  | @ask i scope name params path validate file hpending hscope hknown hresolve =>
    constructor
    · exact hordered.distinct
    · intro pending hsome
      cases hsome
      obtain ⟨r, hrank, habove⟩ := above_of_assertCanAcquire (assertCanAcquire_of_resolve hresolve)
      exact ⟨r, hrank, fun handle hhandle => habove handle (hknown hhandle)⟩
  | @reopen pending file hpending =>
    constructor
    · exact hordered.distinct
    · intro pending' hsome
      cases hsome
      exact hordered.above pending hpending
  | @grant pending hpending hfree =>
    obtain ⟨r, hrank, habove⟩ := hordered.above pending hpending
    constructor
    · show (List.flatMap LockScope.acquired _).Pairwise _
      cases held_modify thread.scopes pending.scope ⟨pending.name, pending.path, pending.file⟩ with
      | inl hperm =>
        apply hperm.symm.pairwise _ fun hne => hne.symm
        apply List.Pairwise.cons _ hordered.distinct
        intro handle hhandle heq
        obtain ⟨r', hrank', hlt⟩ := habove handle hhandle
        rw [hrank, hrank'] at heq
        exact hlt.ne' (Except.ok.inj heq)
      | inr hsame =>
        rw [hsame]
        exact hordered.distinct
    · intro pending' hsome
      cases hsome
  | giveUp =>
    constructor
    · exact hordered.distinct
    · intro pending hsome
      cases hsome
  | @drop i scope hpending hscope hborrowed =>
    constructor
    · exact List.Pairwise.sublist ((eraseIdx_sublist thread.scopes i).flatMap _) hordered.distinct
    · intro pending hsome
      rw [hpending] at hsome
      cases hsome

variable {state : State ι File}

theorem Reachable.ordered {good : State ι File → Prop} (h : Reachable good state) (t : ι) :
    Ordered (state t) := by
  induction h with
  | initial _ => exact ⟨List.Pairwise.nil, fun _ h => by cases h⟩
  | @step state u thread _ hstep _ ih =>
    by_cases ht : t = u
    · rw [ht, update_self]
      exact hstep.ordered (ht ▸ ih)
    · rw [update_of_ne ht]
      exact ih

/-! ### Waiting -/

/-- No file is opened under lock names of two ranks. -/
def OneRank (rankOf : File → ℕ) (state : State ι File) : Prop :=
  ∀ t pending, (state t).pending = some pending → rank pending.name = .ok (rankOf pending.file)

theorem ThreadStep.held_or_pending {free : File → Prop} {thread thread' : Thread File}
    (h : ThreadStep free thread thread') {handle : Handle File} (hhandle : handle ∈ thread'.held) :
    handle ∈ thread.held ∨
      ∃ pending, thread.pending = some pending ∧ handle.name = pending.name ∧ handle.file = pending.file := by
  cases h with
  | @seed held scope validate hpending hheld hseed =>
    left
    rw [Thread.held, flatMap_append, flatMap_singleton, acquired_of_seed hseed, append_nil] at hhandle
    exact hhandle
  | ask _ _ _ _ | reopen _ | giveUp => exact .inl hhandle
  | @grant pending hpending hfree =>
    cases held_modify thread.scopes pending.scope ⟨pending.name, pending.path, pending.file⟩ with
    | inl hperm =>
      cases mem_cons.mp (hperm.mem_iff.mp hhandle) with
      | inl heq => exact .inr ⟨pending, hpending, by rw [heq], by rw [heq]⟩
      | inr hmem => exact .inl hmem
    | inr hsame =>
      left
      rw [Thread.held, hsame] at hhandle
      exact hhandle
  | drop _ _ _ => exact .inl (((eraseIdx_sublist thread.scopes _).flatMap _).subset hhandle)

theorem Reachable.good {good : State ι File → Prop} (h : Reachable good state) : good state := by
  cases h with
  | initial hgood | step _ _ hgood => exact hgood

section

variable (h : Reachable (OneRank rankOf) state)

include h

theorem Reachable.held_rank (t : ι) : ∀ handle ∈ (state t).held, rank handle.name = .ok (rankOf handle.file) := by
  induction h with
  | initial _ => simp [HolderLock.initial, Thread.held]
  | @step state u thread hreach hstep _ ih =>
    intro handle hhandle
    by_cases ht : t = u
    · rw [ht, update_self] at hhandle
      cases hstep.held_or_pending hhandle with
      | inl hheld => exact ih handle (ht ▸ hheld)
      | inr hpending =>
        obtain ⟨pending, hsome, hname, hfile⟩ := hpending
        rw [hname, hfile]
        exact hreach.good u pending hsome
    · rw [update_of_ne ht] at hhandle
      exact ih handle hhandle

theorem Reachable.held_lt {t : ι}
    {pending : Pending File} {handle : Handle File} (hsome : (state t).pending = some pending)
    (hheld : handle ∈ (state t).held) : rankOf handle.file < rankOf pending.file := by
  obtain ⟨r, hrank, habove⟩ := (h.ordered t).above pending hsome
  obtain ⟨r', hrank', hlt⟩ := habove handle hheld
  rw [h.good t pending hsome] at hrank
  rw [h.held_rank t handle hheld] at hrank'
  rw [Except.ok.inj hrank, Except.ok.inj hrank']
  exact hlt

theorem Reachable.holds_above {t u : ι} (hwaits : Relation.TransGen (WaitsFor state) t u) :
    ∃ pending handle, (state t).pending = some pending ∧ handle ∈ (state u).held ∧
      rankOf pending.file ≤ rankOf handle.file := by
  induction hwaits with
  | single hwait =>
    obtain ⟨pending, handle, hsome, hheld, hfile⟩ := hwait
    exact ⟨pending, handle, hsome, hheld, by rw [hfile]⟩
  | @tail u v _ hwait ih =>
    obtain ⟨pending, handle, hsome, hheld, hle⟩ := ih
    obtain ⟨pending', handle', hsome', hheld', hfile⟩ := hwait
    refine ⟨pending, handle', hsome, hheld', hle.trans ?_⟩
    rw [hfile]
    exact (h.held_lt hsome' hheld).le

end

/-! ### Two threads

A lock file is known by its path here.  With a slash in a parameter, one path stands under a lock name of rank 80 and
under one of rank 20.
-/

namespace TwoThreads

def pair (a b : Thread Text) : State Bool Text := fun t => bif t then b else a

variable {good : State Bool Text → Prop} {a b a' b' : Thread Text}

theorem first_step (h : Reachable good (pair a b)) (hstep : ThreadStep (Free (pair a b)) a a') (hgood : good (pair a' b)) :
    Reachable good (pair a' b) := by
  have hupdate : Function.update (pair a b) false a' = pair a' b := by
    funext t
    cases t <;> rfl
  rw [← hupdate] at hgood ⊢
  exact h.step hstep hgood

theorem second_step (h : Reachable good (pair a b)) (hstep : ThreadStep (Free (pair a b)) b b') (hgood : good (pair a b')) :
    Reachable good (pair a b') := by
  have hupdate : Function.update (pair a b) true b' = pair a b' := by
    funext t
    cases t <;> rfl
  rw [← hupdate] at hgood ⊢
  exact h.step hstep hgood

theorem free_pair {file : Text} (ha : ∀ handle ∈ a.held, handle.file ≠ file) (hb : ∀ handle ∈ b.held, handle.file ≠ file) :
    Free (pair a b) file := by
  intro t
  cases t with
  | false => exact ha
  | true => exact hb

def mainParams : List (Text × Text) := [("fgosDir".toList, "/a/worker-session".toList)]

def slotParams : List (Text × Text) := [("fgosDir".toList, "/a/worker-session".toList), ("ref".toList, "x".toList)]

def sessionParams : List (Text × Text) := [("lockRoot".toList, "/a".toList), ("id".toList, "locks/merge-slot--x".toList)]

def mainFile : Text := "/a/worker-session/locks/main-checkout.lock".toList

def slotFile : Text := "/a/worker-session/locks/merge-slot--x.lock".toList

def thread (acquired : List (Handle Text)) (pending : Option (Pending Text)) : Thread Text := ⟨[⟨[], acquired⟩], pending⟩

def main : Handle Text := ⟨"main-checkout", mainFile, mainFile⟩

def slot : Handle Text := ⟨"merge-slot", slotFile, slotFile⟩

theorem ask_step {free : Text → Prop} {acquired : List (Handle Text)} {name : String} {params : List (Text × Text)} {path : Text}
    (hresolve : LockScope.resolve (fun _ => true) (⟨[], acquired⟩ : LockScope Text) name params = .ok path) :
    ThreadStep free (thread acquired none) (thread acquired (some ⟨0, name, path, path⟩)) :=
  .ask rfl rfl (by simp [thread, Thread.held, LockScope.handles]) hresolve

theorem grant_step {free : Text → Prop} {name : String} {path : Text} (hfree : free path) :
    ThreadStep free (thread [] (some ⟨0, name, path, path⟩)) (thread [⟨name, path, path⟩] none) :=
  @ThreadStep.grant _ _ (thread [] (some ⟨0, name, path, path⟩)) ⟨0, name, path, path⟩ rfl hfree

theorem seed_step {free : Text → Prop} : ThreadStep free ⟨[], none⟩ (thread [] none) :=
  @ThreadStep.seed _ _ ⟨[], none⟩ [] ⟨[], []⟩ (fun _ => true) rfl (nil_subset _) rfl

def waiting : State Bool Text :=
  pair (thread [main] none) (thread [slot] (some ⟨0, "main-checkout", mainFile, mainFile⟩))

def deadlocked : State Bool Text :=
  pair (thread [main] (some ⟨0, "worker-session", slotFile, slotFile⟩))
    (thread [slot] (some ⟨0, "main-checkout", mainFile, mainFile⟩))

/-- The ranks under which the two files are opened on the way to `waiting`. -/
def fileRank (file : Text) : ℕ := if file = mainFile then 50 else 20

def PendingRank (a : Thread Text) : Prop := ∀ pending, a.pending = some pending → rank pending.name = .ok (fileRank pending.file)

theorem oneRank_pair (ha : PendingRank a) (hb : PendingRank b) : OneRank fileRank (pair a b) := by
  intro t
  cases t with
  | false => exact ha
  | true => exact hb

theorem pendingRank_none {scopes : List (LockScope Text)} : PendingRank ⟨scopes, none⟩ := nofun

theorem pendingRank_some {acquired : List (Handle Text)} {pending : Pending Text}
    (h : rank pending.name = .ok (fileRank pending.file)) : PendingRank (thread acquired (some pending)) := by
  intro pending' hsome
  rw [← Option.some.inj hsome]
  exact h

theorem rank_main : rank "main-checkout" = .ok (fileRank mainFile) := by rfl

theorem rank_slot : rank "merge-slot" = .ok (fileRank slotFile) := by rfl

theorem reachable_waiting : Reachable (OneRank fileRank) waiting := by
  have hstart : Reachable (OneRank fileRank) (pair ⟨[], none⟩ ⟨[], none⟩) := by
    have hpair : (initial : State Bool Text) = pair ⟨[], none⟩ ⟨[], none⟩ := by
      funext t
      cases t <;> rfl
    rw [← hpair]
    refine .initial ?_
    rw [hpair]
    exact oneRank_pair pendingRank_none pendingRank_none
  have hmain := first_step (first_step (first_step hstart seed_step (oneRank_pair pendingRank_none pendingRank_none))
    (@ask_step _ _ "main-checkout" mainParams mainFile rfl)
    (oneRank_pair (pendingRank_some rank_main) pendingRank_none))
    (grant_step (free_pair (by simp [thread, Thread.held]) (by simp [Thread.held])))
    (oneRank_pair pendingRank_none pendingRank_none)
  have hslot := second_step (second_step (second_step hmain seed_step (oneRank_pair pendingRank_none pendingRank_none))
    (@ask_step _ _ "merge-slot" slotParams slotFile rfl)
    (oneRank_pair pendingRank_none (pendingRank_some rank_slot)))
    (grant_step (free_pair (by simp only [thread, Thread.held, flatMap_singleton, mem_singleton, forall_eq]; decide)
      (by simp [thread, Thread.held])))
    (oneRank_pair pendingRank_none pendingRank_none)
  exact second_step hslot (@ask_step _ _ _ mainParams _ rfl)
    (oneRank_pair pendingRank_none (pendingRank_some rank_main))

theorem Reachable.mono {good' : State Bool Text → Prop} {state : State Bool Text} (h : Reachable good state)
    (himp : ∀ state, good state → good' state) : Reachable good' state := by
  induction h with
  | initial hgood => exact .initial (himp _ hgood)
  | step _ hstep hgood ih => exact ih.step hstep (himp _ hgood)

theorem reachable_deadlocked : Reachable (fun _ => True) deadlocked :=
  first_step (Reachable.mono reachable_waiting fun _ _ => trivial) (@ask_step _ _ _ sessionParams _ rfl) trivial

end TwoThreads

/-- The order inside the scopes keeps the ranks of every thread in order, and where no file is opened under lock names of
two ranks, no threads wait for each other in a circle. -/
theorem scopes_ordered (ι File : Type) [DecidableEq ι] :
    (∀ state : State ι File, Reachable (fun _ => True) state → ∀ t, Ordered (state t)) ∧
      ∀ (rankOf : File → ℕ) (state : State ι File), Reachable (OneRank rankOf) state →
        FiniteGraph.Acyclic (WaitsFor state) := by
  refine ⟨fun state h t => h.ordered t, ?_⟩
  intro rankOf state h t hcycle
  obtain ⟨pending, handle, hsome, hheld, hle⟩ := h.holds_above hcycle
  exact (h.held_lt hsome hheld).not_ge hle

/-- A thread waits for the main checkout, and nobody waits for it. -/
theorem scopes_ordered_waiting :
    WaitsFor TwoThreads.waiting true false ∧ FiniteGraph.Acyclic (WaitsFor TwoThreads.waiting) :=
  ⟨⟨_, TwoThreads.main, rfl, mem_singleton.mpr rfl, rfl⟩,
    (scopes_ordered Bool Text).2 TwoThreads.fileRank _ TwoThreads.reachable_waiting⟩

/-- One lock file under two lock names: two threads, each in the order of the ranks, wait for each other. -/
theorem scopes_deadlock : ∃ state : State Bool Text, Reachable (fun _ => True) state ∧
    ¬ FiniteGraph.Acyclic (WaitsFor state) := by
  refine ⟨TwoThreads.deadlocked, TwoThreads.reachable_deadlocked, fun hacyclic => hacyclic false ?_⟩
  have hfirst : WaitsFor TwoThreads.deadlocked false true :=
    ⟨_, TwoThreads.slot, rfl, mem_singleton.mpr rfl, rfl⟩
  have hsecond : WaitsFor TwoThreads.deadlocked true false :=
    ⟨_, TwoThreads.main, rfl, mem_singleton.mpr rfl, rfl⟩
  exact (Relation.TransGen.single hfirst).tail hsecond

end Forgent.HolderLock
