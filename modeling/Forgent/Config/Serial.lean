import Forgent.Config.Concurrent

/-!
# Concurrent commits are serial

Each file has what its successful commits give one after the other, and a refused commit changes nothing.  The snapshot over
the three files stays readable where no commit installs over files that it did not validate against; a commit of the project
file and one of the machine's files, which hold different locks, can do so.
-/

namespace Forgent.Config

open List Option

section

variable {ctx : Context} {ed : Editor} {s s' : Shared} {req : Request} {gives : Bool} {phase phase' : Committing}

def Committing.succeeds : Committing → Bool
  | .releasing (.ok _) | .done (.ok _) => true
  | _ => false

/-- A commit succeeds in the step in which it writes what it produced of its target, or has nothing to write. -/
theorem commitNext_succeeds (hholds : PhaseHolds ctx ed s req phase) (h : commitNext ctx ed s req gives phase = some (s', phase')) :
    (phase'.succeeds = phase.succeeds ∧ s'.files = s.files) ∨
      (phase.succeeds = false ∧ phase'.succeeds = true ∧ ∃ reason file applied,
        produce ctx ed req reason (s.files.get req.target) = .ok (file, applied) ∧
        s'.files = if applied = [] then s.files else s.files.put file req.target) := by
  cases phase with
  | starting | checking file applied read =>
    rw [commitNext] at h
    split at h <;>
    · cases h
      exact .inl ⟨rfl, rfl⟩
  | waiting reason =>
    rw [commitNext] at h
    split at h
    · split at h
      · cases h
        exact .inl ⟨rfl, rfl⟩
      · cases h
    · cases h
      exact .inl ⟨rfl, rfl⟩
  | holding reason =>
    rw [commitNext] at h
    split at h
    · cases h
      exact .inl ⟨rfl, rfl⟩
    · next base hbase =>
      obtain ⟨rfl, -⟩ := current_ok hbase
      split at h
      · cases h
        exact .inl ⟨rfl, rfl⟩
      · next file applied hproduce =>
        split at h
        · next hnothing =>
          cases h
          exact .inr ⟨rfl, rfl, reason, file, applied, hproduce, (if_pos hnothing).symm⟩
        · cases h
          exact .inl ⟨rfl, rfl⟩
  | reading file applied left read =>
    cases left with
    | cons kind left =>
      cases h
      exact .inl ⟨rfl, rfl⟩
    | nil =>
      rw [commitNext] at h
      split at h <;>
      · cases h
        exact .inl ⟨rfl, rfl⟩
  | installing file applied read there =>
    obtain ⟨⟨reason, hproduce, happlied⟩, -⟩ := hholds
    rw [commitNext] at h
    split at h
    · cases h
      exact .inl ⟨rfl, rfl⟩
    · cases h
      exact .inr ⟨rfl, rfl, reason, file, applied, hproduce, (if_neg happlied).symm⟩
  | releasing outcome =>
    cases h
    cases outcome <;> exact .inl ⟨rfl, rfl⟩
  | done outcome => cases h

end

/-! ### One after the other -/

section

variable (ctx : Context) (ed : Editor)

/-- Requests one after the other, each on what the one before left. -/
inductive Serial (start : Option File) : List Request → Option File → Prop
  | nil : Serial start [] start
  | commit {reqs : List Request} {base : Option File} {req : Request} {reason : Bool} {file : File} {applied : Applied}
    (before : Serial start reqs base) (produced : produce ctx ed req reason base = .ok (file, applied)) :
    Serial start (reqs ++ [req]) (if applied = [] then base else some file)

/-- The call `i` is a commit of a file that succeeded. -/
def SucceededAt (w : Interleave.World Shared Commit) (kind : SourceKind) (i : ℕ) (req : Request) : Prop :=
  ∃ phase, w.calls[i]? = some ⟨req, phase⟩ ∧ req.target = kind ∧ phase.succeeds = true

/-- The successful commits of a file in an order, and that it has what they give one after the other. -/
def Ordered (w : Interleave.World Shared Commit) (kind : SourceKind) (start : Option File) : Prop :=
  ∃ (order : List ℕ) (reqs : List Request), order.Nodup ∧ List.Forall₂ (SucceededAt w kind) order reqs ∧
    (∀ i req, SucceededAt w kind i req → i ∈ order) ∧ Serial ctx ed start reqs (w.store.files.get kind)

end

section

variable {ctx : Context} {ed : Editor} {steady : Prop} {w w' : Interleave.World Shared Commit} {kind : SourceKind}
  {start : Option File}

theorem ordered_next (hw : Interleave.Excluded (fun _ => True) (Holds ctx ed) Apart w) (h : Ordered ctx ed w kind start)
    (hnext : (commits ctx ed steady).Next w w') : Ordered ctx ed w' kind start := by
  obtain ⟨order, reqs, hnodup, hsucceeded, hall, hserial⟩ := h
  cases hnext with
  | @begin s calls c hbegins =>
    refine ⟨order, reqs, hnodup, hsucceeded.imp fun i req hi => ?_, fun i req hi => ?_, hserial⟩
    · obtain ⟨phase, hcall, htarget, hphase⟩ := hi
      have hlt := (List.getElem?_eq_some_iff.mp hcall).1
      exact ⟨phase, (getElem?_append_left hlt).trans hcall, htarget, hphase⟩
    · obtain ⟨phase, hcall, htarget, hphase⟩ := hi
      cases Interleave.getElem?_append_singleton_cases hcall with
      | inl hnew =>
        have hstarting : phase = .starting := (congrArg Commit.phase hnew.2).trans hbegins
        rw [hstarting] at hphase
        cases hphase
      | inr hold => exact hall i req ⟨phase, hold, htarget, hphase⟩
  | @step s s' calls i c c' hcall hstep =>
    obtain ⟨-, gives, hnext⟩ := hstep
    obtain ⟨req, phase⟩ := c
    obtain ⟨⟨s₁, phase'⟩, hmoved, heq⟩ := map_eq_some_iff.mp hnext
    obtain ⟨rfl, rfl⟩ := Prod.mk.inj heq
    have hlt := (List.getElem?_eq_some_iff.mp hcall).1
    have hself : (calls.set i ⟨req, phase'⟩)[i]? = some ⟨req, phase'⟩ := getElem?_set_self hlt
    have hholds := (hw.of_call hcall).2
    -- Another call's success is the same before and after.
    have hother : ∀ {j r}, j ≠ i → (SucceededAt ⟨s₁, calls.set i ⟨req, phase'⟩⟩ kind j r ↔ SucceededAt ⟨s, calls⟩ kind j r) := by
      intro j r hji
      unfold SucceededAt
      rw [getElem?_set_ne (Ne.symm hji)]
    cases commitNext_succeeds hholds hmoved with
    | inl hsame =>
      obtain ⟨hsucceeds, hfiles⟩ := hsame
      have hiff : ∀ j r, SucceededAt ⟨s₁, calls.set i ⟨req, phase'⟩⟩ kind j r ↔ SucceededAt ⟨s, calls⟩ kind j r := by
        intro j r
        by_cases hji : j = i
        · subst hji
          constructor
          · intro h
            obtain ⟨p, hp, htarget, hphase⟩ := h
            obtain ⟨rfl, rfl⟩ := Commit.mk.inj (some.inj (hself.symm.trans hp))
            exact ⟨phase, hcall, htarget, hsucceeds ▸ hphase⟩
          · intro h
            obtain ⟨p, hp, htarget, hphase⟩ := h
            obtain ⟨rfl, rfl⟩ := Commit.mk.inj (some.inj (hcall.symm.trans hp))
            exact ⟨phase', hself, htarget, hsucceeds.trans hphase⟩
        · exact hother hji
      refine ⟨order, reqs, hnodup, hsucceeded.imp fun j r hj => (hiff j r).mpr hj, fun j r hj => hall j r ((hiff j r).mp hj), ?_⟩
      show Serial ctx ed start reqs (s₁.files.get kind)
      rw [hfiles]
      exact hserial
    | inr hsucceeds =>
      obtain ⟨hbefore, hafter, reason, file, applied, hproduce, hfiles⟩ := hsucceeds
      have hnot : i ∉ order := by
        intro hmem
        obtain ⟨r, hr⟩ : ∃ r, SucceededAt ⟨s, calls⟩ kind i r := by
          obtain ⟨n, hn⟩ := mem_iff_getElem?.mp hmem
          have hlength := hsucceeded.length_eq
          have hltn : n < reqs.length := hlength ▸ (List.getElem?_eq_some_iff.mp hn).1
          have hrel := hsucceeded.get (List.getElem?_eq_some_iff.mp hn).1 hltn
          rw [get_eq_getElem, (List.getElem?_eq_some_iff.mp hn).2] at hrel
          exact ⟨_, hrel⟩
        obtain ⟨p, hp, -, hphase⟩ := hr
        obtain ⟨rfl, rfl⟩ := Commit.mk.inj (some.inj (hcall.symm.trans hp))
        rw [hbefore] at hphase
        cases hphase
      have hstays : List.Forall₂ (SucceededAt ⟨s₁, calls.set i ⟨req, phase'⟩⟩ kind) order reqs := by
        have hmem : ∀ j ∈ order, j ≠ i := fun j hj heq => hnot (heq ▸ hj)
        clear hserial hall hnodup hnot
        induction hsucceeded with
        | nil => exact .nil
        | cons hhead htail ih =>
          exact .cons ((hother (hmem _ mem_cons_self)).mpr hhead)
            (ih fun j hj => hmem j (mem_cons_of_mem _ hj))
      by_cases htarget : req.target = kind
      · refine ⟨order ++ [i], reqs ++ [req], ?_, ?_, fun j r hj => ?_, ?_⟩
        · rw [nodup_append]
          exact ⟨hnodup, by simp, fun a ha b hb heq => hnot (by
            rw [mem_singleton.mp hb] at heq
            exact heq ▸ ha)⟩
        · exact rel_append hstays (.cons ⟨phase', hself, htarget, hafter⟩ .nil)
        · by_cases hji : j = i
          · rw [hji]
            simp
          · exact mem_append_left _ (hall j r ((hother hji).mp hj))
        · have hcommit := Serial.commit hserial (htarget ▸ hproduce)
          have hget : s₁.files.get kind = if applied = [] then s.files.get kind else some file := by
            rw [hfiles]
            split
            · rfl
            · rw [← htarget]
              exact s.files.get_put file req.target
          show Serial ctx ed start _ (s₁.files.get kind)
          rw [hget]
          exact hcommit
      · refine ⟨order, reqs, hnodup, hstays, fun j r hj => ?_, ?_⟩
        · by_cases hji : j = i
          · subst hji
            obtain ⟨p, hp, hkind, -⟩ := hj
            obtain ⟨rfl, rfl⟩ := Commit.mk.inj (some.inj (hself.symm.trans hp))
            exact absurd hkind htarget
          · exact hall j r ((hother hji).mp hj)
        · have hget : s₁.files.get kind = s.files.get kind := by
            rw [hfiles]
            split
            · rfl
            · exact s.files.get_put_of_ne file (Ne.symm htarget)
          show Serial ctx ed start reqs (s₁.files.get kind)
          rw [hget]
          exact hserial
  | around haround => exact haround.elim

theorem Files.ext_get {a b : Files} (hget : ∀ kind, a.get kind = b.get kind) (hrest : SameRest a b) : a = b := by
  obtain ⟨p, g, acc, t, tok⟩ := a
  obtain ⟨p', g', acc', t', tok'⟩ := b
  obtain rfl : p = p' := hget .project
  obtain rfl : g = g' := hget .global
  obtain rfl : acc = acc' := hget .accounts
  obtain rfl : t = t' := hrest.1
  obtain rfl : tok = tok' := hrest.2
  rfl

theorem readable_step {s s' : Shared} {req : Request} {gives : Bool} {phase phase' : Committing}
    (hholds : PhaseHolds ctx ed s req phase) (hfresh : ¬ Stale s ⟨req, phase⟩)
    (h : commitNext ctx ed s req gives phase = some (s', phase')) (hreadable : ∃ merged, build ctx s.files.sources = .ok merged) :
    ∃ merged, build ctx s'.files.sources = .ok merged := by
  cases commitNext_files h with
  | inl hsame =>
    rw [hsame]
    exact hreadable
  | inr hinstall =>
    obtain ⟨file, applied, read, there, rfl, hfiles, -⟩ := hinstall
    obtain ⟨-, hrest, hbuild, -⟩ := hholds
    have hread : read.put file req.target = s.files.put file req.target := by
      apply Files.ext_get
      · intro kind
        by_cases hkind : kind = req.target
        · rw [hkind, Files.get_put, Files.get_put]
        · rw [Files.get_put_of_ne _ _ hkind, Files.get_put_of_ne _ _ hkind]
          by_contra hne
          exact hfresh ⟨kind, hkind, hne⟩
      · have hput := Files.sameRest_put read file req.target
        have hput' := Files.sameRest_put s.files file req.target
        exact ⟨hput.1.symm.trans (hrest.1.trans hput'.1), hput.2.symm.trans (hrest.2.trans hput'.2)⟩
    rw [hfiles, ← hread]
    exact hbuild

/-- No commit yet, and no lock taken. -/
def quietWorld (files : Files) : Interleave.World Shared Commit := ⟨⟨files, fun _ => false⟩, []⟩

theorem excluded_quiet (ctx : Context) (ed : Editor) (files : Files) :
    Interleave.Excluded (fun _ => True) (Holds ctx ed) Apart (quietWorld files) :=
  ⟨⟨trivial, fun c hc => by cases hc⟩, fun _ hcall _ => by cases hcall⟩

theorem succeeds_next {i : ℕ} {c : Commit} (hw : Interleave.Excluded (fun _ => True) (Holds ctx ed) Apart w)
    (hcall : w.calls[i]? = some c) (hsucceeds : c.phase.succeeds = true) (hnext : (commits ctx ed steady).Next w w') :
    ∃ c', w'.calls[i]? = some c' ∧ c'.phase.succeeds = true := by
  cases hnext with
  | begin hbegins => exact ⟨c, (getElem?_append_left (List.getElem?_eq_some_iff.mp hcall).1).trans hcall, hsucceeds⟩
  | @step s s' calls j d d' hcall' hstep =>
    by_cases hij : j = i
    · subst hij
      obtain rfl := some.inj (hcall.symm.trans hcall')
      obtain ⟨-, gives, hnext⟩ := hstep
      obtain ⟨⟨s₁, phase'⟩, hmoved, heq⟩ := map_eq_some_iff.mp hnext
      cases heq
      refine ⟨⟨c.req, phase'⟩, getElem?_set_self (List.getElem?_eq_some_iff.mp hcall).1, ?_⟩
      cases commitNext_succeeds (hw.of_call hcall).2 hmoved with
      | inl hsame => exact hsame.1.trans hsucceeds
      | inr hnew => exact hnew.2.1
    · exact ⟨c, (getElem?_set_ne hij).trans hcall, hsucceeds⟩
  | around haround => exact haround.elim

/-- **Concurrent commits are serial.**  Each file has what its successful commits give in some order, each on what the one
before left; only a commit that succeeds changes a file, and it stays successful; and a snapshot that could be built at the
start can be built after every step, where no commit installs over files that it did not validate against. -/
theorem commits_serial (ctx : Context) (ed : Editor) (steady : Prop) {files : Files} {w : Interleave.World Shared Commit}
    (hrun : (commits ctx ed steady).Run (quietWorld files) w) : (∀ kind, Ordered ctx ed w kind (files.get kind)) ∧
    (∀ w', (commits ctx ed steady).Next w w' → w'.store.files ≠ w.store.files →
      ∃ (i : ℕ) (c c' : Commit), w.calls[i]? = some c ∧ w'.calls[i]? = some c' ∧ c.phase.succeeds = false ∧
        c'.phase.succeeds = true) ∧
    (∀ (w' : Interleave.World Shared Commit) (i : ℕ) (c : Commit), (commits ctx ed steady).Run w w' → w.calls[i]? = some c →
      c.phase.succeeds = true → ∃ c', w'.calls[i]? = some c' ∧ c'.phase.succeeds = true) ∧
    (steady → (∃ merged, build ctx files.sources = .ok merged) → ∃ merged, build ctx w.store.files.sources = .ok merged) := by
  have hexclusion := commits_exclusion ctx ed steady
  have hw := hexclusion.run (excluded_quiet ctx ed files) hrun
  refine ⟨fun kind => ?_, fun w' hnext hchange => ?_, fun w' i c hrun' hcall hsucceeds => ?_, fun hsteady hstart => ?_⟩
  · clear hw
    induction hrun with
    | refl => exact ⟨[], [], nodup_nil, .nil, fun i req hi => (by obtain ⟨_, hcall, -⟩ := hi; cases hcall), .nil⟩
    | tail hrun hnext ih => exact ordered_next (hexclusion.run (excluded_quiet ctx ed files) hrun) ih hnext
  · cases hnext with
    | begin hbegins => exact absurd rfl hchange
    | @step s s' calls i c c' hcall hstep =>
      obtain ⟨-, gives, hnext⟩ := hstep
      obtain ⟨⟨s₁, phase'⟩, hmoved, heq⟩ := map_eq_some_iff.mp hnext
      cases heq
      obtain ⟨hbefore, hafter, -⟩ := (commitNext_succeeds (hw.of_call hcall).2 hmoved).resolve_left fun hsame => hchange hsame.2
      exact ⟨i, c, _, hcall, getElem?_set_self (List.getElem?_eq_some_iff.mp hcall).1, hbefore, hafter⟩
    | around haround => exact haround.elim
  · induction hrun' with
    | refl => exact ⟨c, hcall, hsucceeds⟩
    | tail hrun' hnext ih =>
      obtain ⟨c', hcall', hsucceeds'⟩ := ih
      exact succeeds_next (hexclusion.run hw hrun') hcall' hsucceeds' hnext
  · clear hw
    induction hrun with
    | refl => exact hstart
    | tail hrun hnext ih =>
      have hu := hexclusion.run (excluded_quiet ctx ed files) hrun
      cases hnext with
      | begin hbegins => exact ih
      | @step s s' calls i c c' hcall hstep =>
        obtain ⟨hfresh, gives, hnext⟩ := hstep
        obtain ⟨⟨s₁, phase'⟩, hmoved, heq⟩ := map_eq_some_iff.mp hnext
        cases heq
        exact readable_step (hu.of_call hcall).2 (hfresh hsteady) hmoved ih
      | around haround => exact haround.elim

end

/-! ### A project and a machine -/

namespace TwoLocks

def context : Context where
  schemas := [⟨"server", .obj [("properties", .obj [("limits", .obj [])])]⟩]
  standard := .obj []
  detect _ := none
  validateSections _ _ := .ok []

def editor : Editor where
  header := "header"
  revision text := text
  write _ _ _ _ := some "edited"

def empty : Files := ⟨none, none, none, none, false⟩

def request (target : SourceKind) (value : Json) : Request :=
  ⟨target, [.set [.key "server", .key "limits"] value], true, none, false, false⟩

inductive Event where
  | commit (req : Request)
  | step (i : ℕ)

/-- Whether a commit would install over a file that is not as it was read. -/
def stale (s : Shared) (c : Commit) : Bool :=
  match c.phase with
  | .installing _ _ read _ => [SourceKind.project, .global, .accounts].any fun kind =>
    kind ≠ c.req.target && read.get kind ≠ s.files.get kind
  | _ => false

def happen (steady : Bool) (w : Interleave.World Shared Commit) : Event → Option (Interleave.World Shared Commit)
  | .commit req => some ⟨w.store, w.calls ++ [⟨req, .starting⟩]⟩
  | .step i => do
    let c ← w.calls[i]?
    if steady && stale w.store c then none
    else
      let (s, phase) ← commitNext context editor w.store c.req false c.phase
      some ⟨s, w.calls.set i ⟨c.req, phase⟩⟩

theorem not_stale {s : Shared} {c : Commit} (h : stale s c = false) : ¬ Stale s c := by
  intro hstale
  unfold Stale at hstale
  split at hstale
  · next read _ hphase =>
    obtain ⟨kind, hkind, hread⟩ := hstale
    rw [stale, hphase] at h
    have hall := List.any_eq_false.mp h kind (by cases kind <;> simp)
    simp [hkind, hread] at hall
  · exact hstale

theorem next_of_happen {steady : Bool} {w w' : Interleave.World Shared Commit} {event : Event}
    (h : happen steady w event = some w') : (commits context editor (steady = true)).Next w w' := by
  cases event with
  | commit req =>
    cases h
    exact .begin rfl
  | step i =>
    obtain ⟨c, hc, hrest⟩ := bind_eq_some_iff.mp h
    split at hrest
    · cases hrest
    · next hstale =>
      obtain ⟨⟨s, phase⟩, hnext, hworld⟩ := bind_eq_some_iff.mp hrest
      cases hworld
      refine .step hc ⟨fun hsteady => not_stale ?_, false, by rw [hnext]; rfl⟩
      rw [hsteady, Bool.true_and] at hstale
      exact Bool.eq_false_of_not_eq_true hstale

def steps (i n : ℕ) : List Event := List.replicate n (.step i)

/-- A limit in the project file that is a mapping, and one in the global file that is a number. -/
def project : Request := request .project (.obj [("memory", .nat 1)])

def global : Request := request .global (.nat 5)

def readable (files : Files) : Bool := (build context files.sources).isOk

theorem readable_iff (files : Files) : readable files = true ↔ ∃ merged, build context files.sources = .ok merged := by
  rw [readable]
  cases build context files.sources <;> simp [Except.isOk, Except.toBool]

/-- After a run: whether every commit succeeded, and whether the snapshot can be built. -/
def outcome (steady : Bool) (events : List Event) : Option (Bool × Bool) :=
  (events.foldlM (happen steady) (quietWorld empty)).map fun w =>
    (w.calls.all fun c => c.phase.succeeds, readable w.store.files)

theorem run_to {steady : Bool} {events : List Event} {succeed builds : Bool} (h : outcome steady events = some (succeed, builds)) :
    ∃ w, (commits context editor (steady = true)).Run (quietWorld empty) w ∧
      (w.calls.all fun c => c.phase.succeeds) = succeed ∧ readable w.store.files = builds := by
  obtain ⟨w, hw, heq⟩ := map_eq_some_iff.mp h
  obtain ⟨hsucceed, hbuilds⟩ := Prod.mk.inj heq
  exact ⟨w, Interleave.run_of_foldlM next_of_happen events hw, hsucceed, hbuilds⟩

def skewed : List Event := .commit project :: .commit global :: (steps 0 8 ++ steps 1 8 ++ steps 0 2 ++ steps 1 2)

theorem skewed_outcome : outcome false skewed = some (true, false) := by
  decide +kernel

def queued : List Event := .commit project :: (steps 0 10 ++ .commit global :: steps 1 7)

theorem queued_outcome : outcome true queued = some (false, true) := by
  decide +kernel

theorem empty_readable : readable empty = true := by
  decide +kernel

end TwoLocks

open TwoLocks in
theorem commits_serial_queued : ∃ w, (commits context editor (true = true)).Run (quietWorld empty) w ∧
    (∀ kind, Ordered context editor w kind (empty.get kind)) ∧ ∃ merged, build context w.store.files.sources = .ok merged := by
  obtain ⟨w, hrun, -, -⟩ := run_to queued_outcome
  obtain ⟨hordered, -, -, hbuilds⟩ := commits_serial context editor (true = true) hrun
  exact ⟨w, hrun, hordered, hbuilds rfl ((readable_iff empty).mp empty_readable)⟩

open TwoLocks in
/-- Each of two commits validates against a machine without the other. -/
theorem skewed_unreadable : (∃ merged, build context empty.sources = .ok merged) ∧
    ∃ w, (commits context editor False).Run (quietWorld empty) w ∧
      (∀ c ∈ w.calls, c.phase.succeeds = true) ∧ ¬ ∃ merged, build context w.store.files.sources = .ok merged := by
  have hfalse : (false = true) = False := by simp
  obtain ⟨w, hrun, hsucceed, hbuilds⟩ := run_to skewed_outcome
  rw [hfalse] at hrun
  refine ⟨(readable_iff empty).mp empty_readable, w, hrun, fun c hc => List.all_eq_true.mp hsucceed c hc, fun h => ?_⟩
  rw [(readable_iff w.store.files).mpr h] at hbuilds
  cases hbuilds

end Forgent.Config
