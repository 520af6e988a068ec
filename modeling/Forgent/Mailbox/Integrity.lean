import Forgent.Mailbox.Bodies

/-!
# The integrity of the record

Bodies are installed before the snapshot that names them, and deleted after the snapshot that stops naming them.  So
every body that an installed snapshot keeps is there, wherever the holds stopped, also after a power loss.
-/

namespace Forgent.Mailbox.Record

open Interrupted List Std.ExtTreeMap

/-! ### Body files -/

variable {id : MessageId} {name : String}

theorem bodyName_eq_some (h : bodyName id = some name) : name = id.text ++ ".body" := by
  rw [bodyName] at h
  split at h
  · exact (Option.some.inj h).symm
  · cases h

theorem bodyName_inj {id' : MessageId} (h : bodyName id = some name) (h' : bodyName id' = some name) : id = id' := by
  have htext := (bodyName_eq_some h).symm.trans (bodyName_eq_some h')
  rw [← String.toList_inj, String.toList_append, String.toList_append, append_cancel_right_eq, String.toList_inj] at htext
  cases id
  cases id'
  exact congrArg MessageId.mk htext

namespace Disk

variable {d : Disk} {id : MessageId} {name : String} {bytes : ℕ} {d' : Disk} {text : String}

/-- Whatever a power loss leaves of the directory, the body is in it with its size. -/
def Keeps (d : Disk) (id : MessageId) (bytes : ℕ) : Prop :=
  ∃ name, bodyName id = some name ∧ ∀ files ∈ d.bodies.values, ∃ text, files[name]? = some text ∧ byteLen text = bytes

/-- Every body that a snapshot keeps is in the directory. -/
def Holds (d : Disk) (s : MailboxState) : Prop := ∀ h ∈ s.messages, h.bodyKept = true → d.Keeps h.id h.bodyBytes

/-- Every body that a snapshot keeps is in the directory, whatever a power loss leaves of either. -/
def Intact (d : Disk) : Prop := ∀ snapshot ∈ d.snapshot.values, d.Holds (snapshot.getD .new)

section

variable (h : d.Keeps id bytes)

include h

theorem Keeps.congr {d' : Disk} (hbodies : d'.bodies = d.bodies) : d'.Keeps id bytes := by
  rw [Keeps, hbodies]
  exact h

theorem Keeps.sync (hbodies : d'.bodies = d.bodies.sync) : d'.Keeps id bytes := by
  obtain ⟨name, hname, hfiles⟩ := h
  refine ⟨name, hname, ?_⟩
  intro files hmem
  rw [hbodies] at hmem
  exact hfiles files (d.bodies.values_sync_subset hmem)

theorem Keeps.putBody (hfree : d.bodies.now.contains name = false) : (d.putBody name text).Keeps id bytes := by
  obtain ⟨own, hown, hfiles⟩ := h
  refine ⟨own, hown, ?_⟩
  intro files hmem
  rcases mem_cons.mp hmem with rfl | hmem
  · obtain ⟨kept, hkept, hbytes⟩ := hfiles d.bodies.now d.bodies.now_mem
    refine ⟨kept, ?_, hbytes⟩
    have hne : name ≠ own := by
      rintro rfl
      rw [contains_eq_isSome_getElem?, hkept] at hfree
      cases hfree
    show (d.bodies.now.insert name text)[own]? = _
    rw [Std.ExtTreeMap.getElem?_insert, if_neg (by rw [compare_eq_iff_eq]; exact hne)]
    exact hkept
  · exact hfiles files hmem

theorem Keeps.dropBody (hother : bodyName id ≠ some name) : (d.dropBody name).Keeps id bytes := by
  obtain ⟨own, hown, hfiles⟩ := h
  refine ⟨own, hown, ?_⟩
  intro files hmem
  rcases mem_cons.mp hmem with rfl | hmem
  · obtain ⟨kept, hkept, hbytes⟩ := hfiles d.bodies.now d.bodies.now_mem
    refine ⟨kept, ?_, hbytes⟩
    have hne : name ≠ own := by
      rintro rfl
      exact hother hown
    show (d.bodies.now.erase name)[own]? = _
    rw [getElem?_erase, if_neg (by rw [compare_eq_iff_eq]; exact hne)]
    exact hkept
  · exact hfiles files hmem

end

theorem keeps_of_put (hname : bodyName id = some name)
    (hbodies : d'.bodies = (d.putBody name text).bodies.sync) : d'.Keeps id (byteLen text) := by
  refine ⟨name, hname, ?_⟩
  intro files hmem
  rw [hbodies, Stored.values_sync, mem_singleton] at hmem
  rw [hmem]
  exact ⟨text, getElem?_insert_self, rfl⟩

theorem Intact.lost (h : d.Intact) (hlost : d.Lost d') : d'.Intact := by
  intro snapshot hsnapshot header hheader hkept
  have hnow : d'.snapshot.values = [d'.snapshot.now] := by rw [Stored.values, hlost.synced.1]
  rw [hnow, mem_singleton] at hsnapshot
  rw [hsnapshot] at hheader
  obtain ⟨name, hname, hfiles⟩ := h _ hlost.snapshot header hheader hkept
  refine ⟨name, hname, ?_⟩
  intro files hmem
  have hbodies : d'.bodies.values = [d'.bodies.now] := by rw [Stored.values, hlost.synced.2]
  rw [hbodies, mem_singleton] at hmem
  obtain ⟨left, hleft, hsame⟩ := hlost.bodies name
  rw [hmem, hsame]
  exact hfiles left hleft

end Disk

/-! ### Before the commit point -/

/-- The hold has not reached its rename: the snapshot is as it was. -/
structure Before (start d : Disk) : Prop where
  snapshot : d.snapshot = start.snapshot
  intact : d.Intact

/-- The bodies still to come are the only ones that are not in the directory yet. -/
structure Installing (start : Disk) (installs rest : List (MessageId × String)) (d : Disk) : Prop extends
    Before start d where
  done : ∀ install ∈ installs, install ∈ rest ∨ d.Keeps install.1 (byteLen install.2)

section

variable {start d d' : Disk} {installs rest : List (MessageId × String)} {name text : String} {id : MessageId}
  {P : Disk → Prop} {F : RecordError → Disk → Prop} {dropped : List MessageId} {h : Hold}

theorem Before.congr (h : Before start d) (hsnapshot : d'.snapshot = d.snapshot) (hbodies : d'.bodies = d.bodies) :
    Before start d' where
  snapshot := hsnapshot.trans h.snapshot
  intact snapshot hmem header hheader hkept :=
    (h.intact snapshot (hsnapshot ▸ hmem) header hheader hkept).congr hbodies

theorem Installing.congr (h : Installing start installs rest d) (hsnapshot : d'.snapshot = d.snapshot)
    (hbodies : d'.bodies = d.bodies) : Installing start installs rest d' where
  toBefore := h.toBefore.congr hsnapshot hbodies
  done install hmem := (h.done install hmem).imp_right fun hkeeps => hkeeps.congr hbodies

theorem Installing.putBody (h : Installing start installs rest d)
    (hfree : d.bodies.now.contains name = false) : Installing start installs rest (d.putBody name text) where
  snapshot := h.snapshot
  intact snapshot hmem header hheader hkept := (h.intact snapshot hmem header hheader hkept).putBody hfree
  done install hmem := (h.done install hmem).imp_right fun hkeeps => hkeeps.putBody hfree

theorem Installing.synced {put : Disk}
    (h : Installing start installs ((id, text) :: rest) d) (hname : bodyName id = some name)
    (hput : d.bodies = (put.putBody name text).bodies) (hsnapshot : d'.snapshot = d.snapshot)
    (hbodies : d'.bodies = d.bodies.sync) : Installing start installs rest d' where
  snapshot := hsnapshot.trans h.snapshot
  intact snapshot hmem header hheader hkept := (h.intact snapshot (hsnapshot ▸ hmem) header hheader hkept).sync hbodies
  done install hmem := by
    rcases h.done install hmem with hrest | hkeeps
    · rcases mem_cons.mp hrest with rfl | hrest
      · exact .inr (Disk.keeps_of_put hname (hbodies.trans (congrArg Stored.sync hput)))
      · exact .inl hrest
    · exact .inr (hkeeps.sync hbodies)

section

variable (hP : ∀ d, P d → Before start d)

include hP

theorem meets_operation {error : RecordError} {change : Disk → Disk} (hchange : ∀ d, P d → P (change d)) :
    Meets P (Program.operation error change) (fun _ => P) (fun _ => Before start) (Before start) :=
  Meets.operation hchange hP hP

theorem meets_attempt {boundary : String} :
    Meets P (attempt boundary) (fun _ => P) (fun _ => Before start) (Before start) :=
  meets_operation hP fun _ => id

theorem meets_observe {point : Point} : Meets P (observe point) (fun _ => P) (fun _ => Before start) (Before start) :=
  meets_operation hP fun _ => id

end

/-- An install under a free name is done when it returns; under a taken name it changes nothing. -/
theorem meets_installOnce (hname : bodyName id = some name) :
    Meets (Installing start installs ((id, text) :: rest)) (installOnce name text)
      (fun created d => if created then Installing start installs rest d else Before start d) (fun _ => Before start)
      (Before start) := by
  have hbefore (d : Disk) : Installing start installs ((id, text) :: rest) d → Before start d := Installing.toBefore
  refine Meets.bind (meets_operation hbefore fun d h => h.congr rfl rfl) fun _ => ?_
  refine Meets.bind (meets_attempt hbefore) fun _ => ?_
  refine Meets.bind (meets_attempt hbefore) fun _ => ?_
  refine Meets.bind (Meets.look (Q := fun seen d => seen = d ∧ Installing start installs ((id, text) :: rest) d) fun d h => ⟨rfl, h⟩) fun seen => ?_
  cases htaken : seen.bodies.now.contains name with
  | true =>
    rw [if_pos rfl]
    refine Meets.bind (Q := fun _ => Before start) (Meets.operation ?_ ?_ ?_) fun _ => Meets.ret fun _ h => h
    · intro d h
      exact h.2.toBefore.congr rfl rfl
    · intro d h
      exact h.2.toBefore
    · intro d h
      exact h.2.toBefore
  | false =>
    rw [if_neg Bool.false_ne_true]
    -- the file has its name, and is not synced yet
    have hput : Meets (fun d => seen = d ∧ Installing start installs ((id, text) :: rest) d)
        (Program.operation (RecordError.io "name-installed") fun d => d.putBody name text)
        (fun _ d => d.bodies = (seen.putBody name text).bodies ∧ Installing start installs ((id, text) :: rest) d)
        (fun _ => Before start) (Before start) := by
      apply Meets.operation
      · rintro d ⟨rfl, h⟩
        exact ⟨rfl, h.putBody htaken⟩
      · intro d h
        exact h.2.toBefore
      · intro d h
        exact h.2.toBefore
    refine Meets.bind hput fun _ => ?_
    refine Meets.bind (meets_operation (fun d h => h.2.toBefore) fun d h => ⟨h.1, h.2.congr rfl rfl⟩) fun _ => ?_
    refine Meets.bind (Q := fun _ => Installing start installs rest) (Meets.operation ?_ ?_ ?_) fun _ => Meets.ret fun _ h => h
    · intro d h
      exact h.2.synced hname h.1 rfl rfl
    · intro d h
      exact h.2.toBefore
    · intro d h
      exact h.2.toBefore

theorem meets_installBody :
    Meets (Installing start installs ((id, text) :: rest)) (installBody id text) (fun _ => Installing start installs rest)
      (fun _ => Before start) (Before start) := by
  rw [installBody]
  cases hname : bodyName id with
  | none => exact Meets.fail fun d h => h.toBefore
  | some name =>
    refine Meets.bind (meets_installOnce hname) fun created => ?_
    cases created with
    | true => exact Meets.require (fun d h _ => h) nofun
    | false => exact Meets.require nofun fun d h _ => h

theorem meets_installs : Meets (Installing start installs installs)
      (Program.each (fun install => installBody install.1 install.2 >>= fun _ => observe .bodyInstalled) installs)
      (fun _ => Installing start installs []) (fun _ => Before start) (Before start) :=
  Meets.each (I := Installing start installs) (fun _ _ =>
    Meets.bind meets_installBody fun _ => meets_observe fun _ h => h.toBefore) installs

/-! ### From the commit point on -/

/-- The hold reached its rename: its state is the snapshot. -/
structure Committed (start : Disk) (s : MailboxState) (d : Disk) : Prop where
  now : d.snapshot.now = some s
  values : d.snapshot.values ⊆ some s :: start.snapshot.values
  intact : d.Intact

/-- The directory is synced after the rename, so no power loss brings an older snapshot back. -/
structure Synced (s : MailboxState) (d : Disk) : Prop where
  snapshot : d.snapshot = ⟨some s, []⟩
  holds : d.Holds s

/-- No file is left that no kept body names. -/
structure Tidy (s : MailboxState) (d : Disk) : Prop where
  bodies : ∀ name, d.bodies.now.contains name = true → ∃ h ∈ s.messages, h.bodyKept = true ∧ bodyName h.id = some name
  bodyTemps : d.bodyTemps = 0
  recordTemps : d.recordTemps = 0

variable {s : MailboxState}

theorem Synced.committed (h : Synced s d) : Committed start s d where
  now := by rw [h.snapshot]
  values := by
    rw [h.snapshot]
    exact cons_subset_cons _ (nil_subset _)
  intact snapshot hmem := by
    rw [h.snapshot] at hmem
    rw [mem_singleton.mp hmem]
    exact h.holds

theorem Committed.sync (h : Committed start s d) : Synced s { d with snapshot := d.snapshot.sync } where
  snapshot := by rw [Stored.sync, h.now]
  holds := by
    show d.Holds s
    exact h.intact (some s) (h.now ▸ d.snapshot.now_mem)

theorem Installing.holds (h : Installing start installs [] d) (hbacked : Backed installs start.state s) : d.Holds s := by
  intro header hheader hkept
  rcases hbacked.old_or_new header hheader hkept with ⟨old, hold, holdkept, hid, hbytes⟩ | ⟨text, htext, hbytes⟩
  · rw [← hid, ← hbytes]
    exact h.intact _ (h.snapshot ▸ start.snapshot.now_mem) old hold holdkept
  · rw [← hbytes]
    exact (h.done _ htext).resolve_left not_mem_nil

theorem Before.rename (h : Before start d) (hholds : d.Holds s) : Committed start s (d.rename s) where
  now := rfl
  values := by
    rw [← h.snapshot]
    exact List.Subset.refl _
  intact snapshot hmem := by
    rcases mem_cons.mp hmem with rfl | hmem
    · exact hholds
    · exact h.intact snapshot hmem

theorem meets_installSnapshot (hbacked : Backed installs start.state s) :
    Meets (Installing start installs []) (installSnapshot s)
      (fun warning d => Committed start s d ∧ (warning = none → Synced s d)) (fun _ => Before start)
      (fun d => Before start d ∨ Committed start s d) := by
  have hbefore (d : Disk) : Installing start installs [] d → Before start d := Installing.toBefore
  have hearly {error : RecordError} {change : Disk → Disk}
      (h : ∀ d, Installing start installs [] d → Installing start installs [] (change d)) :
      Meets (Installing start installs []) (Program.operation error change) (fun _ => Installing start installs [])
        (fun _ => Before start) (fun d => Before start d ∨ Committed start s d) :=
    (meets_operation hbefore h).mono (fun _ h => h) (fun _ _ h => h) (fun _ _ h => h) fun _ => .inl
  refine Meets.bind (hearly fun d h => h.congr rfl rfl) fun _ => ?_
  refine Meets.bind (hearly fun d h => h) fun _ => ?_
  refine Meets.bind (hearly fun d h => h) fun _ => ?_
  refine Meets.bind (hearly fun d h => h) fun _ => ?_
  refine Meets.bind (hearly fun d h => h) fun _ => ?_
  refine Meets.bind (Q := fun _ => Committed start s) (Meets.operation ?_ ?_ ?_) fun _ => ?_
  · intro d h
    exact h.toBefore.rename (h.holds hbacked)
  · intro d h
    exact h.toBefore
  · intro d h
    exact .inl h.toBefore
  -- past the rename a failure is a warning
  have hlate : Meets (Committed start s)
      (Program.caught (observe .renamed >>= fun _ =>
        Program.operation (RecordError.io "parent-fsync") (fun d => { d with snapshot := d.snapshot.sync }) >>= fun _ =>
          observe .directorySynced) : Program Disk RecordError (Except RecordError Unit))
      (fun synced d => Committed start s d ∧ (synced = .ok () → Synced s d)) (fun _ => Before start)
      (fun d => Before start d ∨ Committed start s d) := by
    apply Meets.caught
    refine Meets.bind (Q := fun _ => Committed start s) (Meets.operation ?_ ?_ ?_) fun _ => ?_
    · intro d h
      exact h
    · intro d h
      exact ⟨h, fun hok => by cases hok⟩
    · intro d h
      exact .inr h
    refine Meets.bind (Q := fun _ => Synced s) (Meets.operation ?_ ?_ ?_) fun _ => Meets.operation ?_ ?_ ?_
    · intro d h
      exact h.sync
    · intro d h
      exact ⟨h, fun hok => by cases hok⟩
    · intro d h
      exact .inr h
    · intro d h
      exact ⟨h.committed, fun _ => h⟩
    · intro d h
      exact ⟨h.committed, fun hok => by cases hok⟩
    · intro d h
      exact .inr h.committed
  refine Meets.bind hlate fun synced => Meets.ret ?_
  rintro d ⟨hcommitted, hsynced⟩
  refine ⟨hcommitted, ?_⟩
  intro hnone
  cases synced with
  | ok _ => exact hsynced rfl
  | error error => cases hnone

/-! ### Collection -/

/-- What holds after a file was to be removed, whether that failed or not. -/
def AfterUnlink (I : List String → Collected → Disk → Prop) (names : List String) (collected : Collected) :
    Except RecordError Unit → Disk → Prop
  | .ok _, d => ∀ counted : Collected, counted.failed = collected.failed → I names counted d
  | .error _, d => I names { collected with failed := collected.failed + 1 } d

theorem meets_unlinkAll {remove : String → Disk → Disk} {isThere : String → Disk → Bool}
    {I : List String → Collected → Disk → Prop} {F : RecordError → Disk → Prop} {S : Disk → Prop}
    (hworks : ∀ name names collected d, I (name :: names) collected d →
      ∀ counted : Collected, counted.failed = collected.failed → I names counted (remove name d))
    (hfails : ∀ name names collected d, I (name :: names) collected d →
      I names { collected with failed := collected.failed + 1 } d)
    (hstops : ∀ names collected d, I names collected d → S d) (names : List String) (collected : Collected) :
    Meets (I names collected) (unlinkAll remove isThere names collected) (fun counted => I [] counted) F S := by
  induction names generalizing collected with
  | nil => exact Meets.ret fun _ h => h
  | cons name names ih =>
    rw [unlinkAll]
    refine Meets.bind (Meets.look (Q := fun _ => I (name :: names) collected) fun _ h => h) fun seen => ?_
    refine Meets.bind (Meets.caught (Q := AfterUnlink I names collected)
      (Meets.operation (hworks name names collected) (hfails name names collected) (hstops _ collected))) fun removed => ?_
    cases removed with
    | ok _ =>
      refine (ih _).weaken fun d h => h _ ?_
      split <;> rfl
    | error _ => exact ih _

theorem Synced.dropBody (h : Synced s d)
    (hother : ∀ header ∈ s.messages, header.bodyKept = true → bodyName header.id ≠ some name) : Synced s (d.dropBody name) where
  snapshot := h.snapshot
  holds header hheader hkept := (h.holds header hheader hkept).dropBody (hother header hheader hkept)

theorem mem_referenced : id ∈ referenced s ↔ ∃ h ∈ s.messages, h.bodyKept = true ∧ h.id = id := by
  simp only [referenced, List.mem_map, mem_filter, and_assoc]

/-- The state of a sweep: what is left to delete, unless a deletion failed. -/
structure Sweeping (s : MailboxState) (recordTemps bodyTemps : ℕ) (names : List String) (collected : Collected) (d : Disk) :
    Prop extends Synced s d where
  other : ∀ name ∈ names, ∀ header ∈ s.messages, header.bodyKept = true → bodyName header.id ≠ some name
  left : collected.failed = 0 → d.recordTemps = recordTemps ∧ d.bodyTemps = bodyTemps ∧
    ∀ name, d.bodies.now.contains name = true →
      name ∈ names ∨ ∃ h ∈ s.messages, h.bodyKept = true ∧ bodyName h.id = some name

variable {recordTemps bodyTemps : ℕ} {names : List String} {collected counted : Collected}

theorem Sweeping.failed {recordTemps' bodyTemps' : ℕ} {names' : List String}
    (h : Sweeping s recordTemps bodyTemps names collected d) (hnames : names' ⊆ names) :
    Sweeping s recordTemps' bodyTemps' names' { collected with failed := collected.failed + 1 } d where
  toSynced := h.toSynced
  other name hmem := h.other name (hnames hmem)
  left hnone := absurd hnone (Nat.succ_ne_zero _)

theorem Sweeping.recordTemp (h : Sweeping s (recordTemps + 1) bodyTemps names collected d)
    (hcounted : counted.failed = collected.failed) :
    Sweeping s recordTemps bodyTemps names counted { d with recordTemps := d.recordTemps - 1 } where
  snapshot := h.snapshot
  holds := h.holds
  other := h.other
  left hnone := by
    obtain ⟨hrecord, hbody, hrest⟩ := h.left (hcounted ▸ hnone)
    exact ⟨by rw [hrecord]; rfl, hbody, hrest⟩

theorem Sweeping.bodyTemp (h : Sweeping s recordTemps (bodyTemps + 1) names collected d)
    (hcounted : counted.failed = collected.failed) :
    Sweeping s recordTemps bodyTemps names counted { d with bodyTemps := d.bodyTemps - 1 } where
  snapshot := h.snapshot
  holds := h.holds
  other := h.other
  left hnone := by
    obtain ⟨hrecord, hbody, hrest⟩ := h.left (hcounted ▸ hnone)
    exact ⟨hrecord, by rw [hbody]; rfl, hrest⟩

theorem Sweeping.body (h : Sweeping s recordTemps bodyTemps (name :: names) collected d)
    (hcounted : counted.failed = collected.failed) :
    Sweeping s recordTemps bodyTemps names counted (d.dropBody name) where
  toSynced := h.toSynced.dropBody (h.other name mem_cons_self)
  other other hmem := h.other other (mem_cons_of_mem name hmem)
  left hnone := by
    obtain ⟨hrecord, hbody, hrest⟩ := h.left (hcounted ▸ hnone)
    refine ⟨hrecord, hbody, ?_⟩
    intro other hother
    replace hother : (d.bodies.now.erase name).contains other = true := hother
    rw [contains_erase, Bool.and_eq_true, bne_iff_ne, ne_eq, compare_eq_iff_eq] at hother
    rcases hrest other hother.2 with hmem | hkept
    · rcases mem_cons.mp hmem with rfl | hmem
      · exact absurd rfl hother.1
      · exact .inl hmem
    · exact .inr hkept

theorem Sweeping.tidy (h : Sweeping s 0 0 [] collected d) (hnone : collected.failed = 0) : Tidy s d := by
  obtain ⟨hrecord, hbody, hrest⟩ := h.left hnone
  refine ⟨?_, hbody, hrecord⟩
  intro name hname
  exact (hrest name hname).resolve_left not_mem_nil

theorem meets_unlinkTemps {remove : Disk → Disk} {I : ℕ → Collected → Disk → Prop} {S : Disk → Prop}
    (hworks : ∀ count collected d, I (count + 1) collected d →
      ∀ counted : Collected, counted.failed = collected.failed → I count counted (remove d))
    (hfails : ∀ count collected d, I (count + 1) collected d → I count { collected with failed := collected.failed + 1 } d)
    (hstops : ∀ count collected d, I count collected d → S d) (count : ℕ) (collected : Collected) :
    Meets (I count collected) (unlinkTemps remove count collected) (fun counted => I 0 counted) F S := by
  have h := @meets_unlinkAll (fun _ => remove) (fun _ _ => true) (fun names => I names.length) F S (fun _ names => hworks names.length) (fun _ names => hfails names.length)
    (fun names => hstops names.length) (List.replicate count "") collected
  rwa [length_replicate] at h

theorem meets_unlinkBodies {names : List String}
    (hother : ∀ name ∈ names, ∀ header ∈ s.messages, header.bodyKept = true → bodyName header.id ≠ some name)
    (collected : Collected) : Meets (Synced s) (unlinkBodies names collected) (fun _ => Synced s) F (Synced s) := by
  have h := @meets_unlinkAll (fun name d => d.dropBody name) (fun name d => d.bodies.now.contains name)
    (fun names _ d => Synced s d ∧
      ∀ name ∈ names, ∀ header ∈ s.messages, header.bodyKept = true → bodyName header.id ≠ some name)
    F (Synced s) ?_ ?_ ?_ names collected
  · exact h.mono (fun d hd => ⟨hd, hother⟩) (fun _ _ h => h.1) (fun _ _ h => h) fun _ h => h
  · intro name names _ d hd _ _
    exact ⟨hd.1.dropBody (hd.2 name mem_cons_self), fun other hmem => hd.2 other (mem_cons_of_mem name hmem)⟩
  · intro name names _ d hd
    exact ⟨hd.1, fun other hmem => hd.2 other (mem_cons_of_mem name hmem)⟩
  · intro _ _ d hd
    exact hd.1

/-- A collection deletes no kept body; a sweep that came to its end with no failed deletion leaves only those. -/
theorem meets_collect {sweep : Bool} (hdropped : ∀ id ∈ dropped, id ∉ referenced s) :
    Meets (Synced s) (collect dropped sweep (referenced s))
      (fun r d => Synced s d ∧ (r.2 = true → sweep = true → r.1.failed = 0 → Tidy s d)) F (Synced s) := by
  refine Meets.bind (Q := fun _ => Synced s) (Meets.caught (Meets.operation ?_ ?_ ?_)) fun opened => ?_
  · exact fun _ h => h
  · exact fun _ h => h
  · exact fun _ h => h
  cases opened with
  | error error => exact Meets.ret fun d h => ⟨h, fun hended => by cases hended⟩
  | ok _ =>
    refine Meets.bind (meets_unlinkBodies ?_ _) fun collected => ?_
    · intro name hname header hheader hkept hsame
      obtain ⟨id, hid, hidname⟩ := mem_filterMap.mp hname
      have heq := bodyName_inj hidname hsame
      exact hdropped id hid (mem_referenced.mpr ⟨header, hheader, hkept, heq.symm⟩)
    cases sweep with
    | false =>
      rw [if_neg Bool.false_ne_true]
      exact Meets.ret fun d h => ⟨h, fun _ hsweep => by cases hsweep⟩
    | true =>
      rw [if_pos rfl]
      refine Meets.bind (Q := fun _ => Synced s) (Meets.caught (Meets.operation ?_ ?_ ?_)) fun listed => ?_
      · exact fun _ h => h
      · exact fun _ h => h
      · exact fun _ h => h
      cases listed with
      | error error => exact Meets.ret fun d h => ⟨h, fun hended => by cases hended⟩
      | ok _ =>
        refine Meets.bind (Meets.look (Q := fun seen d => seen = d ∧ Synced s d) fun d h => ⟨rfl, h⟩) fun seen => ?_
        dsimp only
        generalize hnames : (seen.bodies.now.keys.filter fun name =>
          !((referenced s).filterMap bodyName).contains name) = names
        have hstart (d : Disk) (h : seen = d ∧ Synced s d) :
            Sweeping s seen.recordTemps seen.bodyTemps names collected d := by
          obtain ⟨rfl, hsynced⟩ := h
          refine ⟨hsynced, ?_, fun _ => ⟨rfl, rfl, ?_⟩⟩
          · intro name hname header hheader hkept hsame
            rw [← hnames, mem_filter, Bool.not_eq_true'] at hname
            have hmem : name ∈ (referenced s).filterMap bodyName :=
              mem_filterMap.mpr ⟨header.id, mem_referenced.mpr ⟨header, hheader, hkept, rfl⟩, hsame⟩
            rw [contains_iff_mem.mpr hmem] at hname
            cases hname.2
          · intro name hname
            by_cases hmem : name ∈ (referenced s).filterMap bodyName
            · obtain ⟨id, hid, hidname⟩ := mem_filterMap.mp hmem
              obtain ⟨header, hheader, hkept, rfl⟩ := mem_referenced.mp hid
              exact .inr ⟨header, hheader, hkept, hidname⟩
            · left
              rw [← hnames, mem_filter, Std.ExtTreeMap.mem_keys, Bool.not_eq_true', ← Bool.not_eq_true,
                List.contains_iff_mem]
              exact ⟨hname, hmem⟩
        refine Meets.bind ((meets_unlinkTemps (I := fun count => Sweeping s count seen.bodyTemps names)
          (fun _ _ _ h _ => h.recordTemp) (fun _ _ _ h => h.failed (List.Subset.refl _))
          (fun _ _ _ h => h.toSynced) seen.recordTemps collected).weaken hstart) fun collected => ?_
        refine Meets.bind (meets_unlinkTemps (I := fun count => Sweeping s 0 count names)
          (fun _ _ _ h _ => h.bodyTemp) (fun _ _ _ h => h.failed (List.Subset.refl _))
          (fun _ _ _ h => h.toSynced) seen.bodyTemps collected) fun collected => ?_
        refine Meets.bind (meets_unlinkAll (I := fun names => Sweeping s 0 0 names) (fun _ _ _ _ h _ => h.body)
          (fun _ _ _ _ h => h.failed (subset_cons_self _ _)) (fun _ _ _ h => h.toSynced) names collected)
          fun collected => Meets.ret fun d h => ?_
        exact ⟨h.toSynced, fun _ _ hnone => h.tidy hnone⟩

/-! ### The hold -/

/-- Whether a hold came to its end with nothing left undone. -/
def Held.complete (held : Held) : Bool := held.wrote && held.warning.isNone && held.collected.failed == 0

/-- What a hold that returned leaves. -/
structure Returned (start : Disk) (h : Hold) (held : Held) (d : Disk) : Prop where
  unwritten : held.wrote = false → Before start d
  written : held.wrote = true → Committed start (h.next start.state) d
  tidy : h.change.sweeps = true → held.complete = true → Tidy (h.next start.state) d

theorem Returned.of_wrote {held : Held} (hwrote : held.wrote = true)
    (hcommitted : Committed start (h.next start.state) d)
    (htidy : h.change.sweeps = true → held.complete = true → Tidy (h.next start.state) d) : Returned start h held d where
  unwritten hnot := by
    rw [hwrote] at hnot
    cases hnot
  written _ := hcommitted
  tidy := htidy

theorem meets_finishHold {answers : List Answer}
    (hdropped : ∀ id ∈ dropped, id ∉ referenced (h.next start.state)) (warning : Option Point) :
    Meets (fun d => Committed start (h.next start.state) d ∧ (warning = none → Synced (h.next start.state) d))
      (finishHold answers dropped (referenced (h.next start.state)) h.change.sweeps warning) (Returned start h) F
      (Committed start (h.next start.state)) := by
  cases warning with
  | some point =>
    refine Meets.ret fun d hd => .of_wrote rfl hd.1 ?_
    intro _ hcomplete
    cases hcomplete
  | none =>
    apply Meets.bind
    · exact (meets_collect hdropped).mono (fun d hd => hd.2 rfl) (fun _ _ hd => hd) (fun _ _ hd => hd)
        fun _ hd => hd.committed
    intro r
    obtain ⟨collected, ended⟩ := r
    have hleft (point : Point) (d : Disk) (hd : Synced (h.next start.state) d) :
        Returned start h ⟨answers, true, some point, collected⟩ d := by
      refine .of_wrote rfl hd.committed ?_
      intro _ hcomplete
      cases hcomplete
    cases ended with
    | false => exact Meets.ret fun d hd => hleft .collected d hd.1
    | true =>
      have hobserve : Meets (fun d => Synced (h.next start.state) d ∧
          (true = true → h.change.sweeps = true → collected.failed = 0 → Tidy (h.next start.state) d))
          (Program.caught (observe .collected) : Program Disk RecordError (Except RecordError Unit))
          (fun observed d => Synced (h.next start.state) d ∧
            (h.change.sweeps = true → collected.failed = 0 → Tidy (h.next start.state) d)) F
          (Committed start (h.next start.state)) := by
        refine Meets.caught (Meets.operation ?_ ?_ ?_)
        · exact fun d hd => ⟨hd.1, hd.2 rfl⟩
        · exact fun d hd => ⟨hd.1, hd.2 rfl⟩
        · exact fun d hd => hd.1.committed
      refine Meets.bind hobserve fun observed => ?_
      cases observed with
      | error error => exact Meets.ret fun d hd => hleft .collected d hd.1
      | ok _ =>
        refine Meets.ret fun d hd => .of_wrote rfl hd.1.committed ?_
        intro hsweeps hcomplete
        rw [Held.complete, Bool.and_eq_true, Bool.and_eq_true] at hcomplete
        exact hd.2 hsweeps (beq_iff_eq.mp hcomplete.2)

/-- What a hold leaves, wherever it ends. -/
theorem meets_run (encoding : Encoding) (h : Hold) (hstart : start.Intact) :
    Meets (fun d => d = start) (run encoding h) (Returned start h) (fun _ => Before start)
      (fun d => Before start d ∨ Committed start (h.next start.state) d) := by
  have hbefore (d : Disk) (hd : d = start) : Before start d := by
    subst hd
    exact ⟨rfl, hstart⟩
  have hearly {error : RecordError} : Meets (fun d => d = start) (Program.operation error (fun d : Disk => d))
      (fun _ d => d = start) (fun _ => Before start)
      (fun d => Before start d ∨ Committed start (h.next start.state) d) :=
    Meets.operation (fun _ hd => hd) hbefore fun d hd => .inl (hbefore d hd)
  have hrequire {error : RecordError} {c : Bool} : Meets (fun d => d = start) (Program.require error c)
      (fun _ d => d = start) (fun _ => Before start)
      (fun d => Before start d ∨ Committed start (h.next start.state) d) :=
    Meets.require (fun _ hd _ => hd) fun d hd _ => hbefore d hd
  refine Meets.bind hearly fun _ => ?_
  refine Meets.bind hearly fun _ => ?_
  refine Meets.bind hearly fun _ => ?_
  refine Meets.bind hearly fun _ => Meets.bind_look ?_
  refine Meets.bind hrequire fun _ => ?_
  refine Meets.bind hearly fun _ => ?_
  refine Meets.bind hearly fun _ => ?_
  refine Meets.bind hearly fun _ => ?_
  by_cases hchanged : (h.mutate start.state).changed = true
  · rw [if_pos hchanged]
    refine Meets.bind hearly fun _ => ?_
    refine Meets.bind hrequire fun _ => ?_
    refine Meets.bind hearly fun _ => ?_
    -- every body is still to come
    apply Meets.bind
    · exact meets_installs.mono (fun d hd => ⟨hbefore d hd, fun _ hmem => .inl hmem⟩) (fun _ _ hd => hd)
        (fun _ _ hd => hd) fun d hd => .inl hd
    intro _
    refine Meets.bind (meets_installSnapshot (Backed.next h start.state)) fun warning => ?_
    refine (meets_finishHold ?_ warning).mono (fun _ hd => hd) (fun _ _ hd => hd) (fun _ _ hd => hd) fun _ hd => .inr hd
    intro id hid hkept
    rw [mem_filter, contains_iff_mem.mpr hkept] at hid
    cases hid.2
  · rw [if_neg hchanged]
    refine Meets.ret fun d hd => ⟨fun _ => hbefore d hd, ?_, ?_⟩
    · intro hwrote
      cases hwrote
    · intro _ hcomplete
      cases hcomplete

end

end Forgent.Mailbox.Record
