import Forgent.RunAdmission
import Mathlib.Data.List.Pairwise

/-!
# What a step of an admission keeps

How the files of an assignment may change, what is known of each call at each of its steps, and that every step keeps it.
-/

namespace Forgent.Admission

open List Option

/-! ### Attempt numbers -/

theorem padded_ne_repr {a b : ℕ} (ha : a < 10) (hb : 10 ≤ b) : "0" ++ a.repr ≠ b.repr := by
  intro h
  have hlength := congrArg String.length h
  rw [String.length_append] at hlength
  have hone : a.repr.length ≤ 1 := (Nat.length_repr_le_iff (by omega)).mpr ha
  have htwo : b < 100 := (Nat.length_repr_le_iff (k := 2) (by omega)).mp (by rw [← hlength, show "0".length = 1 from rfl]; omega)
  have hall : ∀ b < 100, 10 ≤ b → ∀ a < 10, "0" ++ Nat.repr a ≠ Nat.repr b := by decide
  exact hall b htwo hb a ha h

theorem attemptStr_injective {a b : ℕ} (h : attemptStr a = attemptStr b) : a = b := by
  unfold attemptStr at h
  split at h
  · next ha =>
    split at h
    · exact Nat.repr_injective ((String.append_right_inj _).mp h)
    · next hb => exact absurd h (padded_ne_repr ha (Nat.le_of_not_lt hb))
  · next ha =>
    split at h
    · next hb => exact absurd h.symm (padded_ne_repr hb (Nat.le_of_not_lt ha))
    · exact Nat.repr_injective h

theorem runIdOf_injective {assignmentId a b : String} (h : runIdOf assignmentId a = runIdOf assignmentId b) : a = b :=
  (String.append_right_inj _).mp h

theorem le_nextFree (taken : List ℕ) (fuel attempt : ℕ) : attempt ≤ nextFree taken fuel attempt := by
  induction fuel generalizing attempt with
  | zero => exact Nat.le_refl attempt
  | succ fuel ih =>
    unfold nextFree
    split
    · exact Nat.le_trans (Nat.le_succ attempt) (ih (attempt + 1))
    · exact Nat.le_refl attempt

theorem le_foldl_max (l : List ℕ) (start : ℕ) : start ≤ l.foldl max start ∧ ∀ n ∈ l, n ≤ l.foldl max start := by
  induction l generalizing start with
  | nil => exact ⟨Nat.le_refl start, fun n hn => by cases hn⟩
  | cons a l ih =>
    obtain ⟨hstart, hall⟩ := ih (max start a)
    refine ⟨Nat.le_trans (Nat.le_max_left start a) hstart, fun n hn => ?_⟩
    cases mem_cons.mp hn with
    | inl heq =>
      rw [heq]
      exact Nat.le_trans (Nat.le_max_right start a) hstart
    | inr hrest => exact hall n hrest

variable {listed : List Record} {g : Record} {n : String} {f : RunDir → RunDir}

theorem lt_attemptNumber (input : Input) (hg : g ∈ listed) : g.attempt < attemptNumber input listed := by
  have hmax := (le_foldl_max (input.listed ++ listed.map (·.attempt)) 0).2 g.attempt
    (mem_append_right _ (List.mem_map_of_mem hg))
  have hfree := le_nextFree input.taken input.taken.length
    (max (listed.length + 1) ((input.listed ++ listed.map (·.attempt)).foldl max 0 + 1))
  show g.attempt < nextFree _ _ _
  omega

/-! ### How the files change -/

/-- A run directory changes without being taken up. -/
structure Calm (d d' : Option RunDir) : Prop where
  result : d.any (·.result) = true → d'.any (·.result) = true
  control : ∀ c', d'.bind (·.control) = some c' → c'.settled = true ∨ d.bind (·.control) = some c'
  kept : d'.bind (·.control) = none → d.bind (·.control) = none
  released : ∀ epoch, d.any (fun d => epoch ∈ d.released) = true → d'.any (fun d => epoch ∈ d.released) = true
  supervisor : d'.bind (·.supervisor) = some true → d.bind (·.supervisor) = some true

theorem Calm.refl (d : Option RunDir) : Calm d d where
  result h := h
  control _ h := .inr h
  kept h := h
  released _ h := h
  supervisor h := h

/-- What every step and every event respects. -/
structure Later (s s' : Disk) : Prop where
  generations : s.generations <+: s'.generations
  stamp : s.stamp ≤ s'.stamp
  dead : ∀ p, s.dead p = true → s'.dead p = true
  takeups : ∀ n, s.takeups n ≤ s'.takeups n
  calm : ∀ n, s'.takeups n = s.takeups n → Calm (s.runs n) (s'.runs n)

theorem Later.refl (s : Disk) : Later s s where
  generations := prefix_refl _
  stamp := Nat.le_refl _
  dead _ h := h
  takeups _ := Nat.le_refl _
  calm _ _ := Calm.refl _

theorem runs_setRun (s : Disk) (n n' : String) (d : RunDir) : (s.setRun n d).runs n' = if n' = n then some d else s.runs n' := rfl

variable {s : Disk}

theorem Later.changeRun (h : ∀ d, Calm (some d) (some (f d))) : Later s (s.changeRun n f) := by
  unfold Disk.changeRun
  split
  · exact Later.refl s
  · next d hd =>
    refine ⟨prefix_refl _, Nat.le_refl _, fun _ hdead => hdead, fun _ => Nat.le_refl _, fun n' _ => ?_⟩
    rw [runs_setRun]
    split
    · next heq => exact heq ▸ hd ▸ h d
    · exact Calm.refl _

theorem Later.takeUp : Later s (s.takeUp n f) := by
  unfold Disk.takeUp
  split
  · exact Later.refl s
  · next d hd =>
    refine ⟨prefix_refl _, Nat.le_refl _, fun _ hdead => hdead, fun n' => ?_, fun n' hsame => ?_⟩
    · show s.takeups n' ≤ if n' = n then s.takeups n' + 1 else s.takeups n'
      split <;> omega
    · show Calm (s.runs n') (if n' = n then some (f d) else s.runs n')
      have hsame' : (if n' = n then s.takeups n' + 1 else s.takeups n') = s.takeups n' := hsame
      split at hsame'
      · omega
      · next hne =>
        rw [if_neg hne]
        exact Calm.refl _

theorem Later.happen (s : Disk) (event : Event) : Later s (s.happen event) := by
  cases event with
  | ends process =>
    refine ⟨prefix_refl _, Nat.le_refl _, fun p hp => ?_, fun _ => Nat.le_refl _, fun _ _ => Calm.refl _⟩
    show (decide (p = process) || s.dead p) = true
    rw [hp, Bool.or_true]
  | abort retryId =>
    exact ⟨prefix_refl _, Nat.le_refl _, fun _ hp => hp, fun _ => Nat.le_refl _, fun _ _ => Calm.refl _⟩
  | rewrite n built => exact Later.changeRun fun d => ⟨fun h => h, fun _ h => .inr h, fun h => h, fun _ h => h, fun h => h⟩
  | take n holder | start n => exact Later.takeUp
  | release n =>
    refine Later.changeRun fun d => ⟨fun h => h, fun _ h => .inr h, fun h => h, fun epoch h => ?_, fun h => h⟩
    show decide (epoch ∈ (releaseControl d).released) = true
    have hold : epoch ∈ d.released := of_decide_eq_true h
    unfold releaseControl
    cases d.control with
    | none => exact decide_eq_true hold
    | some c => exact decide_eq_true (mem_cons_of_mem _ hold)
  | settle n =>
    refine Later.changeRun fun d => ⟨fun h => h, fun c' h => .inl ?_, fun h => ?_, fun _ h => h, fun h => h⟩
    · obtain ⟨c, -, rfl⟩ := map_eq_some_iff.mp h
      rfl
    · exact map_eq_none_iff.mp h
  | result n => exact Later.changeRun fun d => ⟨fun _ => rfl, fun _ h => .inr h, fun h => h, fun _ h => h, fun h => h⟩
  | stop n =>
    refine Later.changeRun fun d => ⟨fun h => h, fun _ h => .inr h, fun h => h, fun _ h => h, fun h => ?_⟩
    obtain ⟨w, -, hw⟩ := map_eq_some_iff.mp h
    cases hw

/-! ### Busy attempts -/

/-- The control of an attempt is held by a live process. -/
def Disk.Held (s : Disk) (g : Record) : Prop :=
  ∃ c, s.control g = some c ∧ c.settled = false ∧ s.released g c.controlEpoch = false ∧ s.dead c.holder = false

def Disk.Working (s : Disk) (g : Record) : Prop := (s.runs g.attemptStr).bind (·.supervisor) = some true

def Disk.Settled (s : Disk) (g : Record) : Prop := (s.runs g.attemptStr).any (·.result) = true

/-- An unsettled attempt with a live controller, a supervisor at work or, as long as it never had a controller, a live
admitter. -/
def Disk.Busy (s : Disk) (g : Record) : Prop :=
  ¬s.Settled g ∧ (s.Held g ∨ s.Working g ∨ (s.control g = none ∧ s.dead g.admittedBy = false))

/-- No live controller holds an attempt, and without one its admitter is gone. -/
def Disk.Free (s : Disk) (g : Record) : Prop := ¬s.Held g ∧ (s.control g = none → s.dead g.admittedBy = true)

theorem Disk.Free.not_busy (h : s.Free g) (hstopped : ¬s.Working g) : ¬s.Busy g := by
  intro hbusy
  rcases hbusy.2 with hheld | hworking | ⟨hnone, hadmitter⟩
  · exact h.1 hheld
  · exact hstopped hworking
  · rw [h.2 hnone] at hadmitter
    cases hadmitter

namespace Later

variable {s s' : Disk} {g : Record}

theorem settled (h : Later s s') (hsame : s'.takeups g.attemptStr = s.takeups g.attemptStr) (hs : s.Settled g) : s'.Settled g :=
  (h.calm _ hsame).result hs

theorem held (h : Later s s') (hsame : s'.takeups g.attemptStr = s.takeups g.attemptStr) (hs' : s'.Held g) : s.Held g := by
  obtain ⟨c, hc, hsettled, hreleased, hdead⟩ := hs'
  have hcalm := h.calm _ hsame
  refine ⟨c, ?_, hsettled, ?_, ?_⟩
  · cases hcalm.control c hc with
    | inl hbad =>
      rw [hsettled] at hbad
      cases hbad
    | inr hold => exact hold
  · refine Bool.eq_false_iff.mpr fun hrel => ?_
    have hrel' : s'.released g c.controlEpoch = true := hcalm.released _ hrel
    rw [hreleased] at hrel'
    cases hrel'
  · refine Bool.eq_false_iff.mpr fun hgone => ?_
    rw [h.dead _ hgone] at hdead
    cases hdead

theorem free (h : Later s s') (hsame : s'.takeups g.attemptStr = s.takeups g.attemptStr) (hs : s.Free g) : s'.Free g :=
  ⟨fun hheld => hs.1 (h.held hsame hheld), fun hnone => h.dead _ (hs.2 ((h.calm _ hsame).kept hnone))⟩

theorem not_busy (h : Later s s') (hsame : s'.takeups g.attemptStr = s.takeups g.attemptStr) (hs : ¬s.Busy g) : ¬s'.Busy g := by
  intro hbusy
  refine hs ⟨fun hsettled => hbusy.1 (h.settled hsame hsettled), ?_⟩
  rcases hbusy.2 with hheld | hworking | ⟨hnone, hadmitter⟩
  · exact .inl (h.held hsame hheld)
  · exact .inr (.inl ((h.calm _ hsame).supervisor hworking))
  · refine .inr (.inr ⟨(h.calm _ hsame).kept hnone, Bool.eq_false_iff.mpr fun hgone => ?_⟩)
    rw [h.dead _ hgone] at hadmitter
    cases hadmitter

end Later

/-! ### What is known of a call -/

/-- What the ledger keeps: rising numbers under their names, one generation for each retry id, and every attempt but the last one
not busy unless it was taken up after it was looked at. -/
structure Ledger (assignmentId : String) (s : Disk) : Prop where
  ordered : s.generations.Pairwise (·.attempt < ·.attempt)
  named : ∀ g ∈ s.generations, g.attemptStr = attemptStr g.attempt ∧ g.runId = runIdOf assignmentId g.attemptStr
  bound : s.generations.Pairwise fun g g' => ∀ retryId, g.retryId = some retryId → g'.retryId ≠ some retryId
  looked : ∀ n, s.looked n ≤ s.takeups n
  passed : ∀ g ∈ s.generations.dropLast, s.takeups g.attemptStr = s.looked g.attemptStr → ¬s.Busy g
  stamped : ∀ name st, s.stagings name = some st → name < s.stamp

/-- What a call read of the ledger is how it began, and there is no generation of its retry id in it. -/
structure Listed (s : Disk) (args : Args) (listed : List Record) : Prop where
  prefix_ : listed <+: s.generations
  unbound : ∀ retryId, args.retryId = some retryId → ∀ g ∈ listed, g.retryId ≠ some retryId

/-- The record of a call is one that may follow what it read. -/
structure Drafted (s : Disk) (args : Args) (listed : List Record) (record : Record) : Prop extends Listed s args listed where
  above : ∀ g ∈ listed, g.attempt < record.attempt
  record : record = newRecord args record.attempt

/-- A call looked at the current attempt, and what it saw since then holds unless the attempt was taken up. -/
structure Looked (s : Disk) (args : Args) (draft : Draft) (current : Record) (sees : Prop) : Prop
    extends Drafted s args draft.listed draft.record where
  isCurrent : draft.listed.getLast? = some current
  look : draft.look ≤ s.takeups current.attemptStr
  sees : s.takeups current.attemptStr = draft.look → sees

/-- A generation with what the call asked for. -/
structure Granted (s : Disk) (args : Args) (record : Record) : Prop where
  mem : record ∈ s.generations
  retryId : record.retryId = args.retryId
  destination : record.destination = args.destination
  payloadDigest : record.admissionPayloadDigest = args.payloadDigest

/-- What is known of a call at each of its steps, whatever the others do. -/
def Facts (s : Disk) (args : Args) : Phase → Prop
  | .marker => True
  | .listing => True
  | .numbering listed => Listed s args listed
  | .settled listed record => Drafted s args listed record
  | .control draft current => Looked s args draft current True
  | .releases draft current control => Looked s args draft current
      (s.control current ≠ none ∧ ∀ c, s.control current = some c → c.settled = true ∨ c = control)
  | .holder draft current control => Looked s args draft current
      (s.control current ≠ none ∧ ∀ c, s.control current = some c → c.settled = true ∨ c = control)
  | .admitter draft current => Looked s args draft current (∀ c, s.control current = some c → c.settled = true)
  | .supervisor draft current busy => busy = false → Looked s args draft current (s.Free current)
  | .installing draft => Drafted s args draft.listed draft.record ∧ ∀ current, draft.listed.getLast? = some current →
      draft.look ≤ s.takeups current.attemptStr ∧ (s.takeups current.attemptStr = draft.look → ¬s.Busy current)
  | .placing _ record => Granted s args record
  | .cleaning record => Granted s args record
  | .staging record => Granted s args record
  | .runMeta record _ => Granted s args record
  | .dispatchPlan record _ => Granted s args record
  | .effectiveContract record _ => Granted s args record
  | .publishing record _ => Granted s args record
  | .done (.attempt record _) => Granted s args record
  | .done .duplicateRetry => ∃ g ∈ s.generations, args.retryId.isSome = true ∧ g.retryId = args.retryId ∧
      ¬(g.destination = args.destination ∧ g.admissionPayloadDigest = args.payloadDigest)
  | .done _ => True

variable {s s' : Disk} {args : Args} {record : Record} {phase phase' : Phase} {name : ℕ} {input : Input}
  {draft : Draft} {current : Record} {st : Staging}

section

variable (h : Later s s')

include h

theorem Listed.later (hl : Listed s args listed) : Listed s' args listed :=
  ⟨hl.prefix_.trans h.generations, hl.unbound⟩

theorem Drafted.later (hd : Drafted s args listed record) : Drafted s' args listed record :=
  ⟨hd.toListed.later h, hd.above, hd.record⟩

theorem Looked.later {sees sees' : Prop} (hl : Looked s args draft current sees)
    (hsees : s'.takeups current.attemptStr = s.takeups current.attemptStr → sees → sees') : Looked s' args draft current sees' :=
  ⟨hl.toDrafted.later h, hl.isCurrent, Nat.le_trans hl.look (h.takeups _), fun heq => by
    have hlow := hl.look
    have hgrow := h.takeups current.attemptStr
    exact hsees (by omega) (hl.sees (by omega))⟩

theorem Granted.later (hg : Granted s args record) : Granted s' args record :=
  ⟨h.generations.subset hg.mem, hg.retryId, hg.destination, hg.payloadDigest⟩

theorem control_later {p : Control → Prop} (hsame : s'.takeups current.attemptStr = s.takeups current.attemptStr)
    (hs : ∀ c, s.control current = some c → c.settled = true ∨ p c) : ∀ c, s'.control current = some c → c.settled = true ∨ p c := by
  intro c hc
  cases (h.calm _ hsame).control c hc with
  | inl hsettled => exact .inl hsettled
  | inr hold => exact hs c hold

theorem Facts.later (hf : Facts s args phase) : Facts s' args phase := by
  cases phase with
  | marker | listing => exact trivial
  | numbering listed => exact Listed.later h hf
  | settled listed record => exact Drafted.later h hf
  | control draft current => exact Looked.later h hf fun _ _ => trivial
  | releases draft current control | holder draft current control =>
    exact Looked.later h hf fun hsame hs => ⟨fun hnone => hs.1 ((h.calm _ hsame).kept hnone), control_later h hsame hs.2⟩
  | admitter draft current =>
    refine Looked.later h hf fun hsame hs c hc => ?_
    have hkept := control_later (p := fun _ => False) h hsame (fun c hc => .inl (hs c hc)) c hc
    exact hkept.elim id False.elim
  | supervisor draft current busy => exact fun hbusy => Looked.later h (hf hbusy) fun hsame hs => h.free hsame hs
  | installing draft =>
    refine ⟨hf.1.later h, fun current hcurrent => ?_⟩
    obtain ⟨hlook, hfree⟩ := hf.2 current hcurrent
    have hgrow := h.takeups current.attemptStr
    exact ⟨Nat.le_trans hlook hgrow, fun heq => h.not_busy (by omega) (hfree (by omega))⟩
  | placing duplicate record | cleaning record | staging record | runMeta record name | dispatchPlan record name
  | effectiveContract record name | publishing record name => exact Granted.later h hf
  | done answer =>
    cases answer with
    | attempt record resumed => exact Granted.later h hf
    | duplicateRetry =>
      obtain ⟨g, hg, hrest⟩ := hf
      exact ⟨g, h.generations.subset hg, hrest⟩
    | aborted | invalidPredecessor currentRunId | runInFlight priorRunId | runAlreadySettled priorRunId => exact trivial

end

/-! ### Staging directories -/

/-- The staging directory that a call fills, as it is before its next step. -/
def staged (args : Args) : Phase → Option (ℕ × Staging)
  | .runMeta record name => some (name, ⟨record.attemptStr, some args.self, none, none, none⟩)
  | .dispatchPlan record name => some (name, ⟨record.attemptStr, some args.self, some (args.build record).runMeta, none, none⟩)
  | .effectiveContract record name => some (name, ⟨record.attemptStr, some args.self, some (args.build record).runMeta,
      (args.build record).dispatchPlan, none⟩)
  | .publishing record name => some (name, ⟨record.attemptStr, some args.self, some (args.build record).runMeta,
      (args.build record).dispatchPlan, (args.build record).effectiveContract⟩)
  | _ => none

/-- What is known of a call: the facts it gathered, and that its staging directory is its own while it lives. -/
structure Known (assignmentId : String) (s : Disk) (k : Call) : Prop where
  assignment : k.args.assignmentId = assignmentId
  facts : Facts s k.args k.phase
  own : ∀ name st, staged k.args k.phase = some (name, st) →
    name < s.stamp ∧ (s.dead k.args.self = false → s.stagings name = some st)

/-- Two calls never fill one staging directory. -/
def Apart (k l : Call) : Prop :=
  ∀ name st st', staged k.args k.phase = some (name, st) → staged l.args l.phase ≠ some (name, st')

theorem Apart.symm {k l : Call} (h : Apart k l) : Apart l k := fun name st st' hl hk => h name st' st hk hl

theorem stagings_setStaging (s : Disk) (name n : ℕ) (st : Option Staging) :
    (s.setStaging name st).stagings n = if n = name then st else s.stagings n := rfl

variable {args : Args}

theorem staged_owner (h : staged args phase = some (name, st)) : st.owner = some args.self := by
  unfold staged at h
  split at h
  all_goals first
    | exact (Prod.mk.inj (some.inj h)).2 ▸ rfl
    | cases h

/-! ### One step -/

variable {s' : Disk}

theorem read_eq (h : some (s, phase) = some (s', phase')) : s = s' ∧ phase = phase' :=
  Prod.mk.inj (some.inj h)

theorem install_eq {epoch : ℕ} (h : s.install epoch record = some s') :
    s.generations.length < epoch ∧ s' = { s with generations := s.generations ++ [record] } := by
  unfold Disk.install at h
  split at h
  · cases h
  · next hlt => exact ⟨Nat.lt_of_not_le hlt, (some.inj h).symm⟩

/-- What an installation leaves. -/
def installed (s : Disk) (draft : Draft) : Disk :=
  { s with
    generations := s.generations ++ [draft.record]
    looked := fun n => if (draft.listed.getLast?).any (·.attemptStr = n) then draft.look else s.looked n }

theorem next_installing (h : next input s args (.installing draft) = some (s', phase')) :
    (s' = s ∧ phase' = .listing) ∨
      (s.generations.length ≤ draft.listed.length ∧ s' = installed s draft ∧ phase' = .placing false draft.record) := by
  simp only [next] at h
  cases hinstall : s.install (draft.listed.length + 1) draft.record with
  | none =>
    rw [hinstall] at h
    obtain ⟨hs, hphase⟩ := read_eq h
    exact .inl ⟨hs.symm, hphase.symm⟩
  | some i =>
    obtain ⟨hlength, hi⟩ := install_eq hinstall
    rw [hinstall] at h
    obtain ⟨hs, hphase⟩ := read_eq h
    subst hi
    exact .inr ⟨Nat.le_of_lt_succ hlength, hs.symm, hphase.symm⟩

theorem next_publishing
    (h : next input s args (.publishing record name) = some (s', phase')) :
    (s' = s.setStaging name none ∧ phase' = .done (.attempt record true)) ∨
      (s.runs record.attemptStr = none ∧ ∃ st d, s.stagings name = some st ∧ st.published = some d ∧
        s' = (s.setStaging name none).setRun record.attemptStr d ∧ phase' = .done (.attempt record false)) := by
  simp only [next] at h
  split at h
  · obtain ⟨hs, hphase⟩ := read_eq h
    exact .inl ⟨hs.symm, hphase.symm⟩
  · next hnone =>
    obtain ⟨st, hst, hd⟩ := bind_eq_some_iff.mp h
    obtain ⟨d, hpublished, heq⟩ := map_eq_some_iff.mp hd
    obtain ⟨hs, hphase⟩ := Prod.mk.inj heq
    exact .inr ⟨not_isSome_iff_eq_none.mp hnone, st, d, hst, hpublished, hs.symm, hphase.symm⟩

theorem next_cleaning (h : next input s args (.cleaning record) = some (s', phase')) :
    (s' = s ∧ (phase' = .staging record ∨ phase' = .cleaning record)) ∨
      ∃ name st, input.abandoned = some name ∧ s.stagings name = some st ∧ isAbandoned input record st = true ∧
        s' = s.setStaging name none ∧ phase' = .cleaning record := by
  simp only [next] at h
  cases habandoned : input.abandoned with
  | none =>
    rw [habandoned] at h
    obtain ⟨hs, hphase⟩ := read_eq h
    exact .inl ⟨hs.symm, .inl hphase.symm⟩
  | some name =>
    rw [habandoned] at h
    cases hst : s.stagings name with
    | none =>
      simp only [hst] at h
      obtain ⟨hs, hphase⟩ := read_eq h
      exact .inl ⟨hs.symm, .inr hphase.symm⟩
    | some st =>
      simp only [hst] at h
      obtain ⟨hs, hphase⟩ := read_eq h
      cases hab : isAbandoned input record st with
      | false =>
        rw [hab] at hs
        exact .inl ⟨hs.symm, .inr hphase.symm⟩
      | true =>
        rw [hab] at hs
        exact .inr ⟨name, st, rfl, hst, hab, hs.symm, hphase.symm⟩

/-- The phases that only read. -/
def Phase.reads : Phase → Bool
  | .installing _ => false
  | .cleaning _ => false
  | .staging _ => false
  | .runMeta _ _ => false
  | .dispatchPlan _ _ => false
  | .effectiveContract _ _ => false
  | .publishing _ _ => false
  | _ => true

theorem next_reads (hreads : phase.reads = true)
    (h : next input s args phase = some (s', phase')) : s' = s := by
  cases phase with
  | marker | listing | numbering listed => exact (read_eq h).1.symm
  | settled listed record =>
    simp only [next] at h
    split at h
    · exact (read_eq h).1.symm
    · split at h
      · exact (read_eq h).1.symm
      · exact (read_eq h).1.symm
  | control draft current =>
    simp only [next] at h
    split at h
    · exact (read_eq h).1.symm
    · exact (read_eq h).1.symm
  | releases draft current control | holder draft current control | admitter draft current | supervisor draft current busy
  | placing duplicate record => exact (read_eq h).1.symm
  | done answer => cases h
  | installing draft | cleaning record | staging record | runMeta record name | dispatchPlan record name
  | effectiveContract record name | publishing record name => cases hreads

theorem next_staged {f : Staging → Staging} {phase₁ : Phase}
    (h : ((s.stagings name).map fun st => (s.setStaging name (some (f st)), phase₁)) = some (s', phase')) :
    ∃ st, s.stagings name = some st ∧ s' = s.setStaging name (some (f st)) ∧ phase' = phase₁ := by
  obtain ⟨st, hst, heq⟩ := map_eq_some_iff.mp h
  obtain ⟨hs, hphase⟩ := Prod.mk.inj heq
  exact ⟨st, hst, hs.symm, hphase.symm⟩

theorem Later.setStaging (s : Disk) (name : ℕ) (st : Option Staging) : Later s (s.setStaging name st) :=
  ⟨prefix_refl _, Nat.le_refl _, fun _ h => h, fun _ => Nat.le_refl _, fun _ _ => Calm.refl _⟩

theorem Later.publish {attemptStr : String} {d : RunDir} (hnone : s.runs attemptStr = none)
    (hd : st.published = some d) (name : ℕ) : Later s ((s.setStaging name none).setRun attemptStr d) := by
  refine ⟨prefix_refl _, Nat.le_refl _, fun _ h => h, fun _ => Nat.le_refl _, fun n _ => ?_⟩
  rw [runs_setRun]
  split
  · next heq =>
    obtain ⟨m, -, rfl⟩ := map_eq_some_iff.mp hd
    rw [heq, hnone]
    exact { result := nofun, control := nofun, kept := fun _ => rfl,
            released := nofun, supervisor := nofun }
  · exact Calm.refl _

theorem Later.installed (s : Disk) (draft : Draft) : Later s (installed s draft) :=
  ⟨prefix_append _ _, Nat.le_refl _, fun _ h => h, fun _ => Nat.le_refl _, fun _ _ => Calm.refl _⟩

theorem next_later (h : next input s args phase = some (s', phase')) : Later s s' := by
  by_cases hreads : phase.reads = true
  · rw [next_reads hreads h]
    exact Later.refl s
  · cases phase with
    | installing draft =>
      rcases next_installing h with ⟨rfl, -⟩ | ⟨-, rfl, -⟩
      · exact Later.refl _
      · exact Later.installed s draft
    | cleaning record =>
      rcases next_cleaning h with ⟨rfl, -⟩ | ⟨name, st, -, -, -, rfl, -⟩
      · exact Later.refl _
      · exact Later.setStaging s name none
    | staging record =>
      obtain ⟨rfl, -⟩ := read_eq h
      exact ⟨prefix_refl _, Nat.le_succ _, fun _ h => h, fun _ => Nat.le_refl _, fun _ _ => Calm.refl _⟩
    | runMeta record name | dispatchPlan record name | effectiveContract record name =>
      obtain ⟨st, -, rfl, -⟩ := next_staged h
      exact Later.setStaging s name _
    | publishing record name =>
      rcases next_publishing h with ⟨rfl, -⟩ | ⟨hnone, st, d, -, hd, rfl, -⟩
      · exact Later.setStaging s name none
      · exact Later.publish hnone hd name
    | _ => exact absurd rfl hreads

end Forgent.Admission
