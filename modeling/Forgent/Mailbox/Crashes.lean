import Forgent.Mailbox.Integrity
import Forgent.Mailbox.LifeCycle

/-!
# Holds that crash

A history is a sequence of holds on one record, each ended by its return, an error or a crash, with power losses in
between.
-/

namespace Forgent.Mailbox.Record

open Interrupted List Option

inductive Event
  | held (before : Disk) (h : Hold) (ending : Ending RecordError Held) (after : Disk)
  | powerLoss

/-- The event of a hold whose operations have the fates. -/
def Hold.event (encoding : Encoding) (h : Hold) (d : Disk) (fates : List Fate) : Event :=
  .held d h (run encoding h d fates).1 (run encoding h d fates).2.1

/-- The events on a record, oldest first, and the disk they lead to. -/
inductive History (encoding : Encoding) : List Event → Disk → Prop
  | nil : History encoding [] .new
  | held {events : List Event} {d : Disk} (hhistory : History encoding events d) (h : Hold) (fates : List Fate) :
      History encoding (events ++ [h.event encoding d fates]) (run encoding h d fates).2.1
  | lost {events : List Event} {d d' : Disk} (hhistory : History encoding events d) (hlost : d.Lost d') :
      History encoding (events ++ [.powerLoss]) d'

/-- The holds that reached their rename, in order; a power loss can take the last ones away again. -/
inductive Standing : List Event → List Hold → Prop
  | nil : Standing [] []
  | written {events : List Event} {log : List Hold} {before after : Disk} {h : Hold} {held : Held}
      (hstanding : Standing events log) (hwrote : held.wrote = true) :
      Standing (events ++ [.held before h (.returned held) after]) (log ++ [h])
  | unwritten {events : List Event} {log : List Hold} {before after : Disk} {h : Hold} {held : Held}
      (hstanding : Standing events log) (hwrote : held.wrote = false) :
      Standing (events ++ [.held before h (.returned held) after]) log
  | failed {events : List Event} {log : List Hold} {before after : Disk} {h : Hold} {error : RecordError}
      (hstanding : Standing events log) : Standing (events ++ [.held before h (.failed error) after]) log
  | stopped {events : List Event} {log : List Hold} {before after : Disk} {h : Hold}
      (hstanding : Standing events log) (hsnapshot : after.snapshot = before.snapshot) :
      Standing (events ++ [.held before h .stopped after]) log
  | stoppedLate {events : List Event} {log : List Hold} {before after : Disk} {h : Hold}
      (hstanding : Standing events log) (hsnapshot : after.snapshot.now = some (h.next before.state)) :
      Standing (events ++ [.held before h .stopped after]) (log ++ [h])
  | lost {events : List Event} {log : List Hold} (hstanding : Standing events log) (kept : ℕ) :
      Standing (events ++ [.powerLoss]) (log.take kept)

/-- The history of a list of holds, each with the fates of its operations. -/
def play (encoding : Encoding) (holds : List (Hold × List Fate)) : List Event × Disk :=
  holds.foldl (fun r c => (r.1 ++ [c.1.event encoding r.2 c.2], (run encoding c.1 r.2 c.2).2.1)) ([], .new)

theorem history_play (encoding : Encoding) (holds : List (Hold × List Fate)) :
    History encoding (play encoding holds).1 (play encoding holds).2 := by
  induction holds using reverseRecOn with
  | nil => exact .nil
  | append_singleton holds c ih =>
    rw [play, foldl_append]
    exact ih.held c.1 c.2

def replay (log : List Hold) : MailboxState := log.foldl (fun s h => h.next s) .new

/-- What a record keeps through every history. -/
structure Sound (events : List Event) (d : Disk) : Prop where
  /-- The snapshot is the one after the holds that stand. -/
  standing : ∃ log, Standing events log ∧ d.state = replay log
  /-- A hold that returns an error left the snapshot as it was. -/
  failed : ∀ before h error after, .held before h (.failed error) after ∈ events → after.snapshot = before.snapshot
  /-- Every body that the snapshot keeps is there, with its size. -/
  present : ∀ header ∈ d.state.messages, header.bodyKept = true →
    ∃ name text, bodyName header.id = some name ∧ d.bodies.now[name]? = some text ∧ byteLen text = header.bodyBytes
  /-- A send that completed left no other file. -/
  tidy : ∀ before h held after, .held before h (.returned held) after ∈ events → h.change.sweeps = true →
    held.complete = true → Tidy after.state after

section

variable {encoding : Encoding} {events : List Event} {log : List Hold} {d d' : Disk}

theorem replay_concat (log : List Hold) (h : Hold) : replay (log ++ [h]) = h.next (replay log) := by
  rw [replay, foldl_append]
  rfl

/-- The snapshots a power loss can leave are those after a part of the log. -/
structure Logged (log : List Hold) (d : Disk) : Prop where
  state : d.state = replay log
  parts : ∀ snapshot ∈ d.snapshot.values, ∃ kept : ℕ, snapshot.getD .new = replay (log.take kept)

theorem Logged.congr (h : Logged log d) (hsnapshot : d'.snapshot = d.snapshot) : Logged log d' where
  state := by
    rw [Disk.state, hsnapshot]
    exact h.state
  parts snapshot hmem := h.parts snapshot (hsnapshot ▸ hmem)

theorem Logged.committed {h : Hold} (hlogged : Logged log d) (hcommitted : Committed d (h.next d.state) d') :
    Logged (log ++ [h]) d' where
  state := by rw [Disk.state, hcommitted.now, replay_concat, ← hlogged.state, getD_some]
  parts snapshot hmem := by
    rcases mem_cons.mp (hcommitted.values hmem) with rfl | hold
    · refine ⟨(log ++ [h]).length, ?_⟩
      rw [take_length, replay_concat, ← hlogged.state, getD_some]
    · obtain ⟨kept, hkept⟩ := hlogged.parts snapshot hold
      refine ⟨min kept log.length, ?_⟩
      rw [hkept, take_append_of_le_length (min_le_right _ _), ← take_take, take_length]

theorem Logged.lost (hlogged : Logged log d) (hlost : d.Lost d') : ∃ kept : ℕ, Logged (log.take kept) d' := by
  obtain ⟨kept, hkept⟩ := hlogged.parts _ hlost.snapshot
  refine ⟨kept, hkept, ?_⟩
  intro snapshot hmem
  rw [Stored.values, hlost.synced.1, mem_singleton] at hmem
  refine ⟨kept, ?_⟩
  rw [take_take, min_self, hmem]
  exact hkept

theorem Standing.held (hstanding : Standing events log) (hlogged : Logged log d) (hintact : d.Intact) (h : Hold)
    (fates : List Fate) : (run encoding h d fates).2.1.Intact ∧
      ∃ log', Standing (events ++ [h.event encoding d fates]) log' ∧ Logged log' (run encoding h d fates).2.1 := by
  have hrun := meets_run encoding h hintact d fates rfl
  rw [Hold.event]
  revert hrun
  rcases run encoding h d fates with ⟨⟨held⟩ | ⟨error⟩ | _, after, rest⟩
  · intro hreturned
    cases hwrote : held.wrote with
    | true =>
      have hcommitted := hreturned.written hwrote
      exact ⟨hcommitted.intact, _, hstanding.written hwrote, hlogged.committed hcommitted⟩
    | false =>
      have hbefore := hreturned.unwritten hwrote
      exact ⟨hbefore.intact, _, hstanding.unwritten hwrote, hlogged.congr hbefore.snapshot⟩
  · intro hbefore
    exact ⟨hbefore.intact, _, hstanding.failed, hlogged.congr hbefore.snapshot⟩
  · intro hstopped
    rcases hstopped with hbefore | hcommitted
    · exact ⟨hbefore.intact, _, hstanding.stopped hbefore.snapshot, hlogged.congr hbefore.snapshot⟩
    · exact ⟨hcommitted.intact, _, hstanding.stoppedLate hcommitted.now, hlogged.committed hcommitted⟩

theorem History.standing (hhistory : History encoding events d) :
    d.Intact ∧ ∃ log, Standing events log ∧ Logged log d := by
  induction hhistory with
  | nil =>
    refine ⟨?_, [], .nil, rfl, ?_⟩
    · intro snapshot hmem header hheader
      cases mem_singleton.mp hmem
      cases hheader
    · intro snapshot hmem
      cases mem_singleton.mp hmem
      exact ⟨0, rfl⟩
  | held _ h fates ih =>
    obtain ⟨hintact, log, hstanding, hlogged⟩ := ih
    exact hstanding.held hlogged hintact h fates
  | lost _ hlost ih =>
    obtain ⟨hintact, log, hstanding, hlogged⟩ := ih
    obtain ⟨kept, hkept⟩ := hlogged.lost hlost
    exact ⟨hintact.lost hlost, _, hstanding.lost kept, hkept⟩

theorem History.exists_run (hhistory : History encoding events d) {before after : Disk} {h : Hold}
    {ending : Ending RecordError Held} (hmem : .held before h ending after ∈ events) :
    before.Intact ∧ ∃ fates rest, run encoding h before fates = (ending, after, rest) := by
  induction hhistory with
  | nil => cases hmem
  | held hhistory h' fates ih =>
    rcases mem_append.mp hmem with hmem | hmem
    · exact ih hmem
    · cases mem_singleton.mp hmem
      exact ⟨hhistory.standing.1, fates, _, rfl⟩
  | lost _ _ ih =>
    rcases mem_append.mp hmem with hmem | hmem
    · exact ih hmem
    · cases mem_singleton.mp hmem

/-- The installed snapshot is the one after the holds that stand, every body it keeps is there, errors change nothing,
and a send that completes leaves nothing else. -/
theorem record_integrity (hhistory : History encoding events d) : Sound events d where
  standing := by
    obtain ⟨_, log, hstanding, hlogged⟩ := hhistory.standing
    exact ⟨log, hstanding, hlogged.state⟩
  failed before h error after hmem := by
    obtain ⟨hintact, fates, rest, hrun⟩ := hhistory.exists_run hmem
    have hmeets := meets_run encoding h hintact before fates rfl
    rw [hrun] at hmeets
    exact hmeets.snapshot
  present header hheader hkept := by
    obtain ⟨name, hname, hfiles⟩ := hhistory.standing.1 _ d.snapshot.now_mem header hheader hkept
    obtain ⟨text, htext, hbytes⟩ := hfiles _ d.bodies.now_mem
    exact ⟨name, text, hname, htext, hbytes⟩
  tidy before h held after hmem hsweeps hcomplete := by
    obtain ⟨hintact, fates, rest, hrun⟩ := hhistory.exists_run hmem
    have hmeets := meets_run encoding h hintact before fates rfl
    rw [hrun] at hmeets
    have hwrote : held.wrote = true := by
      rw [Held.complete, Bool.and_eq_true, Bool.and_eq_true] at hcomplete
      exact hcomplete.1.1
    have hstate : after.state = h.next before.state := by
      rw [Disk.state, (hmeets.written hwrote).now, getD_some]
    rw [hstate]
    exact hmeets.tidy hsweeps hcomplete

end

namespace Sample

def encoding : Encoding := ⟨fun _ => 0, fun _ => 0, fun _ => 0⟩

def hold (change : Change) (now : Timestamp) : Hold where
  change := change
  now := now
  limits := Mailbox.Sample.limits
  ids := fun n => Fin.ofNat _ (n + now)
  judge := fun _ => .alive

def registers : Hold :=
  hold (.other [(.register (Mailbox.Sample.request (Mailbox.Sample.key "p") "p1" "P") none 1, Mailbox.Sample.ids)]
    (fun _ => true) rfl) 1

def sends (now : Timestamp) : Hold :=
  hold (.send (Mailbox.Sample.sendTo (Mailbox.Sample.key "q") (Mailbox.Sample.key "p"))) now

/-- A send that crashes between its body and its rename, and another one. -/
def crashes : List (Hold × List Fate) :=
  [(registers, []), (sends 2, List.replicate 18 .works ++ [.stops]), (sends 3, [])]

end Sample

theorem record_integrity_crashes :
    Sound (play Sample.encoding Sample.crashes).1 (play Sample.encoding Sample.crashes).2 :=
  record_integrity (history_play _ _)

/-- The send after the crash deletes the body that the crashed one left. -/
example : (play Sample.encoding (Sample.crashes.take 2)).2.bodies.now.keys = ["2.body"] ∧
    (play Sample.encoding Sample.crashes).2.bodies.now.keys = ["3.body"] := by decide +kernel

end Forgent.Mailbox.Record
