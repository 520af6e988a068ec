import Forgent.ActRun
import Forgent.Positions
import Forgent.Identity.SequenceIds
import Mathlib.Algebra.GroupWithZero.Nat

/-!
# The sequence counters

A counter is one ref that points at a commit with the last number claimed.  A claim reads it, makes a commit with the
next number, and swaps the ref to it, if it still points at the commit that was read; a refused swap is tried again.  A
release swaps the ref to a commit with the number before, if the ref has the released number when it is read.

* `Commit`, `Call`, `World`: the counter, and the calls of all clones on it.
* `act`: one step of one call, the read of the ref, its swap and the answer being separate.
* `Once`: what the numbers that were handed out keep to.

A call whose swap happened may still answer that it did not, or fail.
-/

namespace Forgent.Identity.Sequence

/-- The commit a counter points at: the number in its message, and the attempt that made it, by its call and the
attempts that were left.  No two attempts make the same commit, their claimants are different. -/
structure Commit where
  number : ℕ
  claimant : ℕ × ℕ
deriving DecidableEq

inductive Call where
  | idle
  /-- `claim_counter` before it reads the counter, with so many attempts left. -/
  | claiming (documents : Documents) (left : ℕ)
  /-- `sequence_push` of a claim, and whether the ref was swapped. -/
  | pushing (documents : Documents) (left : ℕ) (expected : Option Commit) (new : Commit) (swapped : Bool)
  | claimed (documents : Documents) (commit : Commit)
  /-- `release_sequence` of what the commit's claim was given. -/
  | releasing (commit : Commit)
  | pushingBack (commit expected new : Commit) (swapped : Bool)
  | released (answer : Bool)
  | refused

/-- What the calls do, in the order it happens. -/
inductive Happened where
  /-- The ref was swapped to the commit of a claim. -/
  | swapped (commit : Commit)
  /-- The claim returned the commit's number. -/
  | given (commit : Commit)
  /-- The attempt came to an end otherwise. -/
  | lost (commit : Commit)
  /-- The caller that was given the commit's number asks to give it back. -/
  | asked (commit : Commit)
  /-- A release of the commit's number swapped the ref to a new commit. -/
  | takenBack (commit new : Commit)
deriving DecidableEq

structure World where
  counter : Option Commit
  calls : ℕ → Call
  log : List Happened

/-- Nobody has claimed a number. -/
def World.start : World where
  counter := none
  calls := fun _ => .idle
  log := []

/-- What a push answers its call. -/
inductive Answer where
  | accepted
  | stale
  | failed

inductive Act where
  | claim (i : ℕ) (documents : Documents)
  | release (i : ℕ) (commit : Commit)
  | read (i : ℕ)
  | swap (i : ℕ)
  | answer (i : ℕ) (answer : Answer)

/-- `MAX_CLAIM_ATTEMPTS`. -/
def maxClaimAttempts : ℕ := 5

/-- The number of a counter, 0 while nobody claimed. -/
def numberOf (counter : Option Commit) : ℕ := (counter.map Commit.number).getD 0

/-- A number is 64 bits wide. -/
def numberLimit : ℕ := 2 ^ 64

section

variable (kind : SequenceKind)

/-- One more than the larger of the counter and the highest number of the documents. -/
def nextNumber (counter : Option Commit) (documents : Documents) : ℕ :=
  (max (numberOf counter) (highestInDocuments documents kind) + 1) % numberLimit

/-- The call goes on, and something happens. -/
def World.goOn (w : World) (i : ℕ) (call : Call) (happened : List Happened) : World :=
  { w with calls := Function.update w.calls i call, log := w.log ++ happened }

def readTip (w : World) (i : ℕ) : Option World :=
  match w.calls i with
  | .claiming documents (left + 1) =>
    some (w.goOn i (.pushing documents left w.counter ⟨nextNumber kind w.counter documents, (i, left)⟩ false) [])
  | .releasing commit =>
    match w.counter with
    | some tip =>
      if tip.number = commit.number then
        some (w.goOn i (.pushingBack commit tip ⟨commit.number - 1, (i, 0)⟩ false) [])
      else some (w.goOn i (.released false) [])
    | none => some (w.goOn i (.released false) [])
  | _ => none

/-- The swap of the ref, at the forge or in the ref store. -/
def swapRef (w : World) (i : ℕ) : Option World :=
  match w.calls i with
  | .pushing documents left expected new false =>
    if w.counter = expected then
      some { w.goOn i (.pushing documents left expected new true) [.swapped new] with counter := some new }
    else none
  | .pushingBack commit expected new false =>
    if w.counter = some expected then
      some { w.goOn i (.pushingBack commit expected new true) [.takenBack commit new] with counter := some new }
    else none
  | _ => none

/-- What the call hears of its push; a call may also fail anywhere. -/
def answerCall (w : World) (i : ℕ) (answer : Answer) : Option World :=
  match w.calls i, answer with
  | .pushing documents _ _ new true, .accepted => some (w.goOn i (.claimed documents new) [.given new])
  | .pushing documents left _ new _, .stale => some (w.goOn i (.claiming documents left) [.lost new])
  | .pushing _ _ _ new _, .failed => some (w.goOn i .refused [.lost new])
  | .claiming _ _, .failed => some (w.goOn i .refused [])
  | .pushingBack _ _ _ true, .accepted => some (w.goOn i (.released true) [])
  | .pushingBack _ _ _ _, .stale => some (w.goOn i (.released false) [])
  | .pushingBack _ _ _ _, .failed => some (w.goOn i .refused [])
  | .releasing _, .failed => some (w.goOn i .refused [])
  | _, _ => none

def act (w : World) : Act → Option World
  | .claim i documents =>
    match w.calls i with
    | .idle => some (w.goOn i (.claiming documents maxClaimAttempts) [])
    | _ => none
  | .release i commit =>
    match w.calls i with
    | .idle => if .given commit ∈ w.log then some (w.goOn i (.releasing commit) [.asked commit]) else none
    | _ => none
  | .read i => readTip kind w i
  | .swap i => swapRef w i
  | .answer i answer => answerCall w i answer

/-- What one act can do. -/
inductive Step (w : World) : Act → World → Prop
  | claim {i : ℕ} (documents : Documents) (h : w.calls i = .idle) :
      Step w (.claim i documents) (w.goOn i (.claiming documents maxClaimAttempts) [])
  | release {i : ℕ} {commit : Commit} (h : w.calls i = .idle) (hgiven : .given commit ∈ w.log) :
      Step w (.release i commit) (w.goOn i (.releasing commit) [.asked commit])
  | read {i left : ℕ} {documents : Documents} (h : w.calls i = .claiming documents (left + 1)) :
      Step w (.read i)
        (w.goOn i (.pushing documents left w.counter ⟨nextNumber kind w.counter documents, (i, left)⟩ false) [])
  | readBack {i : ℕ} {commit tip : Commit} (h : w.calls i = .releasing commit) (htip : w.counter = some tip)
      (hnumber : tip.number = commit.number) :
      Step w (.read i) (w.goOn i (.pushingBack commit tip ⟨commit.number - 1, (i, 0)⟩ false) [])
  | moved {i : ℕ} {commit : Commit} (h : w.calls i = .releasing commit) : Step w (.read i) (w.goOn i (.released false) [])
  | swap {i left : ℕ} {documents : Documents} {expected : Option Commit} {new : Commit}
      (h : w.calls i = .pushing documents left expected new false) (hcounter : w.counter = expected) :
      Step w (.swap i) { w.goOn i (.pushing documents left expected new true) [.swapped new] with counter := some new }
  | swapBack {i : ℕ} {commit expected new : Commit} (h : w.calls i = .pushingBack commit expected new false)
      (hcounter : w.counter = some expected) : Step w (.swap i)
        { w.goOn i (.pushingBack commit expected new true) [.takenBack commit new] with counter := some new }
  | given {i left : ℕ} {documents : Documents} {expected : Option Commit} {new : Commit} {answer : Answer}
      (h : w.calls i = .pushing documents left expected new true) :
      Step w (.answer i answer) (w.goOn i (.claimed documents new) [.given new])
  | stale {i left : ℕ} {documents : Documents} {expected : Option Commit} {new : Commit} {swapped : Bool} {answer : Answer}
      (h : w.calls i = .pushing documents left expected new swapped) :
      Step w (.answer i answer) (w.goOn i (.claiming documents left) [.lost new])
  | failed {i left : ℕ} {documents : Documents} {expected : Option Commit} {new : Commit} {swapped : Bool} {answer : Answer}
      (h : w.calls i = .pushing documents left expected new swapped) :
      Step w (.answer i answer) (w.goOn i .refused [.lost new])
  | gaveUp {i left : ℕ} {documents : Documents} {answer : Answer} (h : w.calls i = .claiming documents left) :
      Step w (.answer i answer) (w.goOn i .refused [])
  | ended {i : ℕ} {answer : Answer} {commit : Commit} {call : Call}
      (h : (∃ expected new swapped, w.calls i = .pushingBack commit expected new swapped) ∨ w.calls i = .releasing commit)
      (hcall : call = .refused ∨ ∃ b, call = .released b) : Step w (.answer i answer) (w.goOn i call [])

end

/-- **What an act does is one of the steps.** -/
theorem step_of_act {kind : SequenceKind} {w w' : World} {a : Act} (h : act kind w a = some w') : Step kind w a w' := by
  cases a with
  | claim i documents =>
    rw [act] at h
    split at h
    · cases h
      exact .claim documents ‹_›
    · cases h
  | release i commit =>
    rw [act] at h
    split at h
    · split at h
      · cases h
        exact .release ‹_› ‹_›
      · cases h
    · cases h
  | read i =>
    rw [act] at h
    unfold readTip at h
    split at h
    · cases h
      exact .read ‹_›
    · split at h
      · split at h
        · cases h
          exact .readBack ‹_› ‹_› ‹_›
        · cases h
          exact .moved ‹_›
      · cases h
        exact .moved ‹_›
    · cases h
  | swap i =>
    rw [act] at h
    unfold swapRef at h
    split at h
    · split at h
      · cases h
        exact .swap ‹_› ‹_›
      · cases h
    · split at h
      · cases h
        exact .swapBack ‹_› ‹_›
      · cases h
    · cases h
  | answer i answer =>
    rw [act] at h
    unfold answerCall at h
    split at h
    · cases h
      exact .given ‹_›
    · cases h
      exact .stale ‹_›
    · cases h
      exact .failed ‹_›
    · cases h
      exact .gaveUp ‹_›
    · cases h
      exact .ended (.inl ⟨_, _, _, ‹_›⟩) (.inr ⟨_, rfl⟩)
    · cases h
      exact .ended (.inl ⟨_, _, _, ‹_›⟩) (.inr ⟨_, rfl⟩)
    · cases h
      exact .ended (.inl ⟨_, _, _, ‹_›⟩) (.inl rfl)
    · cases h
      exact .ended (.inr ‹_›) (.inl rfl)
    · cases h

/-! ### What is asked of a run -/

/-- The numbers of the calls are handed out once. -/
structure Once (kind : SequenceKind) (w : World) : Prop where
  /-- A number that a call returned is returned again only behind the give-back of the first. -/
  given : ∀ before c' behind, w.log = before ++ .given c' :: behind → ∀ c, .given c ∈ before → c ≠ c' →
    c.number = c'.number → .asked c ∈ before
  /-- A release takes back no number that a later claim was given. -/
  takenBack : ∀ before c new behind, w.log = before ++ .takenBack c new :: behind → ∀ c',
    Precedes before (.swapped c) (.swapped c') → c'.number = c.number → .given c' ∉ w.log
  /-- A claimed number is greater than every number of the documents. -/
  written : ∀ i documents c, w.calls i = .claimed documents c → ∀ n, kind.WrittenIn n documents → n < c.number

end Forgent.Identity.Sequence
