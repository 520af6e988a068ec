import Forgent.Value
import Mathlib.Data.String.Basic

/-!
# The values of the mailbox

Times, generations, writer keys and fresh texts, and the configuration the core is given.  The core reads no
clock and draws no number of its own: a time comes with every call, and fresh numbers come from an `IdSource`.
-/

namespace Forgent.Mailbox

open List

/-- Milliseconds since the epoch, an unsigned 64-bit number. -/
abbrev Timestamp := Fin (2 ^ 64)

instance neZero_times : NeZero (2 ^ 64) := ⟨by decide⟩

namespace Timestamp

/-- Saturating at the end of time. -/
def plusSecs (t : Timestamp) (secs : ℕ) : Timestamp := ⟨min (t.val + secs * 1000) (2 ^ 64 - 1), by omega⟩

/-- Whether more than `secs` seconds have passed from `since` to `now`. -/
def isPast (now since : Timestamp) (secs : ℕ) : Bool := since.plusSecs secs < now

variable {now since : Timestamp} {secs : ℕ}

theorem isPast_iff : now.isPast since secs ↔ since.val + secs * 1000 < now.val := by
  have hnow := now.isLt
  simp only [isPast, plusSecs, decide_eq_true_eq, Fin.lt_def]
  omega

theorem isPast_eq_false : now.isPast since secs = false ↔ now.val ≤ since.val + secs * 1000 := by
  rw [← Bool.not_eq_true, isPast_iff, not_lt]

@[simp] theorem isPast_self (t : Timestamp) (secs : ℕ) : t.isPast t secs = false := by
  rw [isPast_eq_false]
  omega

theorem isPast_mono {now' since' : Timestamp} (h : now.isPast since secs)
    (hnow : now ≤ now') (hsince : since' ≤ since) : now'.isPast since' secs := by
  rw [isPast_iff] at h ⊢
  rw [Fin.le_def] at hnow hsince
  omega

end Timestamp

/-- The length of a text in bytes. -/
def byteLen (s : String) : ℕ := (s.toList.map Char.utf8Size).sum

theorem length_le_byteLen (s : String) : s.toList.length ≤ byteLen s := by
  rw [byteLen]
  induction s.toList with
  | nil => exact Nat.le_refl 0
  | cons c l ih =>
    have hc := Char.utf8Size_pos c
    rw [length_cons, map_cons, sum_cons]
    omega

theorem byteLen_append (s t : String) : byteLen (s ++ t) = byteLen s + byteLen t := by
  rw [byteLen, String.toList_append, map_append, sum_append]
  rfl

/-- The largest unsigned 32-bit number, where counts saturate. -/
def u32Max : ℕ := 2 ^ 32 - 1

/-- The generation of an address, an unsigned 32-bit number. -/
abbrev Generation := Fin (2 ^ 32)

instance neZero_generations : NeZero (2 ^ 32) := ⟨by decide⟩

namespace Generation

def first : Generation := 1

/-- The generation after this one, unless it is the last. -/
def next (g : Generation) : Option Generation := if h : g.val + 1 < 2 ^ 32 then some ⟨g.val + 1, h⟩ else none

theorem next_eq_some {g g' : Generation} : g.next = some g' ↔ g'.val = g.val + 1 := by
  have hg' := g'.isLt
  rw [next]
  split
  · rw [Option.some.injEq, Fin.ext_iff, eq_comm]
  · simp only [reduceCtorEq, false_iff]
    omega

end Generation

/-- The alphabet of writer keys, and of short names. -/
def inNameAlphabet (c : Char) : Bool := c.isAlphanum || c == '.' || c == '_' || c == '-'

/-- The identity writer id of a head: the key of its binding. -/
structure WriterKey where
  text : String
  valid : text ≠ "" ∧ text.toList.all inNameAlphabet = true
deriving DecidableEq

namespace WriterKey

theorem text_inj {a b : WriterKey} : a.text = b.text ↔ a = b := by
  cases a
  cases b
  simp

instance : Ord WriterKey := ⟨compareOn text⟩

instance : Std.TransCmp (compare : WriterKey → WriterKey → Ordering) :=
  inferInstanceAs (Std.TransCmp (compareOn text))

instance : Std.LawfulEqCmp (compare : WriterKey → WriterKey → Ordering) where
  compare_self {a} := compare_eq_iff_eq.mpr (rfl : a.text = a.text)
  eq_of_compare {a b} h := text_inj.mp (compare_eq_iff_eq.mp (show compare a.text b.text = .eq from h))

theorem notMem {key : WriterKey} {c : Char} (hc : inNameAlphabet c = false) : c ∉ key.text.toList := by
  intro hmem
  have h := List.all_eq_true.mp key.valid.2 c hmem
  rw [hc] at h
  cases h

end WriterKey

/-- The CLI a head runs. -/
structure Cli where
  text : String
  valid : text ≠ "" ∧ text.toList.all (fun c => c.isLower || c.isDigit) = true
deriving DecidableEq

/-- The opaque id of a message or notice. -/
structure MessageId where
  text : String
deriving DecidableEq

/-- The opaque token of one claim. -/
structure AttemptToken where
  text : String
deriving DecidableEq

/-- The numbers a call draws, in the order it draws them. -/
abbrev IdSource := ℕ → Fin (2 ^ 64)

namespace IdSource

/-- `next_u64`. -/
def next (ids : IdSource) : Fin (2 ^ 64) × IdSource := (ids 0, fun n => ids (n + 1))

/-- Lowercase hex of one fresh number. -/
def minted (ids : IdSource) : String × IdSource := (String.ofList (Nat.toDigits 16 ids.next.1), ids.next.2)

/-- The sixteen hex digits of a number. -/
def hexDigits (n : Fin (2 ^ 64)) : List Char :=
  let digits := Nat.toDigits 16 n
  List.replicate (16 - digits.length) '0' ++ digits

/-- The digits of `count` fresh numbers. -/
def drawDigits : ℕ → IdSource → List Char × IdSource
  | 0, ids => ([], ids)
  | count + 1, ids =>
    let (rest, ids') := drawDigits count ids.next.2
    (hexDigits ids.next.1 ++ rest, ids')

/-- Lowercase hex of fresh numbers, the last `len` digits of as many numbers as that takes. -/
def drawnHex (ids : IdSource) (len : ℕ) : String × IdSource :=
  let (digits, ids') := drawDigits ((len + 15) / 16) ids
  (String.ofList (digits.drop (digits.length - len)), ids')

end IdSource

def MessageId.mint (ids : IdSource) : MessageId × IdSource := (⟨ids.minted.1⟩, ids.minted.2)

def AttemptToken.mint (ids : IdSource) : AttemptToken × IdSource := (⟨ids.minted.1⟩, ids.minted.2)

/-- The `mailbox` section of the configuration. -/
structure Limits where
  maxBodyBytes : ℕ
  chainMaxDepth : ℕ
  sessionBudget : ℕ
  sessionLifetimeCap : ℕ
  humanFallbackWindowSec : ℕ
  loopMaxPerWindow : ℕ
  loopWindowSec : ℕ
  queueCap : ℕ
  queuePerSender : ℕ
  countersMaxKeys : ℕ
  recordTtlSec : ℕ
  recordBodyRetentionSec : ℕ
  inFlightTtlSec : ℕ
  maxOffers : ℕ
  wakeExchangeGapSec : ℕ
  wakeMaxPerExchange : ℕ
  wakeLifetimeCap : ℕ
  wakeRemoteLifetimeCap : ℕ
  noticesCap : ℕ
  noticesWindowSec : ℕ
  frameMaxHeaderChars : ℕ

/-- How long a settled header is kept: the longest window that may still read it. -/
def Limits.headerHorizonSec (limits : Limits) : ℕ :=
  max (max limits.loopWindowSec limits.recordTtlSec) limits.recordBodyRetentionSec

end Forgent.Mailbox
