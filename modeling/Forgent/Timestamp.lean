import Forgent.Envelope
import Mathlib.Data.String.Basic

/-!
# Timestamps as text and as time

Events are ordered by the text of their timestamp, and dated by its seconds.

* `Moment.instant`: milliseconds since the epoch, in the proleptic Gregorian calendar.
* `timestampSeconds`: the source's arithmetic, in `i64`.
* `timestamp_text_and_time`: both agree with the calendar.
-/

namespace Forgent

open List

/-! ### The calendar -/

def isLeap (y : ℕ) : Bool := y % 4 = 0 && (y % 100 ≠ 0 || y % 400 = 0)

def yearLength (y : ℕ) : ℕ := if isLeap y then 366 else 365

def monthLength (y m : ℕ) : ℕ :=
  if m = 2 then (if isLeap y then 29 else 28) else if [4, 6, 9, 11].contains m then 30 else 31

def daysBeforeYear : ℕ → ℕ
  | 0 => 0
  | y + 1 => daysBeforeYear y + yearLength y

/-- The days of the first months of a year. -/
def daysOfMonths (y : ℕ) : ℕ → ℕ
  | 0 => 0
  | m + 1 => daysOfMonths y m + monthLength y (m + 1)

structure Moment where
  year : ℕ
  month : ℕ
  day : ℕ
  hour : ℕ
  minute : ℕ
  second : ℕ
  milli : ℕ

structure Moment.Valid (t : Moment) : Prop where
  month : 1 ≤ t.month ∧ t.month ≤ 12
  day : 1 ≤ t.day ∧ t.day ≤ monthLength t.year t.month
  time : t.hour < 24 ∧ t.minute < 60 ∧ t.second < 60 ∧ t.milli < 1000

/-- The days since the start of year 0. -/
def Moment.days (t : Moment) : ℕ := daysBeforeYear t.year + daysOfMonths t.year (t.month - 1) + (t.day - 1)

/-- The milliseconds since the start of year 0. -/
def Moment.clock (t : Moment) : ℕ :=
  (((t.days * 24 + t.hour) * 60 + t.minute) * 60 + t.second) * 1000 + t.milli

def epoch : Moment := ⟨1970, 1, 1, 0, 0, 0, 0⟩

/-- The milliseconds since the epoch. -/
def Moment.instant (t : Moment) : ℤ := t.clock - epoch.clock

/-! ### The source's arithmetic -/

/-- An `i64`; `none` is what arithmetic that leaves the type gives. -/
structure I64 where
  value : Option ℤ

namespace I64

/-- An `i64` holds the number. -/
def Fits (n : ℤ) : Prop := -9223372036854775808 ≤ n ∧ n < 9223372036854775808

instance decidableFits (n : ℤ) : Decidable (Fits n) := inferInstanceAs (Decidable (_ ∧ _))

def of (n : ℤ) : I64 := ⟨if Fits n then some n else none⟩

def lift (f : ℤ → ℤ → ℤ) (a b : I64) : I64 := ⟨a.value.bind fun x => b.value.bind fun y => (of (f x y)).value⟩

instance addI64 : Add I64 := ⟨lift (· + ·)⟩
instance subI64 : Sub I64 := ⟨lift (· - ·)⟩
instance mulI64 : Mul I64 := ⟨lift (· * ·)⟩
/-- `div_euclid`. -/
instance divI64 : Div I64 := ⟨lift (· / ·)⟩

variable {a b : ℤ}

theorem fits_of (h : -1000000000000000 ≤ a ∧ a ≤ 1000000000000000) : Fits a := by
  unfold Fits
  omega

theorem lift_of (f : ℤ → ℤ → ℤ) (ha : Fits a) (hb : Fits b) : lift f (of a) (of b) = of (f a b) := by
  simp [lift, of, ha, hb]

theorem of_add (ha : Fits a) (hb : Fits b) : of a + of b = of (a + b) := lift_of _ ha hb
theorem of_sub (ha : Fits a) (hb : Fits b) : of a - of b = of (a - b) := lift_of _ ha hb
theorem of_mul (ha : Fits a) (hb : Fits b) : of a * of b = of (a * b) := lift_of _ ha hb
theorem of_div (ha : Fits a) (hb : Fits b) : of a / of b = of (a / b) := lift_of _ ha hb

end I64

/-- The number the digits of a part of a text spell. -/
def numberAt (ts : String) (a z : ℕ) : ℕ :=
  ((ts.toList.take z).drop a).foldl (fun acc c => 10 * acc + (c.toNat - 48)) 0

def leaps (year : I64) : I64 := year / .of 4 - year / .of 100 + year / .of 400

/-- Whole Unix seconds. -/
def timestampSeconds (ts : String) : Except Error I64 := do
  ensure (validTimestamp ts) (invalid "invalid event date")
  let n := fun a b => I64.of (numberAt ts a b)
  let y := n 0 4
  let days := (y - .of 1970) * .of 365 + leaps (y - .of 1) - leaps (.of 1969)
  let leap := isLeap (numberAt ts 0 4)
  let days := (range' 1 (numberAt ts 5 7 - 1)).foldl (fun days month =>
    days + .of (if month = 2 then (if leap then 29 else 28) else if [4, 6, 9, 11].contains month then 30 else 31 : ℕ)) days
  let days := days + (n 8 10 - .of 1)
  return days * .of 86400 + n 11 13 * .of 3600 + n 14 16 * .of 60 + n 17 19

/-- What a timestamp names. -/
def momentOf (ts : String) : Moment :=
  ⟨numberAt ts 0 4, numberAt ts 5 7, numberAt ts 8 10, numberAt ts 11 13, numberAt ts 14 16, numberAt ts 17 19,
    numberAt ts 20 23⟩

/-! ### The order of moments -/

variable {y m : ℕ} {t t' : Moment}

theorem daysBeforeYear_mono : Monotone daysBeforeYear := monotone_nat_of_le_succ fun _ => Nat.le_add_right _ _

theorem daysOfMonths_mono (y : ℕ) : Monotone (daysOfMonths y) := monotone_nat_of_le_succ fun _ => Nat.le_add_right _ _

theorem daysOfMonths_year (y : ℕ) : daysOfMonths y 12 = yearLength y := by
  cases hleap : isLeap y <;> simp [daysOfMonths, monthLength, yearLength, hleap]

theorem monthLength_le (y m : ℕ) : monthLength y m ≤ 31 := by
  rw [monthLength]
  split
  · split <;> decide
  · split <;> decide

theorem Moment.Valid.days_lt_month (h : t.Valid) : daysOfMonths t.year (t.month - 1) + (t.day - 1) < daysOfMonths t.year t.month := by
  obtain ⟨n, hn⟩ : ∃ n, t.month = n + 1 := ⟨t.month - 1, by have := h.month; omega⟩
  have hday := h.day
  rw [hn] at hday ⊢
  rw [Nat.add_sub_cancel, daysOfMonths]
  omega

theorem Moment.Valid.days_lt_year (h : t.Valid) : t.days < daysBeforeYear (t.year + 1) := by
  have hmonth := h.days_lt_month
  have hyear := daysOfMonths_mono t.year h.month.2
  rw [daysOfMonths_year] at hyear
  rw [days, daysBeforeYear]
  omega

/-- The digits of a moment, as one number. -/
def Moment.number (t : Moment) : ℕ :=
  (((((t.year * 100 + t.month) * 100 + t.day) * 100 + t.hour) * 100 + t.minute) * 100 + t.second) * 1000 + t.milli

theorem Moment.Valid.days_lt (h : t.Valid)
    (hlt : t.year < t'.year ∨ t.year = t'.year ∧ (t.month < t'.month ∨ t.month = t'.month ∧ t.day < t'.day)) :
    t.days < t'.days := by
  have hpos := h.day.1
  have hinMonth := h.days_lt_month
  have hinYear := h.days_lt_year
  rw [days] at hinYear ⊢
  rw [days]
  rcases hlt with hyear | ⟨hyear, hmonth | ⟨hmonth, hday⟩⟩
  · have hmono : daysBeforeYear (t.year + 1) ≤ daysBeforeYear t'.year := daysBeforeYear_mono hyear
    omega
  · have hmono := daysOfMonths_mono t.year (show t.month ≤ t'.month - 1 by omega)
    rw [← hyear]
    omega
  · rw [← hyear, ← hmonth]
    omega

theorem place_lt {K k n n' c c' b b' : ℕ} (h : (n < n' → c < c') ∧ (n = n' → c = c')) (hk : k ≤ K) (hb : b < k) (hb' : b' < k) :
    (n * K + b < n' * K + b' → c * k + b < c' * k + b') ∧ (n * K + b = n' * K + b' → c * k + b = c' * k + b') := by
  have hfront : ∀ {i j r : ℕ}, i < j → i * r + r ≤ j * r := fun {i j r} hij => by
    rw [← Nat.succ_mul]
    exact Nat.mul_le_mul_right r hij
  rcases Nat.lt_trichotomy n n' with hlt | rfl | hlt
  · have hn := hfront (r := K) hlt
    have hc := hfront (r := k) (h.1 hlt)
    exact ⟨fun _ => by omega, fun _ => by omega⟩
  · obtain rfl := h.2 rfl
    exact ⟨fun _ => by omega, fun _ => by omega⟩
  · have hn := hfront (r := K) hlt
    exact ⟨fun _ => by omega, fun _ => by omega⟩

theorem Moment.Valid.clock_lt (h : t.Valid) (h' : t'.Valid) (hlt : t.number < t'.number) : t.clock < t'.clock := by
  have hday := h.day.2.trans (monthLength_le t.year t.month)
  have hday' := h'.day.2.trans (monthLength_le t'.year t'.month)
  have hmonth := h.month
  have hmonth' := h'.month
  obtain ⟨hhour, hminute, hsecond, hmilli⟩ := h.time
  obtain ⟨hhour', hminute', hsecond', hmilli'⟩ := h'.time
  have hdate : ((t.year * 100 + t.month) * 100 + t.day < (t'.year * 100 + t'.month) * 100 + t'.day → t.days < t'.days) ∧
      ((t.year * 100 + t.month) * 100 + t.day = (t'.year * 100 + t'.month) * 100 + t'.day → t.days = t'.days) := by
    refine ⟨fun hlt => h.days_lt (by omega), fun heq => ?_⟩
    obtain ⟨hy, hm, hd⟩ : t.year = t'.year ∧ t.month = t'.month ∧ t.day = t'.day := by omega
    rw [days, days, hy, hm, hd]
  have hminutes := place_lt (K := 100) (place_lt (K := 100) hdate (by decide) hhour hhour') (by decide) hminute hminute'
  exact (place_lt (place_lt (K := 100) hminutes (by decide) hsecond hsecond') (Nat.le_refl _) hmilli hmilli').1 hlt

/-! ### The order of texts -/

/-- The digits of a text as one number, behind the number `acc`. -/
def digitsFrom (acc : ℕ) (cs : List Char) : ℕ :=
  cs.foldl (fun acc c => if c.isDigit then 10 * acc + (c.toNat - 48) else acc) acc

/-- Both texts have digits in the same places, and the same separators. -/
def Aligned (c c' : Char) : Prop := c.isDigit = true ∧ c'.isDigit = true ∨ c = c'

theorem digit_bounds {c : Char} (h : c.isDigit = true) : 48 ≤ c.toNat ∧ c.toNat ≤ 57 := by
  simp only [Char.isDigit, Bool.and_eq_true, decide_eq_true_eq] at h
  exact ⟨UInt32.le_iff_toNat_le.mp h.1, UInt32.le_iff_toNat_le.mp h.2⟩

theorem digitsFrom_lt {cs cs' : List Char} (h : Forall₂ Aligned cs cs') {acc acc' : ℕ} (hlt : acc < acc') :
    digitsFrom acc cs < digitsFrom acc' cs' := by
  induction h generalizing acc acc' with
  | nil => exact hlt
  | @cons c c' cs cs' hc _ ih =>
    rw [digitsFrom, digitsFrom, foldl_cons, foldl_cons]
    rcases hc with ⟨hc, hc'⟩ | rfl
    · rw [if_pos hc, if_pos hc']
      have := digit_bounds hc
      have := digit_bounds hc'
      exact ih (by omega)
    · split
      · exact ih (Nat.add_lt_add_right (Nat.mul_lt_mul_of_pos_left hlt (by decide)) _)
      · exact ih hlt

theorem digitsFrom_lt_of_lt {cs cs' : List Char} (h : Forall₂ Aligned cs cs') (hlt : cs < cs') (acc : ℕ) :
    digitsFrom acc cs < digitsFrom acc cs' := by
  induction h generalizing acc with
  | nil => exact absurd hlt (List.lt_irrefl _)
  | @cons c c' cs cs' hc hcs ih =>
    rw [digitsFrom, digitsFrom, foldl_cons, foldl_cons]
    rcases cons_lt_cons_iff.mp hlt with hless | ⟨rfl, hless⟩
    · rcases hc with ⟨hc, hc'⟩ | rfl
      · rw [if_pos hc, if_pos hc']
        have hbound := digit_bounds hc
        have hless : c.toNat < c'.toNat := UInt32.lt_iff_toNat_lt.mp hless
        exact digitsFrom_lt hcs (by omega)
      · exact absurd hless (Char.lt_irrefl _)
    · exact ih hless _

/-! ### What a timestamp names -/

variable {ts ts' : String}

/-- The separators of a timestamp. -/
def separators : List (ℕ × Char) := [(4, '-'), (7, '-'), (10, 'T'), (13, ':'), (16, ':'), (19, '.'), (23, 'Z')]

def PlaceHolds (i : ℕ) (c : Char) : Prop :=
  (∀ p ∈ separators, p.1 = i → c = p.2) ∧ (i ∉ separators.map Prod.fst → c.isDigit = true)

theorem month_of_day {d : ℕ} (hpos : 1 ≤ d) (hday : d ≤ if m = 2 then (if isLeap y then 29 else 28)
      else if [4, 6, 9, 11].contains m then 30 else if [1, 3, 5, 7, 8, 10, 12].contains m then 31 else 0) :
    (1 ≤ m ∧ m ≤ 12) ∧ d ≤ monthLength y m := by
  rw [monthLength]
  split at hday
  · next hm => exact ⟨by omega, by rwa [if_pos hm]⟩
  next hm =>
  rw [if_neg hm]
  split at hday
  · next hm => exact ⟨by simp at hm; omega, by rwa [if_pos hm]⟩
  next hm =>
  rw [if_neg hm]
  split at hday
  · next hm => exact ⟨by simp at hm; omega, hday⟩
  · omega

/-- What the check asks: the places, and a date and a time of the calendar. -/
theorem validTimestamp_eq_true (h : validTimestamp ts = true) :
    (∃ g : ℕ → Char, ts.toList = (range 24).map g ∧ ∀ i ∈ range 24, PlaceHolds i (g i)) ∧
      (1 ≤ (momentOf ts).month ∧ (momentOf ts).month ≤ 12) ∧
      (1 ≤ (momentOf ts).day ∧ (momentOf ts).day ≤ monthLength (momentOf ts).year (momentOf ts).month) ∧
      (momentOf ts).hour < 24 ∧ (momentOf ts).minute < 60 ∧ (momentOf ts).second < 60 := by
  simp only [validTimestamp] at h
  split at h
  · cases h
  next hplaces =>
  split at h
  · cases h
  next hdigits =>
  constructor
  · simp only [Bool.not_eq_true, Bool.or_eq_false_iff, decide_eq_false_iff_not, ne_eq, not_not] at hplaces hdigits
    obtain ⟨hlength, hseparators⟩ := hplaces
    refine ⟨fun i => ts.toList.getD i ' ', ext_getElem (by simp [hlength]) fun i hi _ => ?_, fun i hi => ?_⟩
    · simp [getElem?_eq_getElem hi]
    · rw [mem_range, ← hlength] at hi
      show PlaceHolds i (ts.toList.getD i ' ')
      rw [show ts.toList.getD i ' ' = ts.toList[i] by simp [List.getD, getElem?_eq_getElem hi]]
      constructor
      · rintro p hp rfl
        have hplace := any_eq_false.mp hseparators p hp
        simpa [getElem?_eq_getElem hi] using hplace
      · intro hfree
        have hplace := any_eq_false.mp hdigits (ts.toList[i], i) (mk_mem_zipIdx_iff_getElem?.mpr (getElem?_eq_getElem hi))
        rw [separators] at hfree
        simp_all
  · change (decide (1 ≤ numberAt ts 8 10) && decide (numberAt ts 8 10 ≤ if numberAt ts 5 7 = 2 then
      (if isLeap (numberAt ts 0 4) then 29 else 28) else if [4, 6, 9, 11].contains (numberAt ts 5 7) then 30
      else if [1, 3, 5, 7, 8, 10, 12].contains (numberAt ts 5 7) then 31 else 0) && decide (numberAt ts 11 13 < 24) &&
      decide (numberAt ts 14 16 < 60) && decide (numberAt ts 17 19 < 60)) = true at h
    simp only [Bool.and_eq_true, decide_eq_true_eq] at h
    obtain ⟨⟨⟨⟨hpos, hday⟩, hhour⟩, hminute⟩, hsecond⟩ := h
    obtain ⟨hmonth, hday⟩ := month_of_day hpos hday
    exact ⟨hmonth, ⟨hpos, hday⟩, hhour, hminute, hsecond⟩

theorem digitsFrom_places {g : ℕ → Char} (hts : ts.toList = (range 24).map g) (hg : ∀ i ∈ range 24, PlaceHolds i (g i)) :
    (momentOf ts).year < 10000 ∧ (momentOf ts).milli < 1000 ∧ (momentOf ts).number = digitsFrom 0 ts.toList := by
  have hrange : range 24 = [0, 1, 2, 3, 4, 5, 6, 7, 8, 9, 10, 11, 12, 13, 14, 15, 16, 17, 18, 19, 20, 21, 22, 23] := by decide
  rw [hrange] at hg hts
  simp [PlaceHolds, separators] at hg
  obtain ⟨h0, h1, h2, h3, _, _, _, _, _, _, _, _, _, _, _, _, _, _, _, _, h20, h21, h22, _⟩ := hg
  have hyear := And.intro (And.intro (digit_bounds h0) (digit_bounds h1)) (And.intro (digit_bounds h2) (digit_bounds h3))
  have hmilli := And.intro (digit_bounds h20) (And.intro (digit_bounds h21) (digit_bounds h22))
  simp_all [momentOf, numberAt, Moment.number, digitsFrom, Char.isDigit]
  omega

section

variable (h : validTimestamp ts = true)

include h

theorem momentOf_valid : (momentOf ts).Valid := by
  obtain ⟨⟨g, hts, hg⟩, hmonth, hday, hhour, hminute, hsecond⟩ := validTimestamp_eq_true h
  exact ⟨hmonth, hday, hhour, hminute, hsecond, (digitsFrom_places hts hg).2.1⟩

variable (h' : validTimestamp ts' = true)

include h'

theorem aligned : Forall₂ Aligned ts.toList ts'.toList := by
  obtain ⟨⟨g, hts, hg⟩, _⟩ := validTimestamp_eq_true h
  obtain ⟨⟨g', hts', hg'⟩, _⟩ := validTimestamp_eq_true h'
  rw [hts, hts', forall₂_map_left_iff, forall₂_map_right_iff, forall₂_same]
  intro i hi
  by_cases hmem : i ∈ separators.map Prod.fst
  · obtain ⟨p, hp, rfl⟩ := mem_map.mp hmem
    exact .inr (((hg _ hi).1 p hp rfl).trans ((hg' _ hi).1 p hp rfl).symm)
  · exact .inl ⟨(hg i hi).2 hmem, (hg' i hi).2 hmem⟩

theorem instant_lt (hlt : ts < ts') : (momentOf ts).instant < (momentOf ts').instant := by
  obtain ⟨⟨g, hts, hg⟩, _⟩ := validTimestamp_eq_true h
  obtain ⟨⟨g', hts', hg'⟩, _⟩ := validTimestamp_eq_true h'
  have hnumber := digitsFrom_lt_of_lt (aligned h h') hlt 0
  rw [← (digitsFrom_places hts hg).2.2, ← (digitsFrom_places hts' hg').2.2] at hnumber
  have hclock := (momentOf_valid h).clock_lt (momentOf_valid h') hnumber
  rw [Moment.instant, Moment.instant]
  omega

theorem instant_lt_iff : ts < ts' ↔ (momentOf ts).instant < (momentOf ts').instant := by
  refine ⟨instant_lt h h', fun hlt => ?_⟩
  rcases lt_trichotomy ts ts' with hless | rfl | hmore
  · exact hless
  · exact absurd hlt (lt_irrefl _)
  · exact absurd hlt (lt_asymm (instant_lt h' h hmore))

end

/-! ### The seconds -/

theorem daysBeforeYear_eq (y : ℕ) :
    (daysBeforeYear y : ℤ) = 365 * y + (((y : ℤ) - 1) / 4 - ((y : ℤ) - 1) / 100 + ((y : ℤ) - 1) / 400) + 1 := by
  induction y with
  | zero => rfl
  | succ y ih =>
    rw [daysBeforeYear, yearLength]
    push_cast
    rw [ih]
    cases hleap : isLeap y
    · simp [isLeap] at hleap
      simp
      omega
    · simp [isLeap] at hleap
      simp
      omega

theorem leaps_of {n : ℤ} (hn : -10000 ≤ n ∧ n ≤ 10000) : leaps (.of n) = .of (n / 4 - n / 100 + n / 400) := by
  simp (disch := apply I64.fits_of; omega) only [leaps, I64.of_div, I64.of_sub, I64.of_add]

theorem foldl_months (y k : ℕ) (n : ℤ) (hn : -100000000 ≤ n ∧ n ≤ 100000000) (hk : k ≤ 12) :
    (range' 1 k).foldl (fun days month => days + I64.of (if month = 2 then (if isLeap y then 29 else 28)
      else if [4, 6, 9, 11].contains month then 30 else 31 : ℕ)) (.of n) = .of (n + daysOfMonths y k) ∧ daysOfMonths y k ≤ 31 * k := by
  induction k with
  | zero => simp [daysOfMonths]
  | succ k ih =>
    obtain ⟨ih, hbound⟩ := ih (by omega)
    have hlength := monthLength_le y (k + 1)
    constructor
    · rw [range'_concat, foldl_append, ih, foldl_cons, foldl_nil, Nat.one_mul, Nat.add_comm 1 k]
      show _ + I64.of (monthLength y (k + 1)) = _
      rw [I64.of_add (I64.fits_of (by omega)) (I64.fits_of (by omega)), daysOfMonths]
      push_cast
      rw [Int.add_assoc]
    · rw [daysOfMonths]
      omega

theorem epoch_days : epoch.days = 719528 := by
  have hyear : ∀ y, y = 1970 → daysBeforeYear y = 719528 := fun y hy => by
    have hyears := daysBeforeYear_eq y
    omega
  rw [Moment.days, hyear epoch.year rfl]
  rfl

theorem Moment.Valid.instant_div (h : t.Valid) :
    t.instant / 1000 = ((daysBeforeYear t.year : ℤ) - 719528 + daysOfMonths t.year (t.month - 1) + (t.day - 1)) * 86400 +
      t.hour * 3600 + t.minute * 60 + t.second := by
  have hmilli := h.time.2.2.2
  have hday := h.day.1
  have hclock : t.clock = (t.days * 86400 + t.hour * 3600 + t.minute * 60 + t.second) * 1000 + t.milli := by
    rw [clock]
    omega
  have hepoch : epoch.clock = 719528 * 86400000 := by
    rw [clock, epoch_days]
    rfl
  rw [instant, hclock, hepoch, days]
  omega

theorem timestampSeconds_eq (h : validTimestamp ts = true) : timestampSeconds ts = .ok (.of ((momentOf ts).instant / 1000)) ∧
    I64.Fits ((momentOf ts).instant / 1000) := by
  obtain ⟨⟨g, hts, hg⟩, _⟩ := validTimestamp_eq_true h
  have hyear := (digitsFrom_places hts hg).1
  obtain ⟨hmonth, hday, hhour, hminute, hsecond, hmilli⟩ := momentOf_valid h
  have hlength := monthLength_le (momentOf ts).year (momentOf ts).month
  have hyears := daysBeforeYear_eq (momentOf ts).year
  have hinstant := (momentOf_valid h).instant_div
  have hstart : (I64.of (momentOf ts).year - .of 1970) * .of 365 + leaps (.of (momentOf ts).year - .of 1) - leaps (.of 1969) =
      .of (daysBeforeYear (momentOf ts).year - 719528) := by
    simp (disch := apply I64.fits_of; omega) only [I64.of_sub, I64.of_mul, leaps_of (n := (momentOf ts).year - 1) (by omega),
      leaps_of (n := 1969) (by decide), I64.of_add]
    exact congrArg I64.of (by omega)
  obtain ⟨hmonths, hbound⟩ := foldl_months (momentOf ts).year ((momentOf ts).month - 1)
    (daysBeforeYear (momentOf ts).year - 719528) (by omega) (by omega)
  have hsource : timestampSeconds ts = .ok ((I64.of (daysBeforeYear (momentOf ts).year - 719528 +
      daysOfMonths (momentOf ts).year ((momentOf ts).month - 1)) + (.of (momentOf ts).day - .of 1)) * .of 86400 +
        .of (momentOf ts).hour * .of 3600 + .of (momentOf ts).minute * .of 60 + .of (momentOf ts).second) := by
    rw [← hmonths, ← hstart, timestampSeconds, h]
    rfl
  rw [hinstant]
  refine ⟨?_, I64.fits_of (by omega)⟩
  rw [hsource]
  simp (disch := apply I64.fits_of; omega) only [I64.of_sub, I64.of_add, I64.of_mul]

/-- **Timestamps compare alike as text and as time**, and their seconds are those of the calendar. -/
theorem timestamp_text_and_time :
    (∀ ts ts', validTimestamp ts = true → validTimestamp ts' = true →
      (ts < ts' ↔ (momentOf ts).instant < (momentOf ts').instant)) ∧
    ∀ ts, validTimestamp ts = true → timestampSeconds ts = .ok ⟨some ((momentOf ts).instant / 1000)⟩ := by
  refine ⟨fun ts ts' h h' => instant_lt_iff h h', fun ts h => ?_⟩
  obtain ⟨hseconds, hfits⟩ := timestampSeconds_eq h
  rw [hseconds, I64.of, if_pos hfits]

/-- A leap day before the epoch. -/
theorem timestamp_text_and_time_leap_day :
    (momentOf "1904-02-29T23:59:59.999Z").instant < (momentOf "1970-01-01T00:00:00.000Z").instant ∧
      timestampSeconds "1904-02-29T23:59:59.999Z" = .ok ⟨some ((momentOf "1904-02-29T23:59:59.999Z").instant / 1000)⟩ :=
  ⟨(timestamp_text_and_time.1 _ _ (by decide) (by decide)).mp (by decide), timestamp_text_and_time.2 _ (by decide)⟩

end Forgent
