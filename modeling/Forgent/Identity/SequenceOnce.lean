import Forgent.Identity.Sequence

/-!
# Numbers are handed out once

A claim swaps the ref to a number above the one it finds, so a number is claimed again only when the counter went below
it, and the counter goes below a number only by a release of that number.  The release recognises the tip by its number
alone.  Where the tip is the commit that was to be given back, or no later claim of the number stands, every earlier
claim of the number has been given back or came to nothing (`Sound`); a release that is repeated when the number was
handed out again takes it from its new holder.
-/

namespace Forgent.Identity.Sequence

open List Option

/-- The calls keep to the conditions: a number the scan must read has four digits, the counter is not at its last number
when it is read, and a release finds its number only while every later claim of the number has come to nothing. -/
def Careful (kind : SequenceKind) (w : World) : Act → Prop
  | .claim _ documents => ∀ n, kind.WrittenIn n documents → n < 10000
  | .read i =>
    match w.calls i with
    | .claiming documents _ => max (numberOf w.counter) (highestInDocuments documents kind) + 1 < numberLimit
    | .releasing c => ∀ tip, w.counter = some tip → tip.number = c.number →
        ∀ c', Precedes w.log (.swapped c) (.swapped c') → c'.number = c.number → .lost c' ∈ w.log
    | _ => True
  | _ => True

/-! ### What a call has behind it -/

/-- The attempt of the call has been answered. -/
def Past : Call → ℕ → Prop
  | .claiming _ left, attempt => left ≤ attempt
  | .pushing _ left _ _ _, attempt => left < attempt
  | .claimed _ _, _ | .refused, _ => True
  | _, _ => False

/-- The ref was swapped to the commit, and the call waits for the answer. -/
def Pushed : Call → Commit → Prop
  | .pushing _ _ _ new true, commit => commit = new
  | _, _ => False

/-- The call swapped the ref back, or can not do it any more. -/
def GaveBack : Call → Prop
  | .pushingBack _ _ _ true | .released _ | .refused => True
  | _ => False

/-- The commit was the counter's tip. -/
def WasTip (log : List Happened) (commit : Commit) : Prop :=
  .swapped commit ∈ log ∨ ∃ c, .takenBack c commit ∈ log

/-- What holds of call `i`. -/
def CallHolds (kind : SequenceKind) (w : World) (i : ℕ) : Call → Prop
  | .claiming documents _ => ∀ n, kind.WrittenIn n documents → n < 10000
  | .pushing documents left expected new swapped => new.claimant = (i, left) ∧ (swapped = true → .swapped new ∈ w.log) ∧
      numberOf expected < new.number ∧ highestInDocuments documents kind < new.number ∧
      ∀ n, kind.WrittenIn n documents → n < 10000
  | .claimed documents c => ∀ n, kind.WrittenIn n documents → n < c.number
  | .releasing c => .asked c ∈ w.log
  | .pushingBack c expected new swapped => new.claimant = (i, 0) ∧ .asked c ∈ w.log ∧ expected.number = c.number ∧
      new.number = c.number - 1 ∧ WasTip w.log expected ∧ (swapped = false → w.counter = some expected →
        ∀ c', Precedes w.log (.swapped c) (.swapped c') → c'.number = c.number → .lost c' ∈ w.log)
  | _ => True

/-- **What holds in every run.** -/
structure Sound (kind : SequenceKind) (w : World) : Prop where
  answered : ∀ c, .given c ∈ w.log ∨ .lost c ∈ w.log → Past (w.calls c.claimant.1) c.claimant.2
  swapped : ∀ c, .swapped c ∈ w.log → Past (w.calls c.claimant.1) c.claimant.2 ∨ Pushed (w.calls c.claimant.1) c
  back : ∀ o c, .takenBack o c ∈ w.log → GaveBack (w.calls c.claimant.1)
  tip : ∀ c, w.counter = some c → WasTip w.log c
  given : ∀ c, .given c ∈ w.log → .swapped c ∈ w.log ∧ .lost c ∉ w.log
  asked : ∀ c, .asked c ∈ w.log → .given c ∈ w.log
  /-- A number that was claimed again had been given back, or had come to nothing. -/
  order : ∀ c c', Precedes w.log (.swapped c) (.swapped c') → c.number = c'.number → .asked c ∈ w.log ∨ .lost c ∈ w.log
  /-- So had every number the counter is below. -/
  below : ∀ c, .swapped c ∈ w.log → numberOf w.counter < c.number → .asked c ∈ w.log ∨ .lost c ∈ w.log
  call : ∀ i, CallHolds kind w i (w.calls i)

/-- A call that moves on has nothing less behind it. -/
structure Onward (call call' : Call) : Prop where
  past : ∀ attempt, Past call attempt → Past call' attempt
  pushed : ∀ c, Pushed call c → Past call' c.claimant.2 ∨ Pushed call' c
  back : GaveBack call → GaveBack call'

section

variable {kind : SequenceKind} {w : World} {i : ℕ} {call : Call} {happened : List Happened}

theorem goOn_calls (j : ℕ) : (w.goOn i call happened).calls j = if j = i then call else w.calls j := by
  show Function.update w.calls i call j = _
  rw [Function.update_apply]

theorem onward_update (h : Onward (w.calls i) call) (j : ℕ) :
    Onward (w.calls j) (Function.update w.calls i call j) := by
  rw [Function.update_apply]
  split
  · rename_i hj
    rw [hj]
    exact h
  · exact ⟨fun _ h => h, fun _ h => .inr h, fun h => h⟩

theorem CallHolds.later {call : Call} {j : ℕ} (h : CallHolds kind w j call) {w' : World} (hmem : ∀ e ∈ w.log, e ∈ w'.log)
    (hcounter : ∀ c tip, WasTip w.log tip → w'.counter = some tip → w.counter = some tip ∧
      ∀ c', Precedes w'.log (.swapped c) (.swapped c') → Precedes w.log (.swapped c) (.swapped c')) :
    CallHolds kind w' j call := by
  cases call with
  | pushing documents left expected new swapped =>
    obtain ⟨hclaimant, hswapped, hrest⟩ := h
    exact ⟨hclaimant, fun hs => hmem _ (hswapped hs), hrest⟩
  | releasing c => exact hmem _ h
  | pushingBack c expected new swapped =>
    obtain ⟨hclaimant, hasked, hnumber, hnew, hwas, hlater⟩ := h
    refine ⟨hclaimant, hmem _ hasked, hnumber, hnew, ?_, fun hs htip c' hc' heq => ?_⟩
    · exact hwas.imp (hmem _) fun ⟨o, ho⟩ => ⟨o, hmem _ ho⟩
    · obtain ⟨hsame, hprecedes⟩ := hcounter c expected hwas htip
      exact hmem _ (hlater hs hsame c' (hprecedes c' hc') heq)
  | idle => trivial
  | claiming _ _ | claimed _ _ => exact h
  | released _ | refused => trivial

inductive Reports (w : World) (i : ℕ) (call : Call) : List Happened → Prop
  | nothing : Reports w i call []
  | given {c : Commit} (hclaimant : c.claimant.1 = i) (hpast : Past call c.claimant.2) (hswapped : .swapped c ∈ w.log)
      (hlost : .lost c ∉ w.log) : Reports w i call [.given c]
  | lost {c : Commit} (hclaimant : c.claimant.1 = i) (hpast : Past call c.claimant.2) (hgiven : .given c ∉ w.log) :
      Reports w i call [.lost c]
  | asked {c : Commit} (hgiven : .given c ∈ w.log) : Reports w i call [.asked c]

namespace Reports

variable (h : Reports w i call happened)

include h

theorem no_swap : ∀ e ∈ happened, (∀ c, e ≠ .swapped c) ∧ ∀ o c, e ≠ .takenBack o c := by
  cases h <;> simp

variable {c : Commit}

theorem answered (hc : .given c ∈ happened ∨ .lost c ∈ happened) : c.claimant.1 = i ∧ Past call c.claimant.2 := by
  cases h with
  | nothing => simp at hc
  | given hclaimant hpast _ _ | lost hclaimant hpast _ =>
    obtain rfl : c = _ := by simpa using hc
    exact ⟨hclaimant, hpast⟩
  | asked _ => simp at hc

theorem given_of
    (hold : ∀ c, .given c ∈ w.log → .swapped c ∈ w.log ∧ .lost c ∉ w.log) (hc : .given c ∈ w.log ++ happened) :
    .swapped c ∈ w.log ∧ .lost c ∉ w.log ++ happened := by
  rw [mem_append] at hc
  rw [mem_append, not_or]
  cases h with
  | nothing | asked _ =>
    have hc : .given c ∈ w.log := by simpa using hc
    simp [hold c hc]
  | given _ _ hswapped hlost =>
    rcases hc with hc | hc
    · simp [hold c hc]
    · obtain rfl : c = _ := by simpa using hc
      simp [hswapped, hlost]
  | @lost lostCommit _ _ hgiven =>
    have hc : .given c ∈ w.log := by simpa using hc
    have hne : c ≠ lostCommit := fun heq => hgiven (heq ▸ hc)
    simp [hold c hc, hne]

theorem asked_of (hc : .asked c ∈ happened) : .given c ∈ w.log := by
  cases h with
  | nothing | given _ _ _ _ | lost _ _ _ => simp at hc
  | asked hgiven =>
    obtain rfl : c = _ := by simpa using hc
    exact hgiven

theorem precedes {a : Happened} (hp : Precedes (w.log ++ happened) a (.swapped c)) : Precedes w.log a (.swapped c) := by
  have hone : ∀ e, (∀ c, e ≠ .swapped c) → Precedes (w.log ++ [e]) a (.swapped c) → Precedes w.log a (.swapped c) := by
    intro e he hp
    rcases Precedes.append_iff.mp hp with hp | ⟨heq, _⟩
    · exact hp
    · exact absurd heq (he c)
  cases h with
  | nothing => simpa using hp
  | given _ _ _ _ | lost _ _ _ | asked _ => exact hone _ (by simp) hp

end Reports

variable (h : Sound kind w)

include h

/-- **A step that swaps nothing** keeps what holds in every run. -/
theorem Sound.goOn (honward : Onward (w.calls i) call) (hreports : Reports w i call happened)
    (hcall : CallHolds kind (w.goOn i call happened) i call) : Sound kind (w.goOn i call happened) := by
  have hmem : ∀ e ∈ w.log, e ∈ (w.goOn i call happened).log := fun e he => mem_append_left _ he
  have hold : ∀ {e}, e ∈ (w.goOn i call happened).log → (∃ c, e = .swapped c) ∨ (∃ o c, e = .takenBack o c) → e ∈ w.log := by
    intro e he hkind
    rcases mem_append.mp he with he | he
    · exact he
    · obtain ⟨hswap, hback⟩ := hreports.no_swap e he
      rcases hkind with ⟨c, rfl⟩ | ⟨o, c, rfl⟩
      · exact absurd rfl (hswap c)
      · exact absurd rfl (hback o c)
  have hlost : ∀ {c}, .asked c ∈ w.log ∨ .lost c ∈ w.log →
      .asked c ∈ (w.goOn i call happened).log ∨ .lost c ∈ (w.goOn i call happened).log := by
    intro c hc
    exact hc.imp (hmem _) (hmem _)
  have hstays : ∀ {c}, .swapped c ∈ (w.goOn i call happened).log → .swapped c ∈ w.log :=
    fun hc => hold hc (.inl ⟨_, rfl⟩)
  constructor
  case answered =>
    intro c hc
    have hsplit : (.given c ∈ w.log ∨ .lost c ∈ w.log) ∨ .given c ∈ happened ∨ .lost c ∈ happened := by
      rcases hc with hc | hc
      · exact (mem_append.mp hc).imp .inl .inl
      · exact (mem_append.mp hc).imp .inr .inr
    rcases hsplit with hc | hc
    · exact (onward_update honward _).past _ (h.answered c hc)
    · obtain ⟨hclaimant, hpast⟩ := hreports.answered hc
      rw [goOn_calls, if_pos hclaimant]
      exact hpast
  case swapped =>
    intro c hc
    rcases h.swapped c (hstays hc) with hpast | hpushed
    · exact .inl ((onward_update honward _).past _ hpast)
    · exact (onward_update honward _).pushed c hpushed
  case back =>
    intro o c hc
    exact (onward_update honward _).back (h.back o c (hold hc (.inr ⟨_, _, rfl⟩)))
  case tip =>
    intro c hc
    rcases h.tip c hc with hwas | ⟨o, hwas⟩
    · exact .inl (hmem _ hwas)
    · exact .inr ⟨o, hmem _ hwas⟩
  case given =>
    intro c hc
    obtain ⟨hswapped, hlost⟩ := hreports.given_of h.given hc
    exact ⟨hmem _ hswapped, hlost⟩
  case asked =>
    intro c hc
    rcases mem_append.mp hc with hc | hc
    · exact hmem _ (h.asked c hc)
    · exact hmem _ (hreports.asked_of hc)
  case order =>
    intro c c' hprecedes heq
    exact hlost (h.order c c' (hreports.precedes hprecedes) heq)
  case below =>
    intro c hc hlt
    exact hlost (h.below c (hstays hc) hlt)
  case call =>
    intro j
    rw [goOn_calls]
    split
    · rename_i hj
      rw [hj]
      exact hcall
    · exact (h.call j).later hmem fun c tip _ htip => ⟨htip, fun c' hp => hreports.precedes hp⟩

variable {new : Commit}

theorem Sound.fresh (hpast : ¬ Past (w.calls new.claimant.1) new.claimant.2)
    (hpushed : ¬ Pushed (w.calls new.claimant.1) new) (hback : ¬ GaveBack (w.calls new.claimant.1)) :
    ¬ WasTip w.log new := by
  rintro (hswapped | ⟨o, htaken⟩)
  · exact (h.swapped new hswapped).elim hpast hpushed
  · exact hback (h.back o new htaken)

/-- **The ref is swapped**, forward or back, to a commit that never was the tip, and one entry is recorded of it. -/
theorem Sound.moves {e : Happened} (honward : Onward (w.calls i) call)
    (hentry : ∀ c, e ≠ .given c ∧ e ≠ .lost c ∧ e ≠ .asked c) (hfresh : ¬ WasTip w.log new) (hclaimant : new.claimant.1 = i)
    (htip : WasTip (w.log ++ [e]) new) (hswapped : ∀ c, e = .swapped c → c = new ∧ Pushed call new)
    (hback : ∀ o c, e = .takenBack o c → c = new ∧ GaveBack call)
    (horder : e = .swapped new → numberOf w.counter < new.number)
    (hbelow : ∀ c, .swapped c ∈ w.log → new.number < c.number → .asked c ∈ w.log ∨ .lost c ∈ w.log)
    (hholds : CallHolds kind { w.goOn i call [e] with counter := some new } i call) :
    Sound kind { w.goOn i call [e] with counter := some new } := by
  have hmem : ∀ x ∈ w.log, x ∈ w.log ++ [e] := fun x hx => mem_append_left _ hx
  have hold : ∀ {x}, x ∈ w.log ++ [e] → x ≠ e → x ∈ w.log := by
    intro x hx hne
    rcases mem_append.mp hx with hx | hx
    · exact hx
    · exact absurd (mem_singleton.mp hx) hne
  have hself : (w.goOn i call [e]).calls new.claimant.1 = call := by
    rw [goOn_calls, if_pos hclaimant]
  constructor
  case answered =>
    intro c hc
    refine (onward_update honward _).past _ (h.answered c ?_)
    exact hc.imp (fun hc => hold hc (hentry c).1.symm) fun hc => hold hc (hentry c).2.1.symm
  case swapped =>
    intro c hc
    by_cases heq : .swapped c = e
    · obtain ⟨rfl, hpushed⟩ := hswapped c heq.symm
      refine .inr ?_
      show Pushed ((w.goOn i call [e]).calls c.claimant.1) c
      rw [hself]
      exact hpushed
    · rcases h.swapped c (hold hc heq) with hpast | hpushed
      · exact .inl ((onward_update honward _).past _ hpast)
      · exact (onward_update honward _).pushed c hpushed
  case back =>
    intro o c hc
    by_cases heq : .takenBack o c = e
    · obtain ⟨rfl, hgave⟩ := hback o c heq.symm
      show GaveBack ((w.goOn i call [e]).calls c.claimant.1)
      rw [hself]
      exact hgave
    · exact (onward_update honward _).back (h.back o c (hold hc heq))
  case tip =>
    intro c hc
    obtain rfl : new = c := some.inj hc
    exact htip
  case given =>
    intro c hc
    obtain ⟨hswapped, hlost⟩ := h.given c (hold hc (hentry c).1.symm)
    exact ⟨hmem _ hswapped, fun hc => hlost (hold hc (hentry _).2.1.symm)⟩
  case asked => exact fun c hc => hmem _ (h.asked c (hold hc (hentry c).2.2.symm))
  case order =>
    intro c c' hprecedes heq
    rcases Precedes.append_iff.mp hprecedes with hprecedes | ⟨hlast, hc⟩
    · exact (h.order c c' hprecedes heq).imp (hmem _) (hmem _)
    · -- the number is above the counter, so the claim before it was given back
      obtain ⟨rfl, -⟩ := hswapped c' hlast
      exact (h.below c hc (heq ▸ horder hlast)).imp (hmem _) (hmem _)
  case below =>
    intro c hc hlt
    have hlt : new.number < c.number := hlt
    refine (hbelow c (hold hc fun heq => ?_) hlt).imp (hmem _) (hmem _)
    exact Nat.lt_irrefl _ ((hswapped c heq.symm).1 ▸ hlt)
  case call =>
    intro j
    show CallHolds kind _ j ((w.goOn i call [e]).calls j)
    rw [goOn_calls]
    split
    · next hj => exact hj ▸ hholds
    · refine (h.call j).later hmem fun c tip hwas hc => ?_
      obtain rfl : new = tip := some.inj hc
      exact absurd hwas hfresh

/-- **A claim that swaps the ref** goes above the counter. -/
theorem Sound.swap {left : ℕ} {documents : Documents} {expected : Option Commit}
    (hcall : w.calls i = .pushing documents left expected new false) (hcounter : w.counter = expected) :
    Sound kind { w.goOn i (.pushing documents left expected new true) [.swapped new] with counter := some new } := by
  obtain ⟨hclaimant, _, habove, hdocuments, hwritten⟩ : CallHolds kind w i (.pushing documents left expected new false) :=
    hcall ▸ h.call i
  have hnew : w.calls new.claimant.1 = .pushing documents left expected new false := by rw [hclaimant, hcall]
  have hleft : new.claimant.2 = left := by rw [hclaimant]
  have hfresh : ¬ WasTip w.log new := by
    apply h.fresh
    · rw [hnew, hleft]
      exact Nat.lt_irrefl left
    · rw [hnew]
      exact fun h => h
    · rw [hnew]
      exact fun h => h
  have honward : Onward (w.calls i) (.pushing documents left expected new true) := by
    rw [hcall]
    exact ⟨fun _ h => h, fun _ h => h.elim, fun h => h⟩
  have hlast : .swapped new ∈ w.log ++ [.swapped new] := mem_append_right _ (mem_singleton_self _)
  refine h.moves honward (by simp) hfresh (by rw [hclaimant]) (.inl hlast) (fun c hc => ?_) nofun (fun _ => hcounter ▸ habove)
    (fun c hc hlt => ?_) ⟨hclaimant, fun _ => hlast, habove, hdocuments, hwritten⟩
  · cases hc
    exact ⟨rfl, rfl⟩
  · rw [← hcounter] at habove
    exact h.below c hc (Nat.lt_trans habove hlt)

/-- **A release that swaps the ref back** leaves no number above the counter that someone holds. -/
theorem Sound.swapBack {c expected : Commit}
    (hcall : w.calls i = .pushingBack c expected new false) (hcounter : w.counter = some expected) :
    Sound kind { w.goOn i (.pushingBack c expected new true) [.takenBack c new] with counter := some new } := by
  obtain ⟨hclaimant, hasked, hnumber, hless, hwas, hlater⟩ : CallHolds kind w i (.pushingBack c expected new false) :=
    hcall ▸ h.call i
  have hnew : w.calls new.claimant.1 = .pushingBack c expected new false := by rw [hclaimant, hcall]
  have hfresh : ¬ WasTip w.log new := by
    apply h.fresh
    all_goals
      rw [hnew]
      exact fun h => h
  have honward : Onward (w.calls i) (.pushingBack c expected new true) := by
    rw [hcall]
    exact ⟨fun _ h => h, fun _ h => h.elim, fun h => h.elim⟩
  have hmem : ∀ e ∈ w.log, e ∈ w.log ++ [.takenBack c new] := fun e he => mem_append_left _ he
  have hlast : .takenBack c new ∈ w.log ++ [.takenBack c new] := mem_append_right _ (mem_singleton_self _)
  refine h.moves honward (by simp) hfresh (by rw [hclaimant]) (.inr ⟨c, hlast⟩) nofun (fun o c' hc => ?_) nofun
    (fun c1 hc1 hlt => ?_) ⟨hclaimant, hmem _ hasked, hnumber, hless, ?_, fun hs => absurd hs (by decide)⟩
  · cases hc
    exact ⟨rfl, trivial⟩
  · have htip : numberOf w.counter = c.number := by rw [hcounter, ← hnumber]; rfl
    rcases Nat.lt_or_ge c.number c1.number with habove | hle
    · exact h.below c1 hc1 (htip ▸ habove)
    · have heq : c1.number = c.number := by omega
      by_cases hsame : c1 = c
      · exact .inl (hsame ▸ hasked)
      · -- of two claims of the released number, one swapped the ref before the other
        have hc : .swapped c ∈ w.log := (h.given c (h.asked c hasked)).1
        rcases Precedes.total hc hc1 (by simpa using Ne.symm hsame) with hbehind | hbefore
        · exact .inr (hlater rfl hcounter c1 hbehind heq)
        · exact h.order c1 c hbefore heq
  · exact hwas.imp (hmem _) fun ⟨o, ho⟩ => ⟨o, hmem _ ho⟩

end

/-! ### Every step -/

section

variable {kind : SequenceKind} {w w' : World} {a : Act} {documents : Documents} {i : ℕ} {new : Commit} {left : ℕ}
  {expected : Option Commit}

theorem lt_nextNumber {counter : Option Commit}
    (h : max (numberOf counter) (highestInDocuments documents kind) + 1 < numberLimit) :
    numberOf counter < nextNumber kind counter documents ∧
      highestInDocuments documents kind < nextNumber kind counter documents := by
  rw [nextNumber, Nat.mod_eq_of_lt h]
  omega

theorem Sound.unanswered (h : Sound kind w)
    {swapped : Bool} (hcall : w.calls i = .pushing documents left expected new swapped) :
    .given new ∉ w.log ∧ .lost new ∉ w.log := by
  obtain ⟨hclaimant, _⟩ : CallHolds kind w i (.pushing documents left expected new swapped) := hcall ▸ h.call i
  have hpast : ¬ (.given new ∈ w.log ∨ .lost new ∈ w.log) := fun hanswered => by
    have hpast := h.answered new hanswered
    rw [hclaimant, hcall] at hpast
    exact Nat.lt_irrefl left hpast
  exact not_or.mp hpast

theorem Sound.step (h : Sound kind w) (hstep : Step kind w a w') (hcareful : Careful kind w a) : Sound kind w' := by
  cases hstep with
  | claim documents hcall =>
    refine h.goOn ?_ .nothing hcareful
    rw [hcall]
    exact ⟨fun _ h => h.elim, fun _ h => h.elim, fun h => h.elim⟩
  | @release i c hcall hgiven =>
    refine h.goOn ?_ (.asked hgiven) (mem_append_right _ (mem_singleton_self _))
    rw [hcall]
    exact ⟨fun _ h => h.elim, fun _ h => h.elim, fun h => h.elim⟩
  | @read i left documents hcall =>
    have hwritten : CallHolds kind w i (.claiming documents (left + 1)) := hcall ▸ h.call i
    rw [Careful, hcall] at hcareful
    obtain ⟨habove, hdocuments⟩ := lt_nextNumber hcareful
    refine h.goOn ?_ .nothing ⟨rfl, fun hs => absurd hs (by decide), habove, hdocuments, hwritten⟩
    rw [hcall]
    exact ⟨fun _ h => h, fun _ h => h.elim, fun h => h.elim⟩
  | @readBack i c tip hcall htip hnumber =>
    have hasked : CallHolds kind w i (.releasing c) := hcall ▸ h.call i
    rw [Careful, hcall] at hcareful
    refine h.goOn ?_ .nothing ⟨rfl, mem_append_left _ hasked, hnumber, rfl, ?_, fun _ _ c' hc' heq => ?_⟩
    · rw [hcall]
      exact ⟨fun _ h => h.elim, fun _ h => h.elim, fun h => h.elim⟩
    · exact (h.tip tip htip).imp (mem_append_left _) fun ⟨o, ho⟩ => ⟨o, mem_append_left _ ho⟩
    · refine mem_append_left _ (hcareful tip htip hnumber c' ?_ heq)
      have hlog : (w.goOn i (.pushingBack c tip ⟨c.number - 1, (i, 0)⟩ false) []).log = w.log := append_nil _
      rw [hlog] at hc'
      exact hc'
  | @moved i c hcall =>
    refine h.goOn ?_ .nothing trivial
    rw [hcall]
    exact ⟨fun _ h => h.elim, fun _ h => h.elim, fun h => h.elim⟩
  | swap hcall hcounter => exact h.swap hcall hcounter
  | swapBack hcall hcounter => exact h.swapBack hcall hcounter
  | @given i left documents expected new answer hcall =>
    obtain ⟨hclaimant, hswapped, _, hdocuments, hwritten⟩ : CallHolds kind w i (.pushing documents left expected new true) :=
      hcall ▸ h.call i
    refine h.goOn ?_ (.given (by rw [hclaimant]) trivial (hswapped rfl) (h.unanswered hcall).2) fun n hn => ?_
    · rw [hcall]
      exact ⟨fun _ _ => trivial, fun _ _ => .inl trivial, fun h => h.elim⟩
    · exact Nat.lt_of_le_of_lt (le_highestInDocuments (hwritten n hn) hn) hdocuments
  | @stale i left documents expected new swapped answer hcall =>
    obtain ⟨hclaimant, _, _, _, hwritten⟩ : CallHolds kind w i (.pushing documents left expected new swapped) :=
      hcall ▸ h.call i
    have hleft : new.claimant.2 = left := by rw [hclaimant]
    refine h.goOn ?_ (.lost (by rw [hclaimant]) (Nat.le_of_eq hleft.symm) (h.unanswered hcall).1) hwritten
    rw [hcall]
    refine ⟨fun _ h => Nat.le_of_lt h, fun c hpushed => ?_, fun h => h.elim⟩
    cases swapped with
    | false => exact hpushed.elim
    | true =>
      obtain rfl : c = new := hpushed
      exact .inl (Nat.le_of_eq hleft.symm)
  | @failed i left documents expected new swapped answer hcall =>
    obtain ⟨hclaimant, _⟩ : CallHolds kind w i (.pushing documents left expected new swapped) := hcall ▸ h.call i
    refine h.goOn ?_ (.lost (by rw [hclaimant]) trivial (h.unanswered hcall).1) trivial
    rw [hcall]
    exact ⟨fun _ _ => trivial, fun _ _ => .inl trivial, fun h => h.elim⟩
  | @gaveUp i left documents answer hcall =>
    refine h.goOn ?_ .nothing trivial
    rw [hcall]
    exact ⟨fun _ _ => trivial, fun _ h => h.elim, fun h => h.elim⟩
  | @ended i answer c call hcall hend =>
    have hpast : ∀ attempt, ¬ Past (w.calls i) attempt := by
      rcases hcall with ⟨e, n, s, hcall⟩ | hcall <;> exact fun _ h => by rw [hcall] at h; exact h
    have hpushed : ∀ c, ¬ Pushed (w.calls i) c := by
      rcases hcall with ⟨e, n, s, hcall⟩ | hcall <;> exact fun _ h => by rw [hcall] at h; exact h
    have hback : GaveBack call := by
      rcases hend with rfl | ⟨b, rfl⟩ <;> trivial
    have hholds : CallHolds kind (w.goOn i call []) i call := by
      rcases hend with rfl | ⟨b, rfl⟩ <;> trivial
    exact h.goOn ⟨fun _ h => absurd h (hpast _), fun c h => absurd h (hpushed c), fun _ => hback⟩ .nothing hholds

def Recorded (before : List Happened) : Happened → Prop
  | .given c' => ∀ c, .given c ∈ before → c ≠ c' → c.number = c'.number → .asked c ∈ before
  | .takenBack c _ => ∀ c', Precedes before (.swapped c) (.swapped c') → c'.number = c.number → .lost c' ∈ before
  | _ => True

def AllRecorded (log : List Happened) : Prop := ∀ before e behind, log = before ++ e :: behind → Recorded before e

theorem AllRecorded.append {log : List Happened} {e : Happened} (h : AllRecorded log) (he : Recorded log e) :
    AllRecorded (log ++ [e]) := forall_position_append h (fun _ _ _ h => h) he

/-- **Who is given a number that another call was given before** is given it behind the give-back. -/
theorem Sound.recorded_given (h : Sound kind w)
    (hcall : w.calls i = .pushing documents left expected new true) : Recorded w.log (.given new) := by
  intro c hgiven hne heq
  obtain ⟨_, hswapped, _⟩ : CallHolds kind w i (.pushing documents left expected new true) := hcall ▸ h.call i
  obtain ⟨hc, hlost⟩ := h.given c hgiven
  rcases Precedes.total hc (hswapped rfl) (by simpa using hne) with hbefore | hbehind
  · exact (h.order c new hbefore heq).resolve_right hlost
  · -- the new claim came to an end before the old one was made
    exfalso
    rcases h.order new c hbehind heq.symm with hasked | hlost
    · exact (h.unanswered hcall).1 (h.asked new hasked)
    · exact (h.unanswered hcall).2 hlost

theorem Sound.recorded_takenBack (h : Sound kind w) {c expected : Commit}
    (hcall : w.calls i = .pushingBack c expected new false) (hcounter : w.counter = some expected) :
    Recorded w.log (.takenBack c new) := by
  obtain ⟨_, _, _, _, _, hlater⟩ : CallHolds kind w i (.pushingBack c expected new false) := hcall ▸ h.call i
  exact fun c' hc' heq => hlater rfl hcounter c' hc' heq

theorem Sound.recorded (h : Sound kind w) (hrecorded : AllRecorded w.log) (hstep : Step kind w a w') :
    AllRecorded w'.log := by
  have hsame : AllRecorded (w.log ++ []) := (append_nil w.log).symm ▸ hrecorded
  cases hstep with
  | claim | read | readBack | moved | gaveUp | ended => exact hsame
  | release | swap | stale | failed => exact hrecorded.append trivial
  | swapBack hcall hcounter => exact hrecorded.append (h.recorded_takenBack hcall hcounter)
  | given hcall => exact hrecorded.append (h.recorded_given hcall)

theorem sound_start : Sound kind World.start where
  answered c hc := by rcases hc with hc | hc <;> cases hc
  swapped c hc := by cases hc
  back o c hc := by cases hc
  tip c hc := by cases hc
  given c hc := by cases hc
  asked c hc := by cases hc
  order c c' hprecedes := by cases hprecedes.left_mem
  below c hc := by cases hc
  call i := trivial

end

/-- The runs of any calls on one counter, each act of which meets the condition. -/
def Run (kind : SequenceKind) (Meets : World → Act → Prop) : World → Prop := ActRun (act kind) (· = World.start) Meets

theorem Run.sound {kind : SequenceKind} {w : World} (h : Run kind (Careful kind) w) : Sound kind w ∧ AllRecorded w.log := by
  refine @ActRun.invariant _ _ _ _ _ (fun w => Sound kind w ∧ AllRecorded w.log) ?_ ?_ _ h
  · rintro w rfl
    exact ⟨sound_start, fun before e behind heq => by cases before <;> cases heq⟩
  · intro w a w' hinv hcareful hact
    have hstep := step_of_act hact
    exact ⟨hinv.1.step hstep hcareful, hinv.1.recorded hinv.2 hstep⟩

/-- **Numbers are handed out once** in every run whose calls are careful. -/
theorem handed_out_once {kind : SequenceKind} {w : World} (h : Run kind (Careful kind) w) : Once kind w := by
  obtain ⟨hsound, hrecorded⟩ := h.sound
  constructor
  case given => exact fun before c' behind heq => hrecorded before (.given c') behind heq
  case takenBack =>
    intro before c new behind heq c' hprecedes hnumber hgiven
    have hlost : .lost c' ∈ before := hrecorded before (.takenBack c new) behind heq c' hprecedes hnumber
    exact (hsound.given c' hgiven).2 (heq ▸ mem_append_left _ hlost)
  case written =>
    intro i documents c hcall
    have hcallHolds : CallHolds kind w i (.claimed documents c) := hcall ▸ hsound.call i
    exact hcallHolds

/-! ### Two runs -/

namespace Sample

def bare : Documents := ⟨[], []⟩

def claimed (i : ℕ) : Commit := ⟨1, (i, 4)⟩

def claims (i : ℕ) : List Act := [.claim i bare, .read i, .swap i, .answer i .accepted]

def releases (i c : ℕ) : List Act := [.release i (claimed c), .read i, .swap i, .answer i .accepted]

/-- Call 0 is given number 1 and gives it back, call 2 is given it, the give-back of call 0 is repeated, and call 4 is
given the number that call 2 holds. -/
def repeated : List Act := claims 0 ++ releases 1 0 ++ claims 2 ++ releases 3 0 ++ claims 4

def log : List Happened :=
  [.swapped (claimed 0), .given (claimed 0), .asked (claimed 0), .takenBack (claimed 0) ⟨0, (1, 0)⟩,
    .swapped (claimed 2), .given (claimed 2), .asked (claimed 0), .takenBack (claimed 0) ⟨0, (3, 0)⟩,
    .swapped (claimed 4), .given (claimed 4)]

def logOf (acts : List Act) : Option (List Happened) := (acts.foldlM (act .decisionFile) World.start).map World.log

def isSwap : Happened → Bool
  | .swapped _ => true
  | _ => false

/-- A condition that can be computed: bare documents, room at the counter, and no second claim when a number is given
back. -/
def calm (w : World) : Act → Bool
  | .claim _ documents => documents.files.isEmpty && documents.decisions.isEmpty
  | .read i =>
    match w.calls i with
    | .claiming documents _ => max (numberOf w.counter) (highestInDocuments documents .decisionFile) + 1 < numberLimit
    | .releasing _ => w.log.countP isSwap ≤ 1
    | _ => true
  | _ => true

theorem careful_of_calm {w : World} {a : Act} (h : calm w a = true) : Careful .decisionFile w a := by
  cases a with
  | claim i documents =>
    intro n hn
    rw [calm, Bool.and_eq_true] at h
    obtain ⟨name, hname, _⟩ := hn
    rw [List.isEmpty_iff.mp h.2] at hname
    cases hname
  | read i =>
    rw [calm] at h
    rw [Careful]
    split
    · rename_i documents left hcall
      rw [hcall] at h
      exact of_decide_eq_true h
    · rename_i c hcall
      rw [hcall] at h
      intro tip _ _ c' hprecedes _
      have htwo : [Happened.swapped c, .swapped c'].countP isSwap ≤ w.log.countP isSwap := hprecedes.countP_le
      have hone : w.log.countP isSwap ≤ 1 := of_decide_eq_true h
      exact absurd (Nat.le_trans htwo hone) (Nat.not_succ_le_self 1)
    · trivial
  | release i c | swap i | answer i answer => trivial

/-- Call 0 is given number 1 and gives it back, and call 2 is given it. -/
def once : List Act := claims 0 ++ releases 1 0 ++ claims 2

end Sample

/-- A number that was given back is handed out again. -/
theorem given_back_handed_out : ∃ w, Run .decisionFile (Careful .decisionFile) w ∧ w.log = Sample.log.take 6 ∧
    Once .decisionFile w := by
  have hlog : (Sample.once.foldlM (ActRun.actIf (act .decisionFile) Sample.calm) World.start).map World.log =
      some (Sample.log.take 6) := by decide
  obtain ⟨w, hw, hlog⟩ := map_eq_some_iff.mp hlog
  have hstart : Run .decisionFile (fun w a => Sample.calm w a = true) World.start := .start rfl
  have hrun : Run .decisionFile (Careful .decisionFile) w :=
    (ActRun.of_foldlM Sample.once hstart hw).mono fun _ _ h => Sample.careful_of_calm h
  exact ⟨w, hrun, hlog, handed_out_once hrun⟩

/-- The repeated give-back takes the number from the call that was given it since. -/
theorem repeated_release_hands_out_twice : ¬ ∀ (kind : SequenceKind) (w : World), Run kind (fun _ _ => True) w → Once kind w := by
  intro h
  have hlog : Sample.logOf Sample.repeated = some Sample.log := by decide
  obtain ⟨w, hw, hlog⟩ := map_eq_some_iff.mp hlog
  have hstart : Run .decisionFile (fun _ _ => True) World.start := .start rfl
  have hrun : Run .decisionFile (fun _ _ => True) w := ActRun.of_acts Sample.repeated (fun _ _ _ => trivial) hstart hw
  have honce := (h .decisionFile w hrun).given (Sample.log.take 9) (Sample.claimed 4) [] hlog (Sample.claimed 2)
    (by decide) (by decide) rfl
  exact absurd honce (by decide)

end Forgent.Identity.Sequence
