import Forgent.ProviderCapacity
import Mathlib.Data.List.Pairwise

/-!
# Runs of the account calls

The calls of any number of processes on the lease state, in any order.  Each call works once under the state lock, apart from a
probe: it claims quarantines under the lock, makes its calls without it, and takes it again for each answer.  A call that stops
takes no further step.

A quarantine record is told from the ones before and after it by how often the quarantine of its account was set or cleared
until then, its era.  The code has no such count: a probe knows the record it claimed by its time.
-/

namespace Forgent.Capacity

open List Option

/-- A probe whose calls are under way: what it claimed and has not answered yet, and the eras of its provider's accounts at that
time. -/
structure ProbeCall where
  provider : String
  attemptedAt : ℤ
  pending : List Picked
  eras : String → ℕ

/-- One probe call that was claimed. -/
structure Claim where
  provider : String
  accountId : String
  era : ℕ
  attemptedAt : ℤ
  cooldownMs : ℕ

structure Board where
  state : State
  era : String → String → ℕ
  calls : List ProbeCall
  claims : List Claim

/-- The quarantine of an account is another one from here on. -/
def nextEra (era : String → String → ℕ) (provider accountId : String) : String → String → ℕ := fun p a =>
  if provider = p ∧ accountId = a then era p a + 1 else era p a

/-- What one process does under the lock.  The last argument of `acquire` is the clock when the lease is written: the call read
its own `now` before it waited for the lock. -/
inductive Act where
  | acquire (args : AcquireArgs) (judgements : Judgements) (clock : ℤ)
  | release (provider accountId runId : String)
  | quarantine (args : QuarantineArgs)
  | clear (args : ClearArgs)
  | claim (provider : String) (accounts : List (String × AccountConfig)) (now : ℤ) (cooldownMs : ℕ)
  | settle (call : ℕ) (answer : ProbeAnswer) (clock : ℤ)

/-- The entries of a first phase in the list of claims. -/
def claimOf (era : String → String → ℕ) (provider : String) (now : ℤ) (cooldownMs : ℕ) (picked : Picked) : Claim :=
  ⟨provider, picked.accountId, era provider picked.accountId, now, cooldownMs⟩

def Board.settle (b : Board) (i : ℕ) (call : ProbeCall) (picked : Picked) (rest : List Picked) (answer : ProbeAnswer) (clock : ℤ) :
    Board :=
  let settled := settleProbe call.provider call.attemptedAt picked answer clock b.state
  { b with
    state := settled.2
    era := if settled.1 = .lifted then nextEra b.era call.provider picked.accountId else b.era
    calls := b.calls.set i { call with pending := if answer.ok then [] else rest } }

def Board.act (b : Board) : Act → Board
  | .acquire args j _ => { b with state := (acquireNamedAccountLease args j b.state).2 }
  | .release provider accountId runId => { b with state := (releaseProviderAccountLease provider accountId runId b.state).2 }
  | .quarantine args => { b with
      state := quarantineProviderAccount args b.state
      era := nextEra b.era args.provider args.accountId }
  | .clear args => match clearProviderAccountQuarantine args b.state with
    | .error _ => b
    | .ok state => { b with state, era := nextEra b.era args.provider args.accountId }
  | .claim provider accounts now cooldownMs =>
    let claimed := claimProbes provider accounts now cooldownMs b.state
    { b with
      state := claimed.2
      calls := b.calls ++ [⟨provider, now, claimed.1, b.era provider⟩]
      claims := b.claims ++ claimed.1.map (claimOf b.era provider now cooldownMs) }
  | .settle i answer clock => match b.calls[i]? with
    | none => b
    | some call => match call.pending with
      | [] => b
      | picked :: rest => b.settle i call picked rest answer clock

def Board.run (b : Board) (acts : List Act) : Board := acts.foldl Board.act b

theorem Board.act_settle_cases (b : Board) (i : ℕ) (answer : ProbeAnswer) (clock : ℤ) :
    b.act (.settle i answer clock) = b ∨ ∃ call picked rest, b.calls[i]? = some call ∧ call.pending = picked :: rest ∧
      b.act (.settle i answer clock) = b.settle i call picked rest answer clock := by
  cases hcall : b.calls[i]? with
  | none =>
    refine .inl ?_
    simp only [Board.act, hcall]
  | some call =>
    cases hpending : call.pending with
    | nil =>
      refine .inl ?_
      simp only [Board.act, hcall, hpending]
    | cons picked rest =>
      refine .inr ⟨call, picked, rest, rfl, hpending, ?_⟩
      simp only [Board.act, hcall, hpending]

theorem Board.act_clear_cases (b : Board) (args : ClearArgs) :
    b.act (.clear args) = b ∨ ∃ state, clearProviderAccountQuarantine args b.state = .ok state ∧
      b.act (.clear args) = { b with state, era := nextEra b.era args.provider args.accountId } := by
  cases hclear : clearProviderAccountQuarantine args b.state with
  | error e =>
    refine .inl ?_
    simp only [Board.act, hclear]
  | ok state =>
    refine .inr ⟨state, rfl, ?_⟩
    simp only [Board.act, hclear]

/-! ### What is to hold -/

/-- Two claims, the first one made earlier: of one quarantine record, they are a cooldown apart. -/
def Claim.Spaced (c c' : Claim) : Prop :=
  c.provider = c'.provider → c.accountId = c'.accountId → c.era = c'.era → c.attemptedAt + c'.cooldownMs ≤ c'.attemptedAt

/-- One step of a run does what leases and quarantines promise. -/
structure Lawful (b : Board) (act : Act) (b' : Board) : Prop where
  written : ∀ p a run l, b'.state.lease p a run = some l → b.state.lease p a run ≠ some l →
    ∃ args j clock, act = .acquire args j clock ∧ args.provider = p ∧ args.accountId = a ∧ args.runId = run ∧
      isQuarantined (b.state.quarantine p a) clock = false
  removed : ∀ p a run l, b.state.lease p a run = some l → b'.state.lease p a run = none →
    act = .release p a run ∨
      ∃ args j clock, act = .acquire args j clock ∧ j.pidDead l = true ∧ j.isRunWorkerAlive run l = false
  own : ∀ i answer clock call picked rest, act = .settle i answer clock → b.calls[i]? = some call → call.pending = picked :: rest →
    (b'.state = b.state ∨ b.era call.provider picked.accountId = call.eras picked.accountId) ∧
      ∀ p a, ¬(call.provider = p ∧ picked.accountId = a) → b'.state.quarantine p a = b.state.quarantine p a
  spaced : b'.claims.Pairwise Claim.Spaced

/-- What each step has to respect.

* The clock is not set back, between the start of a call for a lease and its write, over the end of the account's quarantine; and
  the caller's own evidence of a dead run speaks only of runs whose holder is dead and whose worker is not alive.
* No quarantine of an account has the time of one that a probe has claimed on that account and not answered.
* A probe that fails writes so before the record it claimed is claimed again. -/
def Board.Meets (b : Board) : Act → Prop
  | .acquire args j clock =>
    (∀ run lease, j.runIsDead run lease = true → j.pidDead lease = true ∧ j.isRunWorkerAlive run lease = false) ∧
      ∀ q untilMs, b.state.quarantine args.provider args.accountId = some q → q.kind ≠ "manual-clear" →
        q.untilDate = some (.ends untilMs) → ¬(clock < untilMs ∧ untilMs ≤ args.now)
  | .quarantine args => ∀ call ∈ b.calls, call.provider = args.provider → ∀ picked ∈ call.pending,
      picked.accountId = args.accountId → picked.quarantinedAt ≠ args.now
  | .settle i answer _ => ∀ call picked rest, b.calls[i]? = some call → call.pending = picked :: rest → answer.ok = false →
      ∀ q probe, b.state.quarantine call.provider picked.accountId = some q → q.quarantinedAt = picked.quarantinedAt →
        q.probe = some probe → probe.attemptedAt ≤ call.attemptedAt
  | _ => True

def Board.AllMeet (b : Board) : List Act → Prop
  | [] => True
  | act :: acts => b.Meets act ∧ (b.act act).AllMeet acts

variable {b b' : Board} {now : ℤ} {provider accountId : String} {cooldownMs i : ℕ} {call : ProbeCall}
  {picked : Picked} {rest : List Picked} {acts : List Act} {clock : ℤ} {q : Quarantine}

theorem Board.allMeet_append {acts' : List Act} :
    b.AllMeet (acts ++ acts') ↔ b.AllMeet acts ∧ (b.run acts).AllMeet acts' := by
  induction acts generalizing b with
  | nil => simp only [nil_append, Board.AllMeet, Board.run, foldl_nil, true_and]
  | cons act acts ih =>
    show (b.Meets act ∧ (b.act act).AllMeet (acts ++ acts')) ↔ (b.Meets act ∧ (b.act act).AllMeet acts) ∧ _
    rw [ih, and_assoc]
    rfl

/-! ### Leases -/

theorem isQuarantined_later {quarantine : Option Quarantine} (h : isQuarantined quarantine now = false)
    (hclock : ∀ q untilMs, quarantine = some q → q.kind ≠ "manual-clear" → q.untilDate = some (.ends untilMs) →
      ¬(clock < untilMs ∧ untilMs ≤ now)) : isQuarantined quarantine clock = false := by
  cases quarantine with
  | none => rfl
  | some q =>
    by_cases hkind : q.kind = "manual-clear"
    · simp only [isQuarantined, hkind, if_true, Bool.true_eq_false] at h
    · cases huntil : q.untilDate with
      | none => simp only [isQuarantined, hkind, huntil, if_false, Bool.true_eq_false] at h
      | some date =>
        cases date with
        | unreadable => simp only [isQuarantined, hkind, huntil, if_false, Bool.true_eq_false] at h
        | ends untilMs =>
          simp only [isQuarantined, hkind, huntil, if_false, decide_eq_false_iff_not] at h ⊢
          have hover := hclock q untilMs rfl hkind huntil
          omega

/-- The leases of a run change only where a lease is taken or given back. -/
theorem Board.lease_act (b : Board) (act : Act) (p a run : String) (hchange : (b.act act).state.lease p a run ≠ b.state.lease p a run) :
    (∃ args j clock, act = .acquire args j clock ∧ args.provider = p ∧
      isQuarantined (b.state.quarantine args.provider args.accountId) args.now = false ∧
      (b.act act).state.lease p a run = if args.accountId = a ∧ args.runId = run then some args.lease
        else (b.state.lease p a run).filter fun lease => !j.provenDead run lease) ∨
      (act = .release p a run ∧ (b.act act).state.lease p a run = none) := by
  cases act with
  | acquire args j clock =>
    cases acquireNamedAccountLease_cases args j b.state with
    | inl hsame => exact absurd (congrArg (fun s => s.lease p a run) hsame) hchange
    | inr hleased =>
      have hlease : (b.act (.acquire args j clock)).state.lease p a run = _ :=
        (congrArg (fun s => s.lease p a run) hleased.2).trans (lease_leasedState args j b.state p a run)
      by_cases hp : args.provider = p
      · rw [if_pos hp] at hlease
        exact .inl ⟨args, j, clock, rfl, hp, hleased.1, hlease⟩
      · rw [if_neg hp] at hlease
        exact absurd hlease hchange
  | release provider accountId runId =>
    cases lease_release provider accountId runId b.state p a run with
    | inl hsame => exact absurd hsame hchange
    | inr hgone =>
      obtain ⟨rfl, rfl, rfl, hnone⟩ := hgone
      exact .inr ⟨rfl, hnone⟩
  | quarantine args => exact absurd (lease_quarantineProviderAccount args b.state p a run) hchange
  | clear args =>
    cases b.act_clear_cases args with
    | inl hsame => exact absurd (by rw [hsame]) hchange
    | inr hcleared =>
      obtain ⟨state, hclear, hact⟩ := hcleared
      rw [hact] at hchange
      exact absurd ((clearProviderAccountQuarantine_ok hclear).2 p a run) hchange
  | claim provider accounts now cooldownMs =>
    refine absurd ?_ hchange
    show (claimProbes provider accounts now cooldownMs b.state).2.lease p a run = _
    unfold claimProbes
    split
    · rfl
    · suffices h : ∀ acc : List Picked × State, ((enabledAccounts accounts).foldl (claimAccount provider now cooldownMs) acc).2.lease p a run
          = acc.2.lease p a run from h _
      induction enabledAccounts accounts with
      | nil => exact fun acc => rfl
      | cons id ids ih =>
        intro acc
        rw [foldl_cons, ih]
        cases claimAccount_cases provider now cooldownMs acc id with
        | inl hsame => rw [hsame]
        | inr hclaimed =>
          obtain ⟨q, -, -, -, -, hleases⟩ := hclaimed
          exact hleases p a run
  | settle i answer clock =>
    refine absurd ?_ hchange
    cases b.act_settle_cases i answer clock with
    | inl hsame => rw [hsame]
    | inr hanswered =>
      obtain ⟨call, picked, rest, -, -, hact⟩ := hanswered
      rw [hact]
      show (settleProbe call.provider call.attemptedAt picked answer clock b.state).2.lease p a run = _
      cases settleProbe_cases call.provider call.attemptedAt picked answer clock b.state with
      | inl hleft => rw [hleft]
      | inr hdone =>
        obtain ⟨q, -, -, -, -, hleases⟩ := hdone
        exact hleases p a run

/-! ### Quarantines -/

/-- What a run keeps: a claim of the present record is no later than the probe recorded there, and a standing quarantine of the
time a pending answer looks for is the record that was claimed. -/
structure Board.Kept (b : Board) : Prop where
  era_le : ∀ c ∈ b.claims, c.era ≤ b.era c.provider c.accountId
  recorded : ∀ c ∈ b.claims, c.era = b.era c.provider c.accountId →
    ∃ q probe, b.state.quarantine c.provider c.accountId = some q ∧ q.probe = some probe ∧ c.attemptedAt ≤ probe.attemptedAt
  known : ∀ call ∈ b.calls, ∀ picked ∈ call.pending, ∀ q, b.state.quarantine call.provider picked.accountId = some q →
    q.quarantinedAt = picked.quarantinedAt → b.era call.provider picked.accountId = call.eras picked.accountId
  spaced : b.claims.Pairwise Claim.Spaced

theorem Board.Kept.of_same (h : b.Kept) (hera : b'.era = b.era) (hcalls : b'.calls = b.calls)
    (hclaims : b'.claims = b.claims) (hsame : ∀ p a, b'.state.quarantine p a = b.state.quarantine p a) : b'.Kept where
  era_le c hc := by
    rw [hera]
    exact h.era_le c (hclaims ▸ hc)
  recorded c hc := by
    rw [hera, hsame]
    exact h.recorded c (hclaims ▸ hc)
  known call hcall picked hpicked q := by
    rw [hera, hsame]
    exact h.known call (hcalls ▸ hcall) picked hpicked q
  spaced := hclaims ▸ h.spaced

/-- A step that sets or clears the quarantine of one account. -/
theorem Board.Kept.of_moved (h : b.Kept) {new : Option Quarantine}
    (hera : b'.era = nextEra b.era provider accountId) (hcalls : ∀ call ∈ b'.calls, ∃ call₀ ∈ b.calls,
      call.provider = call₀.provider ∧ call.eras = call₀.eras ∧ ∀ picked ∈ call.pending, picked ∈ call₀.pending)
    (hclaims : b'.claims = b.claims)
    (hmoved : ∀ p a, b'.state.quarantine p a = if provider = p ∧ accountId = a then new else b.state.quarantine p a)
    (hfresh : ∀ q, new = some q → ∀ call ∈ b.calls, call.provider = provider → ∀ picked ∈ call.pending,
      picked.accountId = accountId → picked.quarantinedAt ≠ q.quarantinedAt) : b'.Kept where
  era_le c hc := by
    have hle := h.era_le c (hclaims ▸ hc)
    rw [hera, nextEra]
    split
    · exact Nat.le_succ_of_le hle
    · exact hle
  recorded c hc heq := by
    have hle := h.era_le c (hclaims ▸ hc)
    by_cases hat : provider = c.provider ∧ accountId = c.accountId
    · rw [hera, nextEra, if_pos hat] at heq
      omega
    · rw [hera, nextEra, if_neg hat] at heq
      rw [hmoved, if_neg hat]
      exact h.recorded c (hclaims ▸ hc) heq
  known call hcall picked hpicked q hq hat := by
    obtain ⟨call₀, hcall₀, hprovider, heras, hpending⟩ := hcalls call hcall
    rw [hprovider] at hq
    rw [hprovider, heras]
    by_cases hhere : provider = call₀.provider ∧ accountId = picked.accountId
    · rw [hmoved, if_pos hhere] at hq
      exact absurd hat.symm (hfresh q hq call₀ hcall₀ hhere.1.symm picked (hpending picked hpicked) hhere.2.symm)
    · rw [hmoved, if_neg hhere] at hq
      rw [hera, nextEra, if_neg hhere]
      exact h.known call₀ hcall₀ picked (hpending picked hpicked) q hq hat
  spaced := hclaims ▸ h.spaced

theorem Board.Kept.of_marked (h : b.Kept) {q₀ : Quarantine} {mark : ProbeRecord}
    (hera : b'.era = b.era) (hcalls : ∀ call ∈ b'.calls, ∃ call₀ ∈ b.calls,
      call.provider = call₀.provider ∧ call.eras = call₀.eras ∧ ∀ picked ∈ call.pending, picked ∈ call₀.pending)
    (hclaims : b'.claims = b.claims) (hq₀ : b.state.quarantine provider accountId = some q₀)
    (hmarked : ∀ p a, b'.state.quarantine p a =
      if provider = p ∧ accountId = a then some { q₀ with probe := some mark } else b.state.quarantine p a)
    (hlater : ∀ probe, q₀.probe = some probe → probe.attemptedAt ≤ mark.attemptedAt) : b'.Kept where
  era_le c hc := by
    rw [hera]
    exact h.era_le c (hclaims ▸ hc)
  recorded c hc heq := by
    rw [hera] at heq
    obtain ⟨q, probe, hq, hprobe, hle⟩ := h.recorded c (hclaims ▸ hc) heq
    rw [hmarked]
    split
    · next hat =>
      obtain ⟨rfl, rfl⟩ := hat
      obtain rfl : q₀ = q := some.inj (hq₀.symm.trans hq)
      exact ⟨_, mark, rfl, rfl, hle.trans (hlater probe hprobe)⟩
    · exact ⟨q, probe, hq, hprobe, hle⟩
  known call hcall picked hpicked q hq hat := by
    obtain ⟨call₀, hcall₀, hprovider, heras, hpending⟩ := hcalls call hcall
    rw [hprovider] at hq
    rw [hprovider, heras, hera]
    rw [hmarked] at hq
    split at hq
    · next hhere =>
      obtain ⟨rfl, rfl⟩ := hhere
      cases hq
      exact h.known call₀ hcall₀ picked (hpending picked hpicked) q₀ hq₀ hat
    · exact h.known call₀ hcall₀ picked (hpending picked hpicked) q hq hat
  spaced := hclaims ▸ h.spaced

theorem cooledDown_le (h : claimable q now cooldownMs = true) :
    ∀ probe, q.probe = some probe → probe.attemptedAt + cooldownMs ≤ now := by
  intro probe hprobe
  simp only [claimable, cooledDown, hprobe, Bool.and_eq_true, decide_eq_true_eq] at h
  omega

/-- A claim is a cooldown behind every claim of the same record. -/
theorem Board.Kept.claimed (h : b.Kept)
    (hq : b.state.quarantine provider accountId = some q) (hclaim : claimable q now cooldownMs = true) (hera : b'.era = b.era)
    (hcalls : b'.calls = b.calls) (hclaims : b'.claims = b.claims ++ [⟨provider, accountId, b.era provider accountId, now, cooldownMs⟩])
    (hmarked : ∀ p a, b'.state.quarantine p a =
      if provider = p ∧ accountId = a then some { q with probe := some ⟨now, "running", none⟩ } else b.state.quarantine p a) :
    b'.Kept := by
  have hlater : ∀ probe, q.probe = some probe → probe.attemptedAt ≤ now := fun probe hprobe => by
    have hcooled := cooledDown_le hclaim probe hprobe
    omega
  have hsame : Board.Kept { b' with claims := b.claims } :=
    h.of_marked hera (fun call hcall => ⟨call, hcalls ▸ hcall, rfl, rfl, fun _ hp => hp⟩) rfl hq hmarked hlater
  refine ⟨fun c hc => ?_, fun c hc heq => ?_, hsame.known, ?_⟩
  · rw [hclaims] at hc
    cases mem_append.mp hc with
    | inl hold => exact hsame.era_le c hold
    | inr hnew =>
      rw [mem_singleton.mp hnew, hera]
  · rw [hclaims] at hc
    cases mem_append.mp hc with
    | inl hold => exact hsame.recorded c hold heq
    | inr hnew =>
      rw [mem_singleton.mp hnew, hmarked, if_pos ⟨rfl, rfl⟩]
      exact ⟨_, _, rfl, rfl, le_refl _⟩
  · rw [hclaims, pairwise_append]
    refine ⟨h.spaced, pairwise_singleton _ _, fun c hc c' hc' => ?_⟩
    rw [mem_singleton.mp hc']
    intro hp ha heras
    dsimp only at hp ha heras
    have hpresent : c.era = b.era c.provider c.accountId := by rw [heras, hp, ha]
    obtain ⟨q', probe, hq', hprobe, hle⟩ := h.recorded c hc hpresent
    rw [hp, ha, hq] at hq'
    cases hq'
    have hcooled := cooledDown_le hclaim probe hprobe
    dsimp only
    omega

/-- The board while a first phase is at work: its claims so far are on the list. -/
def Board.claiming (b : Board) (provider : String) (now : ℤ) (cooldownMs : ℕ) (acc : List Picked × State) : Board :=
  { b with
    state := acc.2
    claims := b.claims ++ acc.1.map (claimOf b.era provider now cooldownMs) }

theorem Board.Kept.claimAccounts (ids : List String)
    (acc : List Picked × State) (h : (b.claiming provider now cooldownMs acc).Kept) :
    (b.claiming provider now cooldownMs (ids.foldl (claimAccount provider now cooldownMs) acc)).Kept := by
  induction ids generalizing acc with
  | nil => exact h
  | cons id ids ih =>
    rw [foldl_cons]
    refine ih _ ?_
    cases claimAccount_cases provider now cooldownMs acc id with
    | inl hsame => exact hsame.symm ▸ h
    | inr hclaimed =>
      obtain ⟨q, hq, hclaim, hpicked, hmarked, -⟩ := hclaimed
      refine h.claimed hq hclaim rfl rfl ?_ hmarked
      show b.claims ++ List.map _ (claimAccount provider now cooldownMs acc id).1 = _
      rw [hpicked, map_append, ← append_assoc]
      rfl

theorem Board.Kept.claimProbes (h : b.Kept) (provider : String) (accounts : List (String × AccountConfig)) (now : ℤ)
    (cooldownMs : ℕ) : (b.claiming provider now cooldownMs (claimProbes provider accounts now cooldownMs b.state)).Kept := by
  have hnone : (b.claiming provider now cooldownMs ([], b.state)).Kept :=
    h.of_same rfl rfl (append_nil _) fun _ _ => rfl
  unfold Capacity.claimProbes
  split
  · exact hnone
  · exact hnone.claimAccounts _ _

theorem Board.Kept.settle_own (h : b.Kept)
    (hcall : b.calls[i]? = some call) (hpending : call.pending = picked :: rest) (answer : ProbeAnswer) (clock : ℤ) :
    (settleProbe call.provider call.attemptedAt picked answer clock b.state).2 = b.state ∨
      b.era call.provider picked.accountId = call.eras picked.accountId := by
  cases settleProbe_cases call.provider call.attemptedAt picked answer clock b.state with
  | inl hleft => exact .inl (by rw [hleft])
  | inr hdone =>
    obtain ⟨q, hq, hat, -, -, -⟩ := hdone
    exact .inr (h.known call (mem_of_getElem? hcall) picked (hpending ▸ mem_cons_self) q hq hat)

theorem Board.Kept.settle (h : b.Kept)
    (hcall : b.calls[i]? = some call) (hpending : call.pending = picked :: rest) (answer : ProbeAnswer) (clock : ℤ)
    (hmeets : b.Meets (.settle i answer clock)) : (b.settle i call picked rest answer clock).Kept := by
  have hcalls : ∀ call' ∈ (b.settle i call picked rest answer clock).calls, ∃ call₀ ∈ b.calls,
      call'.provider = call₀.provider ∧ call'.eras = call₀.eras ∧ ∀ p ∈ call'.pending, p ∈ call₀.pending := by
    intro call' hcall'
    cases mem_or_eq_of_mem_set hcall' with
    | inl hold => exact ⟨call', hold, rfl, rfl, fun _ hp => hp⟩
    | inr hself =>
      refine ⟨call, mem_of_getElem? hcall, by rw [hself], by rw [hself], fun p hp => ?_⟩
      rw [hself] at hp
      rw [hpending]
      cases hok : answer.ok with
      | true =>
        simp only [hok, if_true, not_mem_nil] at hp
      | false =>
        simp only [hok, Bool.false_eq_true, if_false] at hp
        exact mem_cons_of_mem picked hp
  cases hcases : settleProbe_cases call.provider call.attemptedAt picked answer clock b.state with
  | inl hleft =>
    have hsame : Board.Kept { b.settle i call picked rest answer clock with calls := b.calls } := by
      refine h.of_same ?_ rfl rfl fun p a => ?_
      · show (if (settleProbe _ _ _ _ _ _).1 = _ then _ else _) = _
        rw [hleft]
        rfl
      · show (settleProbe _ _ _ _ _ _).2.quarantine p a = _
        rw [hleft]
    refine ⟨hsame.era_le, hsame.recorded, fun call' hcall' p hp q hq hat => ?_, hsame.spaced⟩
    obtain ⟨call₀, hcall₀, hprovider, heras, hin⟩ := hcalls call' hcall'
    rw [hprovider, heras]
    rw [hprovider] at hq
    exact hsame.known call₀ hcall₀ p (hin p hp) q hq hat
  | inr hdone =>
    obtain ⟨q, hq, hat, hsettled, hquarantine, -⟩ := hdone
    cases hok : answer.ok with
    | true =>
      simp only [hok, if_true] at hsettled hquarantine
      refine h.of_moved ?_ hcalls rfl hquarantine nofun
      show (if (settleProbe _ _ _ _ _ _).1 = _ then _ else _) = _
      rw [hsettled, if_pos rfl]
    | false =>
      simp only [hok, Bool.false_eq_true, if_false] at hsettled hquarantine
      refine h.of_marked ?_ hcalls rfl hq hquarantine fun probe hprobe => ?_
      · show (if (settleProbe _ _ _ _ _ _).1 = _ then _ else _) = _
        rw [hsettled, if_neg (by decide)]
      · exact hmeets call picked rest hcall hpending hok q probe hq hat hprobe

/-- One step keeps it. -/
theorem Board.Kept.act {b : Board} (h : b.Kept) (act : Act) (hmeets : b.Meets act) : (b.act act).Kept := by
  cases act with
  | acquire args j clock =>
    refine h.of_same rfl rfl rfl fun p a => ?_
    show (acquireNamedAccountLease args j b.state).2.quarantine p a = _
    cases acquireNamedAccountLease_cases args j b.state with
    | inl hsame => rw [hsame]
    | inr hleased => rw [hleased.2, quarantine_leasedState]
  | release provider accountId runId => exact h.of_same rfl rfl rfl (quarantine_release provider accountId runId b.state)
  | quarantine args =>
    refine h.of_moved rfl (fun call hcall => ⟨call, hcall, rfl, rfl, fun _ hp => hp⟩) rfl
      (quarantine_quarantineProviderAccount args b.state) fun q hq call hcall hprovider picked hpicked haccount => ?_
    rw [← some.inj hq]
    exact hmeets call hcall hprovider picked hpicked haccount
  | clear args =>
    cases b.act_clear_cases args with
    | inl hsame => exact hsame.symm ▸ h
    | inr hcleared =>
      obtain ⟨state, hclear, hact⟩ := hcleared
      rw [hact]
      exact h.of_moved rfl (fun call hcall => ⟨call, hcall, rfl, rfl, fun _ hp => hp⟩) rfl
        (clearProviderAccountQuarantine_ok hclear).1 nofun
  | claim provider accounts now cooldownMs =>
    have hclaimed := h.claimProbes provider accounts now cooldownMs
    refine ⟨hclaimed.era_le, hclaimed.recorded, fun call hcall picked hpicked q hq hat => ?_, hclaimed.spaced⟩
    cases mem_append.mp hcall with
    | inl hold => exact hclaimed.known call hold picked hpicked q hq hat
    | inr hnew =>
      -- the eras of the new call are those of this moment
      rw [mem_singleton.mp hnew]
      rfl
  | settle i answer clock =>
    cases b.act_settle_cases i answer clock with
    | inl hsame => exact hsame.symm ▸ h
    | inr hanswered =>
      obtain ⟨call, picked, rest, hcall, hpending, hact⟩ := hanswered
      rw [hact]
      exact h.settle hcall hpending answer clock hmeets

theorem Board.Kept.run (h : b.Kept) (hmeets : b.AllMeet acts) : (b.run acts).Kept := by
  induction acts generalizing b with
  | nil => exact h
  | cons act acts ih => exact ih (h.act act hmeets.1) hmeets.2

theorem Board.Kept.start {b : Board} (hcalls : b.calls = []) (hclaims : b.claims = []) : b.Kept where
  era_le c hc := by
    rw [hclaims] at hc
    cases hc
  recorded c hc := by
    rw [hclaims] at hc
    cases hc
  known call hcall := by
    rw [hcalls] at hcall
    cases hcall
  spaced := by
    rw [hclaims]
    exact List.Pairwise.nil

theorem Board.quarantine_settle {answer : ProbeAnswer}
    (hcall : b.calls[i]? = some call) (hpending : call.pending = picked :: rest) (p a : String)
    (hother : ¬(call.provider = p ∧ picked.accountId = a)) :
    (b.act (.settle i answer clock)).state.quarantine p a = b.state.quarantine p a := by
  simp only [Board.act, hcall, hpending]
  show (settleProbe call.provider call.attemptedAt picked answer clock b.state).2.quarantine p a = _
  cases settleProbe_cases call.provider call.attemptedAt picked answer clock b.state with
  | inl hleft => rw [hleft]
  | inr hdone =>
    obtain ⟨q, -, -, -, hquarantine, -⟩ := hdone
    rw [hquarantine, if_neg hother]

/-- In every run whose steps respect `Meets`, every step does what leases and quarantines promise. -/
theorem leases_and_quarantines_kept (b : Board) (hcalls : b.calls = []) (hclaims : b.claims = []) (acts : List Act) (act : Act)
    (hmeets : b.AllMeet (acts ++ [act])) : Lawful (b.run acts) act (b.run (acts ++ [act])) := by
  obtain ⟨hbefore, hact, -⟩ := Board.allMeet_append.mp hmeets
  have hkept := (Board.Kept.start hcalls hclaims).run hbefore
  have hrun : b.run (acts ++ [act]) = (b.run acts).act act := foldl_concat _ _ _ _
  rw [hrun]
  refine ⟨fun p a run l hafter hnot => ?_, fun p a run l hhad hgone => ?_, fun i answer clock call picked rest heq hcall hpending => ?_,
    (hkept.act act hact).spaced⟩
  · rcases Board.lease_act _ act p a run (fun hsame => hnot (hsame ▸ hafter)) with ⟨args, j, clock, rfl, rfl, hfree, hlease⟩ | ⟨-, hnone⟩
    · rw [hlease] at hafter
      split at hafter
      · next hown =>
        obtain ⟨rfl, rfl⟩ := hown
        exact ⟨args, j, clock, rfl, rfl, rfl, rfl, isQuarantined_later hfree hact.2⟩
      · exact absurd (filter_eq_some_iff.mp hafter).1 hnot
    · rw [hnone] at hafter
      cases hafter
  · rcases Board.lease_act _ act p a run (fun hsame => by rw [hsame, hhad] at hgone; cases hgone) with
      ⟨args, j, clock, rfl, rfl, -, hlease⟩ | ⟨hrelease, -⟩
    · rw [hlease] at hgone
      split at hgone
      · cases hgone
      · rw [hhad, filter_eq_none_iff] at hgone
        have hdead : j.provenDead run l = true := by
          have hkeep := hgone l rfl
          revert hkeep
          cases j.provenDead run l <;> simp
        refine .inr ⟨args, j, clock, rfl, ?_⟩
        cases Bool.or_eq_true _ _ ▸ hdead with
        | inl hpid =>
          rw [Bool.and_eq_true, Bool.not_eq_true'] at hpid
          exact hpid
        | inr hevidence => exact hact.1 run l hevidence
    · exact .inl hrelease
  · subst heq
    refine ⟨?_, Board.quarantine_settle hcall hpending⟩
    simp only [Board.act, hcall, hpending]
    exact hkept.settle_own hcall hpending answer clock

/-! ### Sample runs -/

namespace Sample

def inventory : List (String × AccountConfig) := [("a", ⟨"a", false, some ⟨"codex-home", "/home/a", none⟩, none⟩)]

def start : Board := ⟨emptyState, fun _ _ => 0, [], []⟩

def login : QuarantineArgs := ⟨"openai-codex", "a", "auth-token", "manual-clear", none, none, 1000⟩

def hold : QuarantineArgs := ⟨"openai-codex", "a", "operator-hold", "manual-clear", none, none, 1000⟩

/-- A login is quarantined and claimed by a probe, and a person replaces the quarantine in the same millisecond. -/
def replaced : List Act := [.quarantine login, .claim "openai-codex" inventory 1000 1800000, .quarantine hold]

def lifted : Act := .settle 0 ⟨true, none⟩ 5000

def self : HolderRecord := ⟨some "host", none, none, 41, some "7"⟩

def leaseOfRun : AcquireArgs := ⟨inventory, "openai-codex", "a", some "seat", "run-1", none, none, false, self, 900⟩

def allAlive : Judgements := ⟨fun _ => .held, fun _ _ => false, fun _ _ => false⟩

/-- A run holds the account, and the person replaces the quarantine a millisecond later. -/
def replacedLater : List Act :=
  [.acquire leaseOfRun allAlive 901, .quarantine login, .claim "openai-codex" inventory 1000 1800000,
    .quarantine { hold with now := 1001 }]

example : ((start.run replaced).state.quarantine "openai-codex" "a").map (·.reasonCode) = some "operator-hold" := by decide

example : ((start.run (replacedLater ++ [lifted])).state.quarantine "openai-codex" "a").map (·.reasonCode) = some "operator-hold" := by
  decide

end Sample

open Sample in
/-- The quarantine of a later millisecond stays. -/
theorem leases_and_quarantines_kept_replaced_later :
    start.AllMeet (replacedLater ++ [lifted]) ∧ Lawful (start.run replacedLater) lifted (start.run (replacedLater ++ [lifted])) := by
  have hmeets : start.AllMeet (replacedLater ++ [lifted]) := by
    refine ⟨⟨fun run lease h => ?_, fun q untilMs hq => ?_⟩, ?_, trivial, ?_, ?_, trivial⟩
    · cases h
    · have hnone : start.state.quarantine "openai-codex" "a" = none := by decide
      rw [show start.state.quarantine leaseOfRun.provider leaseOfRun.accountId = none from hnone] at hq
      cases hq
    · intro call hcall
      cases hcall
    · have htimes : ∀ call ∈ (start.run (replacedLater.take 3)).calls, ∀ picked ∈ call.pending, picked.quarantinedAt ≠ 1001 := by
        decide
      intro call hcall _ picked hpicked _
      exact htimes call hcall picked hpicked
    · intro call picked rest _ _ hfailed
      cases hfailed
  exact ⟨hmeets, leases_and_quarantines_kept start rfl rfl replacedLater lifted hmeets⟩

open Sample in
/-- A probe lifts the quarantine a person set in the millisecond of the one it claimed. -/
theorem replaced_quarantine_lifted : ¬∀ (b : Board), b.calls = [] → b.claims = [] → ∀ (acts : List Act) (act : Act),
    Lawful (b.run acts) act (b.run (acts ++ [act])) := by
  intro hclaim
  have hlawful := hclaim start rfl rfl replaced lifted
  have hcalls : (start.run replaced).calls.map (fun call => (call.provider, call.pending, call.eras "a")) =
      [("openai-codex", [⟨"a", 1000⟩], 1)] := by decide
  cases hcall : (start.run replaced).calls with
  | nil =>
    rw [hcall] at hcalls
    cases hcalls
  | cons call rest =>
    rw [hcall, map_cons] at hcalls
    obtain ⟨hprovider, hpending, heras⟩ := (Prod.mk.injEq .. ▸ (List.cons.inj hcalls).1).imp id (Prod.mk.inj)
    have hfirst : (start.run replaced).calls[0]? = some call := by rw [hcall, getElem?_cons_zero]
    cases (hlawful.own 0 ⟨true, none⟩ 5000 call ⟨"a", 1000⟩ [] rfl hfirst hpending).1 with
    | inl hsame =>
      have hquarantine := congrArg (fun s => s.quarantine "openai-codex" "a") hsame
      revert hquarantine
      decide
    | inr hera =>
      rw [hprovider, heras] at hera
      revert hera
      decide

end Forgent.Capacity
