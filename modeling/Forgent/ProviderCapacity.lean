import Forgent.Members

/-!
# Account leases and quarantines

`src/runner/dispatch/provider-capacity.mjs`: the lease state of the provider accounts, and the calls that read and write it
under the state lock.  A date text of a clock value is that value, in milliseconds.
-/

namespace Forgent.Capacity

open Std.ExtTreeMap

/-- The end of a temporary quarantine, as `Date.parse` reads its text. -/
inductive EndDate where
  | ends (ms : ℤ)
  | unreadable
deriving DecidableEq

/-- The last probe of a quarantined account. -/
structure ProbeRecord where
  attemptedAt : ℤ
  status : String
  detail : Option String
deriving DecidableEq

structure Quarantine where
  kind : String
  reasonCode : String
  untilDate : Option EndDate
  detail : Option String
  quarantinedAt : ℤ
  probe : Option ProbeRecord
deriving DecidableEq

/-- The identity of a process, as `selfRecord` writes it. -/
structure HolderRecord where
  host : Option String
  bootId : Option String
  pidNs : Option String
  pid : ℕ
  startTime : Option String
deriving DecidableEq

structure Lease where
  runId : String
  assignmentId : Option String
  pid : Option ℕ
  processStartTime : Option String
  record : Option HolderRecord
  acquiredAt : ℤ
deriving DecidableEq

structure Account where
  quarantine : Option Quarantine
  leases : Table Lease
  lastSelectedAt : Option ℤ
  lastFaultAt : Option ℤ
  lastReclaimedAt : Option ℤ

/-- What an account is before anything is known of it. -/
def Account.blank : Account := ⟨none, ∅, none, none, none⟩

structure ProviderState where
  accounts : Table Account

structure AssignmentRecord where
  accountId : String
  selectedAt : ℤ

structure AuditRecord where
  action : String
  status : String
  clearedAt : ℤ
  provider : String
  accountId : String
  previousQuarantine : Option Quarantine
  reason : Option String
  caller : Option String

/-- `state.json`. -/
structure State where
  providers : Table ProviderState
  assignments : Table AssignmentRecord
  audit : List AuditRecord

def emptyState : State := ⟨∅, ∅, []⟩

/-- One account of the state, when there is a record of it. -/
def State.account (s : State) (provider accountId : String) : Option Account :=
  s.providers[provider]?.bind (·.accounts[accountId]?)

/-- `state.providers[provider] ??= { accounts: {} }`. -/
def State.provider (s : State) (provider : String) : ProviderState := s.providers[provider]?.getD ⟨∅⟩

def accountState (p : ProviderState) (accountId : String) : Account := p.accounts[accountId]?.getD .blank

def ProviderState.setAccount (p : ProviderState) (accountId : String) (acct : Account) : ProviderState :=
  ⟨p.accounts.insert accountId acct⟩

def State.setProvider (s : State) (provider : String) (p : ProviderState) : State :=
  { s with providers := s.providers.insert provider p }

def State.write (s : State) (provider accountId : String) (acct : Account) : State :=
  s.setProvider provider ((s.provider provider).setAccount accountId acct)

/-! ### Quarantines and dead leases -/

def isQuarantined (quarantine : Option Quarantine) (now : ℤ) : Bool :=
  match quarantine with
  | none => false
  | some q =>
    if q.kind = "manual-clear" then true
    else match q.untilDate with
      | none => true
      | some .unreadable => true
      | some (.ends untilMs) => decide (now < untilMs)

inductive Liveness where
  | dead
  | held
deriving DecidableEq

/-- What a call is told about holders and runs at the moment it asks. -/
structure Judgements where
  resolveHolderLiveness : HolderRecord → Liveness
  isRunWorkerAlive : String → Lease → Bool
  runIsDead : String → Lease → Bool

/-- `lease.record ?? { pid: lease.pid, processStartTime: lease.processStartTime }`, the judge taking either name of the start
time. -/
def Lease.holder (lease : Lease) (pid : ℕ) : HolderRecord := lease.record.getD ⟨none, none, none, pid, lease.processStartTime⟩

def Judgements.pidDead (j : Judgements) (lease : Lease) : Bool :=
  match lease.pid with
  | none => false
  | some pid => j.resolveHolderLiveness (lease.holder pid) = .dead

def Judgements.provenDead (j : Judgements) (runId : String) (lease : Lease) : Bool :=
  (j.pidDead lease && !j.isRunWorkerAlive runId lease) || j.runIsDead runId lease

/-- `reclaimDeadLeases`, on one account. -/
def reclaimAccount (j : Judgements) (now : ℤ) (acct : Account) : Account :=
  { acct with
    leases := acct.leases.filter fun runId lease => !j.provenDead runId lease
    lastReclaimedAt := if acct.leases.toList.any fun e => j.provenDead e.1 e.2 then some now else acct.lastReclaimedAt }

def reclaimDeadLeases (j : Judgements) (now : ℤ) (p : ProviderState) : ProviderState :=
  ⟨p.accounts.map fun _ acct => reclaimAccount j now acct⟩

/-! ### Leases -/

structure CredentialSource where
  kind : String
  home : String
  files : Option (List String)
deriving DecidableEq

/-- An account of the inventory. -/
structure AccountConfig where
  label : String
  disabled : Bool
  credentialSource : Option CredentialSource
  credentialSources : Option (List (String × CredentialSource))
deriving DecidableEq

def credentialSourceForCli (account : AccountConfig) (cli : Option String) : Option CredentialSource :=
  match account.credentialSources with
  | some sources => (cli.filter (· ≠ "")).bind fun name => List.lookup name sources
  | none => account.credentialSource

/-- The arguments of `acquireNamedAccountLease`.  `accounts` is the inventory of the provider, `confined` says that the
machine accounts are out of reach, and `self` is the calling process. -/
structure AcquireArgs where
  accounts : List (String × AccountConfig)
  provider : String
  accountId : String
  assignmentId : Option String
  runId : String
  cli : Option String
  accountViewDigest : Option String
  confined : Bool
  self : HolderRecord
  now : ℤ

structure LeaseReceipt where
  provider : String
  accountId : String
  runId : String
  acquiredAt : ℤ
  accountViewDigest : Option String
deriving DecidableEq

structure Selection where
  provider : String
  accountId : String
  accountLabel : String
  selectedAt : ℤ
  runId : String
  assignmentId : Option String
  pid : ℕ
  leaseReceipt : LeaseReceipt
  credentialSource : Option CredentialSource
  credentialSources : Option (List (String × CredentialSource))
deriving DecidableEq

/-- `unmanaged` is the answer null, `conflict` a refusal for the reason `provider-capacity.lease-conflict`, and `confined` the
error `config-accounts-unavailable-confined`. -/
inductive LeaseAnswer where
  | unmanaged
  | confined
  | conflict (detail : String)
  | selected (selection : Selection)
deriving DecidableEq

def AcquireArgs.name (a : AcquireArgs) : String := "account \"" ++ a.provider ++ "/" ++ a.accountId ++ "\""

def AcquireArgs.lease (a : AcquireArgs) : Lease :=
  ⟨a.runId, a.assignmentId, some a.self.pid, a.self.startTime, some a.self, a.now⟩

def AcquireArgs.selection (a : AcquireArgs) (account : AccountConfig) : Selection :=
  ⟨a.provider, a.accountId, account.label, a.now, a.runId, a.assignmentId, a.self.pid,
    ⟨a.provider, a.accountId, a.runId, a.now, a.accountViewDigest⟩, credentialSourceForCli account a.cli, account.credentialSources⟩

/-- The provider as `acquireNamedAccountLease` has it once the dead leases are gone. -/
def reclaimed (a : AcquireArgs) (j : Judgements) (s : State) : ProviderState := reclaimDeadLeases j a.now (s.provider a.provider)

/-- What `acquireNamedAccountLease` writes. -/
def leasedState (a : AcquireArgs) (j : Judgements) (s : State) : State :=
  let acct := accountState (reclaimed a j s) a.accountId
  let leased := { acct with lastSelectedAt := some a.now, leases := acct.leases.insert a.runId a.lease }
  let assignments := match a.assignmentId with
    | none => s.assignments
    | some id => if id = "" then s.assignments else s.assignments.insert (a.provider ++ ":" ++ id) ⟨a.accountId, a.now⟩
  { s.setProvider a.provider ((reclaimed a j s).setAccount a.accountId leased) with assignments }

/-- What `acquireNamedAccountLease` does under the lock. -/
def leaseUnderLock (a : AcquireArgs) (j : Judgements) (account : AccountConfig) (s : State) : LeaseAnswer × State :=
  if isQuarantined (accountState (reclaimed a j s) a.accountId).quarantine a.now then (.conflict (a.name ++ " is quarantined"), s)
  else (.selected (a.selection account), leasedState a j s)

def acquireNamedAccountLease (a : AcquireArgs) (j : Judgements) (s : State) : LeaseAnswer × State :=
  if a.provider = "" ∨ a.runId = "" then (.unmanaged, s)
  else if a.confined then (.confined, s)
  else if a.accounts = [] then (.unmanaged, s)
  else match if a.accountId = "" then none else a.accounts.lookup a.accountId with
    | none => (.conflict (a.name ++ " is not in the inventory"), s)
    | some account =>
      if account.disabled then (.conflict (a.name ++ " is disabled"), s)
      else match a.cli.filter (· ≠ "") with
        | none => leaseUnderLock a j account s
        | some cli =>
          if (credentialSourceForCli account (some cli)).isNone
          then (.conflict (a.name ++ " holds no \"" ++ cli ++ "\" login store"), s)
          else leaseUnderLock a j account s

def releaseProviderAccountLease (provider accountId runId : String) (s : State) : Bool × State :=
  if provider = "" ∨ accountId = "" ∨ runId = "" then (false, s)
  else match s.account provider accountId with
    | none => (false, s)
    | some acct =>
      if acct.leases[runId]?.isNone then (false, s)
      else (true, s.write provider accountId { acct with leases := acct.leases.erase runId })

/-! ### Quarantines -/

/-- The arguments of `quarantineProviderAccount`, `now` being the clock it reads under the lock. -/
structure QuarantineArgs where
  provider : String
  accountId : String
  reasonCode : String
  quarantineKind : String
  untilDate : Option EndDate
  detail : Option String
  now : ℤ

def QuarantineArgs.quarantine (q : QuarantineArgs) : Quarantine :=
  ⟨q.quarantineKind, q.reasonCode, q.untilDate, q.detail, q.now, none⟩

def quarantineProviderAccount (q : QuarantineArgs) (s : State) : State :=
  let acct := accountState (s.provider q.provider) q.accountId
  s.write q.provider q.accountId { acct with lastFaultAt := some q.now, quarantine := some q.quarantine }

structure ClearArgs where
  accounts : List (String × AccountConfig)
  provider : String
  accountId : String
  reason : Option String
  force : Bool
  caller : Option String
  now : ℤ

def clearProviderAccountQuarantine (c : ClearArgs) (s : State) : Except String State :=
  if (c.accounts.lookup c.accountId).isNone
  then .error ("provider-capacity clear-quarantine refused: unknown provider/account " ++ c.provider ++ "/" ++ c.accountId)
  else
    let previous := (s.account c.provider c.accountId).bind (·.quarantine)
    if previous.isNone ∧ c.force = false
    then .error ("provider-capacity clear-quarantine refused: account " ++ c.provider ++ "/" ++ c.accountId ++ " is not quarantined")
    else
      let target := { accountState (s.provider c.provider) c.accountId with quarantine := none }
      let record : AuditRecord := ⟨"clear-quarantine", "cleared", c.now, c.provider, c.accountId, previous, c.reason, c.caller⟩
      .ok { s.write c.provider c.accountId target with audit := s.audit ++ [record] }

/-! ### Probes -/

/-- An account a probe claimed, and the time of the quarantine it claimed it for. -/
structure Picked where
  accountId : String
  quarantinedAt : ℤ
deriving DecidableEq

/-- Whether the last probe of a quarantine is long enough ago. -/
def cooledDown (q : Quarantine) (now : ℤ) (cooldownMs : ℕ) : Bool :=
  match q.probe with
  | none => true
  | some probe => decide (cooldownMs ≤ now - probe.attemptedAt)

/-- Whether a quarantine may be probed. -/
def claimable (q : Quarantine) (now : ℤ) (cooldownMs : ℕ) : Bool :=
  decide (q.kind = "manual-clear") && decide (q.reasonCode = "auth-token") && cooledDown q now cooldownMs

/-- The first phase of a probe, at one account. -/
def claimAccount (provider : String) (now : ℤ) (cooldownMs : ℕ) (acc : List Picked × State) (accountId : String) :
    List Picked × State :=
  match acc.2.account provider accountId with
  | none => acc
  | some acct => match acct.quarantine with
    | none => acc
    | some q =>
      if claimable q now cooldownMs then
        (acc.1 ++ [⟨accountId, q.quarantinedAt⟩],
          acc.2.write provider accountId { acct with quarantine := some { q with probe := some ⟨now, "running", none⟩ } })
      else acc

/-- The accounts of the inventory that are not disabled. -/
def enabledAccounts (accounts : List (String × AccountConfig)) : List String :=
  (accounts.filter fun e => !e.2.disabled).map Prod.fst

/-- The first phase of `probeQuarantinedAccounts`: what it claims while it holds the lock. -/
def claimProbes (provider : String) (accounts : List (String × AccountConfig)) (now : ℤ) (cooldownMs : ℕ) (s : State) :
    List Picked × State :=
  if (enabledAccounts accounts).any fun id => !isQuarantined ((s.account provider id).bind (·.quarantine)) now then ([], s)
  else (enabledAccounts accounts).foldl (claimAccount provider now cooldownMs) ([], s)

/-- What the real call gave. -/
structure ProbeAnswer where
  ok : Bool
  detail : Option String

inductive Settled where
  | left
  | lifted
  | marked
deriving DecidableEq

/-- The last phase of a probe: what it writes under the lock once its call is over. -/
def settleProbe (provider : String) (attemptedAt : ℤ) (picked : Picked) (answer : ProbeAnswer) (now : ℤ) (s : State) :
    Settled × State :=
  match s.account provider picked.accountId with
  | none => (.left, s)
  | some target => match target.quarantine with
    | none => (.left, s)
    | some q =>
      if q.quarantinedAt ≠ picked.quarantinedAt then (.left, s)
      else if answer.ok then
        let record : AuditRecord := ⟨"clear-quarantine", "cleared", now, provider, picked.accountId, some q,
          some "one real call succeeded", some "fgos provider-capacity probe"⟩
        (.lifted, { s.write provider picked.accountId { target with quarantine := none } with audit := s.audit ++ [record] })
      else
        let marked := { q with probe := some ⟨attemptedAt, "failed", answer.detail⟩ }
        (.marked, s.write provider picked.accountId { target with quarantine := some marked })

/-! ### What the calls read -/

def State.quarantine (s : State) (provider accountId : String) : Option Quarantine :=
  (s.account provider accountId).bind (·.quarantine)

def State.lease (s : State) (provider accountId runId : String) : Option Lease :=
  (s.account provider accountId).bind (·.leases[runId]?)

theorem account_setProvider (s : State) (provider p' a : String) (p : ProviderState) :
    (s.setProvider provider p).account p' a = if provider = p' then p.accounts[a]? else s.account p' a := by
  show ((s.providers.insert provider p)[p']?).bind _ = _
  rw [getElem?_insert]
  simp only [compare_key]
  split
  · rfl
  · rfl

theorem accounts_setAccount (p : ProviderState) (a a' : String) (acct : Account) :
    (p.setAccount a acct).accounts[a']? = if a = a' then some acct else p.accounts[a']? := by
  show (p.accounts.insert a acct)[a']? = _
  rw [getElem?_insert]
  simp only [compare_key]

theorem accounts_provider (s : State) (provider a : String) : (s.provider provider).accounts[a]? = s.account provider a := by
  unfold State.provider State.account
  cases s.providers[provider]? with
  | none => exact getElem?_empty
  | some p => rfl

theorem account_write (s : State) (provider accountId p' a' : String) (acct : Account) :
    (s.write provider accountId acct).account p' a' =
      if provider = p' ∧ accountId = a' then some acct else s.account p' a' := by
  rw [State.write, account_setProvider]
  by_cases hp : provider = p'
  · subst hp
    simp only [if_true, accounts_setAccount, accounts_provider, true_and]
  · simp only [hp, if_false, false_and]

theorem quarantine_write (s : State) (provider accountId p' a' : String) (acct : Account) :
    (s.write provider accountId acct).quarantine p' a' =
      if provider = p' ∧ accountId = a' then acct.quarantine else s.quarantine p' a' := by
  unfold State.quarantine
  rw [account_write]
  split
  · rfl
  · rfl

theorem lease_write (s : State) (provider accountId p' a' runId : String) (acct : Account) :
    (s.write provider accountId acct).lease p' a' runId =
      if provider = p' ∧ accountId = a' then acct.leases[runId]? else s.lease p' a' runId := by
  unfold State.lease
  rw [account_write]
  split
  · rfl
  · rfl

theorem leases_accountState (s : State) (provider accountId runId : String) :
    (accountState (s.provider provider) accountId).leases[runId]? = s.lease provider accountId runId := by
  unfold accountState State.lease
  rw [accounts_provider]
  cases s.account provider accountId with
  | none => exact getElem?_empty
  | some acct => rfl

variable {accountId : String} {acct : Account} {s : State}

theorem lease_write_keeps (s : State) {provider : String}
    (hkeeps : ∀ runId : String, acct.leases[runId]? = s.lease provider accountId runId) (p' a' runId : String) :
    (s.write provider accountId acct).lease p' a' runId = s.lease p' a' runId := by
  rw [lease_write]
  split
  · next h =>
    obtain ⟨rfl, rfl⟩ := h
    exact hkeeps runId
  · rfl

theorem lease_eq_of_account {provider : String}
    (h : s.account provider accountId = some acct) (runId : String) : s.lease provider accountId runId = acct.leases[runId]? := by
  unfold State.lease
  rw [h]
  rfl

theorem quarantine_eq_of_account {provider : String}
    (h : s.account provider accountId = some acct) : s.quarantine provider accountId = acct.quarantine := by
  unfold State.quarantine
  rw [h]
  rfl

/-! ### What each call changes -/

theorem account_reclaimed (a : AcquireArgs) (j : Judgements) (s : State) (accountId : String) :
    (reclaimed a j s).accounts[accountId]? = (s.account a.provider accountId).map (reclaimAccount j a.now) := by
  show ((s.provider a.provider).accounts.map fun _ acct => reclaimAccount j a.now acct)[accountId]? = _
  rw [getElem?_map, accounts_provider]

theorem quarantine_reclaimed (a : AcquireArgs) (j : Judgements) (s : State) (accountId : String) :
    (accountState (reclaimed a j s) accountId).quarantine = s.quarantine a.provider accountId := by
  unfold accountState State.quarantine
  rw [account_reclaimed]
  cases s.account a.provider accountId with
  | none | some acct => rfl

theorem leases_reclaimAccount (j : Judgements) (now : ℤ) (acct : Account) (runId : String) :
    (reclaimAccount j now acct).leases[runId]? = acct.leases[runId]?.filter fun lease => !j.provenDead runId lease := by
  show (acct.leases.filter _)[runId]? = _
  rw [getElem?_filter']

theorem leases_reclaimed (a : AcquireArgs) (j : Judgements) (s : State) (accountId runId : String) :
    (accountState (reclaimed a j s) accountId).leases[runId]? =
      (s.lease a.provider accountId runId).filter fun lease => !j.provenDead runId lease := by
  unfold accountState State.lease
  rw [account_reclaimed]
  cases s.account a.provider accountId with
  | none => exact getElem?_empty
  | some acct => exact leases_reclaimAccount j a.now acct runId

theorem acquireNamedAccountLease_cases (a : AcquireArgs) (j : Judgements) (s : State) :
    (acquireNamedAccountLease a j s).2 = s ∨
      (isQuarantined (s.quarantine a.provider a.accountId) a.now = false ∧ (acquireNamedAccountLease a j s).2 = leasedState a j s) := by
  have hlock : ∀ account, (leaseUnderLock a j account s).2 = s ∨
      (isQuarantined (s.quarantine a.provider a.accountId) a.now = false ∧ (leaseUnderLock a j account s).2 = leasedState a j s) := by
    intro account
    unfold leaseUnderLock
    rw [quarantine_reclaimed]
    split
    · exact .inl rfl
    · next hfree => exact .inr ⟨Bool.eq_false_iff.mpr hfree, rfl⟩
  unfold acquireNamedAccountLease
  split
  · exact .inl rfl
  split
  · exact .inl rfl
  split
  · exact .inl rfl
  split
  · exact .inl rfl
  split
  · exact .inl rfl
  split
  · exact hlock _
  split
  · exact .inl rfl
  · exact hlock _

theorem quarantine_leasedState (a : AcquireArgs) (j : Judgements) (s : State) (p' a' : String) :
    (leasedState a j s).quarantine p' a' = s.quarantine p' a' := by
  show ((s.setProvider _ _).account p' a').bind _ = _
  rw [account_setProvider]
  split
  · next hp =>
    subst hp
    rw [accounts_setAccount]
    split
    · next ha =>
      subst ha
      exact quarantine_reclaimed a j s a.accountId
    · rw [account_reclaimed]
      show _ = (s.account a.provider a').bind _
      cases s.account a.provider a' with
      | none | some acct => rfl
  · rfl

theorem lease_leasedState (a : AcquireArgs) (j : Judgements) (s : State) (p' a' runId : String) :
    (leasedState a j s).lease p' a' runId = if a.provider = p' then
        if a.accountId = a' ∧ a.runId = runId then some a.lease
        else (s.lease p' a' runId).filter fun lease => !j.provenDead runId lease else s.lease p' a' runId := by
  show ((s.setProvider _ _).account p' a').bind _ = _
  rw [account_setProvider]
  split
  · next hp =>
    subst hp
    rw [accounts_setAccount]
    by_cases ha : a.accountId = a'
    · subst ha
      rw [if_pos rfl]
      show ((accountState (reclaimed a j s) a.accountId).leases.insert a.runId a.lease)[runId]? = _
      rw [getElem?_insert, leases_reclaimed]
      simp only [compare_key, true_and]
    · rw [if_neg ha, if_neg (fun h => ha h.1), account_reclaimed]
      show _ = ((s.account a.provider a').bind _).filter _
      cases s.account a.provider a' with
      | none => rfl
      | some acct => exact leases_reclaimAccount j a.now acct runId
  · rfl

theorem quarantine_release (provider accountId runId : String) (s : State) (p' a' : String) :
    (releaseProviderAccountLease provider accountId runId s).2.quarantine p' a' = s.quarantine p' a' := by
  unfold releaseProviderAccountLease
  split
  · rfl
  split
  · rfl
  · next acct hacct =>
    split
    · rfl
    · show (s.write provider accountId _).quarantine p' a' = _
      rw [quarantine_write]
      split
      · next h =>
        obtain ⟨rfl, rfl⟩ := h
        exact (quarantine_eq_of_account hacct).symm
      · rfl

theorem lease_release (provider accountId runId : String) (s : State) (p' a' run : String) :
    (releaseProviderAccountLease provider accountId runId s).2.lease p' a' run = s.lease p' a' run ∨
      (provider = p' ∧ accountId = a' ∧ runId = run ∧
        (releaseProviderAccountLease provider accountId runId s).2.lease p' a' run = none) := by
  unfold releaseProviderAccountLease
  split
  · exact .inl rfl
  split
  · exact .inl rfl
  · next acct hacct =>
    split
    · exact .inl rfl
    · show (s.write provider accountId _).lease p' a' run = _ ∨ (_ ∧ _ ∧ _ ∧ (s.write provider accountId _).lease p' a' run = _)
      rw [lease_write]
      split
      · next h =>
        obtain ⟨rfl, rfl⟩ := h
        rw [getElem?_erase]
        simp only [compare_key, true_and]
        split
        · next hrun => exact .inr ⟨hrun, rfl⟩
        · exact .inl (lease_eq_of_account hacct run).symm
      · exact .inl rfl

theorem quarantine_quarantineProviderAccount (q : QuarantineArgs) (s : State) (p' a' : String) :
    (quarantineProviderAccount q s).quarantine p' a' =
      if q.provider = p' ∧ q.accountId = a' then some q.quarantine else s.quarantine p' a' :=
  quarantine_write s _ _ _ _ _

theorem lease_quarantineProviderAccount (q : QuarantineArgs) (s : State) (p' a' runId : String) :
    (quarantineProviderAccount q s).lease p' a' runId = s.lease p' a' runId := by
  unfold quarantineProviderAccount
  refine lease_write_keeps s (fun runId => ?_) p' a' runId
  exact leases_accountState s q.provider q.accountId runId

theorem clearProviderAccountQuarantine_ok {c : ClearArgs} {s' : State} (h : clearProviderAccountQuarantine c s = .ok s') :
    (∀ p' a', s'.quarantine p' a' = if c.provider = p' ∧ c.accountId = a' then none else s.quarantine p' a') ∧
      ∀ p' a' runId, s'.lease p' a' runId = s.lease p' a' runId := by
  unfold clearProviderAccountQuarantine at h
  split at h
  · cases h
  · dsimp only at h
    split at h
    · cases h
    · cases h
      exact ⟨fun p' a' => quarantine_write s _ _ _ _ _,
        lease_write_keeps s fun runId => leases_accountState s c.provider c.accountId runId⟩

/-- One account of the first phase of a probe: it is passed over, or its quarantine is claimed. -/
theorem claimAccount_cases (provider : String) (now : ℤ) (cooldownMs : ℕ) (acc : List Picked × State) (accountId : String) :
    claimAccount provider now cooldownMs acc accountId = acc ∨
      ∃ q, acc.2.quarantine provider accountId = some q ∧ claimable q now cooldownMs = true ∧
        (claimAccount provider now cooldownMs acc accountId).1 = acc.1 ++ [⟨accountId, q.quarantinedAt⟩] ∧
        (∀ p' a', (claimAccount provider now cooldownMs acc accountId).2.quarantine p' a' =
          if provider = p' ∧ accountId = a' then some { q with probe := some ⟨now, "running", none⟩ } else acc.2.quarantine p' a') ∧
        ∀ p' a' runId, (claimAccount provider now cooldownMs acc accountId).2.lease p' a' runId = acc.2.lease p' a' runId := by
  cases hacct : acc.2.account provider accountId with
  | none =>
    refine .inl ?_
    simp only [claimAccount, hacct]
  | some acct =>
    cases hq : acct.quarantine with
    | none =>
      refine .inl ?_
      simp only [claimAccount, hacct, hq]
    | some q =>
      by_cases hclaim : claimable q now cooldownMs = true
      · refine .inr ⟨q, (quarantine_eq_of_account hacct).trans hq, hclaim, ?_⟩
        have heq : claimAccount provider now cooldownMs acc accountId = (acc.1 ++ [⟨accountId, q.quarantinedAt⟩],
            acc.2.write provider accountId { acct with quarantine := some { q with probe := some ⟨now, "running", none⟩ } }) := by
          simp only [claimAccount, hacct, hq, hclaim, if_true]
        rw [heq]
        exact ⟨rfl, fun p' a' => quarantine_write acc.2 _ _ _ _ _,
          lease_write_keeps acc.2 fun runId => (lease_eq_of_account hacct runId).symm⟩
      · refine .inl ?_
        simp only [claimAccount, hacct, hq, hclaim, if_false, Bool.false_eq_true]

/-- The last phase of a probe: it leaves the state alone, or it finds a quarantine of the time it claimed and lifts it or marks
it as failed. -/
theorem settleProbe_cases (provider : String) (attemptedAt : ℤ) (picked : Picked) (answer : ProbeAnswer) (now : ℤ) (s : State) :
    settleProbe provider attemptedAt picked answer now s = (.left, s) ∨
      ∃ q, s.quarantine provider picked.accountId = some q ∧ q.quarantinedAt = picked.quarantinedAt ∧
        (settleProbe provider attemptedAt picked answer now s).1 = (if answer.ok then .lifted else .marked) ∧
        (∀ p' a', (settleProbe provider attemptedAt picked answer now s).2.quarantine p' a' =
          if provider = p' ∧ picked.accountId = a' then
            if answer.ok then none else some { q with probe := some ⟨attemptedAt, "failed", answer.detail⟩ }
          else s.quarantine p' a') ∧
        ∀ p' a' runId, (settleProbe provider attemptedAt picked answer now s).2.lease p' a' runId = s.lease p' a' runId := by
  cases hacct : s.account provider picked.accountId with
  | none =>
    refine .inl ?_
    simp only [settleProbe, hacct]
  | some target =>
    cases hq : target.quarantine with
    | none =>
      refine .inl ?_
      simp only [settleProbe, hacct, hq]
    | some q =>
      by_cases hat : q.quarantinedAt = picked.quarantinedAt
      · refine .inr ⟨q, (quarantine_eq_of_account hacct).trans hq, hat, ?_⟩
        have hkeeps : ∀ runId : String, target.leases[runId]? = s.lease provider picked.accountId runId := fun runId =>
          (lease_eq_of_account hacct runId).symm
        cases hok : answer.ok with
        | true =>
          simp only [settleProbe, hacct, hq, hat, hok, ne_eq, not_true_eq_false, if_false, if_true, true_and]
          exact ⟨fun p' a' => quarantine_write s _ _ _ _ _, lease_write_keeps s hkeeps⟩
        | false =>
          simp only [settleProbe, hacct, hq, hat, hok, ne_eq, not_true_eq_false, if_false, Bool.false_eq_true, true_and]
          exact ⟨fun p' a' => quarantine_write s _ _ _ _ _, lease_write_keeps s hkeeps⟩
      · refine .inl ?_
        simp only [settleProbe, hacct, hq, hat, ne_eq, not_false_eq_true, if_true]

end Forgent.Capacity
