import Forgent.Mailbox.Sweep

/-!
# Registration of heads, and forgetting a key

A head's process identity is opaque text; the store's judgement of the head that is stored under a key arrives
with the registration.  `Registration` says everything a registration does to a record.
-/

namespace Forgent.Mailbox

/-! ### Short names -/

/-- The length of a short name's suffix before any collision. -/
def suffixLen : ℕ := 2

def isOwnSuffix (text : String) : Bool := text.length = suffixLen && text.toList.all fun c => c.isDigit || c.isLower

/-- `<project>-<cli>-<suffix>`, the project part cut so that the whole name fits the header bound. -/
def compose (limits : Limits) (project : String) (cli : Cli) (suffix : String) : Option String :=
  let tail := "-" ++ cli.text ++ "-" ++ suffix
  if limits.frameMaxHeaderChars < byteLen tail then none
  else
    match (project.toList.map fun c => if inNameAlphabet c then c else '-').take
      (limits.frameMaxHeaderChars - byteLen tail) with
    | [] => none
    | c :: part => some (String.ofList (c :: part) ++ tail)

theorem compose_eq_some {limits : Limits} {project suffix name : String} {cli : Cli}
    (h : compose limits project cli suffix = some name) :
    name.length ≤ limits.frameMaxHeaderChars ∧ suffix.toList.length < limits.frameMaxHeaderChars := by
  rw [compose] at h
  split at h
  · cases h
  · split at h
    · cases h
    · rename_i hfits c part hpart
      cases h
      have htail := length_le_byteLen ("-" ++ cli.text ++ "-" ++ suffix)
      have hsuffix := length_le_byteLen suffix
      have hbytes : byteLen suffix < byteLen ("-" ++ cli.text ++ "-" ++ suffix) := by
        rw [byteLen_append, byteLen_append, byteLen_append]
        have hdash : byteLen "-" = 1 := rfl
        omega
      have hlen : (c :: part).length ≤ limits.frameMaxHeaderChars - byteLen ("-" ++ cli.text ++ "-" ++ suffix) := by
        rw [← hpart]
        exact List.length_take_le _ _
      rw [← String.length_toList, String.toList_append, List.length_append, String.toList_ofList]
      rw [List.length_cons] at hlen ⊢
      omega

namespace MailboxState

def taken (s : MailboxState) (name : String) : Bool := s.bindingList.any fun b => b.name = name

/-- Drawn hex, one character longer per collision, at most `rounds` times. -/
def allocateDrawn (s : MailboxState) (limits : Limits) (project : String) (cli : Cli) :
    ℕ → ℕ → IdSource → Option String × IdSource
  | 0, _, ids => (none, ids)
  | rounds + 1, len, ids =>
    let (suffix, ids) := ids.drawnHex len
    match compose limits project cli suffix with
    | none => (none, ids)
    | some name =>
      if s.taken name then allocateDrawn s limits project cli rounds (len + 1) ids else (some name, ids)

/-- Allocates a free short name: the head's own two characters when valid and free, otherwise drawn hex. -/
def allocate (s : MailboxState) (limits : Limits) (project : String) (cli : Cli) (ownSuffix : Option String)
    (ids : IdSource) : Option String × IdSource :=
  match ownSuffix.filter isOwnSuffix with
  | none => s.allocateDrawn limits project cli (limits.frameMaxHeaderChars + 1) suffixLen ids
  | some own =>
    match compose limits project cli own with
    | none => (none, ids)
    | some name =>
      if s.taken name then s.allocateDrawn limits project cli (limits.frameMaxHeaderChars + 1) (suffixLen + 1) ids
      else (some name, ids)

variable {s : MailboxState} {limits : Limits} {name : String} {cli : Cli} {ids : IdSource}

theorem allocateDrawn_eq_some {project : String} {rounds len : ℕ}
    (h : (s.allocateDrawn limits project cli rounds len ids).1 = some name) :
    s.taken name = false ∧ name.length ≤ limits.frameMaxHeaderChars := by
  induction rounds generalizing len ids with
  | zero => cases h
  | succ rounds ih =>
    rw [allocateDrawn] at h
    simp only at h
    split at h
    · cases h
    · rename_i drawn hdrawn
      split at h
      · exact ih h
      · rename_i hfree
        cases h
        exact ⟨Bool.not_eq_true _ ▸ hfree, (compose_eq_some hdrawn).1⟩

theorem allocate_eq_some {project : String}
    {ownSuffix : Option String} (h : (s.allocate limits project cli ownSuffix ids).1 = some name) :
    s.taken name = false ∧ name.length ≤ limits.frameMaxHeaderChars := by
  rw [allocate] at h
  split at h
  · exact allocateDrawn_eq_some h
  · split at h
    · cases h
    · rename_i own hown
      split at h
      · exact allocateDrawn_eq_some h
      · rename_i hfree
        cases h
        exact ⟨Bool.not_eq_true _ ▸ hfree, (compose_eq_some hown).1⟩

end MailboxState

/-! ### Registration -/

/-- The store's judgement of the stored binding against the registering head. -/
structure StoredHead where
  sameHead : Bool
  liveness : Liveness
deriving DecidableEq

structure RegisterRequest where
  key : WriterKey
  cli : Cli
  project : String
  ownSuffix : Option String
  head : String
  handle : Option String

inductive Registered
  | created (name : String) (generation : Generation)
  | refreshed (name : String) (generation : Generation)
  | replaced (name : String) (generation : Generation)
deriving DecidableEq

inductive RegisterRefusal
  | judgementMismatch
  | conflict
  | deferred
  | nameDoesNotFit
  | keyTooLong
  | handleTooLong
  | generationExhausted
deriving DecidableEq

/-- What a registration does with the bindings. -/
inductive Takeover
  /-- A new binding; `retire` names the key whose binding the same head held, which goes. -/
  | new (retire : Option WriterKey) (generation : Generation)
  /-- The key's own stored head is dead. -/
  | replace (generation : Generation)
  /-- The same head again. -/
  | refresh (name : String) (generation : Generation)

namespace MailboxState

def takeover (s : MailboxState) (req : RegisterRequest) (judged : Option StoredHead) : Except RegisterRefusal Takeover :=
  match s.bindings[req.key]?, judged with
  | none, none =>
    match s.bindingList.find? fun b => b.head = req.head with
    | none => .ok (.new none .first)
    | some held =>
      match held.generation.next with
      | none => .error .generationExhausted
      | some generation => .ok (.new (some held.key) generation)
  | some binding, some judged =>
    if judged.sameHead then .ok (.refresh binding.name binding.generation)
    else
      match judged.liveness with
      | .alive => .error .conflict
      | .unknown => .error .deferred
      | .dead =>
        match binding.generation.next with
        | none => .error .generationExhausted
        | some generation => .ok (.replace generation)
  | _, _ => .error .judgementMismatch

def newBinding (req : RegisterRequest) (name : String) (generation : Generation) (now : Timestamp) : Binding where
  key := req.key
  name := name
  cli := req.cli
  generation := generation
  head := req.head
  handle := req.handle
  registeredAt := now
  lastSeen := now
  lastDrainAt := none
  stopBlocks := 0

/-- Adds the binding of a key that has none. -/
def create (s : MailboxState) (req : RegisterRequest) (name : String) (generation : Generation) (now : Timestamp) :
    MailboxState :=
  { s with bindings := s.bindings.insert req.key (newBinding req name generation now) }

/-- Drops the records of a generation of the key, which can no longer send. -/
def dropGenerationRecords (s : MailboxState) (key : WriterKey) (generation : Generation) : MailboxState :=
  { s with
    lifetime := s.lifetime.filter fun k _ => !lifetimeIsOf k key (some generation)
    wakeLifetime := s.wakeLifetime.filter fun k _ => !wakeLifetimeIsFrom k key (some generation)
    exchanges := s.exchanges.filter fun k _ => !exchangeInvolves k key.text
    budget := s.budget.filter fun account _ => account ≠ key.text }

def retire (s : MailboxState) (key : WriterKey) : MailboxState :=
  match s.bindings[key]? with
  | none => s
  | some old => { s with bindings := s.bindings.erase key }.dropGenerationRecords key old.generation

/-- The binding of a key its dead head gave up. -/
def replacedBinding (old : Binding) (req : RegisterRequest) (generation : Generation) (now : Timestamp) : Binding :=
  { old with
    generation, lastDrainAt := none, stopBlocks := 0, head := req.head, handle := req.handle, registeredAt := now,
    lastSeen := now }

/-- Registers a head.  The same head again, and every refusal, leave the record as it was. -/
def register (s : MailboxState) (limits : Limits) (req : RegisterRequest) (judged : Option StoredHead) (now : Timestamp)
    (ids : IdSource) : Except RegisterRefusal Registered × MailboxState × IdSource :=
  if limits.frameMaxHeaderChars < req.key.text.length then (.error .keyTooLong, s, ids)
  else if req.handle.any fun h => limits.frameMaxHeaderChars < h.length then (.error .handleTooLong, s, ids)
  else
    match s.takeover req judged with
    | .error refusal => (.error refusal, s, ids)
    | .ok (.refresh name generation) => (.ok (.refreshed name generation), s, ids)
    | .ok (.new retired generation) =>
      -- the name is allocated before the sweep, which never changes a binding
      match s.allocate limits req.project req.cli req.ownSuffix ids with
      | (none, ids) => (.error .nameDoesNotFit, s, ids)
      | (some name, ids) =>
        let (s, ids) := s.sweep limits now ids
        let s := s.create req name generation s.lastNow
        match retired with
        | none => (.ok (.created name generation), s, ids)
        | some oldKey => (.ok (.replaced name generation), s.retire oldKey, ids)
    | .ok (.replace generation) =>
      let (s, ids) := s.sweep limits now ids
      match s.bindings[req.key]? with
      | none => (.error .judgementMismatch, s, ids)
      | some old =>
        let s := { s with bindings := s.bindings.insert req.key (replacedBinding old req generation s.lastNow) }
        (.ok (.replaced old.name generation), s.dropGenerationRecords req.key old.generation, ids)

/-- Removes every record of the key: its binding, the headers and notices that name it, and its entries in the
keyed maps and the per-party counters. -/
def forgetKey (s : MailboxState) (key : WriterKey) : Bool × MailboxState :=
  (s.bindings.contains key,
    { s with
      bindings := s.bindings.erase key
      messages := s.messages.filter fun h => h.fromKey ≠ key && h.toKey ≠ key
      notices := s.notices.filter fun n => n.toKey ≠ key && n.aboutTo ≠ key
      noticeLast := s.noticeLast.filter fun mark _ => !noticeMarkIsOf mark key
      lifetime := s.lifetime.filter fun k _ => !lifetimeIsOf k key none
      wakeLifetime := s.wakeLifetime.filter fun k _ => !wakeLifetimeIsFrom k key none
      exchanges := s.exchanges.filter fun k _ => !exchangeInvolves k key.text
      budget := s.budget.filter fun account _ => account ≠ key.text
      counters := s.counters.forget key.text })

inductive Registration (limits : Limits) (req : RegisterRequest) (now : Timestamp) (s : MailboxState) :
    Option StoredHead → Except RegisterRefusal Registered → MailboxState → Prop
  | refused (judged : Option StoredHead) (refusal : RegisterRefusal) :
      Registration limits req now s judged (.error refusal) s
  | refreshed {binding : Binding} {judged : StoredHead} (hbound : s.bindings[req.key]? = some binding)
      (hsame : judged.sameHead = true) :
      Registration limits req now s (some judged) (.ok (.refreshed binding.name binding.generation)) s
  | created {swept : MailboxState} {name : String} (hswept : Swept limits now s swept)
      (hunbound : s.bindings[req.key]? = none) (hname : s.taken name = false ∧ name.length ≤ limits.frameMaxHeaderChars)
      (hfree : ∀ b ∈ s.bindingList, b.head ≠ req.head) :
      Registration limits req now s none (.ok (.created name .first)) (swept.create req name .first swept.lastNow)
  | moved {swept : MailboxState} {name : String} {held : Binding} {generation : Generation}
      (hswept : Swept limits now s swept) (hunbound : s.bindings[req.key]? = none)
      (hname : s.taken name = false ∧ name.length ≤ limits.frameMaxHeaderChars)
      (hheld : s.bindingList.find? (fun b => b.head = req.head) = some held)
      (hgeneration : held.generation.next = some generation) :
      Registration limits req now s none (.ok (.replaced name generation))
        ((swept.create req name generation swept.lastNow).retire held.key)
  | replaced {swept : MailboxState} {old : Binding} {generation : Generation} {judged : StoredHead}
      (hswept : Swept limits now s swept) (hbound : s.bindings[req.key]? = some old)
      (hother : judged.sameHead = false) (hdead : judged.liveness = .dead)
      (hgeneration : old.generation.next = some generation) :
      Registration limits req now s (some judged) (.ok (.replaced old.name generation))
        ({ swept with
            bindings := swept.bindings.insert req.key (replacedBinding old req generation swept.lastNow)
          }.dropGenerationRecords req.key old.generation)

variable {s : MailboxState} {limits : Limits} {req : RegisterRequest} {judged : Option StoredHead} {now : Timestamp}

/-- Why a registration goes on. -/
def Justified (s : MailboxState) (req : RegisterRequest) (judged : Option StoredHead) : Takeover → Prop
  | .refresh name generation => ∃ binding j, s.bindings[req.key]? = some binding ∧ judged = some j ∧
      j.sameHead = true ∧ name = binding.name ∧ generation = binding.generation
  | .new none generation => s.bindings[req.key]? = none ∧ judged = none ∧ generation = .first ∧
      ∀ b ∈ s.bindingList, b.head ≠ req.head
  | .new (some key) generation => s.bindings[req.key]? = none ∧ judged = none ∧
      ∃ held, s.bindingList.find? (fun b => b.head = req.head) = some held ∧ key = held.key ∧
        held.generation.next = some generation
  | .replace generation => ∃ old j, s.bindings[req.key]? = some old ∧ judged = some j ∧ j.sameHead = false ∧
      j.liveness = .dead ∧ old.generation.next = some generation

theorem takeover_justified {t : Takeover} (h : s.takeover req judged = .ok t) : s.Justified req judged t := by
  unfold takeover at h
  cases hbound : s.bindings[req.key]? with
  | none =>
    cases judged with
    | some j => simp only [hbound, reduceCtorEq] at h
    | none =>
      simp only [hbound] at h
      split at h
      · rename_i hfind
        cases h
        refine ⟨hbound, rfl, rfl, ?_⟩
        intro b hb hhead
        exact List.find?_eq_none.mp hfind b hb (decide_eq_true hhead)
      · rename_i held hfind
        split at h
        · cases h
        · rename_i generation hnext
          cases h
          exact ⟨hbound, rfl, held, hfind, rfl, hnext⟩
  | some binding =>
    cases judged with
    | none => simp only [hbound, reduceCtorEq] at h
    | some j =>
      simp only [hbound] at h
      split at h
      · rename_i hsame
        cases h
        exact ⟨binding, j, hbound, rfl, hsame, rfl, rfl⟩
      · rename_i hother
        split at h
        · cases h
        · cases h
        · rename_i hdead
          split at h
          · cases h
          · rename_i generation hnext
            cases h
            exact ⟨binding, j, hbound, rfl, Bool.not_eq_true _ ▸ hother, hdead, hnext⟩

theorem registration (s : MailboxState) (limits : Limits) (req : RegisterRequest) (judged : Option StoredHead)
    (now : Timestamp) (ids : IdSource) : Registration limits req now s judged (s.register limits req judged now ids).1
      (s.register limits req judged now ids).2.1 := by
  rw [register]
  split
  · exact .refused _ _
  · split
    · exact .refused _ _
    · cases htakeover : s.takeover req judged with
      | error refusal => exact .refused _ _
      | ok t =>
        have hcase := takeover_justified htakeover
        cases t with
        | refresh name generation =>
          obtain ⟨binding, j, hbound, rfl, hsame, rfl, rfl⟩ := hcase
          exact .refreshed hbound hsame
        | new retired generation =>
          simp only
          split
          · exact .refused _ _
          · rename_i name ids' hallocate
            have hname := allocate_eq_some (congrArg Prod.fst hallocate)
            cases retired with
            | none =>
              obtain ⟨hunbound, rfl, rfl, hfree⟩ := hcase
              exact .created (swept ..) hunbound hname hfree
            | some key =>
              obtain ⟨hunbound, rfl, held, hheld, rfl, hnext⟩ := hcase
              exact .moved (swept ..) hunbound hname hheld hnext
        | replace generation =>
          obtain ⟨old, j, hbound, rfl, hother, hdead, hnext⟩ := hcase
          have hswept := swept s limits now ids
          have hold : (s.sweep limits now ids).1.bindings[req.key]? = some old := by rw [hswept.bindings, hbound]
          simp only [hold]
          exact .replaced hswept hbound hother hdead hnext

end MailboxState

end Forgent.Mailbox
