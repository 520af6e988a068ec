import Forgent.Mailbox.Run

/-!
# The bindings of a record

Names stay distinct and short, and every binding stays under its own key.  That a head holds one binding only is
kept by a creation, which looks for a binding of the same head, but not by the takeover of a dead head's key, which
does not: `binding_unique` says what it needs.
-/

namespace Forgent.Mailbox

open List Std.ExtTreeMap Function Option

/-- What names a head: all of a binding but its times, its handle and the count of its Stop blocks. -/
structure Identity where
  key : WriterKey
  name : String
  cli : Cli
  generation : Generation
  head : String
deriving DecidableEq

def Binding.identity (b : Binding) : Identity := ⟨b.key, b.name, b.cli, b.generation, b.head⟩

namespace MailboxState

def bound (s : MailboxState) (key : WriterKey) : Option Identity := s.bindings[key]?.map Binding.identity

variable {s s' swept : MailboxState} {limits : Limits} {key : WriterKey} {now : Timestamp} {i : Identity}
  {b : Binding} {k : WriterKey}

theorem bound_eq_none : s.bound key = none ↔ s.bindings[key]? = none := map_eq_none_iff

theorem bound_eq_some : s.bound key = some i ↔ ∃ b, s.bindings[key]? = some b ∧ b.identity = i :=
  map_eq_some_iff

theorem bound_congr (h : s'.bindings = s.bindings) : s'.bound = s.bound := by
  funext key
  rw [bound, bound, h]

theorem currentGeneration_eq_bound (s : MailboxState) (key : WriterKey) :
    s.currentGeneration key = (s.bound key).map Identity.generation := by
  rw [currentGeneration, bound, Option.map_map]
  rfl

theorem contains_eq_bound (s : MailboxState) (key : WriterKey) : s.bindings.contains key = (s.bound key).isSome := by
  rw [contains_eq_isSome_getElem?, bound, isSome_map]

theorem exists_bound_of_mem (h : b ∈ s.bindingList) : ∃ key, s.bound key = some b.identity := by
  obtain ⟨key, hkey⟩ := mem_bindingList.mp h
  exact ⟨key, bound_eq_some.mpr ⟨b, hkey, rfl⟩⟩

theorem bound_insert (s : MailboxState) (key : WriterKey) (b : Binding) :
    { s with bindings := s.bindings.insert key b }.bound = Function.update s.bound key (some b.identity) := by
  funext k
  rw [bound, Std.ExtTreeMap.getElem?_insert, update_apply]
  simp only [Std.LawfulEqCmp.compare_eq_iff_eq, eq_comm (a := k)]
  split
  · rfl
  · rfl

theorem bound_erase (s : MailboxState) (key : WriterKey) :
    { s with bindings := s.bindings.erase key }.bound = Function.update s.bound key none := by
  funext k
  rw [bound, getElem?_erase, update_apply]
  simp only [Std.LawfulEqCmp.compare_eq_iff_eq, eq_comm (a := k)]
  split
  · rfl
  · rfl

theorem bound_retire (s : MailboxState) (key : WriterKey) : (s.retire key).bound = Function.update s.bound key none := by
  rw [retire]
  cases hold : s.bindings[key]? with
  | none => exact (update_eq_self_iff.mpr (bound_eq_none.mpr hold).symm).symm
  | some old => exact bound_erase s key

theorem bound_insert_same {s : MailboxState} {key : WriterKey} {b' : Binding} (hb : s.bindings[key]? = some b)
    (hsame : b'.identity = b.identity) : { s with bindings := s.bindings.insert key b' }.bound = s.bound := by
  rw [bound_insert, update_eq_self_iff, hsame]
  exact (bound_eq_some.mpr ⟨b, hb, rfl⟩).symm

theorem bound_stampDrain (s : MailboxState) (key : WriterKey) (now : Timestamp) : (s.stampDrain key now).bound = s.bound := by
  rw [stampDrain]
  cases hb : s.bindings[key]? with
  | none => rfl
  | some b => exact bound_insert_same hb (by rfl)

theorem bound_noteStop (s : MailboxState) (key : WriterKey) (generation : Generation) (blocked : Bool) :
    (s.noteStop key generation blocked).2.bound = s.bound := by
  rw [noteStop]
  cases hb : s.bindings[key]? with
  | none => rfl
  | some b =>
    show (if b.generation ≠ generation then (false, s) else _ : Bool × MailboxState).2.bound = _
    split
    · rfl
    · exact bound_insert_same hb (by rfl)

/-! ### What a call does to the bindings -/

/-- Everything a call does to what is bound. -/
inductive Rebinding (limits : Limits) (s s' : MailboxState) : Op → Answer → Prop
  | kept (op : Op) (answer : Answer) (h : s'.bound = s.bound)
      (hanswer : ∀ name generation, answer = .registered (.ok (.refreshed name generation)) →
        ∃ req judged now i, op = .register req (some judged) now ∧ judged.sameHead = true ∧
          s.bound req.key = some i ∧ i.generation = generation)
      (hwrites : ∀ name generation, answer ≠ .registered (.ok (.created name generation)) ∧
        answer ≠ .registered (.ok (.replaced name generation))) : Rebinding limits s s' op answer
  | forgot (key : WriterKey) (answer : Answer) (h : s'.bound = Function.update s.bound key none) :
      Rebinding limits s s' (.forgetKey key) answer
  | created {req : RegisterRequest} {name : String} (now : Timestamp) (hunbound : s.bound req.key = none)
      (hfits : name.length ≤ limits.frameMaxHeaderChars) (hname : ∀ k i, s.bound k = some i → i.name ≠ name)
      (hfree : ∀ k i, s.bound k = some i → i.head ≠ req.head)
      (h : s'.bound = Function.update s.bound req.key (some ⟨req.key, name, req.cli, .first, req.head⟩)) :
      Rebinding limits s s' (.register req none now) (.registered (.ok (.created name .first)))
  | moved {req : RegisterRequest} {name : String} {k₀ held : WriterKey} {i : Identity} {generation : Generation}
      (now : Timestamp) (hunbound : s.bound req.key = none) (hfits : name.length ≤ limits.frameMaxHeaderChars)
      (hname : ∀ k i, s.bound k = some i → i.name ≠ name) (hheld : s.bound k₀ = some i) (hkey : i.key = held)
      (hfind : (s.bindingList.find? fun b => b.head = req.head).map Binding.identity = some i)
      (hhead : i.head = req.head) (hgeneration : i.generation.next = some generation)
      (h : s'.bound = Function.update
        (Function.update s.bound req.key (some ⟨req.key, name, req.cli, generation, req.head⟩)) held none) :
      Rebinding limits s s' (.register req none now) (.registered (.ok (.replaced name generation)))
  | replaced {req : RegisterRequest} {judged : StoredHead} {i : Identity} {generation : Generation} (now : Timestamp)
      (hold : s.bound req.key = some i) (hother : judged.sameHead = false) (hdead : judged.liveness = .dead)
      (hgeneration : i.generation.next = some generation)
      (h : s'.bound = Function.update s.bound req.key (some { i with generation, head := req.head })) :
      Rebinding limits s s' (.register req (some judged) now) (.registered (.ok (.replaced i.name generation)))

theorem name_ne_of_taken {name : String} (h : s.taken name = false) (hi : s.bound k = some i) : i.name ≠ name := by
  obtain ⟨b, hb, rfl⟩ := bound_eq_some.mp hi
  intro heq
  have hfree := List.any_eq_false.mp h b (mem_bindingList.mpr ⟨k, hb⟩)
  exact hfree (decide_eq_true heq)

theorem head_ne_of_free {head : String} (h : ∀ b ∈ s.bindingList, b.head ≠ head)
    (hi : s.bound k = some i) : i.head ≠ head := by
  obtain ⟨b, hb, rfl⟩ := bound_eq_some.mp hi
  exact h b (mem_bindingList.mpr ⟨k, hb⟩)

theorem Registration.rebinding {req : RegisterRequest} {judged : Option StoredHead}
    {result : Except RegisterRefusal Registered} (h : Registration limits req now s judged result s') :
    Rebinding limits s s' (.register req judged now) (.registered result) := by
  cases h with
  | refused =>
    refine .kept _ _ rfl (fun name generation hanswer => ?_) (fun name generation => ?_)
    · cases hanswer
    · exact ⟨by simp, by simp⟩
  | refreshed hbound hsame =>
    refine .kept _ _ rfl (fun name generation hanswer => ?_) (fun name generation => ?_)
    · cases hanswer
      exact ⟨_, _, _, _, rfl, hsame, bound_eq_some.mpr ⟨_, hbound, rfl⟩, rfl⟩
    · exact ⟨by simp, by simp⟩
  | created hswept hunbound hname hfree =>
    refine .created now (bound_eq_none.mpr hunbound) hname.2 (fun k i => name_ne_of_taken hname.1)
      (fun k i => head_ne_of_free hfree) ?_
    rw [create, bound_insert, bound_congr hswept.bindings]
    rfl
  | moved hswept hunbound hname hheld hgeneration =>
    rename_i swept name held generation
    obtain ⟨k₀, hk₀⟩ := exists_bound_of_mem (mem_of_find?_eq_some hheld)
    have hhead : held.head = req.head := by simpa using find?_some hheld
    refine .moved now (bound_eq_none.mpr hunbound) hname.2 (fun k i => name_ne_of_taken hname.1) hk₀ rfl
      (by rw [hheld]; rfl) hhead hgeneration ?_
    rw [bound_retire, create, bound_insert, bound_congr hswept.bindings]
    rfl
  | replaced hswept hbound hother hdead hgeneration =>
    rename_i swept old generation judged
    have hi : s.bound req.key = some old.identity := bound_eq_some.mpr ⟨old, hbound, rfl⟩
    refine .replaced (i := old.identity) now hi hother hdead hgeneration ?_
    have hafter := bound_insert swept req.key (replacedBinding old req generation swept.lastNow)
    rw [bound_congr hswept.bindings] at hafter
    exact hafter

theorem Sending.bindings {req : SendRequest} {result : Except Refusal SendOutcome}
    (h : Sending limits req now s result s') : s'.bindings = s.bindings := by
  cases h with
  | refused hswept htried => exact (congrArg MailboxState.bindings htried).trans hswept.bindings
  | recorded _ hswept htried _ hafter =>
    exact hafter.bindings.trans ((congrArg MailboxState.bindings htried).trans hswept.bindings)

theorem Leaving.bindings {req : RemoteSend} {result : Except Refusal MessageId}
    (h : Leaving limits req now s result s') : s'.bindings = s.bindings := by
  cases h with
  | mk _ hswept htried => exact (congrArg MailboxState.bindings htried).trans hswept.bindings

theorem Ingesting.bindings {mail : RemoteMail} {dead : List WriterKey} {result : Except Refusal Ingested}
    (h : Ingesting limits mail dead now s result s') : s'.bindings = s.bindings := by
  cases h with
  | duplicate hswept => exact hswept.bindings
  | refused hswept _ htried => exact (congrArg MailboxState.bindings htried).trans hswept.bindings
  | recorded _ hswept _ htried _ hafter =>
    exact hafter.bindings.trans ((congrArg MailboxState.bindings htried).trans hswept.bindings)

theorem Claiming.bound {key : WriterKey} {generation : Generation} {checkpoint : Checkpoint} {result : Claim}
    (h : Claiming limits key generation checkpoint now s result s') : s'.bound = s.bound := by
  cases h with
  | idle => rfl
  | drained _ _ hswept => rw [bound_stampDrain, bound_congr hswept.bindings]
  | @took swept drained hold picks _ _ hswept hdrained =>
    obtain ⟨messages, notices, htook⟩ := exists_takeAll hold swept.lastNow picks drained
    have hbindings : (takeAll hold swept.lastNow picks drained).2.bindings = drained.bindings := by rw [htook]
    rw [bound_congr hbindings, hdrained, bound_stampDrain, bound_congr hswept.bindings]

theorem rebinding (limits : Limits) (s : MailboxState) (ids : IdSource) (op : Op) :
    Rebinding limits s (op.call limits s ids).2 op (op.call limits s ids).1 := by
  have kept {op : Op} {answer : Answer} {s' : MailboxState} (h : s'.bound = s.bound)
      (hanswer : ∀ result, answer ≠ .registered result) : Rebinding limits s s' op answer :=
    .kept _ _ h (fun _ _ heq => absurd heq (hanswer _)) (fun _ _ => ⟨hanswer _, hanswer _⟩)
  unfold Op.call
  cases op with dsimp only
  | register req judged now => exact (registration s limits req judged now ids).rebinding
  | forgetKey key => exact .forgot key _ (bound_erase s key)
  | send req now => exact kept (bound_congr (sending s limits req now ids).bindings) (by simp)
  | admitRemote req now => exact kept (bound_congr (leaving s limits req now ids).bindings) (by simp)
  | ingestRemote mail dead now =>
    exact kept (bound_congr (ingesting s limits mail dead now ids).bindings) (by simp)
  | claim key generation checkpoint now =>
    exact kept (claiming s limits key generation checkpoint now ids).bound (by simp)
  | finish key generation token now => exact kept rfl (by simp)
  | noteStop key generation blocked => exact kept (bound_noteStop s key generation blocked) (by simp)
  | sweep now => exact kept (bound_congr (swept s limits now ids).bindings) (by simp)
  | countRemoteDrop reason machine now | advanceRemoteCursor cursor | queueRemoteRefusal id code | clearRemoteRefusals told
  | markRemoteSettled told => exact kept rfl (by simp)

end MailboxState

/-! ### One binding per head -/

/-- Names are distinct and fit the header bound, and every binding is stored under its own key. -/
structure Named (limits : Limits) (bound : WriterKey → Option Identity) : Prop where
  name : ∀ {k k' i i'}, bound k = some i → bound k' = some i' → i.name = i'.name → k = k'
  fits : ∀ {k i}, bound k = some i → i.name.length ≤ limits.frameMaxHeaderChars
  key : ∀ {k i}, bound k = some i → i.key = k

/-- At most one binding holds any given head. -/
def OnePerHead (bound : WriterKey → Option Identity) : Prop :=
  ∀ k k' i i', bound k = some i → bound k' = some i' → i.head = i'.head → k = k'

section

variable {bound : WriterKey → Option Identity} {limits : Limits} {key held : WriterKey} {i : Identity} {k : WriterKey}
  {j : Identity}

theorem eq_some_of_update (h : Function.update bound key (some i) k = some j) :
    (key = k ∧ i = j) ∨ (key ≠ k ∧ bound k = some j) := by
  rw [update_apply] at h
  split at h
  · rename_i heq
    exact .inl ⟨heq.symm, some.inj h⟩
  · rename_i hne
    exact .inr ⟨Ne.symm hne, h⟩

theorem eq_some_of_update_none (h : Function.update bound key none k = some j) : key ≠ k ∧ bound k = some j := by
  rw [update_apply] at h
  split at h
  · cases h
  · rename_i hne
    exact ⟨Ne.symm hne, h⟩

theorem Named.bind (hs : Named limits bound) (hkey : i.key = key) (hfits : i.name.length ≤ limits.frameMaxHeaderChars)
    (hname : ∀ k j, bound k = some j → j.name = i.name → key = k) : Named limits (Function.update bound key (some i)) where
  name := by
    intro k k' j j' hj hj' heq
    rcases eq_some_of_update hj with ⟨hk, rfl⟩ | ⟨_, hj⟩
    · rcases eq_some_of_update hj' with ⟨hk', _⟩ | ⟨_, hj'⟩
      · exact hk.symm.trans hk'
      · exact hk.symm.trans (hname _ _ hj' heq.symm)
    · rcases eq_some_of_update hj' with ⟨hk', rfl⟩ | ⟨_, hj'⟩
      · exact (hname _ _ hj heq).symm.trans hk'
      · exact hs.name hj hj' heq
  fits := by
    intro k j hj
    rcases eq_some_of_update hj with ⟨_, rfl⟩ | ⟨_, hj⟩
    · exact hfits
    · exact hs.fits hj
  key := by
    intro k j hj
    rcases eq_some_of_update hj with ⟨hk, rfl⟩ | ⟨_, hj⟩
    · exact hkey.trans hk
    · exact hs.key hj

theorem Named.unbind (hs : Named limits bound) : Named limits (Function.update bound key none) where
  name hj hj' := hs.name (eq_some_of_update_none hj).2 (eq_some_of_update_none hj').2
  fits hj := hs.fits (eq_some_of_update_none hj).2
  key hj := hs.key (eq_some_of_update_none hj).2

theorem OnePerHead.bind (hs : OnePerHead bound) (hhead : ∀ k j, bound k = some j → j.head = i.head → key = k) :
    OnePerHead (Function.update bound key (some i)) := by
  intro k k' j j' hj hj' heq
  rcases eq_some_of_update hj with ⟨hk, rfl⟩ | ⟨_, hj⟩
  · rcases eq_some_of_update hj' with ⟨hk', _⟩ | ⟨_, hj'⟩
    · exact hk.symm.trans hk'
    · exact hk.symm.trans (hhead _ _ hj' heq.symm)
  · rcases eq_some_of_update hj' with ⟨hk', rfl⟩ | ⟨_, hj'⟩
    · exact (hhead _ _ hj heq).symm.trans hk'
    · exact hs k k' j j' hj hj' heq

theorem OnePerHead.unbind (hs : OnePerHead bound) : OnePerHead (Function.update bound key none) := by
  intro k k' j j' hj hj'
  exact hs k k' j j' (eq_some_of_update_none hj).2 (eq_some_of_update_none hj').2

theorem OnePerHead.move (hs : OnePerHead bound) (hheld : bound held = some j) (hhead : j.head = i.head) :
    OnePerHead (Function.update (Function.update bound key (some i)) held none) := by
  intro k k' a a' ha ha' heq
  obtain ⟨hk, ha⟩ := eq_some_of_update_none ha
  obtain ⟨hk', ha'⟩ := eq_some_of_update_none ha'
  rcases eq_some_of_update ha with ⟨hkey, rfl⟩ | ⟨_, ha⟩
  · rcases eq_some_of_update ha' with ⟨hkey', _⟩ | ⟨_, ha'⟩
    · exact hkey.symm.trans hkey'
    · exact absurd (hs _ _ _ _ hheld ha' (hhead.trans heq)) hk'
  · rcases eq_some_of_update ha' with ⟨_, rfl⟩ | ⟨_, ha'⟩
    · exact absurd (hs _ _ _ _ hheld ha (hhead.trans heq.symm)) hk
    · exact hs k k' a a' ha ha' heq

end

theorem named_new (limits : Limits) : Named limits MailboxState.new.bound where
  name h := by cases h
  fits h := by cases h
  key h := by cases h

variable {s : MailboxState}

theorem Named.call {limits : Limits} (hs : Named limits s.bound) (op : Op) (ids : IdSource) :
    Named limits (op.call limits s ids).2.bound := by
  have hcall := s.rebinding limits ids op
  generalize (op.call limits s ids).1 = answer at hcall
  generalize (op.call limits s ids).2 = s' at hcall ⊢
  cases hcall with
  | kept _ _ h => exact h ▸ hs
  | forgot key _ h =>
    rw [h]
    exact hs.unbind
  | created now hunbound hfits hname hfree h =>
    rw [h]
    exact hs.bind rfl hfits fun k j hj heq => absurd heq (hname k j hj)
  | moved now hunbound hfits hname hheld hkey hfind hhead hgeneration h =>
    rw [h]
    apply Named.unbind
    exact hs.bind rfl hfits fun k j hj heq => absurd heq (hname k j hj)
  | replaced now hold hother hdead hgeneration h =>
    rw [h]
    have hkey := hs.key hold
    have hfits := hs.fits hold
    apply hs.bind
    · exact hkey
    · exact hfits
    · exact fun k j hj heq => (hs.name hj hold heq).symm

theorem Run.named {limits : Limits} {steps : List Step} (hrun : Run limits steps s) : Named limits s.bound := by
  induction hrun with
  | nil => exact named_new limits
  | snoc _ op ids ih => exact ih.call op ids

/-- A takeover of a dead head's key is by a head that holds no other key. -/
def Step.HeadFree (step : Step) : Prop :=
  ∀ req judged now, step.op = .register req (some judged) now → judged.sameHead = false → judged.liveness = .dead →
    ∀ b ∈ step.before.bindingList, b.head = req.head → b.key = req.key

theorem OnePerHead.call {limits : Limits} (hs : OnePerHead s.bound) (hnamed : Named limits s.bound)
    (op : Op) (ids : IdSource) (hfree : (op.step limits s ids).HeadFree) : OnePerHead (op.call limits s ids).2.bound := by
  have hcall := s.rebinding limits ids op
  replace hfree : ∀ req judged now, op = .register req (some judged) now → judged.sameHead = false →
      judged.liveness = .dead → ∀ b ∈ s.bindingList, b.head = req.head → b.key = req.key := hfree
  generalize (op.call limits s ids).1 = answer at hcall
  generalize (op.call limits s ids).2 = s' at hcall ⊢
  cases hcall with
  | kept _ _ h => exact h ▸ hs
  | forgot key _ h =>
    rw [h]
    exact hs.unbind
  | created now hunbound hfits hname hheads h =>
    rw [h]
    exact hs.bind fun k j hj heq => absurd heq (hheads k j hj)
  | moved now hunbound hfits hname hheld hkey hfind hhead hgeneration h =>
    rw [h, ← hkey, hnamed.key hheld]
    exact hs.move hheld hhead
  | replaced now hold hother hdead hgeneration h =>
    rw [h]
    apply hs.bind
    intro k j hj heq
    obtain ⟨b, hb, rfl⟩ := MailboxState.bound_eq_some.mp hj
    have hkey := hfree _ _ _ rfl hother hdead b (MailboxState.mem_bindingList.mpr ⟨k, hb⟩) heq
    exact hkey.symm.trans (hnamed.key hj)

/-- In every state a run reaches, names are distinct and short and every binding is under its own key; and while
every takeover of a dead head's key is by a head that holds no other key, at most one binding holds any head. -/
theorem binding_unique {limits : Limits} {steps : List Step} {s : MailboxState} (hrun : Run limits steps s) :
    Named limits s.bound ∧ ((∀ step ∈ steps, step.HeadFree) → OnePerHead s.bound) := by
  refine ⟨hrun.named, ?_⟩
  induction hrun with
  | nil =>
    intro _ k k' i i' hi
    cases hi
  | snoc hrun op ids ih =>
    intro hfree
    have hlast := hfree _ (mem_append_right _ (mem_singleton_self _))
    exact (ih fun step hstep => hfree step (mem_append_left _ hstep)).call hrun.named op ids hlast

namespace Sample

/-! ### A head that takes a second key over -/

def key (text : String) (h : (text != "" && text.toList.all inNameAlphabet) = true := by exact Eq.refl true) : WriterKey :=
  ⟨text, by simpa using h⟩

def cli : Cli := ⟨"codex", by decide⟩

def limits : Limits where
  maxBodyBytes := 16384
  chainMaxDepth := 6
  sessionBudget := 20
  sessionLifetimeCap := 200
  humanFallbackWindowSec := 600
  loopMaxPerWindow := 12
  loopWindowSec := 600
  queueCap := 50
  queuePerSender := 10
  countersMaxKeys := 64
  recordTtlSec := 86400
  recordBodyRetentionSec := 86400
  inFlightTtlSec := 120
  maxOffers := 3
  wakeExchangeGapSec := 600
  wakeMaxPerExchange := 5
  wakeLifetimeCap := 50
  wakeRemoteLifetimeCap := 5
  noticesCap := 10
  noticesWindowSec := 600
  frameMaxHeaderChars := 200

def ids : IdSource := fun n => Fin.ofNat _ (n + 1)

def request (k : WriterKey) (suffix head : String) : RegisterRequest where
  key := k
  cli := cli
  project := "app"
  ownSuffix := some suffix
  head := head
  handle := none

/-- The process `P` registers the key `p`; the key `q` of the process `Q`, which died, is registered by `P` too. -/
def takesSecondKey : List (Op × IdSource) :=
  [(.register (request (key "p") "p1" "P") none 1, ids), (.register (request (key "q") "q1" "Q") none 2, ids),
    (.register (request (key "q") "q2" "P") (some ⟨false, .dead⟩) 3, ids)]

end Sample

theorem two_bindings_of_one_head : ¬OnePerHead (play Sample.limits Sample.takesSecondKey).2.bound := by
  intro h
  have hp : (play Sample.limits Sample.takesSecondKey).2.bound (Sample.key "p") =
      some ⟨Sample.key "p", "app-codex-p1", Sample.cli, 1, "P"⟩ := by decide
  have hq : (play Sample.limits Sample.takesSecondKey).2.bound (Sample.key "q") =
      some ⟨Sample.key "q", "app-codex-q1", Sample.cli, 2, "P"⟩ := by decide
  exact absurd (h _ _ _ _ hp hq rfl) (by decide)

/-- The process `R` takes the key of the dead process `Q` over. -/
theorem binding_unique_takeover : OnePerHead (play Sample.limits (Sample.takesSecondKey.take 2 ++
      [(.register (Sample.request (Sample.key "q") "q2" "R") (some ⟨false, .dead⟩) 3, Sample.ids)])).2.bound := by
  refine (binding_unique (run_play _ _)).2 ?_
  intro step hstep req judged now hop _ _
  rcases mem_cons.mp hstep with rfl | hstep
  · cases hop
  · rcases mem_cons.mp hstep with rfl | hstep
    · cases hop
    · rw [mem_singleton.mp hstep] at hop ⊢
      cases hop
      decide

end Forgent.Mailbox
