import Forgent.Config.CopyAlone

/-!
# Keys that moved

What a relocation keeps, in every run of copies, of finishes and of other transactions, and when a copy alone succeeds.
-/

namespace Forgent.Config

open Option

section

variable {ctx : Context} {ed : Editor} {c : Codec} {render : Json → String} {meaning : String → Json}

/-- A step that changes the source is the rewrite of a finish, which holds every key that it found. -/
theorem source_step (steady : Prop) (start : Source) {w w' : Interleave.World Machine Call}
    (hw : Interleave.Excluded (Custody ctx ed c meaning start steady) (CallHolds ctx ed c meaning) KeepsApart w)
    (hnext : (relocationOf ctx ed c render start steady).Next w w') (hchange : w'.store.source ≠ w.store.source) :
    AllHeld ed c w.store (keysIn ctx.schemas w.store.source.file.json) ∧
      w'.store.source = w.store.source.without render (keysIn ctx.schemas w.store.source.file.json) := by
  cases hnext with
  | begin hbegins => exact absurd rfl hchange
  | @step m m' calls i k k' hcall hstep =>
    cases hstep with
    | inr hstop => exact absurd (by rw [hstop.1]; rfl) hchange
    | inl hnext =>
      obtain ⟨⟨gives, hnext⟩, -⟩ := hnext
      obtain ⟨-, hknows⟩ := hw.of_call hcall
      cases k with
      | write commit =>
        obtain ⟨⟨m₁, commit'⟩, hwrite, heq⟩ := map_eq_some_iff.mp hnext
        cases heq
        exact absurd (writeNext_files hwrite).1 hchange
      | copy phase =>
        obtain ⟨⟨m₁, phase'⟩, hcopy, heq⟩ := map_eq_some_iff.mp hnext
        cases heq
        exact absurd (copyNext_files hcopy).1 hchange
      | finish phase =>
        obtain ⟨⟨m₁, phase'⟩, hfinish, heq⟩ := map_eq_some_iff.mp hnext
        cases heq
        obtain ⟨-, -, -, hsource⟩ := finishNext_files hfinish
        cases hsource with
        | inl hsame => exact absurd hsame hchange
        | inr hrewriting =>
          obtain ⟨source, found, rfl, hsource⟩ := hrewriting
          obtain ⟨rfl, rfl, hheld⟩ := hknows
          exact ⟨hheld, hsource⟩
      | stopped => cases hnext
  | around haround => exact haround.elim

/-- The other keys of a file that lost some: their values, and their order in each mapping. -/
def OthersKept (schemas : Schemas) (start now : Json) : Prop :=
  ∃ gone, (∀ p ∈ gone, ∃ key ∈ keysIn schemas start, key.path = p) ∧
    (∀ q, (∀ p ∈ gone, Unrelated p q) → jsonAt now q = jsonAt start q) ∧
    ∀ q, (∀ p ∈ gone, ¬ p <+: q) → (jsonAt now q).map names = (jsonAt start q).map (staying gone q)

theorem Without.others_kept {schemas : Schemas} {start : Json} {m : Machine} (h : Without schemas start m) :
    OthersKept schemas start m.source.file.json := by
  obtain ⟨gone, hjson, hgone⟩ := h
  refine ⟨gone, fun p hp => (hgone p hp).2, fun q hq => ?_, fun q hq => ?_⟩
  · rw [hjson]
    exact jsonAt_removeAll hq
  · rw [hjson]
    exact names_removeAll (fun p hp => (hgone p hp).1) hq

/-- **Moving keys out of the global file loses none.**  In every run a key that carries something is in the source or held in
its destination, where the other transactions keep what is held; the source changes only by the rewrite of a finish, when
every key that it removes is held or carries nothing; the other keys keep their values and their order; and a copy that can,
and is not stopped, ends with every key held. -/
theorem relocation_loses_none (hreads : Reads ed meaning) (steady : Prop) {m : Machine} (hmeant : Meant meaning m.accounts) :
    (∀ w, (relocationOf ctx ed c render m.source steady).Run (quietMachine m) w →
      (steady → InOne ctx ed c m.source.file.json w.store) ∧
      (∀ w', (relocationOf ctx ed c render m.source steady).Next w w' → w'.store.source ≠ w.store.source →
        AllHeld ed c w.store (keysIn ctx.schemas w.store.source.file.json) ∧
          w'.store.source = w.store.source.without render (keysIn ctx.schemas w.store.source.file.json)) ∧
      OthersKept ctx.schemas m.source.file.json w.store.source.file.json) ∧ ∀ found, CanCopy ctx ed c m found →
      ∃ m', CopyGoes ctx ed c (m, .starting false) (m', .done (.ok ⟨paths found, false⟩)) ∧ m'.source = m.source ∧
        ∀ key ∈ found, carries key.value = true → HeldEqual c (m'.dest ed) key := by
  refine ⟨fun w hrun => ?_, fun found hcan => copy_succeeds hcan⟩
  have hstart : Custody ctx ed c meaning m.source steady m := by
    refine ⟨hmeant, ⟨[], rfl, fun p hp => by cases hp⟩, fun _ key hkey _ => .inl ?_⟩
    exact ((mem_keysIn m.source.unique).mp hkey).2.1
  have hquiet : Interleave.Excluded (Custody ctx ed c meaning m.source steady) (CallHolds ctx ed c meaning) KeepsApart (quietMachine m) :=
    ⟨⟨hstart, fun k hk => by cases hk⟩, fun _ hcall _ => by cases hcall⟩
  have hw := (relocation_exclusion hreads).run hquiet hrun
  exact ⟨hw.outlined.1.inOne, fun w' hnext hchange => source_step steady m.source hw hnext hchange, hw.outlined.1.without.others_kept⟩

end

/-! ### An account and a token -/

namespace Moving

def context : Context where
  schemas := [⟨"runner", .obj [("properties", .obj [("accounts", .obj [("x-fgos-file", .str "accounts")]), ("limit", .obj [])])]⟩,
    ⟨"gateway", .obj [("properties", .obj [("token", .obj [("x-fgos-file", .str "token")])])]⟩]
  standard := .obj []
  detect _ := none
  validateSections _ _ := .ok []

def strict : Context := { context with validateSections := fun _ _ => .ok [⟨[.key "runner", .key "accounts"], "type"⟩] }

def pool : Path := [.key "runner", .key "accounts", .key "main"]

def loggedIn : Json := .obj [("runner", .obj [("accounts", .obj [("main", .str "login")])])]

def loggedOut : Json := .obj [("runner", .obj [("accounts", .obj [])])]

def meaning (text : String) : Json := if text = "filled" then loggedIn else if text = "emptied" then loggedOut else .null

/-- An editor that knows two edits: the account set in a new file, and the account removed again. -/
def editor : Editor where
  header := "header"
  revision text := text
  write file _ path new :=
    if file = ⟨"header", .null⟩ ∧ path = pool ∧ new = some (.str "login") then some "filled"
    else if file = ⟨"filled", loggedIn⟩ ∧ path = pool ∧ new = none then some "emptied"
    else none

theorem reads : Reads editor meaning where
  header := rfl
  write := by
    intro file acknowledge path new text json _ hwrite hjson
    change (if _ then some "filled" else if _ then some "emptied" else none) = some text at hwrite
    split at hwrite
    · next hset =>
      obtain ⟨rfl, rfl, rfl⟩ := hset
      cases hwrite
      have hfilled : applySet .null pool (.str "login") = some loggedIn := by decide
      exact some.inj (hfilled.symm.trans hjson)
    · split at hwrite
      · next hremove =>
        obtain ⟨rfl, rfl, rfl⟩ := hremove
        cases hwrite
        have hemptied : applyRemove loggedIn pool = some loggedOut := by decide
        exact some.inj (hemptied.symm.trans hjson)
      · cases hwrite
  revision := fun _ _ h => h

def source : Source where
  file := ⟨"source", .obj [("runner", .obj [("accounts", .obj [("main", .str "login")]), ("limit", .nat 1)]),
    ("gateway", .obj [("token", .str "abc")])]⟩
  unique := rfl

def bare : Source where
  file := ⟨"bare", .obj [("gateway", .obj [("token", .null)])]⟩
  unique := rfl

def machine (source : Source) : Machine := ⟨none, source, none, none, none, [], fun _ => false⟩

def render (_ : Json) : String := "rest"

inductive Event where
  | call (k : Call) (hbegins : k.begins)
  | step (i : ℕ)

def happen (ctx : Context) (w : Interleave.World Machine Call) : Event → Option (Interleave.World Machine Call)
  | .call k _ => some ⟨w.store, w.calls ++ [k]⟩
  | .step i => do
    let k ← w.calls[i]?
    let (m, k) ← callNext ctx editor Codec.integral render w.store false k
    some ⟨m, w.calls.set i k⟩

def steps (i n : ℕ) : List Event := List.replicate n (.step i)

def unset : Request := ⟨.accounts, [.unset pool], true, some "filled", false, false⟩

theorem next_of_happen {start : Source} {w w' : Interleave.World Machine Call} {event : Event}
    (h : happen context w event = some w') : (relocationOf context editor Codec.integral render start False).Next w w' := by
  cases event with
  | call k hbegins =>
    cases h
    exact .begin hbegins
  | step i =>
    obtain ⟨k, hk, hrest⟩ := bind_eq_some_iff.mp h
    obtain ⟨⟨m, k'⟩, hnext, hworld⟩ := bind_eq_some_iff.mp hrest
    cases hworld
    exact .step hk (.inl ⟨⟨false, hnext⟩, fun _ hfalse => hfalse.elim⟩)

def ends (m : Machine) (events : List Event) : Option (Json × Option String × Json) :=
  (events.foldlM (happen context) (quietMachine m)).map fun w => (w.store.source.file.json, w.store.token, valueOf w.store.accounts)

theorem run_to {m : Machine} {events : List Event} {json accounts : Json} {token : Option String}
    (h : ends m events = some (json, token, accounts)) :
    ∃ w, (relocationOf context editor Codec.integral render m.source False).Run (quietMachine m) w ∧
      w.store.source.file.json = json ∧ w.store.token = token ∧ valueOf w.store.accounts = accounts := by
  obtain ⟨w, hw, heq⟩ := map_eq_some_iff.mp h
  obtain ⟨hjson, hrest⟩ := Prod.mk.inj heq
  obtain ⟨htoken, haccounts⟩ := Prod.mk.inj hrest
  exact ⟨w, Interleave.run_of_foldlM next_of_happen events hw, hjson, htoken, haccounts⟩

def copied : List Event := .call (.copy (.starting false)) ⟨false, rfl⟩ :: steps 0 20

def finished : List Event := .call (.finish (.starting true false)) ⟨true, false, rfl⟩ :: steps 0 9

def removed : List Event :=
  copied ++ .call (.finish (.starting true false)) ⟨true, false, rfl⟩ :: steps 1 9 ++
    .call (.write ⟨unset, .starting⟩) rfl :: steps 2 10

def account : Key := ⟨[.key "runner", .key "accounts"], false, .obj [("main", .str "login")]⟩

def bareToken : Key := ⟨[.key "gateway", .key "token"], true, .null⟩

def copyEnd (ctx : Context) : ℕ → Machine × Copying → Option (Machine × Copying)
  | 0, a => some a
  | n + 1, a => (copyNext ctx editor Codec.integral a.1 false a.2).bind (copyEnd ctx n)

theorem goes_of_copyEnd {ctx : Context} {n : ℕ} {a b : Machine × Copying} (h : copyEnd ctx n a = some b) :
    CopyGoes ctx editor Codec.integral a b := by
  induction n generalizing a with
  | zero => exact some.inj h ▸ .refl
  | succ n ih =>
    obtain ⟨next, hnext, hrest⟩ := bind_eq_some_iff.mp h
    exact .head hnext (ih hrest)

def refusedWith : Copying → Option (List String)
  | .done (.error refused) => some (refused.map Refusal.code)
  | _ => none

end Moving

open Moving in
/-- A copy, and a finish after it: the account and the token are in their destinations. -/
theorem relocation_moves_pool : ∃ w,
    (relocationOf context editor Codec.integral render source False).Run (quietMachine (machine source)) w ∧
      OthersKept context.schemas source.file.json w.store.source.file.json ∧ w.store.token = some "abc" ∧
      valueOf w.store.accounts = loggedIn := by
  have hcopied : ends (machine source) copied = some (source.file.json, some "abc", loggedIn) := by decide +kernel
  obtain ⟨w, hrun, -, htoken, haccounts⟩ := run_to hcopied
  have hmeant : Meant meaning (machine source).accounts := nofun
  exact ⟨w, hrun, ((relocation_loses_none reads False hmeant).1 w hrun).2.2, htoken, haccounts⟩

open Moving in
/-- A token key with a null is removed though there is no token; a later transaction removes the account from its new place;
and a copy is refused by the checks of the transaction. -/
theorem moved_key_missing :
    (∃ w, (relocationOf context editor Codec.integral render bare False).Run (quietMachine (machine bare)) w ∧
      bareToken ∈ keysIn context.schemas bare.file.json ∧ jsonAt w.store.source.file.json bareToken.path = none ∧
      Dest.have (w.store.dest editor) bareToken = none) ∧
    (∃ w, (relocationOf context editor Codec.integral render source False).Run (quietMachine (machine source)) w ∧
      account ∈ keysIn context.schemas source.file.json ∧ carries account.value = true ∧
      jsonAt w.store.source.file.json account.path = none ∧ ¬ HeldEqual Codec.integral (w.store.dest editor) account) ∧
    ∃ m' phase, CopyGoes strict editor Codec.integral (machine source, .starting false) (m', phase) ∧
      refusedWith phase = some ["config-schema"] ∧
      ∀ key ∈ keysIn strict.schemas source.file.json, Dest.have ((machine source).dest editor) key = none := by
  have hfinished : ends (machine bare) finished = some (.obj [("gateway", .obj [])], none, .null) := by decide +kernel
  have hremoved : ends (machine source) removed = some (.obj [("runner", .obj [("limit", .nat 1)]), ("gateway", .obj [])],
      some "abc", loggedOut) := by decide +kernel
  refine ⟨?_, ?_, ?_⟩
  · obtain ⟨w, hrun, hjson, htoken, -⟩ := run_to hfinished
    refine ⟨w, hrun, by decide +kernel, by rw [hjson]; rfl, ?_⟩
    show w.store.token.map Json.str = none
    rw [htoken]
    rfl
  · obtain ⟨w, hrun, hjson, -, haccounts⟩ := run_to hremoved
    refine ⟨w, hrun, by decide +kernel, rfl, by rw [hjson]; rfl, fun hheld => ?_⟩
    obtain ⟨there, text, hthere, htext, hwanted⟩ := hheld
    change jsonAt (valueOf w.store.accounts) account.path = some there at hthere
    rw [haccounts] at hthere
    obtain rfl : Json.obj [] = there := some.inj hthere
    have hdiffer : Json.write Codec.integral (.obj []) ≠ Json.write Codec.integral account.value := by decide
    exact hdiffer (htext.trans hwanted.symm)
  · have hend : ((copyEnd strict 16 (machine source, .starting false)).bind fun b => refusedWith b.2) = some ["config-schema"] := by
      decide +kernel
    obtain ⟨b, hb, hrefused⟩ := bind_eq_some_iff.mp hend
    exact ⟨b.1, b.2, goes_of_copyEnd hb, hrefused, by decide +kernel⟩

end Forgent.Config
