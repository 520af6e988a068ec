import Forgent.StoreItems

/-!
# The stack of open calls

The open calls of an item are not stored: they are read off its thread, where a call pushes a frame and a return
pops one.  On every board that a run reaches they form a chain that ends at the holder of the item, and they are
no more than the graph of its domain allows (`Stacked`).

`moveWork` closes all open calls of an item that it delivers, one after the other; the settling of a claim closes
one.  So after a settle to `delivered` no call is open exactly when at most one was (`call_stack`).
-/

namespace Forgent

open Json List Option

open Handoff

/-! ### What an event does to the thread -/

theorem getD_push {α : Type} (t : Table (List α)) (id id' : String) (v : α) :
    (Table.push t id v).getD id' [] = if id = id' then t.getD id [] ++ [v] else t.getD id' [] := by
  rw [Table.push, Std.ExtTreeMap.getD_insert]
  simp only [compare_key]

theorem openCallStack_append (thread : List Fields) (entry : Fields) :
    openCallStack (thread ++ [entry]) = pushOrPop (openCallStack thread) entry := by
  rw [openCallStack, foldl_append]
  rfl

variable {stack : List Fields} {entry : Fields}

theorem pushOrPop_push (hkind : entry["kind"]? = some (.str "handoff"))
    (hreturning : truthy entry["returning"]? = false) : pushOrPop stack entry = stack ++ [entry] := by
  rw [pushOrPop, hkind, hreturning]
  rfl

theorem pushOrPop_pop (hkind : entry["kind"]? = some (.str "handoff"))
    (hreturning : truthy entry["returning"]? = true) : pushOrPop stack entry = stack.dropLast := by
  rw [pushOrPop, hkind, hreturning]
  rfl

section

variable {host : Host} {view view' : View} {d : Draft} {drafts : List Draft}

theorem modifyItem_callThreads (id : String) (f : Fields → Fields) :
    (view.modifyItem id f).callThreads = view.callThreads := by
  unfold View.modifyItem
  split <;> rfl

theorem openCalls_other {ts : String} (h : d.eventType ≠ "work.handoff") (id : String) :
    openCalls (applyWorkEvent host view (d.event ts)) id = openCalls view id := by
  have hsame : ∀ next : View, next.callThreads = view.callThreads → openCalls next id = openCalls view id :=
    fun next heq => by rw [openCalls, heq, openCalls]
  unfold applyWorkEvent
  split
  case h_8 ht => exact absurd ht h
  case h_9 =>
    -- a synchronous call is noted in the thread
    unfold workCallSummary
    dsimp only
    split
    · rename_i id' _
      show openCallStack ((Table.push view.callThreads id' _).getD id []) = _
      rw [getD_push]
      split
      · rename_i heq
        subst heq
        rw [openCallStack_append, pushOrPop, getElem?_record _ (by simp)]
        rfl
      · rfl
    · rfl
  case h_2 | h_3 | h_6 | h_7 | h_13 | h_14 => exact hsame _ (modifyItem_callThreads _ _)
  case h_1 => exact hsame _ (by unfold workAdd; split <;> rfl)
  case h_5 => exact hsame _ (by unfold workOutcome; split <;> rfl)
  case h_10 => exact hsame _ (by unfold workDiscovery; split <;> rfl)
  case h_11 => exact hsame _ (by unfold workGateApprove; split <;> rfl)
  case h_12 => exact hsame _ (by unfold goalFocus; split <;> rfl)
  case h_4 => exact hsame _ rfl
  case h_15 => rfl

theorem Applied.openCalls (h : Applied host view drafts view') (hdrafts : ∀ d ∈ drafts, d.eventType ≠ "work.handoff")
    (id : String) : Handoff.openCalls view' id = Handoff.openCalls view id := by
  induction h with
  | nil => rfl
  | work ts _ ih =>
    obtain ⟨hd, hdrafts⟩ := forall_mem_cons.mp hdrafts
    rw [ih hdrafts, openCalls_other hd]
  | knowledge _ _ _ ih => exact ih (forall_mem_cons.mp hdrafts).2

variable (host view) in
/-- What a hand-over adds to the thread of its item. -/
theorem openCalls_handoff {payload : Fields} {id : String} (ts : String) (hid : payload["id"]? = some (.str id)) :
    ∃ entry : Fields, entry["kind"]? = some (.str "handoff") ∧ entry["from"]? = normalizeRole payload["from"]? ∧
      entry["to"]? = normalizeRole payload["to"]? ∧ truthy entry["returning"]? = truthy payload["returning"]? ∧
      ∀ id', Handoff.openCalls (applyWorkEvent host view (Draft.event ⟨"work.handoff", payload⟩ ts)) id' =
        if id = id' then pushOrPop (Handoff.openCalls view id) entry else Handoff.openCalls view id' := by
  refine ⟨record [("kind", some (.str "handoff")), ("from", normalizeRole (member (some payload.toJson) "from")),
    ("to", normalizeRole (member (some payload.toJson) "to")), ("reason", member (some payload.toJson) "reason"),
    ("mode", orElse (member (some payload.toJson) "mode") (some (.str "async"))),
    ("returning", some (.bool (truthy (member (some payload.toJson) "returning")))),
    ("note", some (orNull (member (some payload.toJson) "note"))), ("ts", some (.str ts))], ?_, ?_, ?_, ?_,
    fun id' => ?_⟩
  · rw [getElem?_record _ (by simp)]
    rfl
  · simp only [member_toJson]
    rw [getElem?_record _ (by simp)]
    rfl
  · simp only [member_toJson]
    rw [getElem?_record _ (by simp)]
    rfl
  · simp only [member_toJson]
    rw [getElem?_record _ (by simp)]
    rfl
  · have hmember : member (some payload.toJson) "id" = some (.str id) := (member_toJson _ _).trans hid
    show openCallStack ((workHandoff host view (some payload.toJson) ts).callThreads.getD id' []) = _
    simp only [workHandoff, hmember]
    show openCallStack ((Table.push view.callThreads id _).getD id' []) = _
    rw [getD_push]
    split
    · rw [openCallStack_append]
      rfl
    · rfl

end

/-- A role that the graphs use. -/
def IsRole (value : Option Json) : Prop := ∃ role, value = some (.str role) ∧ role ≠ "human-advisor"

theorem normalizeRole_of_ne {role : String} (h : role ≠ "human-advisor") :
    normalizeRole (some (.str role)) = some (.str role) := by
  have hsame : same (some (.str role)) (some (.str "human-advisor")) = false := by
    simpa [same] using h
  rw [normalizeRole, hsame]
  rfl

theorem isRole_normalizeRole (role : String) : IsRole (normalizeRole (some (.str role))) := by
  by_cases h : role = "human-advisor"
  · subst h
    exact ⟨"advisor", rfl, by decide⟩
  · exact ⟨role, normalizeRole_of_ne h, h⟩

namespace Store

open WorkItem StatusFsm

variable {σ : Linked} {b b' : Board} {view view' : View} {id : String} {payload openCall : Fields}

/-- The open calls of an item form a chain that ends at its holder, and the graph of its domain allows so many. -/
structure Stacked (σ : Linked) (view : View) (id : String) : Prop where
  chain : List.IsChain (fun f g : Fields => f["to"]? = g["from"]?) (openCalls view id)
  holder : ∀ top ∈ (openCalls view id).getLast?, top["to"]? = fieldOf view.work[id]? "holder"
  roles : ∀ frame ∈ openCalls view id, IsRole frame["from"]? ∧ IsRole frame["to"]?
  graph : openCalls view id ≠ [] → (view.work[id]?).isSome = true ∧
    ∃ graph, StoreHost.roleGraphFor (σ.policy (fieldOf view.work[id]? "domain")) = some graph ∧
      ∀ cap, graph.callstackCap = some cap → (openCalls view id).length ≤ cap

theorem stacked_of_nil (h : openCalls view id = []) : Stacked σ view id where
  chain := by
    rw [h]
    exact .nil
  holder top htop := by
    rw [h] at htop
    cases htop
  roles frame hframe := by
    rw [h] at hframe
    cases hframe
  graph hne := absurd h hne

theorem Stacked.of_same (h : Stacked σ view id) (hcalls : openCalls view' id = openCalls view id)
    (hholder : fieldOf view'.work[id]? "holder" = fieldOf view.work[id]? "holder")
    (hdomain : fieldOf view'.work[id]? "domain" = fieldOf view.work[id]? "domain")
    (hsome : (view'.work[id]?).isSome = (view.work[id]?).isSome) : Stacked σ view' id where
  chain := hcalls ▸ h.chain
  holder := by
    rw [hcalls, hholder]
    exact h.holder
  roles := hcalls ▸ h.roles
  graph := by
    rw [hcalls, hdomain, hsome]
    exact h.graph

theorem Stacked.of_core (h : Stacked σ view.core id) : Stacked σ view id := h.of_same rfl rfl rfl rfl

/-! ### Calls and returns -/

variable (σ view) in
/-- A hand-over makes its role the holder, and leaves the rest of the item. -/
theorem handed_item (ts : String) {role : String} (hid : payload["id"]? = some (.str id))
    (hrole : normalizeRole payload["to"]? = some (.str role)) (hsome : (view.work[id]?).isSome = true) (id' : String) :
    ((applyWorkEvent σ.toHost view (Draft.event ⟨"work.handoff", payload⟩ ts)).work[id']?).isSome =
        (view.work[id']?).isSome ∧
      fieldOf (applyWorkEvent σ.toHost view (Draft.event ⟨"work.handoff", payload⟩ ts)).work[id']? "domain" =
        fieldOf view.work[id']? "domain" ∧
      fieldOf (applyWorkEvent σ.toHost view (Draft.event ⟨"work.handoff", payload⟩ ts)).work[id']? "holder" =
        if id = id' then some (.str role) else fieldOf view.work[id']? "holder" := by
  have hitem : itemOf σ.toHost (Draft.event ⟨"work.handoff", payload⟩ ts) = id := by
    show Json.key σ.arithmetic (member (some payload.toJson) "id") = id
    rw [member_toJson, hid]
    rfl
  have hleaves : Leaves "domain" ⟨"work.handoff", payload⟩ := .other (by simp) (by simp) (by simp [written])
  have hupdate : fieldOf (itemUpdate σ.toHost (Draft.event ⟨"work.handoff", payload⟩ ts) view.work[id']?) "domain" =
      fieldOf view.work[id']? "domain" ∧
      (itemUpdate σ.toHost (Draft.event ⟨"work.handoff", payload⟩ ts) view.work[id']?).isSome =
        (view.work[id']?).isSome := hleaves.itemUpdate
  obtain ⟨hdomain, hisSome⟩ := hupdate
  rw [work_applyWorkEvent, hitem]
  split
  · rename_i heq
    subst heq
    refine ⟨hisSome, hdomain, ?_⟩
    obtain ⟨work, hwork⟩ := isSome_iff_exists.mp hsome
    rw [hwork]
    show (handoffItem (some payload.toJson) work)["holder"]? = _
    rw [handoffItem, member_toJson, hrole]
    simp
  · exact ⟨rfl, rfl, rfl⟩

/-- **A call pushes a frame.** -/
theorem Stacked.called {reason note : Option Json} {writer : Json} {ts src dst : String} {graph : RoleGraph}
    (h : ∀ id, Stacked σ view id) (hsome : (view.work[id]?).isSome = true)
    (hgraph : StoreHost.roleGraphFor (σ.policy (fieldOf view.work[id]? "domain")) = some graph)
    (hsrc : orElse (fieldOf view.work[id]? "holder") (graph.defaultRole.map .str) = some (.str src))
    (hroom : ∀ cap, graph.callstackCap = some cap → (openCalls view id).length < cap) (id' : String) :
    Stacked σ (applyWorkEvent σ.toHost view
      ((handoffDraft id (some (.str src)) (some (.str dst)) reason note writer).event ts)) id' := by
  unfold handoffDraft
  generalize hpayload : record [("id", some (Json.str id)), ("from", some (.str src)), ("to", some (.str dst)),
    ("reason", reason), ("mode", some (.str "async")), ("note", note), ("writer", some writer)] = payload
  have hget : ∀ k : String, payload[k]? = (List.lookup k [("id", some (Json.str id)), ("from", some (.str src)),
      ("to", some (.str dst)), ("reason", reason), ("mode", some (.str "async")), ("note", note),
      ("writer", some writer)]).join := fun k => hpayload ▸ getElem?_record _ (by simp) k
  have hid : payload["id"]? = some (.str id) := (hget "id").trans rfl
  have hfrom : payload["from"]? = some (.str src) := (hget "from").trans rfl
  have hto : payload["to"]? = some (.str dst) := (hget "to").trans rfl
  have hreturning : payload["returning"]? = none := (hget "returning").trans rfl
  obtain ⟨role, hrole, hrole'⟩ := isRole_normalizeRole dst
  obtain ⟨entry, hkind, hentryFrom, hentryTo, hentryReturning, hcalls⟩ :=
    openCalls_handoff σ.toHost view ts hid
  rw [hfrom] at hentryFrom
  rw [hto, hrole] at hentryTo
  rw [hreturning] at hentryReturning
  obtain ⟨hisSome, hdomain, hholder⟩ := handed_item σ view ts hid (hto ▸ hrole) hsome id'
  have hcalls := hcalls id'
  by_cases heq : id = id'
  · subst heq
    rw [if_pos rfl] at hholder
    rw [if_pos rfl, pushOrPop_push hkind hentryReturning] at hcalls
    refine ⟨?_, ?_, ?_, ?_⟩
    · -- the last call went to the holder, who calls now
      rw [hcalls]
      refine isChain_append.mpr ⟨(h id).chain, .singleton _, fun top htop next hnext => ?_⟩
      cases hnext
      have hheld := (h id).holder top htop
      obtain ⟨_, hisRole⟩ := (h id).roles top (mem_of_getLast? htop)
      rw [hentryFrom, ← hsrc, ← hheld]
      obtain ⟨s, hs, hne⟩ := hisRole
      rw [hs]
      exact (normalizeRole_of_ne hne).symm
    · rw [hcalls, hholder]
      simpa using hentryTo
    · rw [hcalls]
      intro frame hframe
      rcases mem_append.mp hframe with hframe | hframe
      · exact (h id).roles frame hframe
      · rw [mem_singleton.mp hframe, hentryFrom, hentryTo]
        exact ⟨isRole_normalizeRole src, role, rfl, hrole'⟩
    · rw [hcalls, hisSome, hdomain]
      refine fun _ => ⟨hsome, graph, hgraph, fun cap hcap => ?_⟩
      have hlength := hroom cap hcap
      rw [length_append, length_singleton]
      omega
  · rw [if_neg heq] at hholder hcalls
    exact (h id').of_same hcalls hholder hdomain hisSome

/-- **A return pops the frame of the holder.** -/
theorem Stacked.returned (ts : String) (h : ∀ id, Stacked σ view id)
    (hlast : (openCalls view id).getLast? = some openCall) (hid : payload["id"]? = some (.str id))
    (hto : payload["to"]? = openCall["from"]?) (hreturning : payload["returning"]? = some (.bool true)) (id' : String) :
    Stacked σ (applyWorkEvent σ.toHost view (Draft.event ⟨"work.handoff", payload⟩ ts)) id' ∧
      openCalls (applyWorkEvent σ.toHost view (Draft.event ⟨"work.handoff", payload⟩ ts)) id' =
        if id = id' then (openCalls view id).dropLast else openCalls view id' := by
  have hmem := mem_of_getLast? hlast
  obtain ⟨⟨role, hrole, hne⟩, _⟩ := (h id).roles openCall hmem
  obtain ⟨hsome, graph, hgraph, hroom⟩ := (h id).graph (ne_nil_of_mem hmem)
  have hnormal : normalizeRole payload["to"]? = some (.str role) := by
    rw [hto, hrole, normalizeRole_of_ne hne]
  obtain ⟨entry, hkind, _, _, hentryReturning, hcalls⟩ :=
    openCalls_handoff σ.toHost view ts hid
  rw [hreturning] at hentryReturning
  obtain ⟨hisSome, hdomain, hholder⟩ := handed_item σ view ts hid hnormal hsome id'
  have hcalls := hcalls id'
  rw [pushOrPop_pop hkind hentryReturning] at hcalls
  refine ⟨?_, hcalls⟩
  by_cases heq : id = id'
  · subst heq
    rw [if_pos rfl] at hholder hcalls
    have hsplit : openCalls view id = (openCalls view id).dropLast ++ [openCall] :=
      (dropLast_append_getLast? openCall hlast).symm
    have hchain := (h id).chain
    rw [hsplit, isChain_append] at hchain
    refine ⟨?_, ?_, ?_, ?_⟩
    · rw [hcalls]
      exact hchain.1
    · -- the frame below is the one that the returning call was made from
      rw [hcalls, hholder]
      intro top htop
      exact (hchain.2.2 top htop openCall rfl).trans hrole
    · rw [hcalls]
      exact fun frame hframe => (h id).roles frame (mem_of_mem_dropLast hframe)
    · rw [hcalls, hisSome, hdomain]
      refine fun _ => ⟨hsome, graph, hgraph, fun cap hcap => ?_⟩
      have hlength := hroom cap hcap
      rw [length_dropLast]
      omega
  · rw [if_neg heq] at hholder hcalls
    exact (h id').of_same hcalls hholder hdomain hisSome

theorem returned_payload {work : Fields} {d : Draft} (h : Returned b id work openCall d) :
    ∃ payload, d = ⟨"work.handoff", payload⟩ ∧ payload["id"]? = some (.str id) ∧
      payload["to"]? = openCall["from"]? ∧ payload["returning"]? = some (.bool true) := by
  obtain ⟨reason, note, writer, rfl⟩ := h.draft
  refine ⟨_, rfl, ?_, ?_, ?_⟩
  · rw [getElem?_record _ (by simp)]
    rfl
  · rw [getElem?_record _ (by simp)]
    rfl
  · rw [getElem?_record _ (by simp)]
    rfl

theorem Batch.quiet {edited plain moved handed : List Draft} (h : Batch σ b edited plain moved handed)
    (happlied : Applied σ.toHost view (edited ++ plain ++ moved) view') (id : String) :
    openCalls view' id = openCalls view id ∧ fieldOf view'.work[id]? "holder" = fieldOf view.work[id]? "holder" ∧
      fieldOf view'.work[id]? "domain" = fieldOf view.work[id]? "domain" ∧
      (view'.work[id]?).isSome = (view.work[id]?).isSome := by
  have hquiet : Batch σ b edited plain moved [] := ⟨h.edited, h.plain, h.moved, .none⟩
  have hleaves : ∀ k, k ∉ editableFields → "writer" ≠ k → k ∉ written "work.move" → k ∉ otherFields →
      ∀ d ∈ edited ++ plain ++ moved, Leaves k d := by
    intro k hedit hwriter hmove hother
    have hall := hquiet.leaves (.inr ⟨hedit, hwriter⟩) (.inr hmove) hother (.inl rfl)
    rwa [append_nil] at hall
  have hholder := hleaves "holder" (by decide) (by decide) (by decide) (by decide)
  have hdomain := hleaves "domain" (by decide) (by decide) (by decide) (by decide)
  refine ⟨happlied.openCalls (fun d hd ht => ?_) id, (happlied.leaves hholder id).1, happlied.leaves hdomain id⟩
  cases hholder d hd with
  | other _ _ hwritten =>
    rw [ht] at hwritten
    exact absurd (by decide) hwritten
  | edit => exact absurd ht (by simp)

/-- **One transaction keeps the stacks.** -/
theorem Transaction.stacked {drafts : List Draft} (hb : Kept σ b) (h : Transaction σ b drafts b')
    (hs : ∀ id, Stacked σ b.view id) (id : String) : Stacked σ b'.view id := by
  have happlied := (hb.applied h).2
  apply Stacked.of_core
  rcases h.batch with ⟨env, work, draft, rfl, hadd⟩ | ⟨edited, plain, moved, handed, rfl, hbatch⟩
  · obtain ⟨id', _, hnone, _, hwork⟩ := hb.added h hadd
    have hcalls : openCalls b'.view.core id = openCalls b.view id := happlied.openCalls (fun d hd => by
      rw [mem_singleton.mp hd, addWork_eventType hadd]
      decide) id
    have hwork : b'.view.core.work[id]? = _ := hwork id
    by_cases heq : id' = id
    · -- an item that is not there has no open call
      subst heq
      have hnil : openCalls b.view id' = [] := by
        by_contra hne
        have hsome := ((hs id').graph hne).1
        rw [hnone] at hsome
        cases hsome
      exact stacked_of_nil (hcalls.trans hnil)
    · rw [if_neg heq] at hwork
      exact (hs id).of_same hcalls (by rw [hwork]) (by rw [hwork]) (by rw [hwork])
  · obtain ⟨middle, hquiet, hhanded⟩ := happlied.append
    have hsame := hbatch.quiet hquiet
    have hmiddle : ∀ id, Stacked σ middle id := fun id => by
      obtain ⟨hcalls, hholder, hdomain, hsome⟩ := hsame id
      exact (hs id).of_same hcalls hholder hdomain hsome
    cases hbatch.handed with
    | none =>
      cases hhanded
      exact hmiddle id
    | @summary d ht =>
      obtain ⟨ts, hview⟩ := hhanded.single (by rw [ht]; rfl)
      have hleaves : ∀ k, Leaves k d := fun k => .other (by simp [ht]) (by simp [ht]) (by simp [ht, written])
      rw [hview]
      refine (hmiddle id).of_same (openCalls_other (by simp [ht]) id) ?_ ?_ ?_ <;> rw [work_applyWorkEvent] <;> split
      · exact (hleaves "holder").itemUpdate.1
      · rfl
      · exact (hleaves "domain").itemUpdate.1
      · rfl
      · exact (hleaves "holder").itemUpdate.2
      · rfl
    | @called id' src dst work d hcalled =>
      obtain ⟨reason, note, writer, rfl⟩ := hcalled.draft
      obtain ⟨graph, hgraph, hsrc, hroom⟩ := hcalled.graph
      obtain ⟨hcalls, hholder, hdomain, hsome⟩ := hsame id'
      have hfound : b.view.core.work[id']? = some work := hcalled.found
      rw [hfound] at hholder hdomain hsome
      obtain ⟨ts, hview⟩ := hhanded.single rfl
      rw [hview]
      have hgraph' : StoreHost.roleGraphFor (σ.policy (fieldOf middle.work[id']? "domain")) = some graph := by
        rw [hdomain]
        exact hgraph
      refine Stacked.called hmiddle hsome hgraph' ?_ (fun cap hcap => ?_) id
      · rw [hholder]
        exact hsrc
      · rw [hcalls]
        exact hroom cap hcap
    | @returned id' work openCall d hreturned =>
      obtain ⟨payload, rfl, hid, hto, hreturning⟩ := returned_payload hreturned
      obtain ⟨ts, hview⟩ := hhanded.single rfl
      rw [hview]
      have hlast : (openCalls middle id').getLast? = some openCall := by
        rw [(hsame id').1]
        exact hreturned.last
      exact (Stacked.returned ts hmiddle hlast hid hto hreturning id).1

theorem Run.stacked {log : List Draft} (h : Run σ log b) (id : String) : Stacked σ b.view id := by
  induction h generalizing id with
  | start => exact stacked_of_nil (by simp [openCalls, emptyBoard, View.empty, openCallStack])
  | step hrun hstep ih => exact hstep.stacked hrun.kept ih id

/-! ### Whole operations -/

/-- `recordCallReturn`: the call that was opened last returns. -/
structure Return (σ : Linked) (env : Env) (id : String) (b : Board) (draft : Draft) (b' : Board) : Prop where
  accepted : returnEvent b.view env.writer id (some (.str "auto-closed at delivered (tsk-2t9c D16)")) = .ok draft
  records : Records σ b [draft] b'
  claims : b'.claims = b.claims

def NoReturn (env : Env) (id : String) (b : Board) : Prop :=
  ∃ refusal, returnEvent b.view env.writer id (some (.str "auto-closed at delivered (tsk-2t9c D16)")) = .error refusal

/-- `while (stack.length > 0)` a call returns; the loop ends too where a return is refused. -/
inductive CloseAll (σ : Linked) (env : Env) (id : String) : Board → List Draft → Board → Prop
  | done {b : Board} : openCalls b.view id = [] → CloseAll σ env id b [] b
  | refused {b : Board} : openCalls b.view id ≠ [] → NoReturn env id b → CloseAll σ env id b [] b
  | next {b b' b'' : Board} {draft : Draft} {drafts : List Draft} : openCalls b.view id ≠ [] →
      Return σ env id b draft b' → CloseAll σ env id b' drafts b'' → CloseAll σ env id b (draft :: drafts) b''

/-- The graph of roles of the item. -/
def roleGraphOf (σ : Linked) (b : Board) (id : String) : Option RoleGraph :=
  StoreHost.roleGraphFor (σ.policy (fieldOf b.view.work[id]? "domain"))

/-- `moveWork`: the move, and behind a delivery the returns of all open calls. -/
inductive MoveWork (σ : Linked) (b : Board) (id : String) (args : Fields) : List Draft → Board → Prop
  | moved {b' : Board} {decision : Decision} (env : Env) (snapshot : Option PlanSnapshot) (prior : Option Fields)
      (engineDecision : Fields → Except Refusal (Option Fields)) :
      (∀ taken ∈ snapshot, ∃ view repo, snapshotPlanEvidence σ view repo id = some taken) →
      moveWorkOnce σ b env snapshot prior engineDecision id args = .ok decision →
      Records σ b decision.drafts b' → b'.claims = b.claims →
      (decision.reported["to"]? ≠ some (.str "delivered") ∨ roleGraphOf σ b' id = none) →
      MoveWork σ b id args decision.drafts b'
  | delivered {b' b'' : Board} {decision : Decision} {closing : List Draft} (env : Env)
      (snapshot : Option PlanSnapshot) (prior : Option Fields)
      (engineDecision : Fields → Except Refusal (Option Fields)) :
      (∀ taken ∈ snapshot, ∃ view repo, snapshotPlanEvidence σ view repo id = some taken) →
      moveWorkOnce σ b env snapshot prior engineDecision id args = .ok decision →
      Records σ b decision.drafts b' → b'.claims = b.claims →
      decision.reported["to"]? = some (.str "delivered") → (roleGraphOf σ b' id).isSome = true →
      CloseAll σ env id b' closing b'' → MoveWork σ b id args (decision.drafts ++ closing) b''

/-- `settleClaim`: the settling of the claim, and behind a delivery the return of one call, behind a submission
the call of the reviewer. -/
inductive SettleClaim (σ : Linked) (b : Board) (id : String) (args : Fields) : List Draft → Board → Prop
  | settled {b' : Board} {drafts : List Draft} (env : Env) (drift : Option DriftEvidence)
      (targetClaimId : Option Json) (now : String) :
      settleTx σ b env drift id targetClaimId args now = .ok (drafts, b'.claims) → Records σ b drafts b' →
      (args["finalStatus"]? = some (.str "delivered") → NoReturn env id b') →
      (args["finalStatus"]? = some (.str "awaiting-approval") → roleGraphOf σ b' id = none ∨
        ∃ refusal, callEvent σ.toStoreHost b'.view env.writer id reviewArgs 0 = .error refusal) →
      SettleClaim σ b id args drafts b'
  | returned {b' b'' : Board} {drafts : List Draft} {draft : Draft} (env : Env) (drift : Option DriftEvidence)
      (targetClaimId : Option Json) (now : String) :
      settleTx σ b env drift id targetClaimId args now = .ok (drafts, b'.claims) → Records σ b drafts b' →
      args["finalStatus"]? = some (.str "delivered") → Return σ env id b' draft b'' →
      SettleClaim σ b id args (drafts ++ [draft]) b''
  | reviewed {b' b'' : Board} {drafts : List Draft} {draft : Draft} (env : Env) (drift : Option DriftEvidence)
      (targetClaimId : Option Json) (now : String) :
      settleTx σ b env drift id targetClaimId args now = .ok (drafts, b'.claims) → Records σ b drafts b' →
      args["finalStatus"]? = some (.str "awaiting-approval") → (roleGraphOf σ b' id).isSome = true →
      callEvent σ.toStoreHost b'.view env.writer id reviewArgs 0 = .ok draft → Records σ b' [draft] b'' →
      b''.claims = b'.claims → SettleClaim σ b id args (drafts ++ [draft]) b''

section

variable {env : Env} {draft : Draft} {log : List Draft} {args : Fields}

theorem Return.transaction (h : Return σ env id b draft b') : Transaction σ b [draft] b' :=
  .callReturn env id _ h.accepted h.records h.claims

theorem Stacked.not_noReturn (h : Stacked σ b.view id) (hne : openCalls b.view id ≠ []) : ¬ NoReturn env id b := by
  rintro ⟨refusal, hrefused⟩
  obtain ⟨hsome, _⟩ := h.graph hne
  obtain ⟨work, hwork⟩ := isSome_iff_exists.mp hsome
  obtain ⟨openCall, hlast⟩ := ne_none_iff_exists'.mp (mt getLast?_eq_none_iff.mp hne)
  have hheld := h.holder openCall hlast
  obtain ⟨_, role, hrole, _⟩ := h.roles openCall (mem_of_getLast? hlast)
  rw [hwork] at hheld
  have hheld : openCall["to"]? = work["holder"]? := hheld
  have hsame : same openCall["to"]? work["holder"]? = true := by
    rw [← hheld, hrole]
    simp [same]
  have hok : ∀ r, refuseUnless (same openCall["to"]? work["holder"]?) r = .ok () := fun _ => refuseUnless_eq_ok.mpr hsame
  rw [returnEvent, requireWork_eq_ok.mpr hwork] at hrefused
  dsimp only [bind, Except.bind] at hrefused
  rw [hlast] at hrefused
  dsimp only at hrefused
  rw [hok] at hrefused
  cases hrefused

theorem Return.pops (hrun : Run σ log b) (h : Return σ env id b draft b') :
    openCalls b'.view id = (openCalls b.view id).dropLast := by
  obtain ⟨work, openCall, hwork, hlast, hholder, hdraft⟩ := returnEvent_eq_ok h.accepted
  have hreturned : Returned b id work openCall draft := ⟨hwork, hlast, hholder, _, _, _, hdraft⟩
  obtain ⟨payload, rfl, hid, hto, hreturning⟩ := returned_payload hreturned
  obtain ⟨ts, hview⟩ := (hrun.kept.applied h.transaction).2.single rfl
  have hstacked : ∀ id, Stacked σ b.view.core id := fun id => (hrun.stacked id).of_same rfl rfl rfl rfl
  have hpops := (Stacked.returned ts hstacked hlast hid hto hreturning id).2
  rw [if_pos rfl, ← hview] at hpops
  exact hpops

/-- **The loop closes every call.** -/
theorem CloseAll.closed {drafts : List Draft} (hrun : Run σ log b) (h : CloseAll σ env id b drafts b') :
    openCalls b'.view id = [] := by
  induction h generalizing log with
  | done hnil => exact hnil
  | refused hne hno => exact absurd hno ((hrun.stacked id).not_noReturn hne)
  | next _ hreturn _ ih => exact ih (hrun.step hreturn.transaction)

/-- What a settle drafts opens and closes no call. -/
theorem settle_openCalls {drafts : List Draft} {drift : Option DriftEvidence} {targetClaimId : Option Json}
    {now : String} (hrun : Run σ log b)
    (hsettle : settleTx σ b env drift id targetClaimId args now = .ok (drafts, b'.claims)) (hrecords : Records σ b drafts b') :
    openCalls b'.view id = openCalls b.view id ∧
      ((∃ d ∈ drafts, Delivers d) → args["finalStatus"]? = some (.str "delivered")) := by
  obtain ⟨claim, work, edited, moved, _, _, _, hwork, hmoved, hedited, rfl, _⟩ := settleTx_eq_ok hsettle
  have hall : ∀ d ∈ edited ++ [⟨"work.attempt", attemptPayload id claim args work["status"]? now⟩] ++ moved,
      d.eventType ≠ "work.handoff" ∧ (Delivers d → args["finalStatus"]? = some (.str "delivered")) := by
    intro d hd
    rcases mem_append.mp hd with hd | hd
    · rcases mem_append.mp hd with hd | hd
      · rcases settleEdit_eq_ok hedited with ⟨_, rfl⟩ | ⟨_, _, _, rfl, _⟩
        · cases hd
        · cases mem_singleton.mp hd
          exact ⟨by simp, fun hdelivers => absurd hdelivers.1 (by simp)⟩
      · cases mem_singleton.mp hd
        exact ⟨by simp, fun hdelivers => absurd hdelivers.1 (by simp)⟩
    · rcases settleMove_eq_ok hmoved with ⟨rfl, _⟩ | ⟨transition, htransition, rfl⟩
      · cases hd
      · cases mem_singleton.mp hd
        obtain ⟨_, _, dst, hdst, hmovedItem⟩ := moved_of_settle (b := b) env hwork htransition
        refine ⟨by simp, fun hdelivers => ?_⟩
        rw [hdst]
        exact hmovedItem.payloadTo.symm.trans hdelivers.2
  refine ⟨?_, fun ⟨d, hd, hdelivers⟩ => (hall d hd).2 hdelivers⟩
  exact (hrun.kept.applied (.settle env drift id targetClaimId args now hsettle hrecords)).2.openCalls
    (fun d hd => (hall d hd).1) id

theorem moveWorkOnce_delivers {snapshot : Option PlanSnapshot} {prior : Option Fields}
    {engineDecision : Fields → Except Refusal (Option Fields)} {decision : Decision}
    (h : moveWorkOnce σ b env snapshot prior engineDecision id args = .ok decision)
    (hdelivers : ∃ d ∈ decision.drafts, Delivers d) : decision.reported["to"]? = some (.str "delivered") := by
  obtain ⟨d, hd, hmove, hto⟩ := hdelivers
  rcases moveWorkOnce_eq_ok h with ⟨hnil, _⟩ | ⟨work, transition, decided, _, _, _, _, hdecided, hdrafts⟩
  · rw [hnil] at hd
    cases hd
  · rw [hdrafts] at hd
    rcases mem_append.mp hd with hd | hd
    · rcases mem_append.mp hd with hd | hd
      · rw [hdecided d hd] at hmove
        exact absurd hmove (by decide)
      · cases mem_singleton.mp hd
        exact hto
    · exact absurd hmove (handed_reviewHandoff.not_move d hd)

/-- **The stack of open calls.**  On every board that a run reaches the open calls of an item form a chain that
ends at its holder, and its graph allows so many.  A move that delivers the item leaves none open; the settling
of a claim that delivers it leaves none open exactly when at most one was. -/
theorem call_stack {log : List Draft} (h : Run σ log b) (id : String) : Stacked σ b.view id ∧
    (∀ args drafts b', MoveWork σ b id args drafts b' → (∃ d ∈ drafts, Delivers d) → openCalls b'.view id = []) ∧
    ∀ args drafts b', SettleClaim σ b id args drafts b' → (∃ d ∈ drafts, Delivers d) →
      (openCalls b'.view id = [] ↔ (openCalls b.view id).length ≤ 1) := by
  refine ⟨h.stacked id, fun args drafts b' hmove hdelivers => ?_, fun args drafts b' hsettle hdelivers => ?_⟩
  · cases hmove with
    | delivered env snapshot prior engineDecision hsnapshot hmove hrecords hclaims _ _ hclosing =>
      exact hclosing.closed (h.step (.move env snapshot prior engineDecision id args hsnapshot hmove hrecords hclaims))
    | moved env snapshot prior engineDecision hsnapshot hmove hrecords hclaims hno =>
      have hrun := h.step (.move env snapshot prior engineDecision id args hsnapshot hmove hrecords hclaims)
      rcases hno with hno | hno
      · exact absurd (moveWorkOnce_delivers hmove hdelivers) hno
      · by_contra hne
        obtain ⟨_, graph, hgraph, _⟩ := (hrun.stacked id).graph hne
        rw [roleGraphOf, hgraph] at hno
        cases hno
  · have hlength : ∀ stack : List Fields, stack.dropLast = [] ↔ stack.length ≤ 1 := fun stack => by
      rw [← length_eq_zero_iff, length_dropLast]
      omega
    cases hsettle with
    | settled env drift targetClaimId now hsettle hrecords hno _ =>
      obtain ⟨hcalls, hstatus⟩ := settle_openCalls h hsettle hrecords
      have hrun := h.step (.settle env drift id targetClaimId args now hsettle hrecords)
      have hnil : openCalls b'.view id = [] := by
        by_contra hne
        exact (hrun.stacked id).not_noReturn hne (hno (hstatus hdelivers))
      rw [hnil] at hcalls
      rw [hnil, ← hcalls]
      simp
    | returned env drift targetClaimId now hsettle hrecords _ hreturn =>
      obtain ⟨hcalls, _⟩ := settle_openCalls h hsettle hrecords
      have hrun := h.step (.settle env drift id targetClaimId args now hsettle hrecords)
      rw [hreturn.pops hrun, hcalls]
      exact hlength _
    | reviewed env drift targetClaimId now hsettle hrecords hreview _ hcall _ _ =>
      -- a submission delivers nothing
      obtain ⟨_, hstatus⟩ := settle_openCalls h hsettle hrecords
      obtain ⟨d, hd, hdelivers⟩ := hdelivers
      rcases mem_append.mp hd with hd | hd
      · have hdelivered := hstatus ⟨d, hd, hdelivers⟩
        rw [hreview] at hdelivered
        simp at hdelivered
      · exact absurd hdelivers.1 ((handed_of_callEvent hcall).not_move d hd)

end

/-! A blocked item with one open call and with two is claimed, and settled as delivered. -/

namespace Sample

def call (b : Board) (args : List (String × Option Json)) : Except Refusal Draft :=
  callEvent linked.toStoreHost b.view env.writer "fix" (record args) 0

def called (b : Board) (args : List (String × Option Json)) : Board :=
  Board.after linked b [drafted (call b args)] b.claims

def review : List (String × Option Json) := [("toRole", some (.str "reviewer")), ("reason", some (.str "review"))]

def advice : List (String × Option Json) := [("toRole", some (.str "advisor")), ("reason", some (.str "advise"))]

def blockedFix : Board := added emptyBoard (item "fix" "blocked" [])

def reviewed : Board := called blockedFix review

def advised : Board := called reviewed advice

variable {log : List Draft}

theorem run_called {b : Board} {args : List (String × Option Json)} (hrun : Run linked log b)
    (hcall : (call b args).toOption.isSome = true ∧ (folded linked b.view [drafted (call b args)]).toOption.isSome = true) :
    Run linked (log ++ [drafted (call b args)]) (called b args) :=
  hrun.step (.call env "fix" _ 0 (eq_drafted hcall.1) (records_after _ hcall.2) rfl)

theorem run_reviewed : ∃ log, Run linked log reviewed := by
  have hadded : Run linked _ blockedFix := run_added .start (by decide) (by decide)
  exact ⟨_, run_called hadded (by decide)⟩

def claimedAt (b : Board) : Board := claimed b "fix" claimOfBlocked

def settledAt (b : Board) : Board := settled (claimedAt b) "fix" delivery

def callReturn (b : Board) : Except Refusal Draft :=
  returnEvent (settledAt b).view env.writer "fix" (some (.str "auto-closed at delivered (tsk-2t9c D16)"))

def returnedAt (b : Board) : Board := Board.after linked (settledAt b) [drafted (callReturn b)] (settledAt b).claims

def Settles (b : Board) : Prop :=
  (acquire b "fix" claimOfBlocked).toOption.isSome = true ∧
    (settle (claimedAt b) "fix" delivery).toOption.isSome = true ∧
    (folded linked (claimedAt b).view (drafted (settle (claimedAt b) "fix" delivery)).1).toOption.isSome = true ∧
    (callReturn b).toOption.isSome = true ∧
    (folded linked (settledAt b).view [drafted (callReturn b)]).toOption.isSome = true ∧
    (∃ d ∈ (drafted (settle (claimedAt b) "fix" delivery)).1, d.eventType = "work.move" ∧
      d.payload["to"]? = some (.str "delivered"))

instance (b : Board) : Decidable (Settles b) := inferInstanceAs (Decidable (_ ∧ _))

theorem settled_at {b : Board} (hrun : Run linked log b) (h : Settles b) :
    ∃ log drafts, Run linked log (claimedAt b) ∧ SettleClaim linked (claimedAt b) "fix" (record delivery) drafts (returnedAt b) ∧
      ∃ d ∈ drafts, Delivers d := by
  obtain ⟨hacquire, hsettle, hfold, hreturn, hreturned, d, hd, hdelivers⟩ := h
  have hstatus : (record delivery)["finalStatus"]? = some (.str "delivered") := getElem?_record _ (by decide) _
  have hreturn : Return linked env "fix" (settledAt b) (drafted (callReturn b)) (returnedAt b) :=
    ⟨eq_drafted hreturn, records_after _ hreturned, rfl⟩
  exact ⟨_, _, run_claimed hrun hacquire,
    .returned env none (some (.str "claim")) "now" (settle_eq hsettle) (records_after _ hfold) hstatus hreturn,
    d, mem_append_left _ hd, hdelivers⟩

end Sample

/-- One open call is closed by the settle. -/
theorem call_stack_reviewed : (openCalls (Sample.claimedAt Sample.reviewed).view "fix").length ≤ 1 ∧
    openCalls (Sample.returnedAt Sample.reviewed).view "fix" = [] := by
  obtain ⟨_, hreviewed⟩ := Sample.run_reviewed
  obtain ⟨_, drafts, hrun, hsettle, hdelivers⟩ := Sample.settled_at hreviewed (by decide)
  have hone : (openCalls (Sample.claimedAt Sample.reviewed).view "fix").length ≤ 1 := by decide
  exact ⟨hone, ((call_stack hrun "fix").2.2 _ drafts _ hsettle hdelivers).mpr hone⟩

/-- With two open calls the settle leaves one open. -/
theorem call_stack_counterexample : ∃ log b args drafts b', Run Sample.linked log b ∧
    SettleClaim Sample.linked b "fix" args drafts b' ∧ (∃ d ∈ drafts, Delivers d) ∧ openCalls b'.view "fix" ≠ [] := by
  obtain ⟨_, hreviewed⟩ := Sample.run_reviewed
  have hadvised : Run Sample.linked _ Sample.advised := Sample.run_called hreviewed (by decide)
  obtain ⟨log, drafts, hrun, hsettle, hdelivers⟩ := Sample.settled_at hadvised (by decide)
  refine ⟨log, _, _, drafts, _, hrun, hsettle, hdelivers, fun hnil => ?_⟩
  have hlength : (openCalls (Sample.returnedAt Sample.advised).view "fix").length = 1 := by decide
  rw [hnil] at hlength
  cases hlength

end Store

end Forgent
