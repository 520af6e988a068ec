import Forgent.StoreItems

/-!
# The life of a work item

The history of an item is the list of the statuses that the events of a run have given it.  An addition gives
the first one, whichever its caller declares, and every other is the end of an edge of the table
(`Run.history`).  So an item that is done or not wanted stays so, and the way to `done` leads through
`delivered`, `retrospective` and `cleanup`, back to where the item was added.
-/

namespace Forgent

open Json List Option

namespace Store

open StatusFsm

variable {σ : Linked} {b b' : Board} {id : String} {drafts log : List Draft} {env : Env} {work gate : Fields}
  {rest : List Json}

def statusGiven (id : String) (d : Draft) : Option Json :=
  if d.payload["id"]? = some (.str id) then
    match d.eventType with
    | "work.add" => d.payload["status"]?
    | "work.move" => d.payload["to"]?
    | _ => none
  else none

/-- The statuses that an item was given, the first one first. -/
def history (id : String) (log : List Draft) : List Json := log.filterMap (statusGiven id)

/-- The table has the edge. -/
def Allowed (s t : Json) : Prop := ∃ src dst, s = .str src ∧ t = .str dst ∧ (src, dst) ∈ transitions

theorem statusGiven_of_leaves {d : Draft} (h : Leaves "status" d) : statusGiven id d = none := by
  unfold statusGiven
  split
  · have hne : d.eventType ≠ "work.add" ∧ d.eventType ≠ "work.move" := by
      cases h with
      | other hadd _ hk =>
        refine ⟨hadd, fun heq => hk ?_⟩
        rw [heq]
        decide
      | edit => exact ⟨by simp, by simp⟩
    split
    · rename_i ht
      exact absurd ht hne.1
    · rename_i ht
      exact absurd ht hne.2
    · rfl
  · rfl

theorem history_of_leaves (h : ∀ d ∈ drafts, Leaves "status" d) : history id drafts = [] := by
  rw [history, filterMap_eq_nil_iff]
  exact fun d hd => statusGiven_of_leaves (h d hd)

/-- **What one transaction does to the status of an item**: nothing, or it adds the item, or it moves it along an
edge. -/
inductive StatusStep (id : String) (drafts : List Draft) (b b' : Board) : Prop
  | stays : history id drafts = [] → fieldOf b'.view.work[id]? "status" = fieldOf b.view.work[id]? "status" →
      StatusStep id drafts b b'
  | added {status : Json} : history id drafts = [status] → b.view.work[id]? = none →
      fieldOf b'.view.work[id]? "status" = some status → StatusStep id drafts b b'
  | moved {src dst : String} : history id drafts = [.str dst] → (src, dst) ∈ transitions →
      fieldOf b.view.work[id]? "status" = some (.str src) → fieldOf b'.view.work[id]? "status" = some (.str dst) →
      StatusStep id drafts b b'

theorem statusStep_of_add {draft : Draft} (hb : Kept σ b) (h : Transaction σ b [draft] b')
    (hadd : addWork σ b env work = .ok draft) (id : String) : StatusStep id [draft] b b' := by
  obtain ⟨id', hid, hnone, _, hwork⟩ := hb.added h hadd
  obtain ⟨_, hshape, _, _⟩ := addWork_eq_ok hadd
  obtain ⟨status, _, hstatus⟩ := hshape.status
  have hpayload : draft.payload["id"]? = some (.str id') := (addWork_payload hadd (by decide)).trans hid
  by_cases heq : id' = id
  · subst heq
    have hgiven : statusGiven id' draft = some (.str status) := by
      rw [statusGiven, if_pos hpayload]
      simp only [addWork_eventType hadd]
      exact (addWork_payload hadd (by decide)).trans hstatus
    have hhistory : history id' [draft] = [.str status] := by
      rw [history, filterMap_cons_some hgiven, filterMap_nil]
    refine .added hhistory hnone ?_
    rw [hwork, if_pos rfl]
    exact (addedItem_of_addWork hadd (by decide) (by decide)).trans hstatus
  · refine .stays ?_ ?_
    · have hgiven : statusGiven id draft = none := by
        rw [statusGiven, if_neg]
        rw [hpayload]
        simpa using heq
      rw [history, filterMap_cons_none hgiven, filterMap_nil]
    · rw [hwork, if_neg heq]

/-- **One transaction.** -/
theorem Transaction.statusStep (hb : Kept σ b) (h : Transaction σ b drafts b') (id : String) :
    StatusStep id drafts b b' := by
  rcases h.batch with ⟨env, work, draft, rfl, hadd⟩ | ⟨edited, plain, moved, handed, rfl, hbatch⟩
  · exact statusStep_of_add hb h hadd id
  · rcases hbatch.moved with rfl | ⟨id', src, dst, work, payload, rfl, hmoved⟩
    · have hleaves := hbatch.leaves (k := "status") (.inr (by decide)) (.inl rfl) (by decide) (.inr (by decide))
      exact .stays (history_of_leaves hleaves) (hb.leaves h hleaves id).1
    · obtain ⟨hpre, hpost⟩ := hbatch.leaves_around (k := "status") (by decide) (by decide) (by decide) (by decide)
      obtain ⟨decided, hdecided, _⟩ := hmoved.transition
      obtain ⟨_, item, hitem, hsome, hstatus⟩ :=
        hb.moved (k := "status") h hbatch hmoved (by decide) (by decide) (by decide) (by decide) id
      have hhistory : history id (edited ++ plain ++ [⟨"work.move", payload⟩] ++ handed) =
          history id [⟨"work.move", payload⟩] := by
        have happend : ∀ l l', history id (l ++ l') = history id l ++ history id l' :=
          fun l l' => filterMap_append
        rw [happend, happend, history_of_leaves hpre, history_of_leaves hpost, nil_append, append_nil]
      by_cases heq : id' = id
      · subst heq
        have hgiven : statusGiven id' ⟨"work.move", payload⟩ = some (.str dst) := by
          rw [statusGiven, if_pos hmoved.payloadId]
          exact hmoved.payloadTo
        rw [hmoved.filed hb] at hitem hsome
        obtain ⟨i, rfl⟩ := isSome_iff_exists.mp hsome
        rw [if_pos rfl] at hstatus
        refine .moved ?_ hdecided.edge ?_ (hstatus.trans ?_)
        · rw [hhistory, history, filterMap_cons_some hgiven, filterMap_nil]
        · rw [hmoved.filed hb]
          exact hdecided.status
        · show (moveItem (some payload.toJson) i)["status"]? = _
          rw [moveItem_status, member_toJson, hmoved.payloadTo]
      · have hgiven : statusGiven id ⟨"work.move", payload⟩ = none := by
          rw [statusGiven, if_neg]
          rw [hmoved.payloadId]
          simpa using heq
        rw [if_neg heq] at hstatus
        refine .stays ?_ hstatus
        rw [hhistory, history, filterMap_cons_none hgiven, filterMap_nil]

/-! ### A whole run -/

/-- **The history of an item** follows the table, and ends with its status. -/
theorem Run.history (h : Run σ log b) (id : String) :
    List.IsChain Allowed (history id log) ∧ (history id log).getLast? = fieldOf b.view.work[id]? "status" := by
  induction h with
  | start =>
    refine ⟨.nil, ?_⟩
    show none = fieldOf emptyBoard.view.work[id]? "status"
    simp [fieldOf, emptyBoard, View.empty]
  | @step log drafts b b' hrun hstep ih =>
    obtain ⟨hchain, hlast⟩ := ih
    have happend : Store.history id (log ++ drafts) = Store.history id log ++ Store.history id drafts :=
      filterMap_append
    rw [happend]
    rcases hstep.statusStep hrun.kept id with ⟨hnil, hsame⟩ | ⟨hone, hnone, hstatus⟩ | ⟨hone, hedge, hold, hnew⟩
    · rw [hnil, append_nil]
      exact ⟨hchain, hlast.trans hsame.symm⟩
    · rw [hnone] at hlast
      have hempty : Store.history id log = [] := getLast?_eq_none_iff.mp hlast
      rw [hone, hempty]
      exact ⟨.singleton _, hstatus.symm⟩
    · rw [hone]
      refine ⟨isChain_append.mpr ⟨hchain, .singleton _, fun x hx y hy => ?_⟩, ?_⟩
      · cases hy
        rw [hlast, hold] at hx
        cases hx
        exact ⟨_, _, rfl, rfl, hedge⟩
      · rw [getLast?_append]
        exact hnew.symm

/-! ### What an answer resumes to -/

/-- What a gate may hold about the status at the time of the question: a question was asked at `todo` or `doing`, and
an approval may stand under any name. -/
def Recorded (value : Option Json) : Prop :=
  value = none ∨ value = some (.str "todo") ∨ value = some (.str "doing") ∨ ∃ members, value = some (.obj members)

/-- The status of a question is recorded twice, or not at all. -/
structure GateKept (gate : Fields) : Prop where
  durable : Recorded gate["durableStatusAtAsk"]?
  informal : gate["durableStatusAtAsk"]? = none →
    gate["statusAtAsk"]? = none ∨ ∃ members, gate["statusAtAsk"]? = some (.obj members)

def GatesKept (view : View) : Prop := ∀ (id : String) (gate : Fields), view.gates[id]? = some gate → GateKept gate

theorem gateKept_empty : GateKept ∅ := ⟨.inl (by simp), fun _ => .inl (by simp)⟩

variable {host : Host} {view view' : View} {d : Draft} {k : String}

theorem getElem?_keepTrue {f : Fields} {name : String} {value : Option Json} (hne : name ≠ k) :
    (f.keepTrue name value)[k]? = f[k]? := by
  unfold Fields.keepTrue
  split
  · rw [Fields.getElem?_set, if_neg hne]
  · rfl

theorem moveGates_get {gates : Table Fields} {id' : String} {payload : Option Json}
    (h : (moveGates gates id payload)[id']? = some gate) : gates[id']? = some gate ∨
      ∀ k ∈ ["statusAtAsk", "durableStatusAtAsk"], gate[k]? = (member payload k).or (gates.getD id ∅)[k]? := by
  unfold moveGates at h
  dsimp only at h
  split at h
  · rw [Std.ExtTreeMap.getElem?_insert] at h
    split at h
    · refine .inr fun k hk => ?_
      have hne : ∀ s ∈ ["ask", "askHistory", "answer", "approved"], s ≠ k := by
        revert k
        decide
      have hkept : k ∈ ["parentSnapshotAtAsk", "statusAtAsk", "durableStatusAtAsk", "rationale", "alternatives", "source",
          "askSource"] := by
        revert k
        decide
      cases h
      split <;> split <;>
        simp only [Fields.getElem?_insert', Fields.getElem?_erase', Fields.getElem?_keepAll, hne "approved" (by decide),
          hne "askHistory" (by decide), if_false, hkept, if_true, getElem?_keepTrue (hne "answer" (by decide)),
          getElem?_keepTrue (hne "ask" (by decide))]
    · exact .inl h
  · exact .inl h

theorem getD_gates (hview : GatesKept view) (id : String) : GateKept (view.gates.getD id ∅) := by
  rw [Std.ExtTreeMap.getD_eq_getD_getElem?]
  cases hgate : view.gates[id]? with
  | none => exact gateKept_empty
  | some gate => exact hview id gate hgate

theorem Recorded.or {a c : Option Json} (ha : Recorded a) (hc : Recorded c) : Recorded (a.or c) := by
  cases a with
  | none => exact hc
  | some _ => exact ha

theorem GateKept.insert (h : GateKept gate) (name : String) (members : List (String × Json)) :
    GateKept (gate.insert name (.obj members)) where
  durable := by
    rw [Fields.getElem?_insert']
    split
    · exact .inr (.inr (.inr ⟨members, rfl⟩))
    · exact h.durable
  informal hnone := by
    rw [Fields.getElem?_insert'] at hnone ⊢
    split at hnone
    · cases hnone
    · split
      · exact .inr ⟨members, rfl⟩
      · exact h.informal hnone

/-- The draft says of the status at the time of the question what a gate may hold. -/
structure AsksKept (d : Draft) : Prop where
  durable : d.eventType = "work.move" → Recorded d.payload["durableStatusAtAsk"]?
  informal : d.eventType = "work.move" → d.payload["durableStatusAtAsk"]? = none → d.payload["statusAtAsk"]? = none

/-- **One event keeps the gates.** -/
theorem GatesKept.applyWorkEvent {ts : String} (h : GatesKept view) (hd : AsksKept d) :
    GatesKept (applyWorkEvent host view (d.event ts)) := by
  have hsame : ∀ next : View, next.gates = view.gates → GatesKept next := fun next heq id gate hgate =>
    h id gate (heq ▸ hgate)
  have hmodify : ∀ (id : String) (f : Fields → Fields), (view.modifyItem id f).gates = view.gates := fun id f => by
    unfold View.modifyItem
    split <;> rfl
  unfold Forgent.applyWorkEvent
  split
  case h_2 ht =>
    -- the gates of a move
    intro id gate hgate
    rcases moveGates_get hgate with hold | hnew
    · exact h id gate hold
    · have hkept := getD_gates h (Json.key host.arithmetic (member (d.event ts).payload "id"))
      have hdurable := hnew "durableStatusAtAsk" (by decide)
      have hinformal := hnew "statusAtAsk" (by decide)
      rw [Draft.event, member_toJson] at hdurable hinformal
      refine ⟨?_, fun hnone => ?_⟩
      · rw [hdurable]
        exact (hd.durable ht).or hkept.durable
      · rw [hdurable, or_eq_none_iff] at hnone
        rw [hinformal, hd.informal ht hnone.1, none_or]
        exact hkept.informal hnone.2
  case h_11 =>
    unfold workGateApprove
    split
    · rename_i id name _ _
      intro id' gate hgate
      have hgate : (view.gates.insert id ((view.gates.getD id ∅).insert name _))[id']? = some gate := hgate
      rw [Std.ExtTreeMap.getElem?_insert] at hgate
      split at hgate
      · cases hgate
        exact (getD_gates h id).insert name _
      · exact h id' gate hgate
    · exact h
  case h_3 | h_13 | h_14 | h_6 | h_7 | h_8 => exact hsame _ (hmodify _ _)
  case h_1 => exact hsame _ (by unfold workAdd; split <;> rfl)
  case h_5 => exact hsame _ (by unfold workOutcome; split <;> rfl)
  case h_9 => exact hsame _ (by unfold workCallSummary; dsimp only; split <;> rfl)
  case h_10 => exact hsame _ (by unfold workDiscovery; split <;> rfl)
  case h_12 => exact hsame _ (by unfold goalFocus; split <;> rfl)
  case h_4 => exact hsame _ rfl
  case h_15 => exact h

theorem gatesKept_of_applied (h : Applied host view drafts view') (hview : GatesKept view)
    (hdrafts : ∀ d ∈ drafts, AsksKept d) : GatesKept view' := by
  induction h with
  | nil => exact hview
  | work ts _ ih =>
    obtain ⟨hd, hdrafts⟩ := forall_mem_cons.mp hdrafts
    exact ih (hview.applyWorkEvent hd) hdrafts
  | knowledge _ _ _ ih => exact ih hview (forall_mem_cons.mp hdrafts).2

/-- **Every move that a transaction drafts was decided.** -/
theorem Transaction.moved {drafts : List Draft} (h : Transaction σ b drafts b') {d : Draft} (hd : d ∈ drafts)
    (hmove : d.eventType = "work.move") : ∃ id src dst work, Moved σ b id src dst work d.payload := by
  rcases h.batch with ⟨env, work, draft, rfl, hadd⟩ | ⟨edited, plain, moved, handed, rfl, hbatch⟩
  · cases mem_singleton.mp hd
    rw [addWork_eventType hadd] at hmove
    exact absurd hmove (by decide)
  · rcases mem_append.mp hd with hd | hd
    · rcases mem_append.mp hd with hd | hd
      · rcases mem_append.mp hd with hd | hd
        · rcases hbatch.edited with rfl | ⟨_, _, _, _, _, _, rfl, _⟩
          · cases hd
          · cases mem_singleton.mp hd
            exact absurd hmove (by simp)
        · have hother := hbatch.plain d hd
          rw [hmove] at hother
          exact absurd hother (by decide)
      · rcases hbatch.moved with rfl | ⟨id, src, dst, work, payload, rfl, hmoved⟩
        · cases hd
        · cases mem_singleton.mp hd
          exact ⟨id, src, dst, work, hmoved⟩
    · exact absurd hmove (hbatch.handed.not_move d hd)

theorem Moved.asksKept {src dst : String} {d : Draft} (h : Moved σ b id src dst work d.payload) : AsksKept d where
  durable _ := by
    rw [h.durableStatusAtAsk]
    split
    · rename_i hdst
      obtain ⟨decided, hdecided, _⟩ := h.transition
      have hsrc : src = "todo" ∨ src = "doing" := by
        have hedge := hdst ▸ hdecided.edge
        simpa [transitions] using hedge
      rw [hdecided.status]
      exact hsrc.elim (fun heq => .inr (.inl (by rw [heq]))) fun heq => .inr (.inr (.inl (by rw [heq])))
    · exact .inl rfl
  informal _ hnone := by
    rw [h.durableStatusAtAsk] at hnone
    by_contra hsome
    have hdst := h.statusAtAsk (isSome_iff_ne_none.mpr hsome)
    obtain ⟨decided, hdecided, _⟩ := h.transition
    rw [if_pos hdst, hdecided.status] at hnone
    cases hnone

theorem Transaction.gatesKept (hb : Kept σ b) (hview : GatesKept b.view)
    (h : Transaction σ b drafts b') : GatesKept b'.view := by
  have hdrafts : ∀ d ∈ drafts, AsksKept d := by
    intro d hd
    by_cases hmove : d.eventType = "work.move"
    · obtain ⟨_, _, _, _, hmoved⟩ := h.moved hd hmove
      exact hmoved.asksKept
    · exact ⟨fun heq => absurd heq hmove, fun heq => absurd heq hmove⟩
  have hcore : GatesKept b'.view.core := gatesKept_of_applied (hb.applied h).2 hview hdrafts
  exact hcore

theorem Run.gatesKept (h : Run σ log b) : GatesKept b.view := by
  induction h with
  | start =>
    intro id gate hgate
    have hnone : emptyBoard.view.gates[id]? = none := by simp [emptyBoard, View.empty]
    rw [hnone] at hgate
    cases hgate
  | step hrun hstep ih => exact hstep.gatesKept hrun.kept ih

theorem GatesKept.resumeStatus (h : GatesKept view) (id : String) :
    resumeStatus view id = some (.str "todo") ∨ ∃ members, resumeStatus view id = some (.obj members) := by
  have hgate := getD_gates h id
  unfold Store.resumeStatus
  generalize view.gates.getD id ∅ = gate at hgate ⊢
  dsimp only
  rcases hgate.durable with hnone | htodo | hdoing | ⟨members, hobj⟩
  · rcases hgate.informal hnone with hnone' | ⟨members, hobj⟩
    · rw [hnone, hnone']
      exact .inl rfl
    · rw [hnone, hobj]
      exact .inr ⟨members, rfl⟩
  · rw [htodo]
    exact .inl rfl
  · rw [hdoing]
    exact .inl rfl
  · rw [hobj]
    exact .inr ⟨members, rfl⟩

/-! ### The life cycle -/

theorem targets_of_closed {s : String} {t : Json} (hs : s ∈ ["done", "wontfix"]) : ¬ Allowed (.str s) t := by
  rintro ⟨src, dst, hsrc, _, hedge⟩
  cases hsrc
  have hall : ∀ edge ∈ transitions, edge.1 ∉ ["done", "wontfix"] := by decide
  exact hall _ hedge hs

theorem source_of_late {s : Json} {t u : String} (hlate : (u, t) ∈ [("cleanup", "done"), ("retrospective", "cleanup"),
    ("delivered", "retrospective")]) (h : Allowed s (.str t)) : s = .str u := by
  obtain ⟨src, dst, rfl, hdst, hedge⟩ := h
  cases hdst
  simp only [mem_cons, Prod.mk.injEq, not_mem_nil, or_false] at hlate
  rcases hlate with ⟨rfl, rfl⟩ | ⟨rfl, rfl⟩ | ⟨rfl, rfl⟩ <;> simpa [transitions] using hedge

theorem prefix_of_late {u t : String} {before : List Json} (late : List Json)
    (hlate : (u, t) ∈ [("cleanup", "done"), ("retrospective", "cleanup"), ("delivered", "retrospective")])
    (hchain : List.IsChain Allowed (before ++ .str t :: rest))
    (hnext : ∀ before', before = before' ++ [.str u] → before'.reverse.take late.length <+: late) :
    before.reverse.take (late.length + 1) <+: .str u :: late := by
  rcases eq_nil_or_concat' before with rfl | ⟨before', s, rfl⟩
  · simp
  · have hlast : s = .str u := by
      refine source_of_late hlate ?_
      rw [append_assoc, isChain_append] at hchain
      exact (isChain_cons_cons.mp hchain.2.1).1
    rw [hlast, reverse_append, reverse_singleton, singleton_append, take_succ_cons]
    exact prefix_cons_inj _ |>.mpr (hnext before' (by rw [hlast]))

theorem way_to_done {before : List Json} (hchain : List.IsChain Allowed (before ++ .str "done" :: rest)) :
    before.reverse.take 3 <+: [.str "cleanup", .str "retrospective", .str "delivered"] := by
  refine prefix_of_late (u := "cleanup") [.str "retrospective", .str "delivered"] (by decide) hchain ?_
  rintro before rfl
  rw [append_assoc] at hchain
  refine prefix_of_late (u := "retrospective") [.str "delivered"] (by decide) hchain ?_
  rintro before rfl
  rw [append_assoc] at hchain
  refine prefix_of_late (u := "delivered") [] (by decide) hchain ?_
  rintro before rfl
  simp

/-- **The answer of a question is a move to `todo`.** -/
theorem answer_to_todo {view : View} {snapshot : Option PlanSnapshot} {prior : Option Fields}
    {engineDecision : Fields → Except Refusal (Option Fields)} {args : Fields} {decision : Decision}
    (hview : GatesKept view)
    (h : moveWorkOnce σ b env snapshot prior engineDecision id (answerArgs view id args) = .ok decision) :
    decision.reported["to"]? = some (.str "todo") := by
  rcases moveWorkOnce_eq_ok h with ⟨_, hland, _⟩ | ⟨work, transition, _, hwork, htransition, _, hreported, _⟩
  · have hnone : (answerArgs view id args)["landSettlement"]? = none := by
      have hcarried : "landSettlement" ∉ ["expectedStatus", "answer", "role", "rationale", "alternatives", "source",
        "approved"] := by decide
      rw [answerArgs, Fields.getElem?_set, if_neg (by decide), Fields.getElem?_keepAll, if_neg hcarried]
      simp
    rw [hnone] at hland
    cases hland
  · obtain ⟨_, _, dst, hdst, hmoved⟩ := moved_of_move env id hwork htransition
    have hto : (answerArgs view id args)["to"]? = resumeStatus view id := by
      rw [answerArgs, Fields.getElem?_set, if_pos rfl]
    rcases hview.resumeStatus id with htodo | ⟨members, hobj⟩
    · rw [hto, htodo] at hdst
      cases hdst
      exact hreported ▸ hmoved.payloadTo
    · rw [hto, hobj] at hdst
      cases hdst

theorem Run.never_doing (h : Run σ log b) :
    ∀ d ∈ log, d.eventType = "work.move" → d.payload["to"]? ≠ some (.str "doing") := by
  induction h with
  | start => simp
  | step _ hstep ih =>
    intro d hd hmove hto
    rcases mem_append.mp hd with hd | hd
    · exact ih d hd hmove hto
    · obtain ⟨_, src, dst, _, hmoved⟩ := hstep.moved hd hmove
      obtain ⟨decided, hdecided, _⟩ := hmoved.transition
      rw [hmoved.payloadTo] at hto
      cases hto
      have hedge := hdecided.edge
      simp [transitions] at hedge

/-- **The life cycle of an item.**  Its status is the last one that an event gave it.  `done` and `wontfix` are
last; before `done` stand `cleanup`, `retrospective` and `delivered`, back to where the item was added; no move
leads to `doing`; and what an answer resumes to is `todo`, which the table allows. -/
theorem life_cycle {log : List Draft} (h : Run σ log b) (id : String) :
    (history id log).getLast? = fieldOf b.view.work[id]? "status" ∧
    (∀ before after, ∀ s ∈ ["done", "wontfix"], history id log = before ++ .str s :: after → after = []) ∧
    (∀ before after, history id log = before ++ .str "done" :: after →
      before.reverse.take 3 <+: [.str "cleanup", .str "retrospective", .str "delivered"]) ∧
    (∀ d ∈ log, d.eventType = "work.move" → d.payload["to"]? ≠ some (.str "doing")) ∧
    ∀ b₁ env snapshot prior engineDecision args decision,
      moveWorkOnce σ b₁ env snapshot prior engineDecision id (answerArgs b.view id args) = .ok decision →
      decision.reported["to"]? = some (.str "todo") ∧ ("awaiting-human", "todo") ∈ transitions := by
  obtain ⟨hchain, hlast⟩ := h.history id
  refine ⟨hlast, fun before after s hs heq => ?_, fun before after heq => ?_, h.never_doing,
    fun b₁ env snapshot prior engineDecision args decision hanswer => ⟨answer_to_todo h.gatesKept hanswer, by decide⟩⟩
  · cases after with
    | nil => rfl
    | cons t after =>
      rw [heq, isChain_append] at hchain
      exact absurd (isChain_cons_cons.mp hchain.2.1).1 (targets_of_closed hs)
  · rw [heq] at hchain
    exact way_to_done hchain

/-! An item that is closed, and items that are added as closed and as claimed. -/

namespace Sample

def inCleanup : Board := added emptyBoard (item "landed" "cleanup" [])

def closed : Board := moved inCleanup "landed" [("to", some (.str "done"))]

theorem run_closed : ∃ log, Run linked log closed := by
  have hcleanup : Run linked _ (added emptyBoard (item "landed" "cleanup" [])) :=
    run_added .start (by decide) (by decide)
  have hclosed : Run linked _ (moved inCleanup "landed" [("to", some (.str "done"))]) :=
    run_moved hcleanup (by decide) (by decide)
  exact ⟨_, hclosed⟩

def addedClosed : Board := added emptyBoard (item "closed" "done" [])

end Sample

theorem life_cycle_closed : ∃ log, Run Sample.linked log Sample.closed ∧
    (history "landed" log).getLast? = some (.str "done") ∧
    ∀ before after, history "landed" log = before ++ .str "done" :: after → after = [] ∧
      before.reverse.take 3 <+: [.str "cleanup", .str "retrospective", .str "delivered"] := by
  obtain ⟨log, hrun⟩ := Sample.run_closed
  obtain ⟨hlast, hclosed, hway, _⟩ := life_cycle hrun "landed"
  refine ⟨log, hrun, hlast.trans (by decide), fun before after heq => ⟨?_, hway before after heq⟩⟩
  exact hclosed before after "done" (by decide) heq

/-- The caller of an addition declares the status: `done` without the way there, and `doing` too. -/
theorem life_cycle_counterexample : ∃ log b, Run Sample.linked log b ∧ history "closed" log = [.str "done"] ∧
    fieldOf b.view.work["closed"]? "status" = some (.str "done") ∧ history "claimed" log = [.str "doing"] ∧
    fieldOf b.view.work["claimed"]? "status" = some (.str "doing") := by
  have hclosed : Run Sample.linked _ (Sample.added emptyBoard (Sample.item "closed" "done" [])) :=
    Sample.run_added .start (by decide) (by decide)
  have hclaimed : Run Sample.linked _ (Sample.added Sample.addedClosed (Sample.item "claimed" "doing" [])) :=
    Sample.run_added hclosed (by decide) (by decide)
  exact ⟨_, _, hclaimed, by decide, by decide, by decide, by decide⟩

end Store

end Forgent
