import Forgent.KnowledgeWrites

/-!
# What a refused event leaves

An event that is refused should leave the view as it was.  A rename writes the lineage of the topic before it
checks the new slug; a register and a promote count the active documents behind their write; and the maps of
a view that has none are made before anything is checked.  `Disturbs` says when this is seen, and
`refused_leaves_view` that it is seen then only.
-/

namespace Forgent

open Json Std.ExtTreeMap

namespace Knowledge

open InPlace Reducer

variable {n : Arithmetic} {view : Knowledge} {payload : Option Json} {ts eventType : String} {next : Knowledge}
  {message : String}

/-! ### The view -/

/-- The two maps of the registry in a view; an older view has none. -/
structure RawView where
  topics : Option (Table Topic)
  docs : Option (List (String × Doc))

def RawView.registry (raw : RawView) : Knowledge := { topics := raw.topics.getD ∅, docs := raw.docs.getD [] }

def RawView.ofRegistry (view : Knowledge) : RawView := { topics := some view.topics, docs := some view.docs }

/-- `applyKnowledgeEvent`: the maps are made when they are not there. -/
def applyKnowledgeEvent (n : Arithmetic) (payload : Option Json) (ts eventType : String) :
    EStateM String RawView Unit := fun raw =>
  match Reducer.apply n payload ts eventType raw.registry with
  | .ok _ next => .ok () (.ofRegistry next)
  | .error message next => .error message (.ofRegistry next)

/-! ### Reducers that check first -/

theorem topicRegister_clean : Clean (Reducer.topicRegister n payload ts) := by
  unfold Reducer.topicRegister
  apply clean_check_bind; intro _
  apply clean_check_bind; intro id
  apply clean_check_bind; intro slug
  apply clean_check_bind; intro _
  exact (total_update _).clean

theorem topicSplit_clean : Clean (Reducer.topicSplit n payload ts) := by
  unfold Reducer.topicSplit
  apply clean_check_bind; intro oldTopic
  apply clean_check_bind; intro _
  apply clean_check_bind; intro newTopics
  apply clean_check_bind; intro _
  apply clean_check_bind; intro oldDocs
  apply clean_check_bind; intro assigned
  apply clean_check_bind; intro _
  exact ((total_update _).bind fun _ => .forM fun _ => total_update _).clean

theorem topicMerge_clean : Clean (Reducer.topicMerge n payload ts) := by
  unfold Reducer.topicMerge
  apply clean_check_bind; intro sourceTopicIds
  apply clean_check_bind; intro targetTopic
  apply clean_check_bind; intro _
  apply clean_check_bind; intro _
  apply clean_check_bind; intro _
  exact ((total_update _).bind fun _ => .forM fun _ => total_update _).clean

theorem topicRetire_clean : Clean (Reducer.topicRetire n payload ts) := by
  unfold Reducer.topicRetire
  apply clean_check_bind; intro _
  exact (total_update _).clean

theorem docReserve_clean : Clean (Reducer.docReserve n payload ts) := by
  unfold Reducer.docReserve
  apply clean_check_bind; intro target
  apply clean_check_bind; intro mode
  apply clean_check_bind; intro _
  apply clean_check_bind; intro _
  apply clean_check_bind; intro _
  exact (total_update _).clean

theorem docMarkRendered_clean : Clean (Reducer.docMarkRendered n payload ts) := by
  unfold Reducer.docMarkRendered
  apply clean_check_bind; intro p
  apply clean_check_bind; intro _
  apply clean_check_bind; intro _
  exact (total_update _).clean

theorem docDemote_clean : Clean (Reducer.docDemote n payload ts) := by
  unfold Reducer.docDemote
  apply clean_check_bind; intro p
  apply clean_check_bind; intro _
  apply clean_check_bind; intro _
  exact (total_update _).clean

theorem docSupersede_clean : Clean (Reducer.docSupersede n payload ts) := by
  unfold Reducer.docSupersede
  apply clean_check_bind; intro p
  apply clean_check_bind; intro _
  exact ((total_update _).bind fun _ => total_update _).clean

theorem docRetire_clean : Clean (Reducer.docRetire n payload ts) := by
  unfold Reducer.docRetire
  apply clean_check_bind; intro p
  exact (total_update _).clean

theorem docAttest_clean : Clean (Reducer.docAttest n payload ts) := by
  unfold Reducer.docAttest
  apply clean_check_bind; intro p
  apply clean_check_bind; intro _
  apply clean_check_bind; intro _
  apply clean_check_bind; intro captureId
  exact ((total_update _).bind fun _ => total_update _).clean

theorem docPathMove_clean : Clean (Reducer.docPathMove n payload ts) := by
  unfold Reducer.docPathMove
  apply clean_check_bind; intro p
  apply clean_check_bind; intro _
  apply clean_check_bind; intro path
  apply clean_check_bind; intro _
  exact ((total_update _).bind fun _ => total_update _).clean

theorem quiet_registered : Quiet (registered n payload ts) := by
  unfold registered
  apply (quiet_check _).bind; intro target
  apply (quiet_check _).bind; intro existing
  apply (quiet_check _).bind; intro _
  apply (quiet_check _).bind; intro lifecycle
  apply (quiet_check _).bind; intro mode
  apply (quiet_check _).bind; intro _
  apply (quiet_check _).bind; intro _
  apply (quiet_check _).bind; intro _
  exact quiet_pure _

theorem quiet_promoted : Quiet (promoted n payload) := by
  unfold promoted
  apply (quiet_check _).bind; intro p
  apply (quiet_check _).bind; intro _
  apply (quiet_check _).bind; intro _
  apply (quiet_check _).bind; intro _
  apply (quiet_check _).bind; intro _
  exact quiet_pure _

/-! ### What is written before a refusal -/

/-- A rename of the topic to a slug that is not safe, whose lineage does not say yet what a rename says. -/
def DisturbsTopic (n : Arithmetic) (view : Knowledge) (payload : Option Json) : Prop :=
  truthy (member payload "newPurposeSlug") = true ∧
  (∀ slug, member payload "newPurposeSlug" = some (.str slug) → isSafeSlug slug = false) ∧
  ∃ topic, view.topics[key n (member payload "topicId")]? = some topic ∧
    topic.lineage ≠ some ((topic.lineage.getD ∅).insert "renamedFrom" (.str topic.purposeSlug))

/-- The record changes the registry, and its topic and role have more than one active document then. -/
def Overfills (view : Knowledge) (key : String) (d : Doc) : Prop :=
  1 < ((view.withDoc key d).getActiveDocs d.topicId d.role).length ∧ view.withDoc key d ≠ view

def Disturbs (n : Arithmetic) (view : Knowledge) (payload : Option Json) (ts eventType : String) : Prop :=
  (eventType = "topic.rename" ∧ view.DisturbsTopic n payload) ∨
  (eventType = "doc.register" ∧ ∃ key d, registered n payload ts view = .ok (key, d) view ∧ view.Overfills key d) ∨
  (eventType = "doc.promote" ∧ ∃ id d, promoted n payload view = .ok (id, d) view ∧
    view.Overfills (text n id) { d with docLifecycle := .active, updatedAt := ts })

theorem assertSafeSlug_eq_error {value : Option Json} {label : String} :
    (∃ message, assertSafeSlug n value label = .error message) ↔
      ∀ slug, value = some (.str slug) → isSafeSlug slug = false := by
  unfold assertSafeSlug
  cases value with
  | none => simp
  | some v =>
    cases v with
    | str s => cases hs : isSafeSlug s <;> simp [hs]
    | _ => simp

theorem assertActiveDocCardinality_eq_error {topicId : Json} {role : String} :
    (∃ message, assertActiveDocCardinality n view topicId role = .error message) ↔
      1 < (view.getActiveDocs topicId role).length := by
  unfold assertActiveDocCardinality require
  dsimp only
  by_cases h : (view.getActiveDocs topicId role).length ≤ 1
  · simp [h]
  · simp [h, Nat.lt_of_not_le h]

theorem setTopic_eq_self {k : String} {old topic : Topic} (h : view.topics[k]? = some old) :
    view.setTopic k topic = view ↔ topic = old := by
  constructor
  · intro heq
    have hlookup : (view.setTopic k topic).topics[k]? = some topic := topics_setTopic k topic
    rw [heq, h] at hlookup
    exact (Option.some.inj hlookup).symm
  · rintro rfl
    have htopics : view.topics.insert k topic = view.topics := by
      apply ext_getElem?
      intro k'
      rw [getElem?_insert]
      split
      · rename_i hk
        rw [← Std.LawfulEqOrd.eq_of_compare hk, h]
      · rfl
    show { view with topics := view.topics.insert k topic } = view
    rw [htopics]

theorem topicRename_refused (h : Reducer.topicRename n payload ts view = .error message next) :
    next = view ↔ ¬ view.DisturbsTopic n payload := by
  unfold Reducer.topicRename at h
  rcases (quiet_check _).bind_error h with ⟨hmissing, hnext⟩ | ⟨topic, hfound, h⟩
  · refine iff_of_true hnext fun hdisturbs => ?_
    obtain ⟨_, _, topic, htopic, _⟩ := hdisturbs
    have hfound := (check_eq_error.mp hmissing).1
    rw [htopic] at hfound
    cases hfound
  · have htopic : view.topics[key n (member payload "topicId")]? = some topic :=
      found_eq_ok.mp (check_eq_ok.mp hfound).1
    rw [update_bind, check_bind_eq_error fun _ => total_update _] at h
    obtain ⟨hslug, hnext⟩ := h
    split at hslug
    · rename_i htruthy
      have hunsafe := assertSafeSlug_eq_error.mp ⟨message, hslug⟩
      rw [hnext, editTopic_eq htopic, setTopic_eq_self htopic]
      constructor
      · intro heq hdisturbs
        obtain ⟨_, _, topic', htopic', hlineage⟩ := hdisturbs
        rw [htopic] at htopic'
        cases htopic'
        exact hlineage (congrArg Topic.lineage heq).symm
      · intro hquiet
        by_contra hne
        refine hquiet ⟨htruthy, hunsafe, topic, htopic, fun hlineage => hne ?_⟩
        rw [← hlineage]
    · cases hslug

theorem overfills_of_refused {α : Type} {x : Step α} (hx : Quiet x) {put : α → Knowledge → Knowledge}
    {topicId : α → Json} {role : α → String} (h : (x >>= fun a => update (put a) >>= fun _ =>
      check fun view => assertActiveDocCardinality n view (topicId a) (role a)) view = .error message next) :
    next = view ↔ ¬ ∃ a, x view = .ok a view ∧
      1 < ((put a view).getActiveDocs (topicId a) (role a)).length ∧ put a view ≠ view := by
  rcases hx.bind_error h with ⟨hrefused, hnext⟩ | ⟨a, hok, h⟩
  · refine iff_of_true hnext fun hdisturbs => ?_
    obtain ⟨a, hok, _⟩ := hdisturbs
    rw [hrefused] at hok
    cases hok
  · rw [update_bind, check_eq_error] at h
    obtain ⟨hcount, hnext⟩ := h
    have hmany := assertActiveDocCardinality_eq_error.mp ⟨message, hcount⟩
    rw [hnext]
    constructor
    · intro heq hdisturbs
      obtain ⟨b, hok', _, hne⟩ := hdisturbs
      rw [hok] at hok'
      cases hok'
      exact hne heq
    · intro hquiet
      by_contra hne
      exact hquiet ⟨a, hok, hmany, hne⟩

theorem docRegister_refused (h : Reducer.docRegister n payload ts view = .error message next) :
    next = view ↔ ¬ ∃ key d, registered n payload ts view = .ok (key, d) view ∧ view.Overfills key d := by
  unfold Reducer.docRegister at h
  rw [overfills_of_refused quiet_registered h]
  apply not_congr
  constructor
  · intro hover
    obtain ⟨p, hp, hcount, hne⟩ := hover
    exact ⟨p.1, p.2, hp, hcount, hne⟩
  · intro hover
    obtain ⟨key, d, hp, hcount, hne⟩ := hover
    exact ⟨(key, d), hp, hcount, hne⟩

theorem promoted_found {id : Json} {d : Doc} (h : promoted n payload view = .ok (id, d) view) :
    view.doc? (text n id) = some d := by
  have hok := outcome_eq_ok.mpr h
  unfold promoted at hok
  simp only [outcome_check_bind, outcome_pure] at hok
  obtain ⟨p, hold, hok⟩ := bind_eq_ok.mp hok
  obtain ⟨_, _, hok⟩ := bind_eq_ok.mp hok
  obtain ⟨_, _, hok⟩ := bind_eq_ok.mp hok
  obtain ⟨_, _, hok⟩ := bind_eq_ok.mp hok
  obtain ⟨_, _, hok⟩ := bind_eq_ok.mp hok
  cases hok
  exact (resolveDoc_eq_ok hold).2.found

theorem docPromote_refused (h : Reducer.docPromote n payload ts view = .error message next) :
    next = view ↔ ¬ ∃ id d, promoted n payload view = .ok (id, d) view ∧
      view.Overfills (text n id) { d with docLifecycle := .active, updatedAt := ts } := by
  unfold Reducer.docPromote at h
  rw [overfills_of_refused quiet_promoted h]
  apply not_congr
  constructor
  · intro hover
    obtain ⟨p, hp, hcount, hne⟩ := hover
    rw [editDoc_eq (promoted_found hp)] at hcount hne
    exact ⟨p.1, p.2, hp, hcount, hne⟩
  · intro hover
    obtain ⟨id, d, hp, hcount, hne⟩ := hover
    refine ⟨(id, d), hp, ?_⟩
    rw [editDoc_eq (promoted_found hp)]
    exact ⟨hcount, hne⟩

theorem not_disturbs (h : eventType ≠ "topic.rename" ∧ eventType ≠ "doc.register" ∧ eventType ≠ "doc.promote") :
    ¬ view.Disturbs n payload ts eventType := by
  intro hdisturbs
  rcases hdisturbs with hd | hd | hd
  · exact h.1 hd.1
  · exact h.2.1 hd.1
  · exact h.2.2 hd.1

theorem apply_refused (h : Reducer.apply n payload ts eventType view = .error message next) :
    next = view ↔ ¬ view.Disturbs n payload ts eventType := by
  have hclean : ∀ {x : Step Unit} {type : String}, Clean x → x view = .error message next →
      (type ≠ "topic.rename" ∧ type ≠ "doc.register" ∧ type ≠ "doc.promote") →
      (next = view ↔ ¬ view.Disturbs n payload ts type) :=
    fun hx hrun htype => iff_of_true (hx _ _ _ hrun) (not_disturbs htype)
  unfold Reducer.apply at h
  split at h
  · exact hclean topicRegister_clean h (by decide)
  · rw [topicRename_refused h]
    simp [Disturbs]
  · exact hclean topicSplit_clean h (by decide)
  · exact hclean topicMerge_clean h (by decide)
  · exact hclean topicRetire_clean h (by decide)
  · exact hclean docReserve_clean h (by decide)
  · rw [docRegister_refused h]
    simp [Disturbs]
  · exact hclean docMarkRendered_clean h (by decide)
  · rw [docPromote_refused h]
    simp [Disturbs]
  · exact hclean docDemote_clean h (by decide)
  · exact hclean docSupersede_clean h (by decide)
  · exact hclean docRetire_clean h (by decide)
  · exact hclean docPathMove_clean h (by decide)
  · exact hclean docAttest_clean h (by decide)
  · cases h

theorem apply_accepted {u : Unit} (h : Reducer.apply n payload ts eventType view = .ok u next) :
    view.apply n payload ts eventType = .ok next := by
  have houtcome : outcome (Reducer.apply n payload ts eventType) view = done (view.apply n payload ts eventType) :=
    Reducer.apply_outcome eventType
  rw [outcome_eq_ok.mpr h] at houtcome
  cases happly : view.apply n payload ts eventType with
  | ok next' =>
    rw [happly] at houtcome
    cases houtcome
    rfl
  | error message =>
    rw [happly] at houtcome
    cases houtcome

@[simp] theorem registry_ofRegistry : (RawView.ofRegistry view).registry = view := rfl

theorem ofRegistry_eq_iff {raw : RawView} :
    RawView.ofRegistry next = raw ↔ raw.topics.isSome ∧ raw.docs.isSome ∧ next = raw.registry := by
  cases raw with
  | mk topics docs =>
    cases topics with
    | none => simp [RawView.ofRegistry]
    | some topics =>
      cases docs with
      | none => simp [RawView.ofRegistry]
      | some docs =>
        show RawView.mk (some next.topics) (some next.docs) = _ ↔ _ ∧ _ ∧ next = Knowledge.mk topics docs
        cases next
        simp

/-- **A refused event leaves the view as it was** exactly when the view has its maps and the event does not
disturb the registry; an accepted one is not refused. -/
theorem refused_leaves_view (n : Arithmetic) (payload : Option Json) (ts eventType : String) (raw : RawView) :
    (∀ message left, applyKnowledgeEvent n payload ts eventType raw = .error message left → left = raw) ↔
      (∃ next, raw.registry.apply n payload ts eventType = .ok next) ∨
      (raw.topics.isSome ∧ raw.docs.isSome ∧ ¬ raw.registry.Disturbs n payload ts eventType) := by
  cases hrun : Reducer.apply n payload ts eventType raw.registry with
  | ok u next =>
    have haccepted := apply_accepted hrun
    refine iff_of_true (fun message left h => ?_) (.inl ⟨next, haccepted⟩)
    rw [applyKnowledgeEvent, hrun] at h
    cases h
  | error message next =>
    have hrefused : ¬ ∃ next, raw.registry.apply n payload ts eventType = .ok next := by
      intro haccepted
      obtain ⟨next', haccepted⟩ := haccepted
      have houtcome : outcome (Reducer.apply n payload ts eventType) raw.registry =
          done (raw.registry.apply n payload ts eventType) := Reducer.apply_outcome eventType
      rw [haccepted, outcome, hrun] at houtcome
      cases houtcome
    have hrun' : applyKnowledgeEvent n payload ts eventType raw = .error message (.ofRegistry next) := by
      rw [applyKnowledgeEvent, hrun]
    rw [← apply_refused hrun, ← ofRegistry_eq_iff]
    constructor
    · exact fun h => .inr (h message _ hrun')
    · intro h message' left hleft
      rcases h with h | h
      · exact absurd h hrefused
      · rw [hrun'] at hleft
        cases hleft
        exact h

namespace Sample

def misnamed : Option Json := some (.obj [("topicId", .str "t"), ("newPurposeSlug", .str "../u")])

theorem disturbs_misnamed : (folded [register "t"]).Disturbs arithmetic misnamed ts "topic.rename" := by
  have hnew : ((folded [register "t"]).topics["t"]?).any (fun topic => topic.lineage.isNone) = true := by
    decide
  have hslug : member misnamed "newPurposeSlug" = some (.str "../u") := by decide
  cases htopic : (folded [register "t"]).topics["t"]? with
  | none =>
    rw [htopic] at hnew
    cases hnew
  | some topic =>
    rw [htopic] at hnew
    refine .inl ⟨rfl, by decide, fun slug h => ?_, topic, htopic, fun hlineage => ?_⟩
    · rw [hslug] at h
      cases h
      decide
    · rw [Option.any_some, hlineage] at hnew
      cases hnew

end Sample

open Sample in
/-- The rename is refused, and yet the topic has a lineage now. -/
theorem refused_leaves_view_counterexample :
    ∃ message left, applyKnowledgeEvent arithmetic misnamed "2026-01-02T00:00:00.000Z" "topic.rename"
        (.ofRegistry (folded [register "t"])) = .error message left ∧ left ≠ .ofRegistry (folded [register "t"]) := by
  have hrefused : ((folded [register "t"]).apply arithmetic misnamed "2026-01-02T00:00:00.000Z"
      "topic.rename").toOption.isNone = true := by decide
  cases hrun : Reducer.apply arithmetic misnamed "2026-01-02T00:00:00.000Z" "topic.rename" (folded [register "t"]) with
  | ok u next =>
    rw [apply_accepted hrun] at hrefused
    cases hrefused
  | error message next =>
    refine ⟨message, .ofRegistry next, ?_, fun hsame => ?_⟩
    · rw [applyKnowledgeEvent, registry_ofRegistry, hrun]
    · exact (apply_refused hrun).mp (ofRegistry_eq_iff.mp hsame).2.2 disturbs_misnamed

end Knowledge

end Forgent
