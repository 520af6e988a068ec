import Forgent.KnowledgeChange
import Mathlib.Data.List.Pairwise

/-!
# One live document for each slot, one document for each path

A document holds the slot of its topic and its role while it is live, and its path until it is retired.
Two kinds of events can break this (`registry_unique_counterexample`): a supersede gives a retired document
its path back although another document has taken it, and a merge overlooks a document whose id is no true
value.  Where neither happens, no registry holds two documents for one slot or one path
(`registry_unique`).
-/

namespace Forgent

open Json List Option

theorem length_filter_le_one {α β : Type} {l : List α} {f : α → β} {p : α → Bool} (hkeys : (l.map f).Nodup)
    (h : ∀ a ∈ l, ∀ b ∈ l, p a = true → p b = true → f a = f b) : (l.filter p).length ≤ 1 := by
  have hnd : ((l.filter p).map f).Nodup := hkeys.sublist (filter_sublist.map f)
  cases hl : l.filter p with
  | nil => simp
  | cons a rest =>
    cases rest with
    | nil => simp
    | cons b rest =>
      have ha := mem_filter.mp (hl ▸ mem_cons_self : a ∈ l.filter p)
      have hb := mem_filter.mp (hl ▸ mem_cons_of_mem _ mem_cons_self : b ∈ l.filter p)
      rw [hl, map_cons, nodup_cons] at hnd
      exact absurd (by rw [h a ha.1 b hb.1 ha.2 hb.2]; exact mem_cons_self) hnd.1

namespace Knowledge

/-! ### Runs -/

/-- The registries that accepted events make of one, all of them admitted. -/
inductive Run (n : Arithmetic) (admitted : Knowledge → String → Option Json → Prop) (start : Knowledge) :
    Knowledge → Prop
  | refl : Run n admitted start start
  | step {view next : Knowledge} (eventType : String) (payload : Option Json) (ts : String) :
      Run n admitted start view → view.apply n payload ts eventType = .ok next →
      admitted view eventType payload → Run n admitted start next

/-- An event of the registry. -/
structure Event where
  eventType : String
  payload : Json
  ts : String

def foldKnowledgeEvents (n : Arithmetic) : List Event → Knowledge → Except String Knowledge
  | [], view => .ok view
  | event :: rest, view => do
    let view ← view.apply n (some event.payload) event.ts event.eventType
    foldKnowledgeEvents n rest view

variable {n : Arithmetic} {view next start : Knowledge} {payload : Option Json} {eventType key : String}
  {d old : Doc} {admitted : Knowledge → String → Option Json → Prop} {moves : Doc → Json → Prop} {target : String}
  {occupants : List (String × Json)} {u : Unit} {docs : List (String × Doc)} {topics : Table Topic} {id : Json}

theorem foldKnowledgeEvents_append (a b : List Event) (view : Knowledge) :
    foldKnowledgeEvents n (a ++ b) view = (foldKnowledgeEvents n a view >>= foldKnowledgeEvents n b) := by
  induction a generalizing view with
  | nil => rfl
  | cons e a ih =>
    show (view.apply n (some e.payload) e.ts e.eventType >>= foldKnowledgeEvents n (a ++ b)) =
      (view.apply n (some e.payload) e.ts e.eventType >>= foldKnowledgeEvents n a) >>= foldKnowledgeEvents n b
    cases view.apply n (some e.payload) e.ts e.eventType with
    | error message => rfl
    | ok next => exact ih next

theorem Run.of_fold {events : List Event}
    (hrun : Run n admitted start view) (hadmitted : ∀ e ∈ events, ∀ view, admitted view e.eventType (some e.payload))
    (h : foldKnowledgeEvents n events view = .ok next) : Run n admitted start next := by
  induction events generalizing view with
  | nil =>
    cases h
    exact hrun
  | cons e rest ih =>
    obtain ⟨he, hrest⟩ := forall_mem_cons.mp hadmitted
    obtain ⟨middle, happly, h⟩ := bind_eq_ok.mp h
    exact ih (hrun.step _ _ _ happly (he view)) hrest h

/-! ### Documents are kept under their ids -/

/-- Every document is kept under its id, once, and its topic is there. -/
structure Filed (n : Arithmetic) (view : Knowledge) : Prop where
  keys : (view.docs.map Prod.fst).Nodup
  named : ∀ e ∈ view.docs, e.1 = text n e.2.docId
  topic : ∀ e ∈ view.docs, text n e.2.topicId ∈ view.topics

theorem filed_empty : Filed n .empty where
  keys := nodup_nil
  named := fun _ he => nomatch he
  topic := fun _ he => nomatch he

theorem Filed.withDoc (h : Filed n view) (hkey : key = text n d.docId) (htopic : text n d.topicId ∈ view.topics) :
    Filed n (view.withDoc key d) where
  keys := keys_setProperty h.keys
  named := fun e he => by
    rcases mem_setProperty.mp he with rfl | ⟨he, _⟩
    · exact hkey
    · exact h.named e he
  topic := fun e he => by
    rcases mem_setProperty.mp he with rfl | ⟨he, _⟩
    · exact htopic
    · exact h.topic e he

theorem Moved.exists_before {before : List (String × Doc)}
    (h : List.Forall₂ (Moved moves) before docs) : ∀ b ∈ docs, ∃ a ∈ before, Moved moves a b := by
  induction h with
  | nil => exact fun b hb => nomatch hb
  | @cons a b before docs hab _ ih =>
    refine forall_mem_cons.mpr ⟨⟨a, mem_cons_self, hab⟩, fun b hb => ?_⟩
    obtain ⟨a, ha, hab⟩ := ih b hb
    exact ⟨a, mem_cons_of_mem _ ha, hab⟩

theorem Moved.keys {before : List (String × Doc)}
    (h : List.Forall₂ (Moved moves) before docs) : docs.map Prod.fst = before.map Prod.fst := by
  induction h with
  | nil => rfl
  | cons hab _ ih => rw [map_cons, map_cons, hab.1, ih]

theorem Filed.moved (h : Filed n view) {moves : Doc → Json → Prop} (hkept : ∀ k ∈ view.topics, k ∈ topics)
    (hmoved : List.Forall₂ (Moved moves) view.docs docs) (hthere : ∀ d t, moves d t → text n t ∈ topics) :
    Filed n { topics := topics, docs := docs } where
  keys := by
    rw [Moved.keys hmoved]
    exact h.keys
  named := fun b hb => by
    obtain ⟨a, ha, hk, t, ts, hd, _⟩ := Moved.exists_before hmoved b hb
    rw [hk, hd]
    exact h.named a ha
  topic := fun b hb => by
    obtain ⟨a, ha, hk, t, ts, hd, ht⟩ := Moved.exists_before hmoved b hb
    rw [hd]
    rcases ht with ht | ht
    · rw [ht]
      exact hkept _ (h.topic a ha)
    · exact hthere _ _ ht

theorem Meant.mem (h : Meant n view payload key old) : (key, old) ∈ view.docs := mem_of_lookup h.found

theorem Filed.replace (h : Filed n view) (hmeant : Meant n view payload key old) (hstays : Stays old d) :
    Filed n (view.withDoc key d) := by
  apply h.withDoc
  · rw [hstays.docId]
    exact h.named _ hmeant.mem
  · rw [hstays.topicId]
    exact h.topic _ hmeant.mem

theorem Filed.change (h : Filed n view) (hchange : Change n view payload eventType next) : Filed n next := by
  cases hchange with
  | topics kept => exact ⟨h.keys, h.named, fun e he => kept _ (h.topic e he)⟩
  | create new placed | register found placed => exact h.withDoc placed.named placed.topic
  | revise meant stays | supersede meant stays | retire meant stays | move meant stays => exact h.replace meant stays
  | split kept moved =>
    refine h.moved kept moved fun d t ht => ?_
    obtain ⟨_, id, rfl, _, hid⟩ := ht
    exact hid
  | merge named into kept there _ moved => exact h.moved kept moved fun d t ht => ht.2 ▸ there

theorem Run.filed (h : Run n admitted start view) (hstart : Filed n start) : Filed n view := by
  induction h with
  | refl => exact hstart
  | step eventType payload ts _ happly _ ih => exact ih.change (apply_change ih.keys happly)

/-! ### Slots and paths -/

def SameSlot (d e : Doc) : Prop := same (some d.topicId) (some e.topicId) = true ∧ d.role = e.role

/-- No two live documents have one slot, and no two that are not retired one path. -/
structure Unique (n : Arithmetic) (view : Knowledge) : Prop extends Filed n view where
  slot : ∀ a ∈ view.docs, ∀ b ∈ view.docs, a.2.docLifecycle.isLive = true → b.2.docLifecycle.isLive = true →
    SameSlot a.2 b.2 → a.1 = b.1
  path : ∀ a ∈ view.docs, ∀ b ∈ view.docs, a.2.docLifecycle ≠ .retired → b.2.docLifecycle ≠ .retired →
    a.2.currentPath = b.2.currentPath → a.1 = b.1

/-- Whether the document that is superseded is retired and another one has taken its path. -/
def pathTaken (n : Arithmetic) (view : Knowledge) (payload : Option Json) : Bool :=
  let key := text n (view.meantId payload)
  (view.doc? key).any fun old => old.docLifecycle = .retired && view.docs.any fun e =>
    e.1 ≠ key && e.2.currentPath = old.currentPath && e.2.docLifecycle ≠ .retired

/-- The live documents of the topics that are merged. -/
def participants (view : Knowledge) (payload : Option Json) : List Doc :=
  match member payload "sourceTopicIds" with
  | some (.arr sources) => view.docValues.filter fun d => d.docLifecycle.isLive &&
      (same (some d.topicId) (member payload "targetTopicId") || includes sources d.topicId)
  | _ => []

/-- A document whose id is no true value is not followed by another one of its role. -/
def Noticed (d e : Doc) : Prop := truthy (some d.docId) = true ∨ d.role ≠ e.role

instance (d e : Doc) : Decidable (Noticed d e) :=
  inferInstanceAs (Decidable (truthy (some d.docId) = true ∨ d.role ≠ e.role))

/-- The event neither gives a path back that was taken, nor merges two documents of one role unnoticed. -/
def KeepsUnique (n : Arithmetic) (view : Knowledge) (eventType : String) (payload : Option Json) : Prop :=
  (eventType = "doc.supersede" → view.pathTaken n payload = false) ∧
  (eventType = "topic.merge" → (view.participants payload).Pairwise Noticed)

theorem unique_empty : Unique n .empty where
  toFiled := filed_empty
  slot := fun _ ha => nomatch ha
  path := fun _ ha => nomatch ha

theorem Unique.withDoc (h : Unique n view) (hfiled : Filed n (view.withDoc key d))
    (hslot : d.docLifecycle.isLive = true → ∀ e ∈ view.docs, e.1 ≠ key → e.2.docLifecycle.isLive = true →
      ¬ SameSlot e.2 d)
    (hpath : d.docLifecycle ≠ .retired → ∀ e ∈ view.docs, e.1 ≠ key → e.2.docLifecycle ≠ .retired →
      e.2.currentPath ≠ d.currentPath) : Unique n (view.withDoc key d) where
  toFiled := hfiled
  slot := fun a ha b hb hla hlb hsame => by
    rcases mem_setProperty.mp ha with rfl | ⟨ha, hak⟩
    · rcases mem_setProperty.mp hb with rfl | ⟨hb, hbk⟩
      · rfl
      · exact absurd ⟨same_symm hsame.1, hsame.2.symm⟩ (hslot hla b hb hbk hlb)
    · rcases mem_setProperty.mp hb with rfl | ⟨hb, hbk⟩
      · exact absurd hsame (hslot hlb a ha hak hla)
      · exact h.slot a ha b hb hla hlb hsame
  path := fun a ha b hb hra hrb hp => by
    rcases mem_setProperty.mp ha with rfl | ⟨ha, hak⟩
    · rcases mem_setProperty.mp hb with rfl | ⟨hb, hbk⟩
      · rfl
      · exact absurd hp.symm (hpath hra b hb hbk hrb)
    · rcases mem_setProperty.mp hb with rfl | ⟨hb, hbk⟩
      · exact absurd hp (hpath hrb a ha hak hra)
      · exact h.path a ha b hb hra hrb hp

theorem Filed.not_same (h : Filed n view) {e : String × Doc} (he : e ∈ view.docs)
    (hne : e.1 ≠ text n id) : same (some e.2.docId) (some id) = false := by
  rw [Bool.eq_false_iff]
  intro hsame
  have heq : e.2.docId = id := some.inj (eq_of_same hsame)
  exact hne ((h.named e he).trans (by rw [heq]))

theorem Unique.place (h : Unique n view) (hplaced : Placed n view payload key d) : Unique n (view.withDoc key d) := by
  apply h.withDoc (h.toFiled.withDoc hplaced.named hplaced.topic)
  · intro _ e he hne hlive hsame
    have hid := h.toFiled.not_same he (hplaced.named ▸ hne)
    have hdead := assertDocSlotAvailable_eq_ok.mp hplaced.slot e he hid hsame.1 hsame.2
    rw [hdead] at hlive
    cases hlive
  · intro _ e he hne hretired hp
    have hid := h.toFiled.not_same he (hplaced.named ▸ hne)
    exact hretired (assertCurrentPathUnique_eq_ok.mp hplaced.path e he hid hp)

theorem Unique.slot_of_stays (h : Unique n view) (hmeant : Meant n view payload key old) (hstays : Stays old d)
    (hlive : old.docLifecycle.isLive = true) : ∀ e ∈ view.docs, e.1 ≠ key → e.2.docLifecycle.isLive = true →
      ¬ SameSlot e.2 d := by
  intro e he hne hle hsame
  rw [SameSlot, hstays.topicId, hstays.role] at hsame
  exact hne (h.slot e he _ hmeant.mem hle hlive hsame)

theorem Unique.path_of_stays (h : Unique n view) (hmeant : Meant n view payload key old)
    (hpath : d.currentPath = old.currentPath) (hretired : old.docLifecycle ≠ .retired) :
    ∀ e ∈ view.docs, e.1 ≠ key → e.2.docLifecycle ≠ .retired → e.2.currentPath ≠ d.currentPath := by
  intro e he hne hre hp
  rw [hpath] at hp
  exact hne (h.path e he _ hmeant.mem hre hretired hp)

theorem isLive_of_ne {l : DocLifecycle} (h : l.isLive = true) : l ≠ .retired := by
  rintro rfl
  cases h

theorem checkOccupants_rest {rest : List Doc} (h : checkOccupants n target occupants (d :: rest) = .ok u) :
    checkOccupants n target ((d.role, d.docId) :: occupants) rest = .ok u := by
  unfold checkOccupants at h
  dsimp only at h
  split at h
  · obtain ⟨_, _, h⟩ := bind_eq_ok.mp h
    exact h
  · exact h

theorem checkOccupants_role {role : String} {docs : List Doc}
    (h : checkOccupants n target occupants docs = .ok u) (hid : occupants.lookup role = some id)
    (htruthy : truthy (some id) = true) (hother : ∀ e ∈ docs, same (some id) (some e.docId) = false) :
    ∀ e ∈ docs, e.role ≠ role := by
  induction docs generalizing occupants with
  | nil => exact fun e he => nomatch he
  | cons d rest ih =>
    obtain ⟨hd, hrest⟩ := forall_mem_cons.mp hother
    have hne : d.role ≠ role := by
      intro hrole
      unfold checkOccupants at h
      rw [hrole, hid] at h
      obtain ⟨_, hcheck, _⟩ := bind_eq_ok.mp h
      rw [require_eq_ok, htruthy, hd] at hcheck
      cases hcheck
    refine forall_mem_cons.mpr ⟨hne, ih (checkOccupants_rest h) ?_ hrest⟩
    rw [lookup_cons, show (role == d.role) = false from beq_eq_false_iff_ne.mpr hne.symm]
    exact hid

theorem checkOccupants_pairwise {docs : List Doc}
    (h : checkOccupants n target occupants docs = .ok u) (hnoticed : docs.Pairwise Noticed)
    (hids : docs.Pairwise fun d e => same (some d.docId) (some e.docId) = false) :
    docs.Pairwise fun d e => d.role ≠ e.role := by
  induction docs generalizing occupants with
  | nil => exact .nil
  | cons d rest ih =>
    rw [pairwise_cons] at hnoticed hids ⊢
    refine ⟨fun e he => ?_, ih (checkOccupants_rest h) hnoticed.2 hids.2⟩
    rcases hnoticed.1 e he with htruthy | hne
    · exact (checkOccupants_role (checkOccupants_rest h) (lookup_cons_self) htruthy hids.1 e he).symm
    · exact hne

theorem Filed.pairwise_docId (h : Filed n view) :
    view.docValues.Pairwise fun d e => same (some d.docId) (some e.docId) = false := by
  have hkeys := h.keys
  rw [List.Nodup, pairwise_map] at hkeys
  rw [docValues, pairwise_map]
  refine hkeys.imp_of_mem fun {a b} ha hb hne => ?_
  apply h.not_same ha
  rw [← h.named b hb]
  exact hne

/-- Documents that move to new topics, or to the target of a merge, keep the slots apart. -/
theorem Unique.moved (h : Unique n view) {moves : Doc → Json → Prop}
    (hfiled : Filed n { topics := topics, docs := docs }) (hmoved : List.Forall₂ (Moved moves) view.docs docs)
    (hstay : ∀ a ∈ view.docs, ∀ b ∈ view.docs, ∀ t, a.2.docLifecycle.isLive = true → b.2.docLifecycle.isLive = true →
      moves a.2 t → same (some t) (some b.2.topicId) = true → a.2.role = b.2.role → a.1 = b.1)
    (hboth : ∀ a ∈ view.docs, ∀ b ∈ view.docs, ∀ t, a.2.docLifecycle.isLive = true → b.2.docLifecycle.isLive = true →
      moves a.2 t → moves b.2 t → a.2.role = b.2.role → a.1 = b.1) : Unique n { topics := topics, docs := docs } where
  toFiled := hfiled
  slot := fun a' ha' b' hb' hla hlb hsame => by
    obtain ⟨a, ha, hak, t, ts, had, hat⟩ := Moved.exists_before hmoved a' ha'
    obtain ⟨b, hb, hbk, t', ts', hbd, hbt⟩ := Moved.exists_before hmoved b' hb'
    rw [had] at hla
    rw [hbd] at hlb
    rw [SameSlot, had, hbd] at hsame
    obtain ⟨hsame, hrole⟩ := hsame
    have htt : t = t' := some.inj (eq_of_same hsame)
    rw [hak, hbk]
    rcases hat with hat | hat
    · rcases hbt with hbt | hbt
      · exact h.slot a ha b hb hla hlb ⟨by rw [← hat, ← hbt]; exact hsame, hrole⟩
      · exact (hstay b hb a ha t' hlb hla hbt (by rw [← hat]; exact same_symm hsame) hrole.symm).symm
    · rcases hbt with hbt | hbt
      · exact hstay a ha b hb t hla hlb hat (by rw [← hbt]; exact hsame) hrole
      · exact hboth a ha b hb t hla hlb hat (htt ▸ hbt) hrole
  path := fun a' ha' b' hb' hra hrb hp => by
    obtain ⟨a, ha, hak, t, ts, had, _⟩ := Moved.exists_before hmoved a' ha'
    obtain ⟨b, hb, hbk, t', ts', hbd, _⟩ := Moved.exists_before hmoved b' hb'
    rw [had] at hra hp
    rw [hbd] at hrb hp
    rw [hak, hbk]
    exact h.path a ha b hb hra hrb hp

/-- **One event** keeps slots and paths apart. -/
theorem Unique.change (h : Unique n view) (hchange : Change n view payload eventType next)
    (hkeeps : KeepsUnique n view eventType payload) : Unique n next := by
  have hfiled := h.toFiled.change hchange
  cases hchange with
  | topics kept => exact ⟨hfiled, h.slot, h.path⟩
  | create new placed | register found placed => exact h.place placed
  | revise meant stays path link live live' =>
    exact h.withDoc hfiled (fun _ => h.slot_of_stays meant stays live)
      fun _ => h.path_of_stays meant path (isLive_of_ne live)
  | @supersede key old d meant stays path lifecycle link =>
    refine h.withDoc hfiled (fun hlive => by rw [lifecycle] at hlive; cases hlive) fun _ => ?_
    by_cases hretired : old.docLifecycle = .retired
    · intro e he hne hre hp
      have htaken := hkeeps.1 rfl
      unfold pathTaken at htaken
      dsimp only at htaken
      rw [← meant.named, meant.found, any_some, Bool.and_eq_false_iff] at htaken
      rcases htaken with htaken | htaken
      · exact absurd hretired (of_decide_eq_false htaken)
      · rw [List.any_eq_false] at htaken
        apply htaken e he
        rw [path] at hp
        simp [hne, hp, hre]
    · exact h.path_of_stays meant path hretired
  | retire meant stays path lifecycle link =>
    exact h.withDoc hfiled (fun hlive => by rw [lifecycle] at hlive; cases hlive)
      fun hne => absurd lifecycle hne
  | move meant stays path lifecycle link =>
    refine h.withDoc hfiled (fun hlive => h.slot_of_stays meant stays (lifecycle ▸ hlive)) ?_
    intro _ e he hne hre hp
    have hid := h.toFiled.not_same he (meant.named ▸ hne)
    exact hre (assertCurrentPathUnique_eq_ok.mp path e he hid hp)
  | split kept moved =>
    refine h.moved hfiled moved ?_ ?_
    · intro a _ b hb t _ _ ht hsame _
      obtain ⟨_, id, rfl, hnew, _⟩ := ht
      have hid : Json.str id = b.2.topicId := some.inj (eq_of_same hsame)
      have hthere := h.topic b hb
      rw [← hid] at hthere
      exact absurd hthere hnew
    · intro a ha b hb _ hla hlb hat hbt hrole
      exact h.slot a ha b hb hla hlb ⟨same_trans hat.1 (same_symm hbt.1), hrole⟩
  | @merge sources target topics docs named into kept there occupants moved =>
    have hparticipants : view.participants payload = view.docValues.filter fun d => d.docLifecycle.isLive &&
        (same (some d.topicId) (some target) || includes sources d.topicId) := by
      rw [participants, named, into]
    have hroles := checkOccupants_pairwise occupants (hparticipants ▸ hkeeps.2 rfl)
      (h.toFiled.pairwise_docId.filter _)
    have hone : ∀ a ∈ view.docs, ∀ b ∈ view.docs, a.2.docLifecycle.isLive = true →
        b.2.docLifecycle.isLive = true →
        (same (some a.2.topicId) (some target) || includes sources a.2.topicId) = true →
        (same (some b.2.topicId) (some target) || includes sources b.2.topicId) = true →
        a.2.role = b.2.role → a.1 = b.1 := by
      intro a ha b hb hla hlb hat hbt hrole
      by_contra hne
      have hne' : a.2 ≠ b.2 := fun heq => hne (by rw [h.named a ha, h.named b hb, heq])
      have hsymm : Std.Symm fun d e : Doc => d.role ≠ e.role := ⟨fun _ _ => Ne.symm⟩
      refine hroles.forall ?_ ?_ hne' hrole
      · rw [mem_filter, hla, hat]
        exact ⟨List.mem_map_of_mem ha, rfl⟩
      · rw [mem_filter, hlb, hbt]
        exact ⟨List.mem_map_of_mem hb, rfl⟩
    refine h.moved hfiled moved ?_ ?_
    · intro a ha b hb t hla hlb hat hsame hrole
      rw [hat.2] at hsame
      exact hone a ha b hb hla hlb (by rw [hat.1, Bool.or_true]) (by rw [same_symm hsame, Bool.true_or]) hrole
    · intro a ha b hb _ hla hlb hat hbt hrole
      exact hone a ha b hb hla hlb (by rw [hat.1, Bool.or_true]) (by rw [hbt.1, Bool.or_true]) hrole

/-- **Every run** keeps slots and paths apart. -/
theorem Run.unique (h : Run n (KeepsUnique n) .empty view) : Unique n view := by
  induction h with
  | refl => exact unique_empty
  | step eventType payload ts _ happly hkeeps ih => exact ih.change (apply_change ih.keys happly) hkeeps

/-- In every registry that a run reaches, a slot has at most one live document, at most one active one, and a
path at most one document that is not retired. -/
theorem registry_unique (h : Run n (KeepsUnique n) .empty view) :
    (∀ topicId role, (view.docValues.filter fun d => same (some d.topicId) (some topicId) && d.role = role &&
        d.docLifecycle.isLive).length ≤ 1 ∧ (view.getActiveDocs topicId role).length ≤ 1) ∧
    ∀ path, (view.docValues.filter fun d => d.currentPath = path && d.docLifecycle ≠ .retired).length ≤ 1 := by
  have hu := h.unique
  have hcount : ∀ p : Doc → Bool, (∀ a ∈ view.docs, ∀ b ∈ view.docs, p a.2 = true → p b.2 = true → a.1 = b.1) →
      (view.docValues.filter p).length ≤ 1 := by
    intro p hp
    rw [docValues, List.filter_map, length_map]
    exact length_filter_le_one hu.keys hp
  refine ⟨fun topicId role => ⟨hcount _ ?_, hcount _ ?_⟩, fun path => hcount _ ?_⟩
  · intro a ha b hb hpa hpb
    simp only [Bool.and_eq_true, decide_eq_true_eq] at hpa hpb
    exact hu.slot a ha b hb hpa.2 hpb.2
      ⟨same_trans hpa.1.1 (same_symm hpb.1.1), hpa.1.2.trans hpb.1.2.symm⟩
  · intro a ha b hb hpa hpb
    simp only [Bool.and_eq_true, decide_eq_true_eq] at hpa hpb
    exact hu.slot a ha b hb (by rw [hpa.2]; rfl) (by rw [hpb.2]; rfl)
      ⟨same_trans hpa.1.1 (same_symm hpb.1.1), hpa.1.2.trans hpb.1.2.symm⟩
  · intro a ha b hb hpa hpb
    simp only [Bool.and_eq_true, decide_eq_true_eq] at hpa hpb
    exact hu.path a ha b hb hpa.2 hpb.2 (hpa.1.trans hpb.1.symm)

/-! ### Small registries -/

namespace Sample

def arithmetic : Arithmetic where
  decimal
    | .int n => toString n
    | .float _ => ""
  plusOne := fun v => v
  atLeast := fun _ _ => false

def event (eventType : String) (payload : List (String × Json)) : Event :=
  { eventType := eventType, payload := .obj payload, ts := "2026-01-01T00:00:00.000Z" }

def register (topicId : String) : Event :=
  event "topic.register" [("topicId", .str topicId), ("purposeSlug", .str topicId)]

def reserve (docId topicId role path : String) : Event :=
  event "doc.reserve" [("docId", .str docId), ("topicId", .str topicId), ("role", .str role), ("currentPath", .str path)]

def ofDoc (eventType docId : String) : Event := event eventType [("docId", .str docId)]

def folded (events : List Event) : Knowledge :=
  (foldKnowledgeEvents arithmetic events .empty).toOption.getD .empty

variable {events : List Event}

theorem fold_folded (h : (foldKnowledgeEvents arithmetic events .empty).toOption.isSome = true) :
    foldKnowledgeEvents arithmetic events .empty = .ok (folded events) := by
  rw [folded]
  cases hfold : foldKnowledgeEvents arithmetic events .empty with
  | ok view => rfl
  | error message =>
    rw [hfold] at h
    cases h

theorem run_snoc {admitted : Knowledge → String → Option Json → Prop} {start : Knowledge}
    {e : Event} (hrun : Run arithmetic admitted start (folded events))
    (hok : (foldKnowledgeEvents arithmetic events .empty).toOption.isSome = true)
    (hsnoc : (foldKnowledgeEvents arithmetic (events ++ [e]) .empty).toOption.isSome = true)
    (hadmitted : admitted (folded events) e.eventType (some e.payload)) :
    Run arithmetic admitted start (folded (events ++ [e])) := by
  have happly := fold_folded hsnoc
  rw [foldKnowledgeEvents_append, fold_folded hok] at happly
  obtain ⟨_, hfirst, happly⟩ := bind_eq_ok.mp happly
  cases hfirst
  obtain ⟨next, happly, hnext⟩ := bind_eq_ok.mp happly
  cases hnext
  exact hrun.step _ _ _ happly hadmitted

def replaced : List Event :=
  [register "t", reserve "a" "t" "guide" "docs/a.md", ofDoc "doc.retire" "a", reserve "b" "t" "plan" "docs/a.md"]

/-- A topic with a document of the empty id, and another one with a document of the same role. -/
def nameless : List Event :=
  [register "t", register "u", reserve "" "t" "guide" "docs/a.md", reserve "b" "u" "guide" "docs/b.md",
    event "topic.merge" [("sourceTopicIds", .arr [.str "u"]), ("targetTopicId", .str "t")]]

end Sample

open Sample in
theorem registry_unique_replaced : (folded replaced).docs.length = 2 ∧
    ∀ path, ((folded replaced).docValues.filter fun d => d.currentPath = path && d.docLifecycle ≠ .retired).length ≤ 1 := by
  have hkeeps : ∀ e ∈ replaced, ∀ view, KeepsUnique arithmetic view e.eventType (some e.payload) := by
    have htypes : ∀ e ∈ replaced, e.eventType ≠ "doc.supersede" ∧ e.eventType ≠ "topic.merge" := by decide
    exact fun e he view => ⟨fun h => absurd h (htypes e he).1, fun h => absurd h (htypes e he).2⟩
  exact ⟨by decide, (registry_unique (.of_fold .refl hkeeps (fold_folded (by decide)))).2⟩

open Sample in
/-- A supersede of the retired document gives it its path back; a merge puts two live documents of one role
under one topic. -/
theorem registry_unique_counterexample :
    (Run arithmetic (fun _ _ _ => True) .empty (folded (replaced ++ [ofDoc "doc.supersede" "a"])) ∧
      ((folded (replaced ++ [ofDoc "doc.supersede" "a"])).docValues.filter fun d =>
        d.currentPath = "docs/a.md" && d.docLifecycle ≠ .retired).length = 2) ∧
    Run arithmetic (fun _ _ _ => True) .empty (folded nameless) ∧
      ((folded nameless).docValues.filter fun d => same (some d.topicId) (some (.str "t")) && d.role = "guide" &&
        d.docLifecycle.isLive).length = 2 :=
  ⟨⟨.of_fold .refl (fun _ _ _ => trivial) (fold_folded (by decide)), by decide⟩,
    .of_fold .refl (fun _ _ _ => trivial) (fold_folded (by decide)), by decide⟩

end Knowledge

end Forgent
