import Forgent.Envelope
import Forgent.Knowledge

/-!
# What a knowledge event changes

Fourteen kinds of events change the registry, and there are nine things they do to it.  `Change` says of
each what was checked and what is kept; `apply_change` reads it off the reducers once, so that what holds
of every registry is shown for the nine changes and not for the fourteen reducers.
-/

namespace Forgent

open Json List

/-! ### Values that are the same -/

variable {a b : Option Json}

theorem eq_of_same (h : same a b = true) : a = b := by
  unfold same at h
  split at h
  · rfl
  · rfl
  · rw [of_decide_eq_true h]
  · rw [of_decide_eq_true h]
  · rw [of_decide_eq_true h]
  · cases h

theorem same_symm (h : same a b = true) : same b a = true := by
  have hab := eq_of_same h
  rw [hab] at h ⊢
  exact h

theorem same_trans {c : Option Json} (hab : same a b = true) (hbc : same b c = true) : same a c = true := by
  rw [eq_of_same hab]
  exact hbc

/-! ### Lists of properties -/

section

variable {α : Type} {entries : List (String × α)} {key : String} {value : α}

theorem mem_setProperty {e : String × α} :
    e ∈ setProperty entries key value ↔ e = (key, value) ∨ (e ∈ entries ∧ e.1 ≠ key) := by
  unfold setProperty
  by_cases hany : entries.any (fun e => e.1 = key) = true
  · rw [if_pos hany, List.mem_map]
    obtain ⟨x, hx, hxk⟩ := List.any_eq_true.mp hany
    have hxk : x.1 = key := of_decide_eq_true hxk
    constructor
    · rintro ⟨y, hy, rfl⟩
      by_cases hk : y.1 = key
      · exact .inl (if_pos hk)
      · rw [if_neg hk]
        exact .inr ⟨hy, hk⟩
    · intro h
      rcases h with rfl | ⟨he, hk⟩
      · exact ⟨x, hx, if_pos hxk⟩
      · exact ⟨e, he, if_neg hk⟩
  · have hnone : ∀ e ∈ entries, e.1 ≠ key := fun e he hk =>
      hany (List.any_eq_true.mpr ⟨e, he, decide_eq_true hk⟩)
    have hiff : e ∈ entries ++ [(key, value)] ↔ e = (key, value) ∨ (e ∈ entries ∧ e.1 ≠ key) := by
      rw [mem_append, mem_singleton]
      exact ⟨fun h => h.elim (fun h => .inr ⟨h, hnone e h⟩) .inl, fun h => h.elim .inr fun h => .inl h.1⟩
    rw [if_neg hany]
    split
    · exact hiff
    · rename_i m _
      rw [← hiff]
      have hsplit := takeWhile_append_dropWhile (p := fun e : String × α => (arrayIndex e.1).any fun k => k < m)
        (l := entries)
      constructor
      · intro h
        rw [← hsplit]
        simp only [mem_append, mem_cons] at h ⊢
        tauto
      · intro h
        rw [← hsplit] at h
        simp only [mem_append, mem_cons] at h ⊢
        tauto

theorem keys_setProperty (h : (entries.map Prod.fst).Nodup) :
    ((setProperty entries key value).map Prod.fst).Nodup := by
  unfold setProperty
  by_cases hany : entries.any (fun e => e.1 = key) = true
  · rw [if_pos hany]
    have hkeys : (entries.map fun e => if e.1 = key then (key, value) else e).map Prod.fst =
        entries.map Prod.fst := by
      rw [List.map_map]
      apply map_congr_left
      intro e _
      show (if e.1 = key then (key, value) else e).1 = e.1
      split
      · rename_i hk
        exact hk.symm
      · rfl
    rw [hkeys]
    exact h
  · have hnone : key ∉ entries.map Prod.fst := fun hmem => by
      obtain ⟨e, he, hk⟩ := List.mem_map.mp hmem
      exact hany (List.any_eq_true.mpr ⟨e, he, decide_eq_true hk⟩)
    have hcons : ((key, value) :: entries).map Prod.fst |>.Nodup := by
      rw [map_cons, nodup_cons]
      exact ⟨hnone, h⟩
    rw [if_neg hany]
    split
    · exact (((perm_append_singleton _ _).map Prod.fst).nodup_iff).mpr hcons
    · refine (((perm_middle).map Prod.fst).nodup_iff).mpr ?_
      rw [takeWhile_append_dropWhile]
      exact hcons

theorem mem_of_lookup (h : entries.lookup key = some value) : (key, value) ∈ entries := by
  obtain ⟨l, r, rfl, _⟩ := lookup_eq_some_iff.mp h
  simp

theorem ne_of_lookup (h : entries.lookup key = none) : ∀ e ∈ entries, e.1 ≠ key := fun e he hk => by
  have hne := lookup_eq_none_iff.mp h e he
  simp [hk] at hne

theorem lookup_of_mem (hkeys : (entries.map Prod.fst).Nodup) (h : (key, value) ∈ entries) :
    entries.lookup key = some value := by
  cases hl : entries.lookup key with
  | none => exact absurd rfl (ne_of_lookup hl _ h)
  | some w =>
    have hw : (key, w) = (key, value) := inj_on_of_nodup_map hkeys (mem_of_lookup hl) h rfl
    cases hw
    rfl

end

namespace Knowledge

/-! ### The checks -/

variable {u : Unit} {id topicId : Json} {eventType : String} {old : Doc} {moves : Doc → Json → Prop}
  {message role path verb : String} {source : Option Json} {oldTopic : Topic} {newTopics : List Json}

@[simp] theorem require_eq_ok {ok : Bool} : require ok message = .ok u ↔ ok = true := by
  cases ok <;> simp [require]

@[simp] theorem found_eq_ok {α : Type} {value : Option α} {a : α} : found value message = .ok a ↔ value = some a := by
  cases value <;> simp [found]

variable {n : Arithmetic} {view next : Knowledge} {payload : Option Json} {ts : String}

theorem assertSafeSlug_eq_ok {value : Option Json} {label s : String}
    (h : assertSafeSlug n value label = .ok s) : value = some (.str s) := by
  unfold assertSafeSlug at h
  split at h
  · split at h
    · rw [Except.ok.inj h]
    · cases h
  · cases h

theorem assertDocSlotAvailable_eq_ok : assertDocSlotAvailable n view id topicId role = .ok u ↔ ∀ e ∈ view.docs,
      same (some e.2.docId) (some id) = false → same (some e.2.topicId) (some topicId) = true →
        e.2.role = role → e.2.docLifecycle.isLive = false := by
  unfold assertDocSlotAvailable docValues
  split
  · next hnone =>
    simp only [find?_eq_none, List.mem_map] at hnone
    refine ⟨fun _ e he hid ht hr => ?_, fun _ => rfl⟩
    simpa [hid, ht, hr] using hnone e.2 ⟨e, he, rfl⟩
  · next d hd =>
    obtain ⟨e, he, rfl⟩ := List.mem_map.mp (mem_of_find?_eq_some hd)
    have hp := find?_some hd
    grind

theorem assertCurrentPathUnique_eq_ok : assertCurrentPathUnique n view id path = .ok u ↔ ∀ e ∈ view.docs,
      same (some e.2.docId) (some id) = false → e.2.currentPath = path → e.2.docLifecycle = .retired := by
  unfold assertCurrentPathUnique docValues
  split
  · next hnone =>
    simp only [find?_eq_none, List.mem_map] at hnone
    refine ⟨fun _ e he hid hp => ?_, fun _ => rfl⟩
    simpa [hid, hp] using hnone e.2 ⟨e, he, rfl⟩
  · next d hd =>
    obtain ⟨e, he, rfl⟩ := List.mem_map.mp (mem_of_find?_eq_some hd)
    have hp := find?_some hd
    grind

/-! ### The changes -/

/-- The registry with the document under the key. -/
def withDoc (view : Knowledge) (key : String) (d : Doc) : Knowledge :=
  { view with docs := setProperty view.docs key d }

def meantId (view : Knowledge) (payload : Option Json) : Json :=
  view.resolveDocId (member payload "docId") (member payload "topicId") (member payload "role")

def placedId (n : Arithmetic) (payload : Option Json) : Json :=
  docIdOf n payload (orNull (member payload "topicId")) (key n (member payload "role"))

/-- What is checked of a document that is placed: its topic is there, its slot and its path are free. -/
structure Placed (n : Arithmetic) (view : Knowledge) (payload : Option Json) (key : String) (d : Doc) : Prop where
  named : key = text n d.docId
  docId : d.docId = placedId n payload
  topic : text n d.topicId ∈ view.topics
  slot : assertDocSlotAvailable n view d.docId d.topicId d.role = .ok ()
  path : assertCurrentPathUnique n view d.docId d.currentPath = .ok ()
  link : d.supersededBy = none

/-- The document that a payload means is there. -/
structure Meant (n : Arithmetic) (view : Knowledge) (payload : Option Json) (key : String) (old : Doc) : Prop where
  named : key = text n (view.meantId payload)
  found : view.doc? key = some old

/-- The document keeps its id, its topic and its role. -/
structure Stays (old d : Doc) : Prop where
  docId : d.docId = old.docId
  topicId : d.topicId = old.topicId
  role : d.role = old.role

/-- The entry is the same document, under its old topic or one that `moves` says. -/
def Moved (moves : Doc → Json → Prop) (a b : String × Doc) : Prop :=
  b.1 = a.1 ∧ ∃ topicId ts, b.2 = { a.2 with topicId := topicId, updatedAt := ts } ∧
    (topicId = a.2.topicId ∨ moves a.2 topicId)

/-- A document of the source of a split moves to a topic that was not there. -/
def ToSuccessor (view : Knowledge) (source : Option Json) (topics : Table Topic) (d : Doc) (t : Json) : Prop :=
  same (some d.topicId) source = true ∧ ∃ id, t = .str id ∧ id ∉ view.topics ∧ id ∈ topics

/-- The successor that a supersede names is another live document. -/
structure Succeeds (n : Arithmetic) (view : Knowledge) (payload : Option Json) (link : Option Json) : Prop where
  named : link = member payload "supersededBy"
  truthy : truthy link = true
  other : same link (some (view.meantId payload)) = false
  live : ∃ d, view.doc? (key n link) = some d ∧ d.docLifecycle.isLive = true

/-- What an accepted event does to the registry. -/
inductive Change (n : Arithmetic) (view : Knowledge) (payload : Option Json) : String → Knowledge → Prop
  /-- Topics change, and none is lost. -/
  | topics {eventType : String} {topics : Table Topic} (kept : ∀ k ∈ view.topics, k ∈ topics) :
      Change n view payload eventType { view with topics := topics }
  /-- A new document. -/
  | create {eventType key : String} {d : Doc} (new : view.doc? key = none)
      (placed : Placed n view payload key d) : Change n view payload eventType (view.withDoc key d)
  /-- A document is registered again. -/
  | register {key : String} {old d : Doc} (found : view.doc? key = some old)
      (placed : Placed n view payload key d) (role : d.role = old.role)
      (lifecycle : d.docLifecycle = old.docLifecycle ∨
        old.docLifecycle = .reserved ∧ d.docLifecycle = .provisional) :
      Change n view payload "doc.register" (view.withDoc key d)
  /-- A live document stays live, where it is. -/
  | revise {eventType key : String} {old d : Doc} (meant : Meant n view payload key old) (stays : Stays old d)
      (path : d.currentPath = old.currentPath) (link : d.supersededBy = old.supersededBy)
      (live : old.docLifecycle.isLive = true) (live' : d.docLifecycle.isLive = true) :
      Change n view payload eventType (view.withDoc key d)
  | supersede {key : String} {old d : Doc} (meant : Meant n view payload key old) (stays : Stays old d)
      (path : d.currentPath = old.currentPath) (lifecycle : d.docLifecycle = .superseded)
      (link : d.supersededBy = old.supersededBy ∨ Succeeds n view payload d.supersededBy) :
      Change n view payload "doc.supersede" (view.withDoc key d)
  | retire {eventType key : String} {old d : Doc} (meant : Meant n view payload key old) (stays : Stays old d)
      (path : d.currentPath = old.currentPath) (lifecycle : d.docLifecycle = .retired)
      (link : d.supersededBy = old.supersededBy) : Change n view payload eventType (view.withDoc key d)
  /-- A document gets another path. -/
  | move {eventType key : String} {old d : Doc} (meant : Meant n view payload key old) (stays : Stays old d)
      (path : assertCurrentPathUnique n view (view.meantId payload) d.currentPath = .ok ())
      (lifecycle : d.docLifecycle = old.docLifecycle) (link : d.supersededBy = old.supersededBy) :
      Change n view payload eventType (view.withDoc key d)
  /-- Documents of a topic move to new topics. -/
  | split {eventType : String} {source : Option Json} {topics : Table Topic} {docs : List (String × Doc)}
      (kept : ∀ k ∈ view.topics, k ∈ topics)
      (moved : List.Forall₂ (Moved (ToSuccessor view source topics)) view.docs docs) :
      Change n view payload eventType { topics := topics, docs := docs }
  /-- Documents of the sources move to the target, where no role has two of them. -/
  | merge {sources : List Json} {target : Json} {topics : Table Topic} {docs : List (String × Doc)}
      (named : member payload "sourceTopicIds" = some (.arr sources))
      (into : member payload "targetTopicId" = some target) (kept : ∀ k ∈ view.topics, k ∈ topics)
      (there : text n target ∈ topics)
      (occupants : checkOccupants n (text n target) [] (view.docValues.filter fun d => d.docLifecycle.isLive &&
        (same (some d.topicId) (some target) || includes sources d.topicId)) = .ok ())
      (moved : List.Forall₂ (Moved fun d t => includes sources d.topicId = true ∧ t = target) view.docs docs) :
      Change n view payload "topic.merge" { topics := topics, docs := docs }

/-! ### The reducers -/

theorem topicRegister_change (h : topicRegister n view payload ts = .ok next) :
    Change n view payload eventType next := by
  obtain ⟨_, _, h⟩ := bind_eq_ok.mp h
  obtain ⟨id, _, h⟩ := bind_eq_ok.mp h
  obtain ⟨slug, _, h⟩ := bind_eq_ok.mp h
  split at h
  · cases h
  · cases h
    exact .topics fun k hk => Std.ExtTreeMap.mem_insert.mpr (.inr hk)

theorem topicRename_change (h : topicRename n view payload ts = .ok next) : Change n view payload eventType next := by
  obtain ⟨topic, _, h⟩ := bind_eq_ok.mp h
  dsimp only at h
  split at h
  · obtain ⟨slug, _, h⟩ := bind_eq_ok.mp h
    cases h
    exact .topics fun k hk => Std.ExtTreeMap.mem_insert.mpr (.inr hk)
  · cases h
    exact .topics fun k hk => Std.ExtTreeMap.mem_insert.mpr (.inr hk)

theorem topicRetire_change (h : topicRetire n view payload ts = .ok next) : Change n view payload eventType next := by
  obtain ⟨topic, _, h⟩ := bind_eq_ok.mp h
  cases h
  exact .topics fun k hk => Std.ExtTreeMap.mem_insert.mpr (.inr hk)

theorem checkDocTarget_eq_ok {target : Json × String × String} (h : checkDocTarget n view payload verb = .ok target) :
    target.1 = orNull (member payload "topicId") ∧ member payload "role" = some (.str target.2.1) ∧
      text n target.1 ∈ view.topics := by
  obtain ⟨_, htruthy, h⟩ := bind_eq_ok.mp h
  obtain ⟨_, hthere, h⟩ := bind_eq_ok.mp h
  obtain ⟨role, hrole, h⟩ := bind_eq_ok.mp h
  obtain ⟨path, _, h⟩ := bind_eq_ok.mp h
  obtain ⟨_, _, h⟩ := bind_eq_ok.mp h
  cases h
  refine ⟨rfl, assertSafeSlug_eq_ok hrole, ?_⟩
  rw [require_eq_ok, Bool.and_eq_true, Bool.and_eq_true] at htruthy
  rw [require_eq_ok] at hthere
  cases htopic : member payload "topicId" with
  | none =>
    rw [htopic] at htruthy
    cases htruthy.1.1
  | some t =>
    rw [htopic] at hthere
    exact Std.ExtTreeMap.mem_iff_isSome_getElem?.mpr hthere

theorem docReserve_change (h : docReserve n view payload ts = .ok next) : Change n view payload eventType next := by
  obtain ⟨⟨topicId, role, path⟩, htarget, h⟩ := bind_eq_ok.mp h
  obtain ⟨⟨framework, mode⟩, _, h⟩ := bind_eq_ok.mp h
  obtain ⟨htopic, hrole, hthere⟩ := checkDocTarget_eq_ok htarget
  dsimp only at htopic hrole hthere h
  split at h
  · cases h
  · rename_i hnew
    obtain ⟨_, hslot, h⟩ := bind_eq_ok.mp h
    obtain ⟨_, hpath, h⟩ := bind_eq_ok.mp h
    cases h
    have hid : docIdOf n payload topicId role = placedId n payload := by
      rw [placedId, hrole, htopic]
      rfl
    apply Change.create
    · exact hnew
    · exact ⟨rfl, hid, hthere, hslot, hpath, rfl⟩

theorem checkSameIdentity_eq_ok
    (h : checkSameIdentity n id topicId role path (some old) = .ok u) : old.role = role := by
  unfold checkSameIdentity at h
  dsimp only at h
  simp only [require_eq_ok, Bool.and_eq_true, decide_eq_true_eq] at h
  exact h.1.2

theorem registerLifecycle_eq_ok {docLifecycle : Option Json} {lifecycle : DocLifecycle}
    (h : registerLifecycle n id (some old) docLifecycle = .ok lifecycle) :
    lifecycle = old.docLifecycle ∨ old.docLifecycle = .reserved ∧ lifecycle = .provisional := by
  unfold registerLifecycle at h
  dsimp only at h
  split at h
  · exact .inl (Except.ok.inj h).symm
  · split at h
    · rename_i hreserved
      rw [Bool.and_eq_true, decide_eq_true_eq] at hreserved
      exact .inr ⟨hreserved.1, (Except.ok.inj h).symm⟩
    · cases h

theorem docRegister_change (h : docRegister n view payload ts = .ok next) :
    Change n view payload "doc.register" next := by
  obtain ⟨⟨topicId, role, path⟩, htarget, h⟩ := bind_eq_ok.mp h
  obtain ⟨htopic, hrole, hthere⟩ := checkDocTarget_eq_ok htarget
  dsimp only at htopic hrole hthere h
  obtain ⟨_, hidentity, h⟩ := bind_eq_ok.mp h
  obtain ⟨lifecycle, hlifecycle, h⟩ := bind_eq_ok.mp h
  obtain ⟨⟨framework, mode⟩, _, h⟩ := bind_eq_ok.mp h
  dsimp only at h
  have hid : docIdOf n payload topicId role = placedId n payload := by
    rw [placedId, hrole, htopic]
    rfl
  split at h
  case' isTrue => obtain ⟨_, _, h⟩ := bind_eq_ok.mp h
  all_goals
    obtain ⟨_, hslot, h⟩ := bind_eq_ok.mp h
    obtain ⟨_, hpath, h⟩ := bind_eq_ok.mp h
    obtain ⟨_, _, h⟩ := bind_eq_ok.mp h
    cases h
    cases hold : view.doc? (text n (docIdOf n payload topicId role)) with
    | none =>
      apply Change.create
      · exact hold
      · exact ⟨rfl, hid, hthere, hslot, hpath, rfl⟩
    | some old =>
      rw [hold] at hidentity hlifecycle
      apply Change.register
      · exact hold
      · exact ⟨rfl, hid, hthere, hslot, hpath, rfl⟩
      · exact (checkSameIdentity_eq_ok hidentity).symm
      · exact registerLifecycle_eq_ok hlifecycle

theorem resolveDoc_eq_ok (h : resolveDoc n view payload verb = .ok (id, old)) :
    id = view.meantId payload ∧ Meant n view payload (text n id) old := by
  obtain ⟨d, hd, h⟩ := bind_eq_ok.mp h
  cases h
  exact ⟨rfl, rfl, found_eq_ok.mp hd⟩

theorem docMarkRendered_change (h : docMarkRendered n view payload ts = .ok next) :
    Change n view payload eventType next := by
  obtain ⟨⟨id, old⟩, hold, h⟩ := bind_eq_ok.mp h
  obtain ⟨_, _, h⟩ := bind_eq_ok.mp h
  obtain ⟨_, hreserved, h⟩ := bind_eq_ok.mp h
  have hreserved : old.docLifecycle = .reserved := of_decide_eq_true (require_eq_ok.mp hreserved)
  cases h
  apply Change.revise (resolveDoc_eq_ok hold).2
  · exact ⟨rfl, rfl, rfl⟩
  · rfl
  · rfl
  · rw [hreserved]
    rfl
  · rfl

theorem docPromote_change (h : docPromote n view payload ts = .ok next) : Change n view payload eventType next := by
  obtain ⟨⟨id, old⟩, hold, h⟩ := bind_eq_ok.mp h
  obtain ⟨_, _, h⟩ := bind_eq_ok.mp h
  obtain ⟨_, _, h⟩ := bind_eq_ok.mp h
  obtain ⟨_, hprovisional, h⟩ := bind_eq_ok.mp h
  obtain ⟨_, _, h⟩ := bind_eq_ok.mp h
  obtain ⟨_, _, h⟩ := bind_eq_ok.mp h
  have hprovisional : old.docLifecycle = .provisional := of_decide_eq_true (require_eq_ok.mp hprovisional)
  cases h
  apply Change.revise (resolveDoc_eq_ok hold).2
  · exact ⟨rfl, rfl, rfl⟩
  · rfl
  · rfl
  · rw [hprovisional]
    rfl
  · rfl

theorem docDemote_change (h : docDemote n view payload ts = .ok next) : Change n view payload eventType next := by
  obtain ⟨⟨id, old⟩, hold, h⟩ := bind_eq_ok.mp h
  obtain ⟨_, _, h⟩ := bind_eq_ok.mp h
  obtain ⟨_, hactive, h⟩ := bind_eq_ok.mp h
  have hactive : old.docLifecycle = .active := of_decide_eq_true (require_eq_ok.mp hactive)
  cases h
  apply Change.revise (resolveDoc_eq_ok hold).2
  · exact ⟨rfl, rfl, rfl⟩
  · rfl
  · rfl
  · rw [hactive]
    rfl
  · rfl

theorem docAttest_change (h : docAttest n view payload ts = .ok next) : Change n view payload eventType next := by
  obtain ⟨⟨id, old⟩, hold, h⟩ := bind_eq_ok.mp h
  obtain ⟨_, hlive, h⟩ := bind_eq_ok.mp h
  obtain ⟨_, _, h⟩ := bind_eq_ok.mp h
  dsimp only at h
  split at h
  · obtain ⟨_, _, h⟩ := bind_eq_ok.mp h
    cases h
    apply Change.revise (resolveDoc_eq_ok hold).2
    · exact ⟨rfl, rfl, rfl⟩
    · rfl
    · rfl
    · exact require_eq_ok.mp hlive
    · exact require_eq_ok.mp hlive
  · cases h

theorem docRetire_change (h : docRetire n view payload ts = .ok next) : Change n view payload eventType next := by
  obtain ⟨⟨id, old⟩, hold, h⟩ := bind_eq_ok.mp h
  cases h
  apply Change.retire (resolveDoc_eq_ok hold).2
  · exact ⟨rfl, rfl, rfl⟩
  · rfl
  · rfl
  · rfl

theorem docPathMove_change (h : docPathMove n view payload ts = .ok next) : Change n view payload eventType next := by
  obtain ⟨⟨id, old⟩, hold, h⟩ := bind_eq_ok.mp h
  obtain ⟨_, _, h⟩ := bind_eq_ok.mp h
  obtain ⟨path, _, h⟩ := bind_eq_ok.mp h
  obtain ⟨_, hpath, h⟩ := bind_eq_ok.mp h
  obtain ⟨rfl, hmeant⟩ := resolveDoc_eq_ok hold
  cases h
  apply Change.move hmeant
  · exact ⟨rfl, rfl, rfl⟩
  · exact hpath
  · rfl
  · rfl

theorem checkSuccessorDoc_eq_ok {link : Json} (h : checkSuccessorDoc n view id link = .ok u) :
    same (some link) (some id) = false ∧ ∃ d, view.doc? (text n link) = some d ∧ d.docLifecycle.isLive = true := by
  obtain ⟨_, hother, h⟩ := bind_eq_ok.mp h
  obtain ⟨d, hd, h⟩ := bind_eq_ok.mp h
  obtain ⟨_, hlive, h⟩ := bind_eq_ok.mp h
  rw [require_eq_ok, Bool.not_eq_true'] at hother
  exact ⟨hother, d, found_eq_ok.mp hd, require_eq_ok.mp hlive⟩

theorem docSupersede_change (h : docSupersede n view payload ts = .ok next) :
    Change n view payload "doc.supersede" next := by
  obtain ⟨⟨id, old⟩, hold, h⟩ := bind_eq_ok.mp h
  obtain ⟨rfl, hmeant⟩ := resolveDoc_eq_ok hold
  dsimp only at h
  split at h
  · rename_i htruthy
    obtain ⟨_, hsuccessor, h⟩ := bind_eq_ok.mp h
    cases h
    apply Change.supersede hmeant
    · exact ⟨rfl, rfl, rfl⟩
    · rfl
    · rfl
    · cases hlink : member payload "supersededBy" with
      | none =>
        rw [hlink] at htruthy
        cases htruthy
      | some link =>
        rw [hlink] at htruthy hsuccessor
        obtain ⟨hother, hlive⟩ := checkSuccessorDoc_eq_ok hsuccessor
        exact .inr ⟨hlink.symm, htruthy, hother, hlive⟩
  · cases h
    apply Change.supersede hmeant
    · exact ⟨rfl, rfl, rfl⟩
    · rfl
    · rfl
    · exact .inl rfl

/-! ### Splits and merges -/

theorem moved_refl (docs : List (String × Doc)) : List.Forall₂ (Moved moves) docs docs := by
  apply List.forall₂_same.mpr
  intro e _
  exact ⟨rfl, e.2.topicId, e.2.updatedAt, rfl, .inl rfl⟩

theorem Moved.pass {before docs : List (String × Doc)}
    (h : List.Forall₂ (Moved moves) before docs) {p : String × Doc → Bool} {ts : String}
    (hp : ∀ a ∈ before, ∀ b, Moved moves a b → p b = true → moves a.2 topicId) :
    List.Forall₂ (Moved moves) before (docs.map fun e =>
      if p e then (e.1, { e.2 with topicId := topicId, updatedAt := ts }) else e) := by
  rw [List.forall₂_map_right_iff]
  induction h with
  | nil => exact .nil
  | @cons a b before docs hab _ ih =>
    obtain ⟨ha, hp⟩ := forall_mem_cons.mp hp
    refine .cons ?_ (ih hp)
    split
    · rename_i hpb
      obtain ⟨hkey, t, ts', hd, _⟩ := id hab
      refine ⟨hkey, topicId, ts, ?_, .inr (ha b hab hpb)⟩
      rw [hd]
    · exact hab

theorem addSuccessor_topics {old : List String} {nt : Json}
    {k : String} (h : k ∈ view.topics) : k ∈ (addSuccessor n ts source oldTopic old view nt).topics :=
  Std.ExtTreeMap.mem_insert.mpr (.inr h)

theorem checkSuccessors_eq_ok {topicId : Option Json} {seen : List String}
    (h : checkSuccessors n view topicId seen newTopics = .ok u) :
    ∀ nt ∈ newTopics, key n (nt.field "topicId") ∉ view.topics := by
  induction newTopics generalizing seen with
  | nil => exact fun nt hnt => nomatch hnt
  | cons nt rest ih =>
    obtain ⟨_, _, h⟩ := bind_eq_ok.mp h
    obtain ⟨id, hid, h⟩ := bind_eq_ok.mp h
    obtain ⟨slug, _, h⟩ := bind_eq_ok.mp h
    obtain ⟨_, _, h⟩ := bind_eq_ok.mp h
    obtain ⟨_, _, h⟩ := bind_eq_ok.mp h
    split at h
    · cases h
    · rename_i hnew
      refine forall_mem_cons.mpr ⟨?_, ih h⟩
      rw [assertSafeSlug_eq_ok hid]
      exact fun hmem => by
        rw [Std.ExtTreeMap.mem_iff_isSome_getElem?] at hmem
        rw [show view.topics[key n (some (.str id))]? = none from hnew] at hmem
        cases hmem

theorem foldl_addSuccessor (hkeys : (view.docs.map Prod.fst).Nodup)
    (hnew : ∀ nt ∈ newTopics, key n (nt.field "topicId") ∉ view.topics) {current : Knowledge}
    (hmoved : List.Forall₂ (Moved (ToSuccessor view source current.topics)) view.docs current.docs)
    (hkept : ∀ k ∈ view.topics, k ∈ current.topics) :
    ∃ topics docs, newTopics.foldl (addSuccessor n ts source oldTopic
        ((view.docs.filter fun e => same (some e.2.topicId) source).map Prod.fst)) current =
          { topics := topics, docs := docs } ∧
      (∀ k ∈ view.topics, k ∈ topics) ∧ List.Forall₂ (Moved (ToSuccessor view source topics)) view.docs docs := by
  induction newTopics generalizing current with
  | nil => exact ⟨current.topics, current.docs, rfl, hkept, hmoved⟩
  | cons nt rest ih =>
    obtain ⟨hnt, hrest⟩ := forall_mem_cons.mp hnew
    rw [foldl_cons]
    apply ih hrest
    · apply Moved.pass
      · refine hmoved.imp fun a b hab => ?_
        obtain ⟨hk, t, ts', hd, ht⟩ := hab
        refine ⟨hk, t, ts', hd, ht.imp_right fun hs => ?_⟩
        obtain ⟨hsame, id, hid, hnot, hmem⟩ := hs
        exact ⟨hsame, id, hid, hnot, addSuccessor_topics hmem⟩
      · intro a ha b hab hp
        rw [Bool.and_eq_true, contains_iff_mem, List.mem_map] at hp
        obtain ⟨⟨e, he, hek⟩, _⟩ := hp
        obtain ⟨hemem, hsame⟩ := mem_filter.mp he
        have hea : e = a := inj_on_of_nodup_map hkeys hemem ha (hek.trans hab.1)
        rw [hea] at hsame
        exact ⟨hsame, _, rfl, hnt, Std.ExtTreeMap.mem_insert_self⟩
    · exact fun k hk => addSuccessor_topics (hkept k hk)

theorem topicSplit_change (hkeys : (view.docs.map Prod.fst).Nodup)
    (h : topicSplit n view payload ts = .ok next) : Change n view payload eventType next := by
  obtain ⟨oldTopic, _, h⟩ := bind_eq_ok.mp h
  obtain ⟨_, _, h⟩ := bind_eq_ok.mp h
  dsimp only at h
  split at h
  · obtain ⟨newTopics, _, h⟩ := bind_eq_ok.mp h
    obtain ⟨_, hsuccessors, h⟩ := bind_eq_ok.mp h
    obtain ⟨assigned, _, h⟩ := bind_eq_ok.mp h
    obtain ⟨_, _, h⟩ := bind_eq_ok.mp h
    let retired : Topic := { oldTopic with status := .retired, updatedAt := ts }
    let current : Knowledge := { view with topics := view.topics.insert (key n (member payload "topicId")) retired }
    have hkept : ∀ k ∈ view.topics, k ∈ current.topics := fun k hk => Std.ExtTreeMap.mem_insert.mpr (.inr hk)
    have hmoved : List.Forall₂ (Moved (ToSuccessor view (member payload "topicId") current.topics)) view.docs
      current.docs := moved_refl view.docs
    obtain ⟨topics, docs, heq, hkept', hmoved'⟩ :=
      foldl_addSuccessor hkeys (checkSuccessors_eq_ok hsuccessors) hmoved hkept
    rw [show next = { topics := topics, docs := docs } from (Except.ok.inj h).symm.trans heq]
    exact .split hkept' hmoved'
  · cases h

theorem foldl_mergeSource {sources all : List Json} {target : Json} (hall : ∀ s ∈ sources, s ∈ all)
    {current : Knowledge}
    (hmoved : List.Forall₂ (Moved fun d t => includes all d.topicId = true ∧ t = target) view.docs current.docs)
    (hkept : ∀ k ∈ view.topics, k ∈ current.topics) (hthere : text n target ∈ current.topics) :
    ∃ topics docs, sources.foldl (mergeSource n ts target) current = { topics := topics, docs := docs } ∧
      (∀ k ∈ view.topics, k ∈ topics) ∧ text n target ∈ topics ∧
      List.Forall₂ (Moved fun d t => includes all d.topicId = true ∧ t = target) view.docs docs := by
  induction sources generalizing current with
  | nil => exact ⟨current.topics, current.docs, rfl, hkept, hthere, hmoved⟩
  | cons sId rest ih =>
    obtain ⟨hs, hrest⟩ := forall_mem_cons.mp hall
    have htopics : ∀ k ∈ current.topics, k ∈ (mergeSource n ts target current sId).topics := by
      intro k hk
      rw [mergeSource]
      split
      · exact Std.ExtTreeMap.mem_insert.mpr (.inr hk)
      · exact hk
    rw [foldl_cons]
    apply ih hrest
    · apply Moved.pass hmoved
      intro a _ b hab hp
      obtain ⟨_, t, ts', hd, ht⟩ := hab
      rcases ht with ht | ht
      · refine ⟨List.any_eq_true.mpr ⟨sId, hs, ?_⟩, rfl⟩
        rw [hd] at hp
        rw [← ht]
        exact same_symm hp
      · exact ⟨ht.1, rfl⟩
    · exact fun k hk => htopics k (hkept k hk)
    · exact htopics _ hthere

theorem merge_change {sources : List Json} {target : Json} {topics : Table Topic}
    (hnamed : member payload "sourceTopicIds" = some (.arr sources))
    (hinto : member payload "targetTopicId" = some target) (hkept : ∀ k ∈ view.topics, k ∈ topics)
    (hthere : text n target ∈ topics)
    (hoccupants : checkOccupants n (text n target) [] (view.docValues.filter fun d => d.docLifecycle.isLive &&
      (same (some d.topicId) (some target) || includes sources d.topicId)) = .ok ()) :
    Change n view payload "topic.merge" (sources.foldl (mergeSource n ts target) { view with topics := topics }) := by
  let current : Knowledge := { view with topics := topics }
  have hmoved : List.Forall₂ (Moved fun d t => includes sources d.topicId = true ∧ t = target) view.docs
    current.docs := moved_refl view.docs
  obtain ⟨topics', docs, heq, hkept', hthere', hmoved'⟩ :=
    @foldl_mergeSource n view ts sources sources target (fun s hs => hs) current hmoved hkept hthere
  rw [heq]
  exact .merge hnamed hinto hkept' hthere' hoccupants hmoved'

theorem topicMerge_change (h : topicMerge n view payload ts = .ok next) :
    Change n view payload "topic.merge" next := by
  unfold topicMerge at h
  dsimp only at h
  split at h
  · rename_i sources hsources htruthy
    obtain ⟨_, hpure, h⟩ := bind_eq_ok.mp h
    obtain ⟨targetTopic, _, h⟩ := bind_eq_ok.mp h
    obtain ⟨_, _, h⟩ := bind_eq_ok.mp h
    obtain ⟨_, _, h⟩ := bind_eq_ok.mp h
    obtain ⟨_, hoccupants, h⟩ := bind_eq_ok.mp h
    cases hpure
    cases hinto : member payload "targetTopicId" with
    | none =>
      rw [hinto] at htruthy
      cases htruthy
    | some target =>
      rw [hinto] at hoccupants h
      rw [← Except.ok.inj h]
      exact merge_change hsources hinto (fun k hk => Std.ExtTreeMap.mem_insert.mpr (.inr hk))
        Std.ExtTreeMap.mem_insert_self hoccupants
  · cases h

/-- **Every accepted event** makes one of the changes. -/
theorem apply_change (hkeys : (view.docs.map Prod.fst).Nodup)
    (h : apply n view payload ts eventType = .ok next) : Change n view payload eventType next := by
  unfold apply at h
  split at h
  · exact topicRegister_change h
  · exact topicRename_change h
  · exact topicSplit_change hkeys h
  · exact topicMerge_change h
  · exact topicRetire_change h
  · exact docReserve_change h
  · exact docRegister_change h
  · exact docMarkRendered_change h
  · exact docPromote_change h
  · exact docDemote_change h
  · exact docSupersede_change h
  · exact docRetire_change h
  · exact docPathMove_change h
  · exact docAttest_change h
  · cases h
    exact .topics fun k hk => hk

end Knowledge

end Forgent
