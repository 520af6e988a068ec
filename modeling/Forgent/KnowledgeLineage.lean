import Forgent.Graph.Acyclic
import Forgent.KnowledgeUnique

/-!
# The lineage of documents

A document that is superseded or retired is dead, and stays dead.  A superseded document may name its
successor; such a link is kept, and links never run in a circle, because a link is only made to a document
that is live, and a live document has none.

Three things break this (`lineage_grows_counterexample`): a register of a document that is there writes its
record anew without the link, a second supersede names another successor, and a document can be made its own
successor where its id and the link are the same property name but not the same value.
-/

namespace Forgent

open Json Option

theorem lookup_setProperty {α : Type} {entries : List (String × α)} {key : String} {value : α}
    (hkeys : (entries.map Prod.fst).Nodup) (k : String) :
    (setProperty entries key value).lookup k = if k = key then some value else entries.lookup k := by
  have hkeys' : ((setProperty entries key value).map Prod.fst).Nodup := keys_setProperty hkeys
  by_cases hk : k = key
  · rw [if_pos hk, hk]
    exact lookup_of_mem hkeys' (mem_setProperty.mpr (.inl rfl))
  · rw [if_neg hk]
    cases hl : entries.lookup k with
    | some w => exact lookup_of_mem hkeys' (mem_setProperty.mpr (.inr ⟨mem_of_lookup hl, hk⟩))
    | none =>
      cases hl' : (setProperty entries key value).lookup k with
      | none => rfl
      | some w =>
        rcases mem_setProperty.mp (mem_of_lookup hl') with h | h
        · exact absurd (Prod.ext_iff.mp h).1 hk
        · exact absurd rfl (ne_of_lookup hl _ h.1)

namespace Knowledge

open FiniteGraph Relation

variable {n : Arithmetic} {view next later : Knowledge} {payload : Option Json} {eventType key : String}
  {d old : Doc} {moves : Doc → Json → Prop} {k : String} {e : Doc} {docs : List (String × Doc)} {topics : Table Topic}

theorem doc?_withDoc (h : Filed n view) (k : String) :
    (view.withDoc key d).doc? k = if k = key then some d else view.doc? k :=
  lookup_setProperty h.keys k

theorem Moved.lookup {before : List (String × Doc)} (h : List.Forall₂ (Moved moves) before docs) (k : String) :
    (docs.lookup k).map (fun d => (d.docLifecycle, d.supersededBy)) =
      (before.lookup k).map fun d => (d.docLifecycle, d.supersededBy) := by
  induction h with
  | nil => rfl
  | @cons a b before docs hab _ ih =>
    obtain ⟨hk, t, ts, hd, _⟩ := hab
    rw [show a = (a.1, a.2) from rfl, show b = (b.1, b.2) from rfl, List.lookup_cons, List.lookup_cons, hk]
    split
    · rw [hd]
      rfl
    · exact ih

/-! ### What lineage is -/

/-- The document under `a` is superseded by the one under `b`. -/
def Supersedes (n : Arithmetic) (view : Knowledge) (a b : String) : Prop :=
  ∃ d, view.doc? a = some d ∧ ∃ link, d.supersededBy = some link ∧ text n link = b

/-- The later document is dead where the earlier one was, and has its link. -/
structure Carries (d d' : Doc) : Prop where
  dead : d.docLifecycle.isLive = false → d'.docLifecycle.isLive = false
  link : ∀ link, d.supersededBy = some link → d'.supersededBy = some link

/-- The event neither writes the record of a superseded document anew, nor names a second successor, nor
makes a document its own one. -/
def KeepsLineage (n : Arithmetic) (view : Knowledge) (eventType : String) (payload : Option Json) : Prop :=
  (eventType = "doc.register" → ∀ old, view.doc? (text n (placedId n payload)) = some old →
    old.supersededBy = none) ∧
  (eventType = "doc.supersede" → ∀ old, view.doc? (text n (view.meantId payload)) = some old →
    truthy (member payload "supersededBy") = true →
      (old.supersededBy = none ∨ old.supersededBy = member payload "supersededBy") ∧
      Json.key n (member payload "supersededBy") ≠ text n (view.meantId payload))

/-- Links do not run in a circle, and a live document has none. -/
structure Lineage (n : Arithmetic) (view : Knowledge) : Prop extends Filed n view where
  live : ∀ k d, view.doc? k = some d → d.docLifecycle.isLive = true → d.supersededBy = none
  acyclic : Acyclic (Supersedes n view)

/-! ### One event -/

theorem Carries.refl (d : Doc) : Carries d d := ⟨fun h => h, fun _ h => h⟩

theorem Carries.trans {d₁ d₂ d₃ : Doc} (h : Carries d₁ d₂) (h' : Carries d₂ d₃) : Carries d₁ d₃ :=
  ⟨fun hd => h'.dead (h.dead hd), fun link hl => h'.link link (h.link link hl)⟩

theorem carries_withDoc (h : Filed n view) (hold : ∀ old, view.doc? key = some old → Carries old d)
    (he : view.doc? k = some e) : ∃ e', (view.withDoc key d).doc? k = some e' ∧ Carries e e' := by
  rw [doc?_withDoc h]
  by_cases hk : k = key
  · rw [if_pos hk]
    exact ⟨d, rfl, hold e (hk ▸ he)⟩
  · rw [if_neg hk]
    exact ⟨e, he, .refl e⟩

theorem carries_moved (hmoved : List.Forall₂ (Moved moves) view.docs docs) (he : view.doc? k = some e) :
    ∃ e', ({ topics := topics, docs := docs } : Knowledge).doc? k = some e' ∧ Carries e e' := by
  have hlookup := Moved.lookup hmoved k
  rw [show view.docs.lookup k = some e from he] at hlookup
  cases hl : docs.lookup k with
  | none =>
    rw [hl] at hlookup
    cases hlookup
  | some e' =>
    rw [hl] at hlookup
    have hpair := Prod.ext_iff.mp (some.inj hlookup)
    have hlife : e'.docLifecycle = e.docLifecycle := hpair.1
    have hlink : e'.supersededBy = e.supersededBy := hpair.2
    exact ⟨e', hl, fun hd => hlife ▸ hd, fun link h => hlink.trans h⟩

/-- A document carries its lineage on. -/
theorem Change.carries (hchange : Change n view payload eventType next) (h : Filed n view)
    (hkeeps : KeepsLineage n view eventType payload) (he : view.doc? k = some e) :
    ∃ e', next.doc? k = some e' ∧ Carries e e' := by
  cases hchange with
  | topics kept => exact ⟨e, he, .refl e⟩
  | create new placed =>
    refine carries_withDoc h (fun old hold => ?_) he
    rw [new] at hold
    cases hold
  | @register key old d found placed role lifecycle =>
    refine carries_withDoc h (fun old' hold => ?_) he
    rw [found] at hold
    cases hold
    refine ⟨fun hdead => ?_, fun link hlink => ?_⟩
    · rcases lifecycle with hl | hl
      · rw [hl]
        exact hdead
      · rw [hl.1] at hdead
        cases hdead
    · have hnone := hkeeps.1 rfl old (by rw [← placed.docId, ← placed.named]; exact found)
      rw [hnone] at hlink
      cases hlink
  | @revise _ key old d meant stays path link live live' =>
    refine carries_withDoc h (fun old' hold => ?_) he
    rw [meant.found] at hold
    cases hold
    refine ⟨fun hdead => ?_, fun l hl => link.trans hl⟩
    rw [live] at hdead
    cases hdead
  | @supersede key old d meant stays path lifecycle link =>
    refine carries_withDoc h (fun old' hold => ?_) he
    rw [meant.found] at hold
    cases hold
    refine ⟨fun _ => by rw [lifecycle]; rfl, fun l hl => ?_⟩
    rcases link with hsame | hnew
    · exact hsame.trans hl
    · have hk := hkeeps.2 rfl old (meant.named ▸ meant.found) (hnew.named ▸ hnew.truthy)
      rcases hk.1 with hnone | hsame
      · rw [hnone] at hl
        cases hl
      · rw [hnew.named, ← hsame]
        exact hl
  | @retire _ key old d meant stays path lifecycle link =>
    refine carries_withDoc h (fun old' hold => ?_) he
    rw [meant.found] at hold
    cases hold
    exact ⟨fun _ => by rw [lifecycle]; rfl, fun l hl => link.trans hl⟩
  | @move _ key old d meant stays path lifecycle link =>
    refine carries_withDoc h (fun old' hold => ?_) he
    rw [meant.found] at hold
    cases hold
    exact ⟨fun hdead => by rw [lifecycle]; exact hdead, fun l hl => link.trans hl⟩
  | split kept moved | merge named into kept there occupants moved => exact carries_moved moved he

section

variable (h : Lineage n view)

include h

theorem Lineage.withDoc (hfiled : Filed n (view.withDoc key d))
    (hlive : d.docLifecycle.isLive = true → d.supersededBy = none)
    (hlink : d.supersededBy = none ∨ ∃ old, view.doc? key = some old ∧ d.supersededBy = old.supersededBy) :
    Lineage n (view.withDoc key d) where
  toFiled := hfiled
  live := fun k e he hl => by
    rw [doc?_withDoc h.toFiled] at he
    split at he
    · cases he
      exact hlive hl
    · exact h.live k e he hl
  acyclic := by
    refine h.acyclic.mono fun a b hab => ?_
    obtain ⟨e, he, link, hl, hb⟩ := hab
    rw [doc?_withDoc h.toFiled] at he
    split at he
    · rename_i hk
      cases he
      rcases hlink with hnone | ⟨old, hold, hsame⟩
      · rw [hnone] at hl
        cases hl
      · exact ⟨old, hk ▸ hold, link, hsame.symm.trans hl, hb⟩
    · exact ⟨e, he, link, hl, hb⟩

theorem Lineage.moved {moves : Doc → Json → Prop} (hfiled : Filed n { topics := topics, docs := docs })
    (hmoved : List.Forall₂ (Moved moves) view.docs docs) : Lineage n { topics := topics, docs := docs } := by
  have hback : ∀ k e', docs.lookup k = some e' → ∃ e, view.doc? k = some e ∧
      e'.docLifecycle = e.docLifecycle ∧ e'.supersededBy = e.supersededBy := by
    intro k e' he'
    have hlookup := Moved.lookup hmoved k
    rw [he'] at hlookup
    cases hl : view.docs.lookup k with
    | none =>
      rw [hl] at hlookup
      cases hlookup
    | some e =>
      rw [hl] at hlookup
      have hpair := Prod.ext_iff.mp (some.inj hlookup)
      exact ⟨e, hl, hpair.1, hpair.2⟩
  refine ⟨hfiled, fun k e' he' hlive => ?_, h.acyclic.mono fun a b hab => ?_⟩
  · obtain ⟨e, he, hlife, hlink⟩ := hback k e' he'
    exact hlink.trans (h.live k e he (hlife ▸ hlive))
  · obtain ⟨e', he', link, hl, hb⟩ := hab
    obtain ⟨e, he, _, hlink⟩ := hback a e' he'
    exact ⟨e, he, link, hlink.symm.trans hl, hb⟩

theorem Lineage.supersede (hfiled : Filed n (view.withDoc key d)) {link : Json} {s : Doc}
    (hdead : d.docLifecycle.isLive = false) (hlink : d.supersededBy = some link) (hother : text n link ≠ key)
    (hs : view.doc? (text n link) = some s) (hlive : s.docLifecycle.isLive = true) :
    Lineage n (view.withDoc key d) where
  toFiled := hfiled
  live := fun k e he hl => by
    rw [doc?_withDoc h.toFiled] at he
    split at he
    · cases he
      rw [hdead] at hl
      cases hl
    · exact h.live k e he hl
  acyclic := by
    have hat : ∀ a b, a ≠ key → Supersedes n (view.withDoc key d) a b → Supersedes n view a b := by
      intro a b ha hab
      obtain ⟨e, he, l, hl, hb⟩ := hab
      rw [doc?_withDoc h.toFiled, if_neg ha] at he
      exact ⟨e, he, l, hl, hb⟩
    have hto : ∀ b, Supersedes n (view.withDoc key d) key b → b = text n link := by
      intro b hb
      obtain ⟨e, he, l, hl, hb⟩ := hb
      rw [doc?_withDoc h.toFiled, if_pos rfl] at he
      cases he
      rw [hlink] at hl
      cases hl
      exact hb.symm
    have hsink : ∀ b, ¬ Supersedes n view (text n link) b := by
      intro b hb
      obtain ⟨e, he, l, hl, _⟩ := hb
      rw [hs] at he
      cases he
      rw [h.live _ _ hs hlive] at hl
      cases hl
    apply acyclic_insert key h.acyclic
    · exact fun a b ha _ hab => hat a b ha hab
    · exact fun hself => hother (hto key hself).symm
    · intro a b ha hab hb
      rw [hto a ha] at hab
      rcases ReflTransGen.cases_head hab with rfl | ⟨c, hc, _⟩
      · exact hsink key (hat _ _ hother hb)
      · exact hsink c hc

theorem Lineage.change (hchange : Change n view payload eventType next)
    (hkeeps : KeepsLineage n view eventType payload) : Lineage n next := by
  have hfiled := h.toFiled.change hchange
  cases hchange with
  | topics kept => exact ⟨hfiled, h.live, h.acyclic⟩
  | create new placed | register found placed => exact h.withDoc hfiled (fun _ => placed.link) (.inl placed.link)
  | revise meant stays path link live live' =>
    exact h.withDoc hfiled (fun _ => link.trans (h.live _ _ meant.found live)) (.inr ⟨_, meant.found, link⟩)
  | @supersede key old d meant stays path lifecycle link =>
    have hdead : d.docLifecycle.isLive = false := by
      rw [lifecycle]
      rfl
    rcases link with hsame | hnew
    · refine h.withDoc hfiled (fun hlive => ?_) (.inr ⟨old, meant.found, hsame⟩)
      rw [hdead] at hlive
      cases hlive
    · have hk := hkeeps.2 rfl old (meant.named ▸ meant.found) (hnew.named ▸ hnew.truthy)
      rw [← hnew.named, ← meant.named] at hk
      obtain ⟨s, hs, hlive⟩ := hnew.live
      cases hlink : d.supersededBy with
      | none =>
        have htruthy := hnew.truthy
        rw [hlink] at htruthy
        cases htruthy
      | some l =>
        rw [hlink] at hk hs
        exact h.supersede hfiled hdead hlink hk.2 hs hlive
  | retire meant stays path lifecycle link =>
    refine h.withDoc hfiled (fun hlive => ?_) (.inr ⟨_, meant.found, link⟩)
    rw [lifecycle] at hlive
    cases hlive
  | move meant stays path lifecycle link =>
    refine h.withDoc hfiled (fun hlive => ?_) (.inr ⟨_, meant.found, link⟩)
    exact link.trans (h.live _ _ meant.found (lifecycle ▸ hlive))
  | split kept moved | merge named into kept there occupants moved => exact h.moved hfiled moved

end

/-! ### Runs -/

theorem lineage_empty : Lineage n .empty where
  toFiled := filed_empty
  live := fun _ _ he => nomatch he
  acyclic := fun a hcycle => by
    obtain ⟨b, ⟨d, hd, _⟩, _⟩ := TransGen.head'_iff.mp hcycle
    cases hd

theorem Run.lineage (h : Run n (KeepsLineage n) .empty view) : Lineage n view := by
  induction h with
  | refl => exact lineage_empty
  | step eventType payload ts _ happly hkeeps ih => exact ih.change (apply_change ih.keys happly) hkeeps

theorem Run.carries (h : Run n (KeepsLineage n) view later) (hfiled : Filed n view)
    (he : view.doc? k = some e) : ∃ e', later.doc? k = some e' ∧ Carries e e' := by
  induction h with
  | refl => exact ⟨e, he, .refl e⟩
  | step eventType payload ts hrun happly hkeeps ih =>
    obtain ⟨e', he', hc⟩ := ih
    have hmiddle := hrun.filed hfiled
    obtain ⟨e'', he'', hc'⟩ := (apply_change hmiddle.keys happly).carries hmiddle hkeeps he'
    exact ⟨e'', he'', hc.trans hc'⟩

/-- **Lineage only grows**: from every registry that a run reaches, on the run's way on, a dead document stays
dead and a link stays as it is; and the links of the registry do not run in a circle. -/
theorem lineage_grows (hrun : Run n (KeepsLineage n) .empty view) (hlater : Run n (KeepsLineage n) view later) :
    (∀ k e, view.doc? k = some e → ∃ e', later.doc? k = some e' ∧ Carries e e') ∧ Acyclic (Supersedes n view) :=
  ⟨fun _ _ he => hlater.carries hrun.lineage.toFiled he, hrun.lineage.acyclic⟩

/-! ### Small registries -/

namespace Sample

def three : List Event :=
  [register "t", reserve "a" "t" "guide" "docs/a.md", reserve "b" "t" "plan" "docs/b.md",
    reserve "c" "t" "log" "docs/c.md"]

def supersede (docId : String) (link : Json) : Event :=
  event "doc.supersede" [("docId", .str docId), ("supersededBy", link)]

def linked : List Event := three ++ [supersede "a" (.str "b")]

def registerAgain : Event :=
  event "doc.register" [("docId", .str "a"), ("topicId", .str "t"), ("role", .str "guide"),
    ("currentPath", .str "docs/a.md")]

def numbered : List Event :=
  [register "t", reserve "5" "t" "guide" "docs/a.md", supersede "5" (.num (.int 5))]

def lineageOf (events : List Event) (key : String) : Option (DocLifecycle × Option String) :=
  ((folded events).doc? key).map fun d => (d.docLifecycle, d.supersededBy.map (text arithmetic))

theorem run_linked : Run arithmetic (KeepsLineage arithmetic) .empty (folded linked) := by
  have htypes : ∀ e ∈ three, e.eventType ≠ "doc.register" ∧ e.eventType ≠ "doc.supersede" := by decide
  have hthree : Run arithmetic (KeepsLineage arithmetic) .empty (folded three) :=
    .of_fold .refl (fun e he view => ⟨fun h => absurd h (htypes e he).1, fun h => absurd h (htypes e he).2⟩)
      (fold_folded (by decide))
  refine run_snoc hthree (by decide) (by decide)
    ⟨fun h => absurd h (by decide), fun _ old hold _ => ⟨.inl ?_, by decide⟩⟩
  have hlink : ((folded three).doc? "a").all (fun d => d.supersededBy.isNone) = true := by decide
  rw [show (folded three).doc? "a" = some old from hold] at hlink
  exact isNone_iff_eq_none.mp hlink

end Sample

open Sample in
/-- A document is superseded, and then its successor is retired. -/
theorem lineage_grows_retired : (∀ k e, (folded linked).doc? k = some e →
      ∃ e', (folded (linked ++ [ofDoc "doc.retire" "b"])).doc? k = some e' ∧ Carries e e') ∧
    Acyclic (Supersedes arithmetic (folded linked)) :=
  lineage_grows run_linked (run_snoc .refl (by decide) (by decide)
    ⟨fun h => absurd h (by decide), fun h => absurd h (by decide)⟩)

open Sample in
/-- A register loses the link, a second supersede redirects it, and a document can be made its own
successor. -/
theorem lineage_grows_counterexample : Run arithmetic (fun _ _ _ => True) .empty (folded linked) ∧
    lineageOf linked "a" = some (.superseded, some "b") ∧
    (Run arithmetic (fun _ _ _ => True) (folded linked) (folded (linked ++ [registerAgain])) ∧
      lineageOf (linked ++ [registerAgain]) "a" = some (.superseded, none)) ∧
    (Run arithmetic (fun _ _ _ => True) (folded linked) (folded (linked ++ [supersede "a" (.str "c")])) ∧
      lineageOf (linked ++ [supersede "a" (.str "c")]) "a" = some (.superseded, some "c")) ∧
    Run arithmetic (fun _ _ _ => True) .empty (folded numbered) ∧
      lineageOf numbered "5" = some (.superseded, some "5") :=
  ⟨.of_fold .refl (fun _ _ _ => trivial) (fold_folded (by decide)), by decide,
    ⟨run_snoc .refl (by decide) (by decide) trivial, by decide⟩,
    ⟨run_snoc .refl (by decide) (by decide) trivial, by decide⟩,
    .of_fold .refl (fun _ _ _ => trivial) (fold_folded (by decide)), by decide⟩

end Knowledge

end Forgent
