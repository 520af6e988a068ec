import Forgent.OrderBlocks

/-!
# What the input is collected into

The first loop of `order` goes through the events in arrival order.  Here its outcome is described
without the arrival order: it succeeds exactly when every event validates and no two events at one
position have different digests, and then the map holds exactly the events of the input, each at its
position (`collect_eq_ok_iff`).  Two inputs with the same events are collected into the same map.

An event is known by its digest.  That SHA-256 has no collision among the events at hand is the one
assumption, `Codec.CollisionFree`.
-/

namespace Forgent

open List

/-! ### Events and their digests -/

theorem scopeName_injective : Function.Injective Envelope.scopeName := by
  intro a b h
  cases a <;> cases b <;> first | rfl | simp [Envelope.scopeName] at h

theorem positions_eq_of_json {a b : Positions}
    (h : (a.toList.map fun p => (p.1, Json.nat p.2)) = b.toList.map fun p => (p.1, Json.nat p.2)) : a = b := by
  refine Std.ExtTreeMap.toList_inj.mp (map_injective_iff.mpr ?_ h)
  rintro ⟨k, n⟩ ⟨l, m⟩ hp
  simp only [Prod.mk.injEq, Json.nat, Json.num.injEq, Number.int.injEq, Int.natCast_inj] at hp
  rw [hp.1, hp.2]

theorem Envelope.eq_of_body_eq {a b : Envelope} (hbody : a.body = b.body) (hh : a.h = b.h) : a = b := by
  simp only [Envelope.body, List.cons.injEq, Prod.mk.injEq, Json.nat, Json.num.injEq,
    Number.int.injEq, Int.natCast_inj, Json.str.injEq, Json.obj.injEq, true_and, and_true] at hbody
  obtain ⟨hv, htype, hscope, horigin, hstream, hseq, hseen, hts, hsrc, hschema, hpayload⟩ := hbody
  have hscope' := scopeName_injective hscope
  have hseen' := positions_eq_of_json hseen
  cases a
  cases b
  simp_all

/-- Among these events, one digest stands for one content. -/
def Codec.CollisionFree (c : Codec) (input : List Envelope) : Prop :=
  ∀ a ∈ input, ∀ b ∈ input, ∀ h, a.computeHash c = .ok h → b.computeHash c = .ok h → a.body = b.body

/-- Valid events of the set with one digest are one event. -/
def Identified (c : Codec) (T : Set Envelope) : Prop :=
  ∀ a ∈ T, ∀ b ∈ T, a.Valid c → b.Valid c → a.h = b.h → a = b

variable {c : Codec} {input : List Envelope}

theorem Codec.CollisionFree.identified (hcol : c.CollisionFree input) : Identified c {e | e ∈ input} :=
  fun a ha b hb hva hvb hh =>
    Envelope.eq_of_body_eq (hcol a ha b hb a.h hva.hash (hh ▸ hvb.hash)) hh

/-- Every event of the input validates. -/
def AllValid (c : Codec) (input : List Envelope) : Prop := ∀ e ∈ input, e.Valid c

/-- No position is claimed by two digests. -/
def NoSeqConflict (T : Set Envelope) : Prop :=
  ∀ a ∈ T, ∀ b ∈ T, position a = position b → a.h = b.h

/-- The errors the events themselves can give. -/
def InputErrors (c : Codec) (input : List Envelope) : Set Error :=
  {err | (∃ e ∈ input, e.validate c = .error err) ∨
    (¬ NoSeqConflict {e | e ∈ input} ∧ err = twoHashes)}

/-! ### The loop -/

section

variable {c : Codec} {view : Option (VerifiedView c)} {u : EventMap} {S : Set Envelope}

theorem valid_of_verified {e : Envelope} (h : verified view e = true) : e.Valid c := by
  cases view with
  | none => cases h
  | some v =>
    rw [verified, decide_eq_true_eq] at h
    exact v.valid e (mem_reverse.mp (mem_of_find?_eq_some h))

theorem validateNew_eq (e : Envelope) : validateNew view e = e.validate c := by
  rw [validateNew]
  split
  · rename_i h
    exact ((Envelope.validate_eq_ok_iff c e).mpr (valid_of_verified h)).symm
  · rfl

def Holds (unique : EventMap) (S : Set Envelope) : Prop :=
  ∀ k e, unique[k]? = some e ↔ e ∈ S ∧ toLex (position e) = k

theorem Holds.ext {u' : EventMap} (h : Holds u S) (h' : Holds u' S) : u = u' := by
  refine Std.ExtTreeMap.ext_getElem? fun k => ?_
  ext e
  rw [h k e, h' k e]

theorem holds_empty : Holds ∅ ∅ := by
  intro k e
  simp

theorem Holds.put (h : Holds u S) {e : Envelope} (hself : ∀ a ∈ S, position a = position e → a = e) :
    Holds (u.insert (toLex (position e)) e) (insert e S) := by
  intro k a
  rw [Std.ExtTreeMap.getElem?_insert]
  split
  · rename_i hk
    rw [Std.LawfulEqCmp.compare_eq_iff_eq] at hk
    constructor
    · intro ha
      cases ha
      exact ⟨Set.mem_insert _ _, hk⟩
    · rintro ⟨ha, hpos⟩
      rcases ha with rfl | ha
      · rfl
      · rw [hself a ha (toLex.injective (hpos.trans hk.symm))]
  · rename_i hk
    rw [Std.LawfulEqCmp.compare_eq_iff_eq] at hk
    rw [h k a]
    constructor
    · rintro ⟨ha, hpos⟩
      exact ⟨Set.mem_insert_of_mem _ ha, hpos⟩
    · rintro ⟨rfl | ha, hpos⟩
      · exact absurd hpos hk
      · exact ⟨ha, hpos⟩

theorem all_at_position (h : Holds u S) (e : Envelope) :
    (u[(toLex (position e) : PositionKey)]?.all fun old => old.h = e.h) = true ↔
      ∀ a ∈ S, position a = position e → a.h = e.h := by
  rw [Option.all_eq_true]
  constructor
  · intro hall a ha hpos
    simpa using hall a ((h _ a).mpr ⟨ha, by rw [hpos]⟩)
  · intro hall a ha
    obtain ⟨ha, hpos⟩ := (h _ a).mp ha
    simpa using hall a ha (toLex.injective hpos)

theorem Holds.noSeqConflict (h : Holds u S) : NoSeqConflict S := by
  intro a ha b hb hp
  have ha' := (h _ a).mpr ⟨ha, rfl⟩
  have hb' := (h _ b).mpr ⟨hb, rfl⟩
  rw [hp, hb'] at ha'
  rw [Option.some.inj ha']

theorem collect_cons_eq_ok_iff (hu : Holds u S) (e : Envelope) (rest : List Envelope) (u' : EventMap) :
    collect c view (e :: rest) u = .ok u' ↔ e.Valid c ∧ (∀ a ∈ S, position a = position e → a.h = e.h) ∧
        collect c view rest (u.insert (toLex (position e)) e) = .ok u' := by
  rw [collect, validateNew_eq, bind_eq_ok]
  simp only [bind_eq_ok, checkReplaced, ensure_eq_ok, all_at_position hu]
  constructor
  · rintro ⟨⟨⟩, hv, ⟨⟩, hconf, h⟩
    exact ⟨(Envelope.validate_eq_ok_iff c e).mp hv, hconf, h⟩
  · rintro ⟨hv, hconf, h⟩
    exact ⟨(), (Envelope.validate_eq_ok_iff c e).mpr hv, (), hconf, h⟩

theorem insert_union_rest (S : Set Envelope) (e : Envelope) (rest : List Envelope) :
    insert e S ∪ {a | a ∈ rest} = S ∪ {a | a ∈ e :: rest} := by
  ext a
  simp only [Set.mem_union, Set.mem_ofPred_eq, mem_cons, Set.mem_insert_iff]
  tauto

section

variable {T : Set Envelope} (hid : Identified c T) {u : EventMap} {S : Set Envelope}

include hid

theorem Holds.put_identified (hu : Holds u S) (hST : S ⊆ T)
    (hS : ∀ a ∈ S, a.Valid c) {e : Envelope} (heT : e ∈ T) (hv : e.Valid c)
    (hconf : ∀ a ∈ S, position a = position e → a.h = e.h) : Holds (u.insert (toLex (position e)) e) (insert e S) :=
  hu.put fun a ha hp => hid a (hST ha) e heT (hS a ha) hv (hconf a ha hp)

/-- **The loop succeeds** exactly on valid events without a conflict, with the map of their set. -/
theorem collect_eq_ok_iff (rest : List Envelope) (hu : Holds u S)
    (hST : S ⊆ T) (hrest : ∀ e ∈ rest, e ∈ T) (hS : ∀ a ∈ S, a.Valid c) (u' : EventMap) :
    collect c view rest u = .ok u' ↔
      AllValid c rest ∧ NoSeqConflict (S ∪ {e | e ∈ rest}) ∧ Holds u' (S ∪ {e | e ∈ rest}) := by
  induction rest generalizing u S with
  | nil =>
    have hempty : S ∪ {e | e ∈ ([] : List Envelope)} = S := by ext; simp
    rw [hempty, collect]
    constructor
    · intro h
      cases h
      exact ⟨by simp [AllValid], hu.noSeqConflict, hu⟩
    · rintro ⟨_, _, h⟩
      rw [hu.ext h]
  | cons e rest ih =>
    obtain ⟨heT, hrest⟩ := forall_mem_cons.mp hrest
    have hvalid : e.Valid c → ∀ a ∈ insert e S, a.Valid c := by
      rintro hv a (rfl | ha)
      · exact hv
      · exact hS a ha
    have hsub : insert e S ⊆ T := Set.insert_subset heT hST
    rw [collect_cons_eq_ok_iff hu, ← insert_union_rest]
    constructor
    · rintro ⟨hv, hconf, h⟩
      have hu' := hu.put_identified hid hST hS heT hv hconf
      obtain ⟨hvr, hrestc⟩ := (ih hu' hsub hrest (hvalid hv)).mp h
      exact ⟨forall_mem_cons.mpr ⟨hv, hvr⟩, hrestc⟩
    · rintro ⟨hv, hconf, hholds⟩
      obtain ⟨hve, hvr⟩ := forall_mem_cons.mp hv
      have hconfe : ∀ a ∈ S, position a = position e → a.h = e.h := fun a ha hp =>
        hconf a (.inl (Set.mem_insert_of_mem e ha)) e (.inl (Set.mem_insert e S)) hp
      have hu' := hu.put_identified hid hST hS heT hve hconfe
      exact ⟨hve, hconfe, (ih hu' hsub hrest (hvalid hve)).mpr ⟨hvr, hconf, hholds⟩⟩

theorem collect_error (rest : List Envelope) (hu : Holds u S)
    (hST : S ⊆ T) (hrest : ∀ e ∈ rest, e ∈ T) (hS : ∀ a ∈ S, a.Valid c) {err : Error}
    (h : collect c view rest u = .error err) : (∃ e ∈ rest, e.validate c = .error err) ∨
      (¬ NoSeqConflict (S ∪ {e | e ∈ rest}) ∧ err = twoHashes) := by
  induction rest generalizing u S with
  | nil => cases h
  | cons e rest ih =>
    obtain ⟨heT, hrest⟩ := forall_mem_cons.mp hrest
    rw [collect, validateNew_eq] at h
    cases hv : e.validate c with
    | error err' =>
      rw [hv] at h
      cases h
      exact .inl ⟨e, by simp, hv⟩
    | ok _ =>
      have hve := (Envelope.validate_eq_ok_iff c e).mp hv
      rw [hv] at h
      by_cases hconf : ∀ a ∈ S, position a = position e → a.h = e.h
      · have hall := (all_at_position hu e).mpr hconf
        have hu' := hu.put_identified hid hST hS heT hve hconf
        have hstep : collect c view rest (u.insert (toLex (position e)) e) = .error err := by
          rw [checkReplaced, hall] at h
          exact h
        rcases ih hu' (Set.insert_subset heT hST) hrest (by
          rintro a (rfl | ha)
          · exact hve
          · exact hS a ha) hstep with ⟨a, ha, hae⟩ | hE
        · exact .inl ⟨a, mem_cons_of_mem e ha, hae⟩
        · rw [insert_union_rest] at hE
          exact .inr hE
      · have hall := mt (all_at_position hu e).mp hconf
        rw [checkReplaced, Bool.not_eq_true] at *
        rw [hall] at h
        cases h
        refine .inr ⟨fun hno => hconf fun a ha hp => ?_, rfl⟩
        exact hno a (.inl ha) e (.inr (by simp)) hp

end

end

/-! ### The whole input -/

section

variable {c : Codec} {input : List Envelope} (hcol : c.CollisionFree input)

include hcol

variable (view : Option (VerifiedView c))

include view

theorem collect_input_eq_ok_iff (u : EventMap) : collect c view input ∅ = .ok u ↔
      AllValid c input ∧ NoSeqConflict {e | e ∈ input} ∧ Holds u {e | e ∈ input} := by
  rw [collect_eq_ok_iff hcol.identified input holds_empty (Set.empty_subset _) (fun _ h => h)
    (fun _ h => h.elim) u, Set.empty_union]

theorem collect_input_error {err : Error} (h : collect c view input ∅ = .error err) : err ∈ InputErrors c input := by
  have := collect_error hcol.identified input holds_empty (Set.empty_subset _) (fun _ h => h)
    (fun _ h => h.elim) h
  rwa [Set.empty_union] at this

theorem collect_input_ok (hv : AllValid c input)
    (hno : NoSeqConflict {e | e ∈ input}) : ∃ u, collect c view input ∅ = .ok u := by
  cases h : collect c view input ∅ with
  | ok u => exact ⟨u, rfl⟩
  | error err =>
    rcases collect_input_error hcol view h with ⟨e, he, hE⟩ | ⟨hconf, _⟩
    · rw [(Envelope.validate_eq_ok_iff c e).mpr (hv e he)] at hE
      cases hE
    · exact absurd hno hconf

end

theorem collect_view_irrelevant (view : Option (VerifiedView c)) (rest : List Envelope)
    (u : EventMap) : collect c view rest u = collect c none rest u := by
  induction rest generalizing u with
  | nil => rfl
  | cons e rest ih => simp only [collect, validateNew_eq, ih]

theorem orderRetained_eq_order (input : List Envelope) (base : Positions) (project : Bool)
    (view : Option (VerifiedView c)) : orderRetained c input base project view = order c input base project := by
  rw [order, orderRetained, orderRetained, collect_view_irrelevant]

/-! ### Inputs that hold every position once -/

def eventMap (input : List Envelope) : EventMap :=
  input.foldl (fun u e => u.insert (toLex (position e)) e) ∅

theorem collect_of_nodup {view : Option (VerifiedView c)} (rest : List Envelope)
    (hv : AllValid c rest) (hnd : (rest.map position).Nodup) (u : EventMap)
    (hu : ∀ e ∈ rest, u[(toLex (position e) : PositionKey)]? = none) :
    collect c view rest u = .ok (rest.foldl (fun u e => u.insert (toLex (position e)) e) u) := by
  induction rest generalizing u with
  | nil => rfl
  | cons e rest ih =>
    obtain ⟨hve, hvr⟩ := forall_mem_cons.mp hv
    rw [map_cons, nodup_cons] at hnd
    have hempty : checkReplaced u[(toLex (position e) : PositionKey)]? e = .ok () := by
      rw [hu e (by simp)]
      rfl
    have hrest := ih hvr hnd.2 (u.insert (toLex (position e)) e) fun d hd => by
      have hne : position d ≠ position e := fun h => hnd.1 (h ▸ List.mem_map_of_mem hd)
      rw [Std.ExtTreeMap.getElem?_insert, if_neg, hu d (mem_cons_of_mem e hd)]
      rw [Std.LawfulEqCmp.compare_eq_iff_eq]
      exact fun h => hne (toLex.injective h).symm
    rw [collect, validateNew_eq, (Envelope.validate_eq_ok_iff c e).mpr hve, foldl_cons, ← hrest]
    exact congrArg (fun x => x >>= fun _ => collect c view rest _) hempty

theorem order_of_nodup (hv : AllValid c input)
    (hnd : (input.map position).Nodup) (base : Positions) (project : Bool) :
    order c input base project = orderUnique (eventMap input) base project := by
  rw [order, orderRetained, collect_of_nodup input hv hnd ∅ (by simp)]
  rfl

theorem Codec.CollisionFree.of_nodup (hv : AllValid c input)
    (hnd : (input.map Envelope.h).Nodup) : c.CollisionFree input := by
  intro a ha b hb h hha hhb
  have hah : a.h = h := Except.ok.inj ((hv a ha).hash.symm.trans hha)
  have hbh : b.h = h := Except.ok.inj ((hv b hb).hash.symm.trans hhb)
  rw [inj_on_of_nodup_map hnd ha hb (hah.trans hbh.symm)]

end Forgent
