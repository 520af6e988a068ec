import Forgent.RunControl
import Mathlib.Data.List.Induction

/-!
# The control ledger of a run

The generation files of a run are numbered from one without a gap, and each was followed in one of two ways: by the
settlement made with its own token, or by a new holder after it was released or its holder died.
-/

namespace Forgent.RunControl

open List Option

variable {Holder Report : Type}

/-! ### The current generation -/

theorem foldl_latest {α : Type} (l : List (ℕ × α)) (start : Option (ℕ × α)) :
    (l.foldl (fun best g => if best.any fun b => g.1 ≤ b.1 then best else some g) start = none ↔ start = none ∧ l = []) ∧
      ∀ b, l.foldl (fun best g => if best.any fun b => g.1 ≤ b.1 then best else some g) start = some b →
        (start = some b ∨ b ∈ l) ∧ (∀ a ∈ start, a.1 ≤ b.1) ∧ ∀ a ∈ l, a.1 ≤ b.1 := by
  induction l generalizing start with
  | nil =>
    refine ⟨by simp, fun b hb => ⟨.inl hb, fun a ha => ?_, by simp⟩⟩
    rw [show start = some b from hb] at ha
    exact Nat.le_of_eq (congrArg Prod.fst (mem_some_iff.mp ha).symm)
  | cons g l ih =>
    rw [foldl_cons]
    by_cases hbest : start.any (fun b => decide (g.1 ≤ b.1)) = true
    · rw [if_pos hbest]
      obtain ⟨a, ha, hle⟩ := (Option.any_eq_true _ _).mp hbest
      obtain ⟨hnone, hsome⟩ := ih start
      refine ⟨by rw [hnone, ha]; simp, fun b hb => ?_⟩
      obtain ⟨hmem, hstart, hall⟩ := hsome b hb
      refine ⟨hmem.imp_right (mem_cons_of_mem g), hstart, fun c hc => ?_⟩
      cases mem_cons.mp hc with
      | inl heq => exact heq ▸ Nat.le_trans (of_decide_eq_true hle) (hstart a ha)
      | inr hmem => exact hall c hmem
    · rw [if_neg hbest]
      obtain ⟨hnone, hsome⟩ := ih (some g)
      refine ⟨by rw [hnone]; simp, fun b hb => ?_⟩
      obtain ⟨hmem, hstart, hall⟩ := hsome b hb
      have hg : g.1 ≤ b.1 := hstart g rfl
      refine ⟨.inr ?_, fun a ha => ?_, fun c hc => ?_⟩
      · cases hmem with
        | inl heq => exact (Option.some.inj heq) ▸ mem_cons_self
        | inr hmem => exact mem_cons_of_mem g hmem
      · have hlt : ¬ g.1 ≤ a.1 := fun hle => hbest ((Option.any_eq_true _ _).mpr ⟨a, ha, decide_eq_true hle⟩)
        omega
      · cases mem_cons.mp hc with
        | inl heq => exact heq ▸ hg
        | inr hmem => exact hall c hmem

/-- The files of generations that were installed in this order. -/
def filed (gens : List (Generation Holder)) : List (ℕ × Option (Generation Holder)) :=
  gens.zipIdx.map fun (g, i) => (i + 1, some g)

theorem filed_append (gens : List (Generation Holder)) (g : Generation Holder) :
    filed (gens ++ [g]) = filed gens ++ [(gens.length + 1, some g)] := by
  simp [filed, zipIdx_append]

theorem mem_filed {gens : List (Generation Holder)} {epoch : ℕ} {content : Option (Generation Holder)} :
    (epoch, content) ∈ filed gens ↔ ∃ i g, epoch = i + 1 ∧ content = some g ∧ gens[i]? = some g := by
  rw [filed, List.mem_map]
  constructor
  · rintro ⟨⟨g, i⟩, hmem, heq⟩
    cases heq
    exact ⟨i, g, rfl, rfl, mem_zipIdx_iff_getElem?.mp hmem⟩
  · rintro ⟨i, g, rfl, rfl, hg⟩
    exact ⟨(g, i), mem_zipIdx_iff_getElem?.mpr hg, rfl⟩

theorem lookup_filed (gens : List (Generation Holder)) (i : ℕ) : (filed gens).lookup (i + 1) = (gens[i]?).map some := by
  induction gens using reverseRecOn generalizing i with
  | nil => rfl
  | append_singleton gens g ih =>
    rw [filed_append, lookup_append, ih]
    by_cases hlt : i < gens.length
    · rw [getElem?_append_left hlt, getElem?_eq_getElem hlt]
      rfl
    · rw [getElem?_eq_none (Nat.le_of_not_lt hlt), map_none, none_or]
      by_cases heq : i = gens.length
      · simp [heq]
      · rw [getElem?_eq_none (by simp only [length_append, length_singleton]; omega)]
        have hne : (i + 1 == gens.length + 1) = false := beq_false_of_ne (by omega)
        rw [lookup_cons, hne]
        rfl

/-- Generations recorded in this order. -/
def Recorded (disk : Disk Holder Report) (gens : List (Generation Holder)) : Prop := disk.generations = filed gens

section Recorded

variable {disk : Disk Holder Report} {gens : List (Generation Holder)} {epoch : ℕ} {g : Generation Holder}

variable (h : Recorded disk gens)

include h

theorem Recorded.file (i : ℕ) : generationFile disk (i + 1) = (gens[i]?).map some := by
  rw [generationFile, h, lookup_filed]

theorem Recorded.mem_list :
    (epoch, g) ∈ listGenerations disk ↔ ∃ i, epoch = i + 1 ∧ epoch ≤ maxListed ∧ gens[i]? = some g := by
  rw [listGenerations, h, mem_filterMap]
  constructor
  · rintro ⟨⟨e, content⟩, hmem, heq⟩
    obtain ⟨i, g', rfl, rfl, hg'⟩ := mem_filed.mp hmem
    dsimp only at heq
    split at heq
    · next hle =>
      cases heq
      exact ⟨i, rfl, hle, hg'⟩
    · cases heq
  · rintro ⟨i, rfl, hle, hg⟩
    refine ⟨(i + 1, some g), mem_filed.mpr ⟨i, g, rfl, rfl, hg⟩, ?_⟩
    dsimp only
    rw [if_pos hle]
    rfl

theorem Recorded.current
    (hcurrent : currentGeneration disk = some (epoch, g)) : ∃ i, epoch = i + 1 ∧ epoch ≤ maxListed ∧ gens[i]? = some g :=
  h.mem_list.mp (((foldl_latest (listGenerations disk) none).2 _ hcurrent).1.resolve_left (by simp))

theorem Recorded.current_none (hcurrent : currentGeneration disk = none) : gens = [] := by
  have hnil := ((foldl_latest (listGenerations disk) none).1.mp hcurrent).2
  cases gens with
  | nil => rfl
  | cons g gens =>
    have hmem : (1, g) ∈ listGenerations disk := h.mem_list.mpr ⟨0, rfl, by decide, rfl⟩
    rw [hnil] at hmem
    cases hmem

theorem Recorded.current_last
    (hcurrent : currentGeneration disk = some (epoch, g)) : epoch = gens.length ∨ epoch = maxListed := by
  obtain ⟨i, rfl, hle, hg⟩ := h.current hcurrent
  have hlt := (List.getElem?_eq_some_iff.mp hg).1
  by_cases hlast : i + 1 = gens.length
  · exact .inl hlast
  · right
    by_contra hmax
    have hnext : i + 1 < gens.length := by omega
    have hmem : (i + 1 + 1, gens[i + 1]) ∈ listGenerations disk :=
      h.mem_list.mpr ⟨i + 1, rfl, by omega, getElem?_eq_getElem hnext⟩
    have := ((foldl_latest (listGenerations disk) none).2 _ hcurrent).2.2 _ hmem
    dsimp only at this
    omega

end Recorded

/-! ### What the ledger says in every run -/

def At (s : Store Holder Report) (epoch : ℕ) (g : Generation Holder) : Prop := generationFile s.disk epoch = some (some g)

/-- The generation may be followed by a new holder: its marker is there, or its holder is dead. -/
def Vacant (s : Store Holder Report) (epoch : ℕ) (g : Generation Holder) : Prop :=
  epoch ∈ s.disk.releases ∨ ∃ h, g.holder = some h ∧ h ∈ s.dead

/-- How the generation `g` of an epoch is followed by `g'`. -/
def Follows (s : Store Holder Report) (epoch : ℕ) (g g' : Generation Holder) : Prop :=
  g.purpose ≠ "settled" ∧
    ((∃ now, g' = settlement Holder epoch g.controlToken now) ∨ (g'.settledEpoch = none ∧ Vacant s epoch g))

/-- The generations of a run, in order. -/
structure Ledger (s : Store Holder Report) (gens : List (Generation Holder)) : Prop where
  recorded : Recorded s.disk gens
  first : ∀ g, gens[0]? = some g → g.settledEpoch = none
  follows : ∀ i g g', gens[i]? = some g → gens[i + 1]? = some g' → Follows s (i + 1) g g'

def SettledAt (s : Store Holder Report) (controlEpoch : ℕ) (controlToken : String) : Prop :=
  ∃ epoch g, At s epoch g ∧ settles controlEpoch controlToken g = true

/-- The store in every run. -/
def Inv (s : Store Holder Report) : Prop :=
  (∃ gens, Ledger s gens) ∧ (s.disk.result.isSome = true → ∃ epoch token, SettledAt s epoch token)

/-- Nothing that is on file changes. -/
structure Grows (s s' : Store Holder Report) : Prop where
  files : ∀ epoch content, generationFile s.disk epoch = some content → generationFile s'.disk epoch = some content
  releases : s.disk.releases ⊆ s'.disk.releases
  dead : s.dead ⊆ s'.dead
  result : ∀ r, s.disk.result = some r → s'.disk.result = some r

/-- A record that is about to be installed as a settlement. -/
def Settles (s : Store Holder Report) (controlEpoch : ℕ) (controlToken : String) (epoch : ℕ) (record : Generation Holder) : Prop :=
  epoch = controlEpoch + 1 ∧ ∃ g now, At s controlEpoch g ∧ g.purpose ≠ "settled" ∧ g.controlToken = controlToken ∧
    record = settlement Holder controlEpoch controlToken now

/-- What a settlement knows at each of its steps. -/
def SettlingHolds (s : Store Holder Report) (controlEpoch : ℕ) (controlToken : String) : Settling Holder → Prop
  | .installing epoch record => Settles s controlEpoch controlToken epoch record
  | .done (.settled _) => SettledAt s controlEpoch controlToken
  | _ => True

/-- What a call knows at each of its steps. -/
def Holds (s : Store Holder Report) : Call Holder Report → Prop
  | .acquire _ (.marker epoch g) => At s epoch g ∧ g.purpose ≠ "settled"
  | .acquire _ (.probing epoch g) => At s epoch g ∧ g.purpose ≠ "settled"
  | .acquire _ (.installing epoch record) => record.settledEpoch = none ∧
    (epoch = 1 ∨ ∃ before g, epoch = before + 1 ∧ At s before g ∧ g.purpose ≠ "settled" ∧ Vacant s before g)
  | .settle controlEpoch controlToken phase => SettlingHolds s controlEpoch controlToken phase
  | .commit controlEpoch controlToken _ (.settling phase) => SettlingHolds s controlEpoch controlToken phase
  | .commit controlEpoch controlToken _ (.publishing _) => SettledAt s controlEpoch controlToken
  | .commit _ _ _ .rereading => s.disk.result.isSome = true
  | .commit _ _ _ .marking => s.disk.result.isSome = true
  | .commit _ _ _ .stamping => s.disk.result.isSome = true
  | _ => True

theorem Grows.refl (s : Store Holder Report) : Grows s s :=
  ⟨fun _ _ h => h, List.Subset.refl _, List.Subset.refl _, fun _ h => h⟩

theorem Grows.trans {a b c : Store Holder Report} (h : Grows a b) (h' : Grows b c) : Grows a c :=
  ⟨fun epoch content hat => h'.files epoch content (h.files epoch content hat), List.Subset.trans h.releases h'.releases,
    List.Subset.trans h.dead h'.dead, fun r hr => h'.result r (h.result r hr)⟩

section Grows

variable {s s' : Store Holder Report} (hgrows : Grows s s') {epoch : ℕ} {g : Generation Holder}
include hgrows

theorem At.grows (h : At s epoch g) : At s' epoch g := hgrows.files _ _ h

theorem Vacant.grows (h : Vacant s epoch g) : Vacant s' epoch g := by
  cases h with
  | inl hreleased => exact .inl (hgrows.releases hreleased)
  | inr hdead =>
    obtain ⟨h, hholder, hmem⟩ := hdead
    exact .inr ⟨h, hholder, hgrows.dead hmem⟩

theorem Follows.grows {g' : Generation Holder} (h : Follows s epoch g g') : Follows s' epoch g g' :=
  ⟨h.1, h.2.imp_right fun hnew => ⟨hnew.1, hnew.2.grows hgrows⟩⟩

theorem SettledAt.grows {token : String} (h : SettledAt s epoch token) : SettledAt s' epoch token := by
  obtain ⟨e, g, hat, hsettles⟩ := h
  exact ⟨e, g, hat.grows hgrows, hsettles⟩

theorem result_grows (h : s.disk.result.isSome = true) : s'.disk.result.isSome = true := by
  obtain ⟨r, hr⟩ := isSome_iff_exists.mp h
  rw [hgrows.result r hr]
  rfl

theorem Settles.grows {controlEpoch : ℕ} {controlToken : String} {record : Generation Holder}
    (h : Settles s controlEpoch controlToken epoch record) : Settles s' controlEpoch controlToken epoch record := by
  obtain ⟨hepoch, g, now, hat, hrest⟩ := h
  exact ⟨hepoch, g, now, hat.grows hgrows, hrest⟩

theorem SettlingHolds.grows {token : String} {phase : Settling Holder} (h : SettlingHolds s epoch token phase) :
    SettlingHolds s' epoch token phase := by
  cases phase with
  | installing e record => exact Settles.grows hgrows h
  | reading => trivial
  | done outcome =>
    cases outcome with
    | settled e => exact SettledAt.grows hgrows h
    | _ => trivial

theorem Holds.grows {k : Call Holder Report} (h : Holds s k) : Holds s' k := by
  cases k with
  | acquire args phase =>
    cases phase with
    | marker epoch g | probing epoch g => exact ⟨h.1.grows hgrows, h.2⟩
    | installing epoch record =>
      refine ⟨h.1, h.2.imp_right ?_⟩
      rintro ⟨before, g, hepoch, hat, hpurpose, hvacant⟩
      exact ⟨before, g, hepoch, hat.grows hgrows, hpurpose, hvacant.grows hgrows⟩
    | _ => trivial
  | release epoch token phase => trivial
  | settle epoch token phase => exact SettlingHolds.grows hgrows h
  | commit epoch token r phase =>
    cases phase with
    | settling phase => exact SettlingHolds.grows hgrows h
    | publishing mine => exact SettledAt.grows hgrows h
    | rereading | marking | stamping => exact result_grows hgrows h
    | _ => trivial

end Grows

end Forgent.RunControl
