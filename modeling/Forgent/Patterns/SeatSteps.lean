import Forgent.Patterns.Seats

/-!
# What the resolver's seats are

Every floor of a reviewed Unit is in its checker plan, and every checker of the plan has a seat: its own where no seats
are declared, and a declared seat of its role otherwise, since the declared checkers take the checkers of the plan one
by one.  Seats that were checked carry no posture, so the resolver never takes them as they are.

* `IsChecker`: a seat is the one of a checker.
* `takeFirst_map`, `assignSeats_checks`: the declared checkers take what the check saw them take.
* `resolveSeats_checks`: every floor has its checker.
-/

namespace Forgent.Patterns

open Json List Option

def IsChecker (name : Json) (seat : Seat) : Prop :=
  ∃ text checker, name = .str text ∧ checkerSeat? text = some checker ∧ seat["role"]? = some (.str checker.role) ∧
    seat["posture"]? = some
      { readOnly := true, forceOutOfProcess := true, verdict := checker.verdict : Posture }.toJson

/-! ### Seats -/

@[simp] theorem seatOf_role (seat role : String) (posture : Posture) :
    (seatOf seat role posture)["role"]? = some (.str role) := by
  rw [seatOf, getElem?_record _ (by show List.Nodup ["seat", "role", "posture"]; decide)]
  rfl

@[simp] theorem seatOf_posture (seat role : String) (posture : Posture) :
    (seatOf seat role posture)["posture"]? = some posture.toJson := by
  rw [seatOf, getElem?_record _ (by show List.Nodup ["seat", "role", "posture"]; decide)]
  rfl

@[simp] theorem withDeclared_role (d : Declared) (base : Seat) : (withDeclared d base)["role"]? = base["role"]? := by
  rw [withDeclared, Fields.getElem?_keep, if_neg (by decide), Fields.getElem?_keep, if_neg (by decide)]

@[simp] theorem withDeclared_posture (d : Declared) (base : Seat) :
    (withDeclared d base)["posture"]? = base["posture"]? := by
  rw [withDeclared, Fields.getElem?_keep, if_neg (by decide), Fields.getElem?_keep, if_neg (by decide)]

variable {name : String} {role : String}

theorem isChecker_withDeclared (hrole : roleOf name = some role) (d : Declared) (seat : String) :
    IsChecker (.str name) (withDeclared d (seatOf seat role (checkerPosture name))) := by
  obtain ⟨checker, hchecker, rfl⟩ := map_eq_some_iff.mp hrole
  refine ⟨name, checker, rfl, hchecker, by simp, ?_⟩
  rw [withDeclared_posture, seatOf_posture, checkerPosture, hchecker]
  rfl

theorem isChecker_seatOf (hrole : roleOf name = some role) (seat : String) :
    IsChecker (.str name) (seatOf seat role (checkerPosture name)) := by
  obtain ⟨checker, hchecker, rfl⟩ := map_eq_some_iff.mp hrole
  refine ⟨name, checker, rfl, hchecker, by simp, ?_⟩
  rw [seatOf_posture, checkerPosture, hchecker]
  rfl

/-! ### Taking the first -/

section

variable {α β : Type} {test : β → Bool} {l rest : List α} {a : α}

theorem takeFirst_map (f : α → β) (l : List α) :
    takeFirst test (l.map f) = (takeFirst (fun a => test (f a)) l).map fun (a, rest) => (f a, rest.map f) := by
  induction l with
  | nil => rfl
  | cons a l ih =>
    rw [map_cons, takeFirst, takeFirst]
    split
    · rfl
    · rw [ih]
      cases takeFirst (fun a => test (f a)) l <;> rfl

theorem mem_of_takeFirst {test : α → Bool} (h : takeFirst test l = some (a, rest)) :
    test a = true ∧ ∀ b ∈ l, b = a ∨ b ∈ rest := by
  induction l generalizing rest with
  | nil => cases h
  | cons c l ih =>
    rw [takeFirst] at h
    split at h
    · next hc =>
      cases h
      exact ⟨hc, fun b hb => mem_cons.mp hb⟩
    · obtain ⟨⟨b, others⟩, htake, heq⟩ := map_eq_some_iff.mp h
      cases heq
      obtain ⟨htest, hmem⟩ := ih htake
      refine ⟨htest, fun b hb => ?_⟩
      rcases mem_cons.mp hb with rfl | hb
      · exact .inr mem_cons_self
      · exact (hmem b hb).imp id fun hmem => mem_cons_of_mem _ hmem

end

/-! ### The checkers of the plan -/

variable {plan : List CheckerPlan} {seats : List Seat} {declared : List Declared}

/-- Where every declared checker took a checker of the plan, each checker that was taken has its seat.  The induction
is on the declared seats; the check and the assignment take the same checker at every step. -/
theorem assignSeats_checks {producerPosture : Posture} {unassigned : List CheckerPlan}
    (htaken : unassignedAfter plan (declared.filter fun d => d.role ≠ "producer") = (unassigned, []))
    (h : assignSeats producerPosture (plan.map (·.seat)) declared = .ok seats) :
    ∀ p ∈ plan, p ∈ unassigned ∨ ∃ seat ∈ seats, IsChecker (.str p.seat) seat := by
  induction declared generalizing plan seats with
  | nil =>
    cases htaken
    exact fun p hp => .inl hp
  | cons d declared ih =>
    rw [assignSeats] at h
    by_cases hrole : d.role = "producer"
    · rw [if_pos hrole] at h
      rw [filter_cons_of_neg (by simp [hrole])] at htaken
      obtain ⟨others, hothers, h⟩ := bind_eq_ok.mp h
      cases h
      intro p hp
      refine (ih htaken hothers p hp).imp id ?_
      rintro ⟨seat, hseat, hchecker⟩
      exact ⟨seat, mem_cons_of_mem _ hseat, hchecker⟩
    · rw [if_neg hrole, takeFirst_map] at h
      rw [filter_cons_of_pos (by simp [hrole]), unassignedAfter] at htaken
      cases htake : takeFirst (fun p : CheckerPlan => decide (roleOf p.seat = some d.role)) plan with
      | none =>
        rw [htake] at htaken
        cases htaken
      | some taken =>
        obtain ⟨q, rest⟩ := taken
        rw [htake] at htaken h
        obtain ⟨others, hothers, h⟩ := bind_eq_ok.mp h
        cases h
        obtain ⟨htest, hmem⟩ := mem_of_takeFirst htake
        intro p hp
        rcases hmem p hp with rfl | hp
        · exact .inr ⟨_, mem_cons_self, isChecker_withDeclared (of_decide_eq_true htest) d d.seat⟩
        · refine (ih htaken hothers p hp).imp id ?_
          rintro ⟨seat, hseat, hchecker⟩
          exact ⟨seat, mem_cons_of_mem _ hseat, hchecker⟩

theorem mem_addChecker {seat contribution : String} :
    name ∈ (addChecker plan seat contribution).map (·.seat) ↔ name = seat ∨ name ∈ plan.map (·.seat) := by
  rw [addChecker]
  split
  · next hany =>
    have hnames : (plan.map fun p => if p.seat = seat ∧ contribution ∉ p.contributions then
        { p with contributions := p.contributions ++ [contribution] } else p).map (·.seat) = plan.map (·.seat) := by
      rw [List.map_map]
      refine map_congr_left fun p _ => ?_
      show (if _ then _ else p : CheckerPlan).seat = p.seat
      split <;> rfl
    rw [hnames]
    constructor
    · exact .inr
    · rintro (rfl | h)
      · obtain ⟨p, hp, heq⟩ := List.any_eq_true.mp hany
        exact List.mem_map.mpr ⟨p, hp, of_decide_eq_true heq⟩
      · exact h
  · rw [map_append, mem_append, map_singleton, mem_singleton]
    exact or_comm

theorem mem_foldl_addChecker {named : List (String × String)} :
    name ∈ (named.foldl (fun plan c => addChecker plan c.1 c.2) plan).map (·.seat) ↔
      name ∈ named.map Prod.fst ∨ name ∈ plan.map (·.seat) := by
  induction named generalizing plan with
  | nil => simp
  | cons c named ih =>
    rw [foldl_cons, ih, mem_addChecker, map_cons, mem_cons]
    exact or_left_comm.trans or_assoc.symm

theorem asChecker_eq_ok {v : Json} (h : asChecker v = .ok name) :
    v = .str name ∧ (checkerSeat? name).isSome = true := by
  cases v with
  | str s =>
    rw [asChecker] at h
    split at h
    · next hs =>
      cases h
      exact ⟨rfl, hs⟩
    · cases h
  | _ => cases h

section

variable {staffing : Staffing} {unit : UnitParts} {floors : List Floor} {requested : Option Json} {slot : Option String}
  {plan : List CheckerPlan}

/-- **The checker plan.**  Every name is that of a checker, and every floor is there. -/
theorem checkerPlanOf_floors (h : checkerPlanOf staffing unit floors requested slot = .ok plan) :
    (∀ p ∈ plan, (checkerSeat? p.seat).isSome = true) ∧ ∀ floor ∈ floors, ∃ p ∈ plan, floor.name = .str p.seat := by
  rw [checkerPlanOf] at h
  obtain ⟨contributions, hcontributions, h⟩ := bind_eq_ok.mp h
  obtain ⟨named, hnamed, h⟩ := bind_eq_ok.mp h
  cases h
  have hpairs := forall₂_of_mapM_ok hnamed
  have hname : ∀ name, name ∈ (named.foldl (fun plan c => addChecker plan c.1 c.2) []).map (·.seat) ↔
      name ∈ named.map Prod.fst := by
    intro name
    rw [mem_foldl_addChecker, map_nil]
    simp
  constructor
  · intro p hp
    obtain ⟨c, hc, hseat⟩ := List.mem_map.mp ((hname p.seat).mp (List.mem_map.mpr ⟨p, hp, rfl⟩))
    obtain ⟨v, -, hv⟩ := exists_mem_of_forall₂_flip hpairs c hc
    obtain ⟨name, hchecker, hv⟩ := bind_eq_ok.mp hv
    cases hv
    rw [← hseat]
    exact (asChecker_eq_ok hchecker).2
  · intro floor hfloor
    have hmem : (floor.name, "pattern-invariant:" ++ floor.source) ∈ contributions := by
      rw [contributionsOf] at hcontributions
      obtain ⟨rigor, -, hcontributions⟩ := bind_eq_ok.mp hcontributions
      cases hrow : rigorRow staffing rigor with
      | none =>
        rw [hrow] at hcontributions
        cases hcontributions
      | some row =>
        rw [hrow] at hcontributions
        cases hcontributions
        exact mem_append_left _ (mem_append_right _ (List.mem_map.mpr ⟨floor, hfloor, rfl⟩))
    obtain ⟨c, hc, hv⟩ := exists_mem_of_forall₂ hpairs _ hmem
    obtain ⟨name, hchecker, hv⟩ := bind_eq_ok.mp hv
    cases hv
    obtain ⟨p, hp, hseat⟩ := List.mem_map.mp ((hname name).mpr (List.mem_map.mpr ⟨_, hc, rfl⟩))
    exact ⟨p, hp, by rw [hseat]; exact (asChecker_eq_ok hchecker).1⟩

end

/-! ### The seats -/

theorem check_eq_ok {ok : Bool} {code : Code} {u : Unit} : check ok code = .ok u ↔ ok = true := by
  cases ok with
  | false => exact ⟨fun h => (nomatch h), fun h => (nomatch h)⟩
  | true => exact ⟨fun _ => rfl, fun _ => rfl⟩

variable {input : SeatInput}

theorem reviewedSeats_checks {declared : Option (List Declared)} (h : reviewedSeats input declared = .ok seats) :
    ∀ floor ∈ input.floors, ∃ seat ∈ seats, IsChecker floor.name seat := by
  rw [reviewedSeats] at h
  obtain ⟨plan, hplan, h⟩ := bind_eq_ok.mp h
  obtain ⟨hknown, hfloors⟩ := checkerPlanOf_floors hplan
  have hcover : ∀ p ∈ plan, ∃ seat ∈ seats, IsChecker (.str p.seat) seat := by
    cases declared with
    | none =>
      cases h
      intro p hp
      obtain ⟨checker, hchecker⟩ := isSome_iff_exists.mp (hknown p hp)
      have hrole : roleOf p.seat = some checker.role := by rw [roleOf, hchecker]; rfl
      refine ⟨_, mem_cons_of_mem _ (List.mem_map.mpr ⟨p.seat, List.mem_map.mpr ⟨p, hp, rfl⟩, rfl⟩), ?_⟩
      rw [hrole]
      exact isChecker_seatOf hrole p.seat
    | some declared =>
      obtain ⟨_, -, h⟩ := bind_eq_ok.mp h
      obtain ⟨_, htaken, h⟩ := bind_eq_ok.mp h
      rw [check_eq_ok, Bool.and_eq_true, List.isEmpty_iff, List.isEmpty_iff] at htaken
      intro p hp
      refine (assignSeats_checks (Prod.ext htaken.1 htaken.2) h p hp).resolve_left ?_
      simp
  intro floor hfloor
  obtain ⟨p, hp, hname⟩ := hfloors floor hfloor
  rw [hname]
  exact hcover p hp

/-! ### Checked seats carry no posture -/

theorem checkDeclaredSeat_posture {seen : List String} {entry : Json} {declared : Declared}
    (h : checkDeclaredSeat seen entry = .ok declared) : entry.field "posture" = none := by
  rw [checkDeclaredSeat] at h
  obtain ⟨_, hplain, h⟩ := bind_eq_ok.mp h
  obtain ⟨_, hkeys, -⟩ := bind_eq_ok.mp h
  rw [check_eq_ok, List.all_eq_true] at hkeys
  cases entry with
  | obj fields =>
    by_contra hposture
    have hmem : "posture" ∈ keysOf (some (.obj fields)) := by
      rw [keysOf, Std.ExtTreeMap.mem_keys, Std.ExtTreeMap.mem_iff_isSome_getElem?, getElem?_spread_obj]
      exact isSome_iff_ne_none.mpr hposture
    have := hkeys _ hmem
    revert this
    decide
  | _ => rfl

theorem givenSeats_of_checked {raw : Json} (h : checkDeclaredSeats raw = .ok declared) :
    givenSeats (some raw) = none := by
  cases raw with
  | arr items =>
    cases items with
    | nil => cases h
    | cons entry rest =>
      obtain ⟨d, hd, -⟩ := bind_eq_ok.mp h
      have hposture := checkDeclaredSeat_posture hd
      rw [givenSeats, if_neg]
      rintro ⟨-, hall⟩
      rw [all_cons, hposture] at hall
      cases hall
  | _ => rfl

/-- **The seats of a reviewed Unit.**  Where the seats that are declared were checked, every floor has its checker. -/
theorem resolveSeats_checks (hloop : input.loop = some .reviewed)
    (hraw : ∀ raw, (input.params["seats"]?).or input.unit.seats = some raw → ∃ declared, checkDeclaredSeats raw = .ok declared)
    (h : resolveSeats input = .ok seats) : ∀ floor ∈ input.floors, ∃ seat ∈ seats, IsChecker floor.name seat := by
  unfold resolveSeats at h
  cases hseats : (input.params["seats"]?).or input.unit.seats with
  | none =>
    rw [hseats, hloop] at h
    have hseated : reviewedSeats input none = .ok seats := h
    exact reviewedSeats_checks hseated
  | some raw =>
    obtain ⟨declared, hdeclared⟩ := hraw raw hseats
    have hgiven := givenSeats_of_checked hdeclared
    rw [hseats, hloop] at h
    dsimp only at h
    rw [hgiven, hdeclared] at h
    have hseated : reviewedSeats input (some declared) = .ok seats := h
    exact reviewedSeats_checks hseated

end Forgent.Patterns
