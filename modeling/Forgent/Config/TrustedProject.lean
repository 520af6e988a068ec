import Forgent.Config.SetTakesEffect

/-!
# Commands come from the trusted file

`trustedProject` replaces one topmost command path after another.

* `headAt_jsonPut`: a replaced path decides what is below it, and above it where the trusted file holds it.
* `headAt_replaced`: in the end each place is as in the trusted file, if a replaced path decides it, or as in the project.
* `commands_from_trusted`: what that makes of command paths, and of paths beside the replaced ones.
-/

namespace Forgent.Config

open List Option

section

variable {schemas : Schemas} {node value project trusted out a b : Json} {p q t c : Path} {tops : List Path}

/-! ### One path replaced -/

theorem Beside.cons (segment : Segment) (h : Beside q p) : Beside (segment :: q) (segment :: p) := by
  obtain ⟨front, a, b, q', p', rfl, rfl, hne⟩ := h
  exact ⟨segment :: front, a, b, q', p', rfl, rfl, hne⟩

theorem Beside.longer (h : Beside q p) (hq : q <+: t) (hp : p <+: c) : Beside t c := by
  obtain ⟨front, a, b, q', p', rfl, rfl, hne⟩ := h
  obtain ⟨more, rfl⟩ := hq
  obtain ⟨rest, rfl⟩ := hp
  exact ⟨front, a, b, q' ++ more, p' ++ rest, by simp, by simp, hne⟩

/-- A path leads to a path of keys or from it, parts with it at two keys, or goes through a list that is above it. -/
theorem prefix_or_parts (hq : KeyPath q) (p : Path) : q <+: p ∨ p <+: q ∨ Beside q p ∨
    ∃ front i, front ++ [.index i] <+: p ∧ front <+: q := by
  induction q generalizing p with
  | nil => exact .inl nil_prefix
  | cons segment q ih =>
    obtain ⟨a, rfl⟩ := hq segment mem_cons_self
    cases p with
    | nil => exact .inr (.inl nil_prefix)
    | cons next p =>
      cases next with
      | index i => exact .inr (.inr (.inr ⟨[], i, cons_prefix_cons.mpr ⟨rfl, nil_prefix⟩, nil_prefix⟩))
      | key b =>
        by_cases hne : a = b
        · subst hne
          rcases ih (forall_mem_cons.mp hq).2 p with h | h | h | ⟨front, i, hp, hin⟩
          · exact .inl (cons_prefix_cons.mpr ⟨rfl, h⟩)
          · exact .inr (.inl (cons_prefix_cons.mpr ⟨rfl, h⟩))
          · exact .inr (.inr (.inl (h.cons _)))
          · exact .inr (.inr (.inr ⟨.key a :: front, i, cons_prefix_cons.mpr ⟨rfl, hp⟩, cons_prefix_cons.mpr ⟨rfl, hin⟩⟩))
        · exact .inr (.inr (.inl ⟨[], a, b, q, p, rfl, rfl, hne⟩))

/-! ### What kind of node is at a place -/

/-- A node without what is below it. -/
def shallow : Json → Json
  | .arr _ => .arr []
  | .obj _ => .obj []
  | node => node

def headAt (value : Json) (path : Path) : Option Json := (jsonAt value path).map shallow

/-- The same value at a path, but for the order of keys. -/
def SameAt (a b : Json) (path : Path) : Prop := ∀ rest, headAt a (path ++ rest) = headAt b (path ++ rest)

theorem headAt_cons (segment : Segment) : headAt node (segment :: p) = (childOf node segment).bind (headAt · p) := by
  rw [headAt, jsonAt, map_bind]
  rfl

theorem shallow_of_isObject (h : isObject node = true) : shallow node = .obj [] := by
  cases node with
  | obj fields => rfl
  | _ => cases h

theorem isObject_of_childOf {key : String} (h : childOf node (.key key) = some value) : isObject node = true := by
  cases node with
  | obj fields => rfl
  | _ => cases h

/-- A value put at a path makes mappings above it, as the trusted file has them. -/
theorem headAt_jsonPut_some (hq : KeyPath q) (hheld : jsonAt trusted q = some value) (hnot : ¬ q <+: p)
    (hbeside : ¬ Beside q p) : headAt (jsonPut node q (some value)) p = headAt trusted p := by
  induction q generalizing node trusted p with
  | nil => exact absurd nil_prefix hnot
  | cons segment q ih =>
    obtain ⟨key, rfl⟩ := hq segment mem_cons_self
    obtain ⟨kid, hkid, hrest⟩ := bind_eq_some_iff.mp hheld
    have hobject := isObject_jsonPut node value key q
    have hobject' := isObject_of_childOf hkid
    cases p with
    | nil => exact congrArg some ((shallow_of_isObject hobject).trans (shallow_of_isObject hobject').symm)
    | cons next p =>
      rw [headAt_cons, headAt_cons]
      cases next with
      | index i => rw [childOf_index_of_isObject hobject, childOf_index_of_isObject hobject']
      | key name =>
        by_cases hname : name = key
        · subst hname
          have hmore : q ≠ [] := fun hnil => hnot (cons_prefix_cons.mpr ⟨rfl, hnil ▸ nil_prefix⟩)
          rw [childOf_jsonPut, if_pos rfl, if_neg hmore, hkid]
          exact ih (forall_mem_cons.mp hq).2 hrest (fun h => hnot (cons_prefix_cons.mpr ⟨rfl, h⟩)) fun h => hbeside (h.cons _)
        · exact absurd ⟨[], key, name, q, p, rfl, rfl, Ne.symm hname⟩ hbeside

theorem headAt_jsonPut_none (hnot : ¬ q <+: p) : headAt (jsonPut node q none) p = headAt node p := by
  induction q generalizing node p with
  | nil => rfl
  | cons segment q ih =>
    cases segment with
    | index i => rfl
    | key key =>
      cases p with
      | nil =>
        cases node with
        | obj fields =>
          cases q with
          | nil =>
            rw [jsonPut, if_neg (by simp [isObject])]
            rfl
          | cons next q =>
            rw [jsonPut_key_none]
            cases fields.lookup key <;> rfl
        | _ => rfl
      | cons next p =>
        rw [headAt_cons, headAt_cons]
        cases next with
        | index i => rw [childOf_index_jsonPut_none]
        | key name =>
          rw [childOf_jsonPut_none]
          by_cases hname : name = key
          · subst hname
            have hmore : q ≠ [] := fun hnil => hnot (cons_prefix_cons.mpr ⟨rfl, hnil ▸ nil_prefix⟩)
            rw [if_pos rfl, if_neg hmore]
            cases childOf node (.key name) with
            | none => rfl
            | some kid => exact ih fun h => hnot (cons_prefix_cons.mpr ⟨rfl, h⟩)
          · rw [if_neg hname]

/-- A replaced path decides a place at or below it, and any other that does not part with it at a key, if it is held. -/
def Decides (trusted : Json) (q p : Path) : Prop := q <+: p ∨ (jsonAt trusted q).isSome = true ∧ ¬ Beside q p

/-- **One path replaced**: each place is as in the trusted file or as it was. -/
theorem headAt_jsonPut (hq : KeyPath q) (hne : q ≠ []) :
    (Decides trusted q p → headAt (jsonPut out q (jsonAt trusted q)) p = headAt trusted p) ∧
      (¬ Decides trusted q p → headAt (jsonPut out q (jsonAt trusted q)) p = headAt out p) := by
  by_cases hin : q <+: p
  · refine ⟨fun _ => ?_, fun h => absurd (.inl hin) h⟩
    obtain ⟨rest, rfl⟩ := hin
    rw [headAt, headAt, jsonAt_append, jsonAt_append, jsonAt_jsonPut _ hne hq]
  · constructor
    · intro h
      obtain ⟨hheld, hbeside⟩ := h.resolve_left hin
      obtain ⟨value, hvalue⟩ := isSome_iff_exists.mp hheld
      rw [hvalue]
      exact headAt_jsonPut_some hq hvalue hin hbeside
    · intro h
      by_cases hbeside : Beside q p
      · rw [headAt, jsonAt_jsonPut_beside hbeside, headAt]
      · have hnone : jsonAt trusted q = none := not_isSome_iff_eq_none.mp fun hheld => h (.inr ⟨hheld, hbeside⟩)
        rw [hnone]
        exact headAt_jsonPut_none hin

/-! ### All the paths -/

/-- **All of them replaced.** -/
theorem headAt_replaced (htops : ∀ q ∈ tops, KeyPath q ∧ q ≠ []) :
    headAt (tops.foldl (fun out top => jsonPut out top (jsonAt trusted top)) out) p =
        headAt trusted p ∧ (∃ q ∈ tops, Decides trusted q p) ∨
      headAt (tops.foldl (fun out top => jsonPut out top (jsonAt trusted top)) out) p =
        headAt out p ∧ ¬ ∃ q ∈ tops, Decides trusted q p := by
  induction tops generalizing out with
  | nil => exact .inr ⟨rfl, fun ⟨_, hmem, _⟩ => absurd hmem not_mem_nil⟩
  | cons q tops ih =>
    obtain ⟨⟨hq, hne⟩, hrest⟩ := forall_mem_cons.mp htops
    obtain ⟨hdecided, hleft⟩ := @headAt_jsonPut trusted out p q hq hne
    rw [exists_mem_cons_iff, foldl_cons]
    rcases ih hrest with ⟨heq, hmore⟩ | ⟨heq, hnone⟩
    · exact .inl ⟨heq, .inr hmore⟩
    · by_cases h : Decides trusted q p
      · exact .inl ⟨heq.trans (hdecided h), .inl h⟩
      · exact .inr ⟨heq.trans (hleft h), not_or.mpr ⟨h, hnone⟩⟩

theorem mem_commandTops : t ∈ commandTops schemas value ↔ ∃ c node,
    (c, node) ∈ descend (fun path _ => !isCommand schemas path) [] value ∧ isCommand schemas c = true ∧ c.takeWhile isKey = t := by
  simp [commandTops, and_assoc]

theorem keyPath_of_mem (h : t ∈ commandTops schemas value) : KeyPath t ∧ t ≠ [] := by
  obtain ⟨c, node, -, hc, rfl⟩ := mem_commandTops.mp h
  refine ⟨fun segment hmem => ?_, ?_⟩
  · cases segment with
    | key name => exact ⟨name, rfl⟩
    | index i => cases mem_takeWhile_imp hmem
  · cases c with
    | nil => cases hc
    | cons segment c =>
      cases segment with
      | key name => simp [takeWhile_cons, isKey]
      | index i => cases hc

/-- A command path that is held is under a top. -/
theorem exists_top (hc : isCommand schemas c = true) (hat : (jsonAt value c).isSome = true) :
    ∃ t ∈ commandTops schemas value, t <+: c := by
  induction hlength : c.length using Nat.strong_induction_on generalizing c with
  | _ n ih =>
    by_cases habove : ∃ front, front <+: c ∧ front ≠ c ∧ isCommand schemas front = true
    · obtain ⟨front, hfront, hne, hcommand⟩ := habove
      have hlt : front.length < n := hlength ▸ lt_of_le_of_ne hfront.length_le fun heq => hne (hfront.eq_of_length heq)
      obtain ⟨t, ht, hin⟩ := ih _ hlt hcommand (by
        obtain ⟨back, rfl⟩ := hfront
        rw [jsonAt_append] at hat
        exact isSome_of_isSome_bind hat) rfl
      exact ⟨t, ht, hin.trans hfront⟩
    · obtain ⟨node, hnode⟩ := isSome_iff_exists.mp hat
      have hne : c ≠ [] := by
        rintro rfl
        cases hc
      refine ⟨c.takeWhile isKey, mem_commandTops.mpr ⟨c, node, mem_descend hnode hne ?_, hc, rfl⟩, takeWhile_prefix _⟩
      rintro front back kid rfl hfront hback -
      rw [nil_append, Bool.not_eq_true', Bool.eq_false_iff]
      exact fun hcommand => habove ⟨front, prefix_append _ _, by simpa using hback, hcommand⟩

/-- The paths that `trustedProject` replaces. -/
def replaced (schemas : Schemas) (project trusted : Json) : List Path := commandTops schemas project ++ commandTops schemas trusted

theorem headAt_trustedProject (schemas : Schemas) (project trusted : Json) (p : Path) :
    headAt (trustedProject schemas project trusted) p =
        headAt trusted p ∧ (∃ q ∈ replaced schemas project trusted, Decides trusted q p) ∨
      headAt (trustedProject schemas project trusted) p =
        headAt project p ∧ ¬ ∃ q ∈ replaced schemas project trusted, Decides trusted q p :=
  headAt_replaced fun _ ht => (mem_append.mp ht).elim keyPath_of_mem keyPath_of_mem

/-- At and below a command path the result is as the trusted file. -/
theorem headAt_command (hc : isCommand schemas c = true) (hin : c <+: p) :
    headAt (trustedProject schemas project trusted) p = headAt trusted p := by
  rcases headAt_trustedProject schemas project trusted p with ⟨heq, -⟩ | ⟨heq, hnone⟩
  · exact heq
  · have hlacks : ∀ {value}, commandTops schemas value ⊆ replaced schemas project trusted → headAt value p = none := by
      intro value htops
      obtain ⟨rest, rfl⟩ := hin
      cases hat : jsonAt value c with
      | none => rw [headAt, jsonAt_append, hat]; rfl
      | some node =>
        obtain ⟨t, ht, hin⟩ := exists_top hc (isSome_iff_exists.mpr ⟨node, hat⟩)
        exact absurd ⟨t, htops ht, .inl (hin.trans (prefix_append _ _))⟩ hnone
    rw [heq, hlacks (subset_append_left _ _), hlacks (subset_append_right _ _)]

/-- Two values differ at most at command paths and below, and hold topmost command paths in the same lists. -/
structure DifferInCommands (schemas : Schemas) (a b : Json) : Prop where
  heads : ∀ p, (∀ c, c <+: p → isCommand schemas c = false) → headAt a p = headAt b p
  lists : ∀ list, isCommand schemas list = false → (list ∈ commandTops schemas a ↔ list ∈ commandTops schemas b)

theorem DifferInCommands.symm (h : DifferInCommands schemas a b) : DifferInCommands schemas b a :=
  ⟨fun p hp => (h.heads p hp).symm, fun list hlist => (h.lists list hlist).symm⟩

/-- What is decided for one of the values is decided for the other. -/
theorem DifferInCommands.decides (h : DifferInCommands schemas a b) (hnone : ∀ c, c <+: p → isCommand schemas c = false)
    (hdecides : ∃ t ∈ replaced schemas a trusted, Decides trusted t p) : ∃ t ∈ replaced schemas b trusted, Decides trusted t p := by
  obtain ⟨t, ht, hdecides⟩ := hdecides
  rcases mem_append.mp ht with hmem | hmem
  · cases hc : isCommand schemas t with
    | false => exact ⟨t, mem_append_left _ ((h.lists t hc).mp hmem), hdecides⟩
    | true =>
      obtain ⟨hheld, hbeside⟩ := hdecides.resolve_left fun hin => by simp [hnone t hin] at hc
      obtain ⟨t', ht', hin⟩ := exists_top hc hheld
      refine ⟨t', mem_append_right _ ht', .inr ⟨?_, fun h => hbeside (h.longer hin (prefix_refl p))⟩⟩
      obtain ⟨rest, rfl⟩ := hin
      rw [jsonAt_append] at hheld
      exact isSome_of_isSome_bind hheld
  · exact ⟨t, mem_append_right _ hmem, hdecides⟩

theorem headAt_differ (h : DifferInCommands schemas a b) (trusted : Json) (p : Path) :
    headAt (trustedProject schemas a trusted) p = headAt (trustedProject schemas b trusted) p := by
  by_cases hcommand : ∃ c, c <+: p ∧ isCommand schemas c = true
  · obtain ⟨c, hin, hc⟩ := hcommand
    rw [headAt_command hc hin, headAt_command hc hin]
  have hnone : ∀ c, c <+: p → isCommand schemas c = false := fun c hin => by
    rw [Bool.eq_false_iff]
    exact fun hc => hcommand ⟨c, hin, hc⟩
  rcases headAt_trustedProject schemas a trusted p with ⟨ha, hdecides⟩ | ⟨ha, hleft⟩ <;>
    rcases headAt_trustedProject schemas b trusted p with ⟨hb, hdecides'⟩ | ⟨hb, hleft'⟩
  · exact ha.trans hb.symm
  · exact absurd (h.decides hnone hdecides) hleft'
  · exact absurd (h.symm.decides hnone hdecides') hleft
  · exact ha.trans ((h.heads p hnone).trans hb.symm)

/-- **Commands come from the trusted file**: it decides at every command path; what the project states there is of no effect;
and the project decides beside the replaced paths, where no list makes way for a mapping. -/
theorem commands_from_trusted (schemas : Schemas) (project trusted : Json) :
    (∀ path, isCommand schemas path = true → SameAt (trustedProject schemas project trusted) trusted path) ∧
    (∀ other, DifferInCommands schemas project other →
      SameAt (trustedProject schemas project trusted) (trustedProject schemas other trusted) []) ∧
    ∀ path, (∀ top ∈ replaced schemas project trusted, ¬ top <+: path ∧ ¬ path <+: top ∧
        ((jsonAt trusted top).isSome = true → ∀ front i, front ++ [.index i] <+: path → ¬ front <+: top)) →
      SameAt (trustedProject schemas project trusted) project path := by
  refine ⟨fun path hc rest => headAt_command hc (prefix_append _ _), fun other h => headAt_differ h trusted, ?_⟩
  intro path hpath rest
  refine ((headAt_trustedProject schemas project trusted _).resolve_left ?_).1
  rintro ⟨-, t, ht, hdecides⟩
  obtain ⟨hnot, habove, hlists⟩ := hpath t ht
  rcases hdecides with hin | ⟨hheld, hbeside⟩
  · have hcase := prefix_or_prefix_of_prefix hin (prefix_append path rest)
    exact hcase.elim hnot habove
  · have hkeys := (mem_append.mp ht).elim keyPath_of_mem keyPath_of_mem
    rcases prefix_or_parts hkeys.1 path with hin | hin | hparts | ⟨front, i, hin, hlist⟩
    · exact hnot hin
    · exact habove hin
    · exact hbeside (hparts.longer (prefix_refl t) (prefix_append path rest))
    · exact hlists hheld front i hin hlist

end

end Forgent.Config
