import Forgent.Config.Merge

/-!
# A layer that passes a path by

When the top layer leads to a path only through mappings that are merged key by key, and ends before it, the merged value
at the path is what the layers beneath merge to.  Beneath the top there may be one layer of which the two merges see
different versions, as long as the versions agree from where the top layer ends.
-/

namespace Forgent.Config

open List

variable {rules : Path → Option MergeRule} {path rest : Path} {top v : Json} {d d' : Option Json} {depth : ℕ}
  {layers : List Json} {q : Path}

/-- The top layer ends before `rest`, behind mappings merged key by key; `d` and `d'` agree from there. -/
def Passes (rules : Path → Option MergeRule) : Path → Json → Option Json → Option Json → Path → Prop
  | _, _, _, _, [] => False
  | path, top, d, d', segment :: rest =>
    isObject top = true ∧ ruleFor rules path top = .deep ∧ (∀ v ∈ d, isObject v = true) ∧ (∀ v ∈ d', isObject v = true) ∧
      match childOf top segment with
      | none => d.bind (childOf · segment) = d'.bind (childOf · segment)
      | some kid => Passes rules (path ++ [segment]) kid (d.bind (childOf · segment)) (d'.bind (childOf · segment)) rest

theorem Passes.alone (h : Passes rules path top d d' rest) : Passes rules path top none none rest := by
  induction rest generalizing path top d d' with
  | nil => exact h
  | cons segment rest ih =>
    obtain ⟨htop, hrule, -, -, h⟩ := h
    refine ⟨htop, hrule, by simp, by simp, ?_⟩
    cases hkid : childOf top segment with
    | none => rfl
    | some kid =>
      rw [hkid] at h
      exact ih h

def nonNull (v : Json) : Bool := v ≠ .null

theorem ne_null_of_isObject (h : isObject v = true) : nonNull v = true := by
  cases v with
  | null => cases h
  | _ => rfl

theorem takeWhile_versions (above under : List Json) (hd : ∀ v ∈ d, isObject v = true)
    (hd' : ∀ v ∈ d', isObject v = true) :
    ∃ above' e e' under', (above ++ d.toList ++ under).takeWhile nonNull = above' ++ e.toList ++ under' ∧
      (above ++ d'.toList ++ under).takeWhile nonNull = above' ++ e'.toList ++ under' ∧
      (e = d ∧ e' = d' ∨ e = none ∧ e' = none) := by
  induction above with
  | nil =>
    refine ⟨[], d, d', under.takeWhile nonNull, ?_, ?_, .inl ⟨rfl, rfl⟩⟩
    · cases d with
      | none => rfl
      | some v => exact takeWhile_cons_of_pos (ne_null_of_isObject (hd v rfl))
    · cases d' with
      | none => rfl
      | some v => exact takeWhile_cons_of_pos (ne_null_of_isObject (hd' v rfl))
  | cons v above ih =>
    by_cases hv : nonNull v = true
    · obtain ⟨above', e, e', under', h, h', hcase⟩ := ih
      refine ⟨v :: above', e, e', under', ?_, ?_, hcase⟩
      · rw [cons_append, cons_append, takeWhile_cons_of_pos hv, h]
        rfl
      · rw [cons_append, cons_append, takeWhile_cons_of_pos hv, h']
        rfl
    · refine ⟨[], none, none, [], ?_, ?_, .inr ⟨rfl, rfl⟩⟩
      · exact takeWhile_cons_of_neg hv
      · exact takeWhile_cons_of_neg hv

theorem holders_append (maps maps' : List Json) (key : String) :
    holders (maps ++ maps') key = holders maps key ++ holders maps' key := filterMap_append

theorem holders_toList (d : Option Json) (key : String) : holders d.toList key = (d.bind (childOf · (.key key))).toList := by
  cases d with
  | none => rfl
  | some v => cases h : childOf v (.key key) <;> simp [holders, h]

theorem holders_cons (v : Json) (maps : List Json) (key : String) :
    holders (v :: maps) key = (childOf v (.key key)).toList ++ holders maps key := by
  cases h : childOf v (.key key) <;> simp [holders, h]

/-- What layers give at a path below their own; no layers give nothing. -/
def Gives (rules : Path → Option MergeRule) (depth : ℕ) (path : Path) (layers : List Json) (rest : Path) (out : Option Json) :
    Prop :=
  if layers = [] then out = none else ∃ merged, mergeNode rules depth path layers = .ok merged ∧ out = jsonAt merged rest

theorem childOf_index_of_isObject (h : isObject v = true) (i : ℕ) : childOf v (.index i) = none := by
  cases v with
  | obj _ => rfl
  | _ => cases h

theorem given_of_maps {depth : ℕ} {path rest : Path} {layers : List Json} {merged : Json} {key : String}
    (hmerged : mergeNode rules (depth + 1) path layers = .ok merged) (hne : layers ≠ [])
    (hdeep : ∀ v, isObject v = true → ruleFor rules path v = .deep)
    (hmaps : ∀ v ∈ layers.takeWhile nonNull, isObject v = true) :
    Gives rules depth (path ++ [.key key]) (holders (layers.takeWhile nonNull) key) rest (jsonAt merged (.key key :: rest)) := by
  cases layers with
  | nil => exact absurd rfl hne
  | cons top below =>
    by_cases htop : nonNull top = true
    · rw [takeWhile_cons_of_pos htop] at hmaps ⊢
      have hobject := hmaps top mem_cons_self
      obtain ⟨-, hmerge⟩ := mergeNode_deep hmerged (hdeep top hobject) hobject
      unfold Gives
      split
      · next hnone =>
        show (childOf merged (.key key)).bind _ = none
        rw [hmerge.absent key hnone]
        rfl
      · next hsome =>
        obtain ⟨kid, hkid, hkidmerge⟩ := hmerge.child key hsome
        refine ⟨kid, hkidmerge, ?_⟩
        show (childOf merged (.key key)).bind _ = _
        rw [hkid]
        rfl
    · have hnull : top = .null := by simpa [nonNull] using htop
      rw [takeWhile_cons_of_neg htop]
      have hwhole : merged = top := mergeNode_whole hmerged (.inr (by rw [hnull]; rfl))
      rw [hwhole, hnull]
      rfl

theorem Gives.unique {out out' : Option Json}
    (h : Gives rules depth path layers rest out) (h' : Gives rules depth path layers rest out') : out = out' := by
  unfold Gives at h h'
  split at h
  · next hnil =>
    rw [if_pos hnil] at h'
    rw [h, h']
  · next hne =>
    rw [if_neg hne] at h'
    obtain ⟨merged, hmerged, rfl⟩ := h
    obtain ⟨merged', hmerged', rfl⟩ := h'
    rw [hmerged] at hmerged'
    rw [Except.ok.inj hmerged']

theorem given_index {merged : Json} {i : ℕ} (hmerged : mergeNode rules (depth + 1) path layers = .ok merged)
    (hdeep : ∀ v, isObject v = true → ruleFor rules path v = .deep)
    (hmaps : ∀ v ∈ layers.takeWhile nonNull, isObject v = true) : jsonAt merged (.index i :: rest) = none := by
  have hnone : childOf merged (.index i) = none := by
    cases layers with
    | nil =>
      obtain rfl : Json.null = merged := Except.ok.inj hmerged
      rfl
    | cons top below =>
      by_cases htop : nonNull top = true
      · rw [takeWhile_cons_of_pos htop] at hmaps
        have hobject := hmaps top mem_cons_self
        exact childOf_index_of_isObject (mergeNode_deep hmerged (hdeep top hobject) hobject).2.object i
      · have hnull : top = .null := by simpa [nonNull] using htop
        have hwhole : merged = top := mergeNode_whole hmerged (.inr (by rw [hnull]; rfl))
        rw [hwhole, hnull]
        rfl
  show (childOf merged (.index i)).bind _ = none
  rw [hnone]
  rfl

/-- What is merged with and without the top layer is the same at a path the top layer passes by.  The induction is on
the path; at each node the versions stay between the same layers, or are masked by a null together. -/
theorem merge_passes {rest : Path} {depth : ℕ} {path : Path} {top merged : Json} {above under : List Json} {d d' out : Option Json}
    (h : Passes rules path top d d' rest)
    (hmerged : mergeNode rules depth path (top :: (above ++ d.toList ++ under)) = .ok merged)
    (hout : Gives rules depth path (above ++ d'.toList ++ under) rest out) : jsonAt merged rest = out := by
  induction rest generalizing depth path top merged above under d d' out with
  | nil => exact h.elim
  | cons segment rest ih =>
    obtain ⟨htop, hrule, hd, hd', h⟩ := h
    cases depth with
    | zero => cases hmerged
    | succ depth =>
      have hdeep : ∀ v, isObject v = true → ruleFor rules path v = .deep := by
        intro v hv
        rw [ruleFor, htop] at hrule
        rw [ruleFor, hv]
        exact hrule
      obtain ⟨above', e, e', under', hcut, hcut', hversions⟩ := takeWhile_versions above under hd hd'
      have htopcut : (top :: (above ++ d.toList ++ under)).takeWhile nonNull =
          top :: (above' ++ e.toList ++ under') := by
        rw [takeWhile_cons_of_pos (ne_null_of_isObject htop), hcut]
      have hobjects := (mergeNode_deep hmerged hrule htop).1
      have hmaps : ∀ v ∈ top :: (above' ++ e.toList ++ under'), isObject v = true := by
        intro v hv
        cases mem_cons.mp hv with
        | inl heq => exact heq ▸ htop
        | inr hmem =>
          apply hobjects v
          rw [← hcut] at hmem
          exact hmem
      have hmaps' : ∀ v ∈ above' ++ e'.toList ++ under', isObject v = true := by
        intro v hv
        simp only [mem_append, Option.mem_toList] at hv
        rcases hv with (hv | hv) | hv
        · exact hmaps v (mem_cons_of_mem _ (by simp [hv]))
        · cases hversions with
          | inl hsame => exact hd' v (hsame.2 ▸ hv)
          | inr hnone =>
            rw [hnone.2] at hv
            cases hv
        · exact hmaps v (mem_cons_of_mem _ (by simp [hv]))
      cases segment with
      | index i =>
        rw [given_index hmerged hdeep (by rwa [htopcut])]
        unfold Gives at hout
        split at hout
        · exact hout.symm
        · obtain ⟨merged', hmerged', rfl⟩ := hout
          exact (given_index hmerged' hdeep (by rwa [hcut'])).symm
      | key key =>
        have hwith := @given_of_maps rules depth path rest _ merged key hmerged (by simp) hdeep (by rwa [htopcut])
        rw [htopcut, holders_cons, holders_append, holders_append, holders_toList] at hwith
        have hwithout : Gives rules depth (path ++ [.key key])
            (holders above' key ++ (e'.bind (childOf · (.key key))).toList ++ holders under' key) rest out := by
          unfold Gives at hout
          split at hout
          · next hnil =>
            rw [hnil] at hcut'
            have hempty : above' ++ e'.toList ++ under' = [] := hcut'.symm
            rw [← holders_toList, ← holders_append, ← holders_append, hempty]
            exact hout
          · next hne =>
            obtain ⟨merged', hmerged', rfl⟩ := hout
            have hgiven := @given_of_maps rules depth path rest _ merged' key hmerged' hne hdeep (by rwa [hcut'])
            rwa [hcut', holders_append, holders_append, holders_toList] at hgiven
        cases hkid : childOf top (.key key) with
        | none =>
          rw [hkid] at h hwith
          have hsame : e.bind (childOf · (.key key)) = e'.bind (childOf · (.key key)) := by
            cases hversions with
            | inl heq => rw [heq.1, heq.2, h]
            | inr hnone => rw [hnone.1, hnone.2]
          rw [hsame] at hwith
          exact hwith.unique hwithout
        | some kid =>
          rw [hkid] at h hwith
          have hpasses : Passes rules (path ++ [.key key]) kid (e.bind (childOf · (.key key)))
              (e'.bind (childOf · (.key key))) rest := by
            cases hversions with
            | inl heq =>
              rw [heq.1, heq.2]
              exact h
            | inr hnone =>
              rw [hnone.1, hnone.2]
              exact h.alone
          obtain ⟨kidmerged, hkidmerged, hjson⟩ : ∃ m, mergeNode rules depth (path ++ [.key key])
              (kid :: (holders above' key ++ (e.bind (childOf · (.key key))).toList ++ holders under' key)) = .ok m ∧
              jsonAt merged (.key key :: rest) = jsonAt m rest := by
            unfold Gives at hwith
            rwa [if_neg (by simp)] at hwith
          rw [hjson]
          exact ih hpasses hkidmerged hwithout

/-! ### Putting values into the versions -/

/-- A value put at a path of a version, which may be missing. -/
def putAt (d : Option Json) : Path → Json → Option Json
  | [], v => some v
  | segment :: rest, v => some (jsonPut (d.getD .null) (segment :: rest) (some v))

theorem bind_childOf_putAt (d : Option Json) (v : Json) (key name : String) (rest : Path) :
    (putAt d (.key key :: rest) v).bind (childOf · (.key name)) =
      if name = key then putAt (d.bind (childOf · (.key key))) rest v else d.bind (childOf · (.key name)) := by
  show childOf (jsonPut (d.getD .null) (.key key :: rest) (some v)) (.key name) = _
  rw [childOf_jsonPut]
  cases d with
  | none | some node => cases rest <;> rfl

theorem isObject_putAt (d : Option Json) (v : Json) (key : String) (rest : Path) :
    ∀ w ∈ putAt d (.key key :: rest) v, isObject w = true := by
  intro w hw
  obtain rfl : jsonPut (d.getD .null) (.key key :: rest) (some v) = w := Option.some.inj hw
  exact isObject_jsonPut _ _ _ _

theorem Passes.put (h : Passes rules path top d d' rest) (hkeys : KeyPath q) (hq : jsonAt top q = none) :
    Passes rules path top (putAt d q v) (putAt d' q v) rest := by
  induction rest generalizing path q top d d' with
  | nil => exact h
  | cons segment rest ih =>
    obtain ⟨htop, hrule, hd, hd', h⟩ := h
    cases q with
    | nil => cases hq
    | cons first q =>
      obtain ⟨key, rfl⟩ := hkeys first mem_cons_self
      refine ⟨htop, hrule, isObject_putAt _ _ _ _, isObject_putAt _ _ _ _, ?_⟩
      cases segment with
      | index i =>
        rw [childOf_index_of_isObject htop]
        show childOf _ _ = childOf _ _
        rw [childOf_index_of_isObject (isObject_jsonPut _ _ _ _), childOf_index_of_isObject (isObject_jsonPut _ _ _ _)]
      | key name =>
        rw [bind_childOf_putAt, bind_childOf_putAt]
        by_cases hname : name = key
        · rw [if_pos hname, if_pos hname]
          subst hname
          cases hkid : childOf top (.key name) with
          | none =>
            rw [hkid] at h
            show putAt (d.bind _) q v = putAt (d'.bind _) q v
            rw [h]
          | some kid =>
            rw [hkid] at h
            apply ih h (forall_mem_cons.mp hkeys).2
            rwa [jsonAt, hkid] at hq
        · rw [if_neg hname, if_neg hname]
          exact h

theorem Passes.put_held (h : Passes rules path top d d' rest) (hkeys : KeyPath q)
    (hq : (jsonAt top q).isSome = true) (hrest : ¬ q <+: rest) :
    Passes rules path top d (putAt d' q v) rest := by
  induction rest generalizing path q top d d' with
  | nil => exact h
  | cons segment rest ih =>
    obtain ⟨htop, hrule, hd, hd', h⟩ := h
    cases q with
    | nil => exact absurd nil_prefix hrest
    | cons first q =>
      obtain ⟨key, rfl⟩ := hkeys first mem_cons_self
      refine ⟨htop, hrule, hd, isObject_putAt _ _ _ _, ?_⟩
      cases segment with
      | index i =>
        rw [childOf_index_of_isObject htop] at h ⊢
        show d.bind _ = childOf _ _
        rw [childOf_index_of_isObject (isObject_jsonPut _ _ _ _)]
        cases d with
        | none => rfl
        | some w => exact childOf_index_of_isObject (hd w rfl) i
      | key name =>
        rw [bind_childOf_putAt]
        by_cases hname : name = key
        · rw [if_pos hname]
          subst hname
          cases hkid : childOf top (.key name) with
          | none =>
            rw [jsonAt, hkid] at hq
            cases hq
          | some kid =>
            rw [hkid] at h
            rw [jsonAt, hkid] at hq
            apply ih h (forall_mem_cons.mp hkeys).2 hq
            intro hprefix
            exact hrest (cons_prefix_cons.mpr ⟨rfl, hprefix⟩)
        · rw [if_neg hname]
          exact h

end Forgent.Config
