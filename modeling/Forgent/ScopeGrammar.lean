import Forgent.WriteScopeAgree

/-!
# What the git side lets into a scope

The paths a scope matches, in the words of its grammar: an entry without a star stands for what lies beneath it, one
with a star for the paths it derives as a whole.

* `canonicalize_fixed`: a spelling is its own spelling.
* `matches_exact`: the paths that match.
-/

namespace Forgent.GitWriteScope

open List

open Wildcard (Matches)
open WriteScope (Fits pathPattern pathSegmentsOf enclosed_iff)

/-! ### A spelling is its own spelling -/

theorem squeeze_squeeze (before : Option Text) (all : List Text) : squeeze before (squeeze before all) = squeeze before all := by
  induction all generalizing before with
  | nil => rfl
  | cons segment all ih =>
    rw [squeeze]
    split
    · next hskip =>
      rw [hskip.2, ← hskip.1]
      exact ih _
    · next hkeep => rw [squeeze, if_neg hkeep, ih]

variable {trimmed : Text} {parts : List Text}

theorem mem_partsOf {part : Text} (h : part ∈ partsOf trimmed) : part ∈ splitSlash trimmed ∧ part ≠ [] ∧ part ≠ dot := by
  have hmem := (foldl_pushPart_sublist _ []).subset h
  simpa using mem_filter.mp hmem

theorem partsOf_joinSlash (hne : partsOf trimmed ≠ []) : partsOf (joinSlash (partsOf trimmed)) = partsOf trimmed := by
  have hsplit : splitSlash (joinSlash (partsOf trimmed)) = partsOf trimmed :=
    WriteScope.splitSlash_joinSlash (fun part hpart => mem_splitSlash (mem_partsOf hpart).1) hne
  have hkept : (partsOf trimmed).filter (fun s => s != [] && s != dot) = partsOf trimmed := by
    rw [List.filter_eq_self]
    intro part hpart
    simpa using (mem_partsOf hpart).2
  have hsqueeze (l : List Text) : l.foldl pushPart [] = squeeze none l := foldl_pushPart l [] none (by simp)
  rw [partsOf, hsplit, hkept, hsqueeze, partsOf, hsqueeze, squeeze_squeeze]

theorem readParts_joinSlash (h : readParts trimmed = .ok parts) : readParts (joinSlash parts) = .ok parts := by
  have hsub : (joinSlash parts).Sublist trimmed := by
    have hjoin := joinSlash_sublist (readParts_sublist h)
    rwa [joinSlash_splitSlash] at hjoin
  unfold readParts at h ⊢
  simp only at h ⊢
  repeat' split at h
  all_goals cases h
  next hbad hempty hparent hmagic hloose =>
    have hhead : (joinSlash (partsOf trimmed)).head? ≠ some '/' := by
      obtain ⟨first, rest, hparts⟩ := exists_cons_of_ne_nil hempty
      obtain ⟨hsplit, hfirst, _⟩ := mem_partsOf (hparts ▸ mem_cons_self : first ∈ partsOf trimmed)
      obtain ⟨c, text, rfl⟩ := exists_cons_of_ne_nil hfirst
      intro hslash
      have hc : c = '/' := by
        rw [hparts] at hslash
        cases rest with
        | nil => simpa [joinSlash] using hslash
        | cons second rest =>
          rw [joinSlash, intercalate_cons_of_ne_nil (cons_ne_nil second rest)] at hslash
          simpa using hslash
      exact mem_splitSlash hsplit (hc ▸ mem_cons_self)
    rw [if_neg hhead, if_neg fun hmem => hbad (hmem.imp (hsub.subset ·) (hsub.subset ·)), partsOf_joinSlash hempty, if_neg hempty,
      if_neg hparent, if_neg hmagic, if_neg hloose]

theorem canonicalizeLoop_eq_ok {raw value result : Text} (h : canonicalizeLoop raw value = .ok result) :
    ∃ trimmed parts, readParts trimmed = .ok parts ∧ result = joinSlash parts ∧ result = trimMatches result := by
  induction hlength : value.length using Nat.strong_induction_on generalizing value with
  | _ n ih =>
    cases hread : readParts (trimMatches value) with
    | error why =>
      rw [canonicalizeLoop_error hread] at h
      cases h
    | ok parts =>
      rw [canonicalizeLoop_ok hread] at h
      split at h
      · next hfix =>
        obtain rfl := Except.ok.inj h
        exact ⟨_, parts, hread, rfl, hfix⟩
      · next hfix => exact ih _ (hlength ▸ loop_lt hread hfix) h rfl

/-- **A spelling is its own spelling.** -/
theorem canonicalize_fixed {raw entry : String} (h : canonicalize raw = .ok entry) : canonicalize entry = .ok entry := by
  cases hloop : canonicalizeLoop raw.toList raw.toList with
  | error err =>
    rw [canonicalize, hloop] at h
    cases h
  | ok result =>
    rw [canonicalize, hloop] at h
    obtain rfl := Except.ok.inj h
    obtain ⟨trimmed, parts, hread, rfl, hfix⟩ := canonicalizeLoop_eq_ok hloop
    have hagain : readParts (trimMatches (joinSlash parts)) = .ok parts := hfix ▸ readParts_joinSlash hread
    rw [canonicalize, String.toList_ofList, canonicalizeLoop_ok hagain, if_pos hfix]
    rfl

/-! ### What an entry stands for -/

/-- An entry without a star stands for what lies beneath it, one with a star for the paths it derives. -/
def Grants (entry : Text) (parts : List Text) : Prop :=
  if hasGlob entry then Matches Fits (pathPattern (splitSlash entry)) parts else splitSlash entry <+: parts

/-- A path of the repository, outside of the store. -/
structure Inside (path : String) : Prop where
  relative : path.toList.head? ≠ some '/'
  plain : ¬('\\' ∈ path.toList ∨ '\x00' ∈ path.toList)
  below : dotDot ∉ pathSegmentsOf path
  outOfStore : (pathSegmentsOf path).head? ≠ some storeDir

theorem covers_iff_grants {entry : Text} (hslash : ∀ part ∈ parts, '/' ∉ part) (hparts : parts ≠ []) :
    (if hasGlob entry then glob (splitSlash entry) parts
      else joinSlash parts = entry || (entry ++ slash).isPrefixOf (joinSlash parts)) = true ↔ Grants entry parts := by
  rw [Grants]
  cases hasGlob entry with
  | true => exact glob_iff
  | false => simpa using enclosed_iff hslash hparts

/-- Some entry stands for the path, and every entry in front of it can be read. -/
def GrantedBy (scope : List String) (parts : List Text) : Prop :=
  ∃ before raw after entry, scope = before ++ raw :: after ∧ (∀ earlier ∈ before, (canonicalize earlier).isOk = true) ∧
    canonicalize raw = .ok entry ∧ Grants entry.toList parts

theorem grantedBy_cons {raw : String} {scope : List String} : GrantedBy (raw :: scope) parts ↔
    ∃ entry, canonicalize raw = .ok entry ∧ (Grants entry.toList parts ∨ GrantedBy scope parts) := by
  constructor
  · rintro ⟨before, found, after, entry, hscope, hbefore, hentry, hgrants⟩
    cases before with
    | nil =>
      cases hscope
      exact ⟨entry, hentry, .inl hgrants⟩
    | cons first before =>
      cases hscope
      obtain ⟨hfirst, hbefore⟩ := forall_mem_cons.mp hbefore
      cases hraw : canonicalize raw with
      | error err =>
        rw [hraw] at hfirst
        cases hfirst
      | ok spelled => exact ⟨spelled, rfl, .inr ⟨before, found, after, entry, rfl, hbefore, hentry, hgrants⟩⟩
  · rintro ⟨entry, hraw, hgrants | ⟨before, found, after, other, rfl, hbefore, hother, hgrants⟩⟩
    · exact ⟨[], raw, scope, entry, rfl, by simp, hraw, hgrants⟩
    · refine ⟨raw :: before, found, after, other, rfl, forall_mem_cons.mpr ⟨?_, hbefore⟩, hother, hgrants⟩
      rw [hraw]
      rfl

theorem matchesAny_iff (hslash : ∀ part ∈ parts, '/' ∉ part) (hparts : parts ≠ []) (scope : List String) :
    matchesAny parts scope = .ok true ↔ GrantedBy scope parts := by
  induction scope with
  | nil => simp [matchesAny, GrantedBy]
  | cons raw scope ih =>
    rw [grantedBy_cons, matchesAny]
    cases canonicalize raw with
    | error err => simp
    | ok entry =>
      simp only [Except.ok.injEq, exists_eq_left']
      by_cases hgrants : Grants entry.toList parts
      · rw [if_pos ((covers_iff_grants hslash hparts).mpr hgrants)]
        exact iff_of_true rfl (.inl hgrants)
      · rw [if_neg (mt (covers_iff_grants hslash hparts).mp hgrants), ih, or_iff_right hgrants]

theorem matchesPath_toByteArray (path : String) (scope : List String) : matchesPath path.toByteArray scope =
    if path.toList.head? = some '/' ∨ '\\' ∈ path.toList ∨ '\x00' ∈ path.toList then .ok false
    else if pathSegmentsOf path = [] ∨ dotDot ∈ pathSegmentsOf path ∨ (pathSegmentsOf path).head? = some storeDir then .ok false
    else matchesAny (pathSegmentsOf path) scope := by
  have hpath : String.fromUTF8? path.toByteArray = some path := by
    rw [String.fromUTF8?, dif_pos path.isValidUTF8]
    rfl
  rw [matchesPath, pathText, hpath]
  rfl

/-- **A scope matches the paths of its grammar**, unless an entry in front cannot be read; and an entry and its spelling
match the same paths. -/
theorem matches_exact (scope : List String) : (∀ path : String, matchesPath path.toByteArray scope = .ok true ↔
      Inside path ∧ pathSegmentsOf path ≠ [] ∧ GrantedBy scope (pathSegmentsOf path)) ∧
    ∀ raw entry, canonicalize raw = .ok entry → canonicalize entry = .ok entry ∧
      ∀ path : ByteArray, matchesPath path [entry] = matchesPath path [raw] := by
  constructor
  · intro path
    rw [matchesPath_toByteArray]
    split
    · next hbad => simpa using fun hinside : Inside path => absurd hbad (not_or.mpr ⟨hinside.relative, hinside.plain⟩)
    · next hgood =>
      obtain ⟨hrelative, hplain⟩ := not_or.mp hgood
      split
      · next hout =>
        constructor
        · intro h
          cases h
        · rintro ⟨hinside, hne, _⟩
          rcases hout with hout | hout | hout
          · exact absurd hout hne
          · exact absurd hout hinside.below
          · exact absurd hout hinside.outOfStore
      · next hin =>
        obtain ⟨hne, hbelow, hstore⟩ := by simpa only [not_or] using hin
        have hslash : ∀ part ∈ pathSegmentsOf path, '/' ∉ part := fun part hpart => mem_splitSlash (mem_of_mem_filter hpart)
        rw [matchesAny_iff hslash hne]
        exact ⟨fun h => ⟨⟨hrelative, hplain, hbelow, hstore⟩, hne, h⟩, fun h => h.2.2⟩
  · intro raw entry h
    refine ⟨canonicalize_fixed h, fun path => ?_⟩
    have hany (parts : List Text) : matchesAny parts [entry] = matchesAny parts [raw] := by
      simp only [matchesAny, h, canonicalize_fixed h]
    simp only [matchesPath, hany]

/-- The root of the repository is no path a scope matches, though two stars derive it; and an entry that cannot be read
hides the ones behind it. -/
theorem matches_exact_counterexample :
    (matchesPath ".".toByteArray ["**"] = .ok false ∧ Inside "." ∧ canonicalize "**" = .ok "**" ∧
      Grants "**".toList (pathSegmentsOf ".")) ∧
    ((∃ err, matchesPath "src/a".toByteArray ["/", "src"] = .error err) ∧ Inside "src/a" ∧ canonicalize "src" = .ok "src" ∧
      Grants "src".toList (pathSegmentsOf "src/a")) := by
  have hstars : readParts (trimMatches "**".toList) = .ok ["**".toList] := by decide
  have hsrc : readParts (trimMatches "src".toList) = .ok ["src".toList] := by decide
  have hroot : readParts (trimMatches "/".toList) = .error .absolute := by decide
  refine ⟨⟨?_, ⟨by decide, by decide, by decide, by decide⟩, ?_, ?_⟩, ⟨⟨none, .absolute, asBytes "/".toList⟩, ?_⟩,
    ⟨by decide, by decide, by decide, by decide⟩, ?_, ?_⟩
  · rw [matchesPath_toByteArray]
    decide
  · rw [canonicalize, canonicalizeLoop_ok hstars]
    rfl
  · exact .skip .nil
  · rw [matchesPath_toByteArray, if_neg (by decide), if_neg (by decide), matchesAny, canonicalize, canonicalizeLoop_error hroot]
    rfl
  · rw [canonicalize, canonicalizeLoop_ok hsrc]
    rfl
  · exact ⟨["a".toList], rfl⟩

/-- `./src//**` is spelled `src/**`, which matches the same paths. -/
theorem matches_exact_spelled : canonicalize "src/**" = .ok "src/**" ∧
    ∀ path : ByteArray, matchesPath path ["src/**"] = matchesPath path ["./src//**"] := by
  have hread : readParts (trimMatches "./src//**".toList) = .ok ["src".toList, "**".toList] := by decide
  refine (matches_exact []).2 "./src//**" "src/**" ?_
  rw [canonicalize, canonicalizeLoop_ok hread]
  rfl

end Forgent.GitWriteScope
