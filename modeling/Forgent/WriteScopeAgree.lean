import Forgent.WriteScopeDisjoint

/-!
# The two readers of a write scope agree

Entry by entry both readers come to the same spelling after the same number of rounds, or refuse for the same reason;
from this the lists, the answers about paths and the expanded scopes are the same.
-/

namespace Forgent

open List

open WriteScope (WriteScopeError canonicalizeText canonicalizeWriteEntry canonicalizeWrites canonicalizeFrom
  matchesWriteScope expandGenerated GeneratedPath)
open GitWriteScope (ScopeError canonicalizeLoop canonicalize canonicalizeAll canonicalizeEach matchesPath expand)

/-- The reason the git side gives where the JavaScript reader gives this one. -/
def counterpart : WriteScope.Why → Option GitWriteScope.Why
  | .notArray | .notString => none
  | .absolute => some .absolute
  | .badCharacter => some .badCharacter
  | .noPath => some .noPath
  | .parent => some .parent
  | .magic => some .magic
  | .looseDoubleStar _ => some .looseDoubleStar

/-- Results that correspond, or a refusal of the same entry for the same reason. -/
def Alike {α β : Type} (same : α → β → Prop) (js : Except WriteScopeError α) (git : Except ScopeError β) : Prop :=
  match js, git with
  | .ok a, .ok b => same a b
  | .error err, .error err' => err.index = err'.index ∧ counterpart err.why = some err'.why
  | _, _ => False

variable {α β : Type} {js : Except WriteScopeError α} {git : Except ScopeError β}

theorem Alike.cases {same : α → β → Prop}
    (h : Alike same js git) : (∃ a b, js = .ok a ∧ git = .ok b ∧ same a b) ∨
      ∃ err err', js = .error err ∧ git = .error err' ∧ err.index = err'.index ∧ counterpart err.why = some err'.why := by
  cases js with
  | error err =>
    cases git with
    | error err' => exact .inr ⟨err, err', rfl, rfl, h⟩
    | ok b => exact h.elim
  | ok a =>
    cases git with
    | error err' => exact h.elim
    | ok b => exact .inl ⟨a, b, rfl, rfl, h⟩

theorem Alike.bind {γ δ : Type} {same : α → β → Prop} {same' : γ → δ → Prop} {f : α → Except WriteScopeError γ} {g : β → Except ScopeError δ} (h : Alike same js git)
    (hnext : ∀ a b, same a b → Alike same' (f a) (g b)) : Alike same' (js >>= f) (git >>= g) := by
  rcases h.cases with ⟨a, b, rfl, rfl, hsame⟩ | ⟨err, err', rfl, rfl, herr⟩
  · exact hnext a b hsame
  · exact herr

theorem Alike.map {γ δ : Type} {same : α → β → Prop} {same' : γ → δ → Prop} {f : α → γ} {g : β → δ} (h : Alike same js git) (hnext : ∀ a b, same a b → same' (f a) (g b)) :
    Alike same' (js.map f) (git.map g) := by
  rcases h.cases with ⟨a, b, rfl, rfl, hsame⟩ | ⟨err, err', rfl, rfl, herr⟩
  · exact hnext a b hsame
  · exact herr

/-! ### One spelling -/

theorem space_eq (c : Char) : GitWriteScope.space c = (WriteScope.isWhiteSpace c || WriteScope.isLineTerminator c) := by
  rw [Bool.eq_iff_iff]
  simp only [GitWriteScope.space, WriteScope.isWhiteSpace, WriteScope.isLineTerminator, Bool.or_eq_true, Bool.and_eq_true,
    decide_eq_true_eq, mem_cons, not_mem_nil, or_false]
  omega

theorem trimMatches_eq : GitWriteScope.trimMatches = WriteScope.trim := by
  funext text
  show trimBy GitWriteScope.space text = trimBy _ text
  rw [show GitWriteScope.space = _ from funext space_eq]

/-- The segments without repeated double stars; `before` is the segment in front. -/
def squeeze (before : Option Text) : List Text → List Text
  | [] => []
  | segment :: rest =>
    if segment = doubleStar ∧ before = some doubleStar then squeeze (some segment) rest
    else segment :: squeeze (some segment) rest

theorem withoutRepeats_eq (all : List Text) : WriteScope.withoutRepeats all = squeeze none all := by
  have h : ∀ (rest : List Text) (k : ℕ), all.drop k = rest →
      ((rest.zipIdx k).filter fun entry =>
        !(entry.1 == doubleStar && (if entry.2 = 0 then none else all[entry.2 - 1]?) == some doubleStar)).map Prod.fst =
        squeeze (if k = 0 then none else all[k - 1]?) rest := by
    intro rest
    induction rest with
    | nil =>
      intro k _
      rfl
    | cons segment rest ih =>
      intro k hdrop
      have hget : all[k]? = some segment := by
        have hhead := congrArg List.head? hdrop
        rwa [head?_drop] at hhead
      have hrest : all.drop (k + 1) = rest := by rw [← tail_drop, hdrop, tail_cons]
      have hih := ih (k + 1) hrest
      rw [if_neg (Nat.succ_ne_zero k), Nat.add_sub_cancel, hget] at hih
      rw [zipIdx_cons, squeeze, ← hih, filter_cons]
      by_cases hskip : segment = doubleStar ∧ (if k = 0 then none else all[k - 1]?) = some doubleStar
      · rw [if_pos hskip, if_neg]
        simpa using hskip
      · rw [if_neg hskip, if_pos]
        · rfl
        · rw [not_and_or] at hskip
          simpa using hskip
  exact h all 0 rfl

theorem foldl_pushPart (all : List Text) (parts : List Text) (before : Option Text)
    (hbefore : parts.getLast? = some doubleStar ↔ before = some doubleStar) :
    all.foldl GitWriteScope.pushPart parts = parts ++ squeeze before all := by
  induction all generalizing parts before with
  | nil => exact (append_nil parts).symm
  | cons part all ih =>
    have hpush : GitWriteScope.pushPart parts part =
        if part = doubleStar ∧ before = some doubleStar then parts else parts ++ [part] :=
      if_congr (and_congr_right' hbefore) rfl rfl
    rw [foldl_cons, squeeze, hpush]
    by_cases hskip : part = doubleStar ∧ before = some doubleStar
    · rw [if_pos hskip, if_pos hskip]
      apply ih
      rw [hbefore, hskip.1, hskip.2]
    · rw [if_neg hskip, if_neg hskip, ih _ (some part), append_assoc]
      · rfl
      · rw [getLast?_append, getLast?_singleton, Option.some_or]

theorem partsOf_eq (trimmed : Text) : GitWriteScope.partsOf trimmed = WriteScope.segmentsOf trimmed := by
  rw [GitWriteScope.partsOf, foldl_pushPart _ [] none (by simp), WriteScope.segmentsOf, withoutRepeats_eq]
  rfl

theorem readSegments_alike (trimmed : Text) :
    match WriteScope.readSegments trimmed, GitWriteScope.readParts trimmed with
    | .ok segments, .ok parts => segments = parts
    | .error why, .error why' => counterpart why = some why'
    | _, _ => False := by
  unfold WriteScope.readSegments GitWriteScope.readParts
  simp only [partsOf_eq]
  by_cases habsolute : trimmed.head? = some '/'
  · simp [habsolute, counterpart]
  by_cases hbad : '\\' ∈ trimmed ∨ '\x00' ∈ trimmed
  · simp [habsolute, hbad, counterpart]
  simp only [habsolute, hbad, if_false]
  by_cases hempty : WriteScope.segmentsOf trimmed = []
  · simp [hempty, counterpart]
  by_cases hparent : dotDot ∈ WriteScope.segmentsOf trimmed
  · simp [hempty, hparent, counterpart]
  by_cases hmagic : (WriteScope.segmentsOf trimmed).head?.bind List.head? = some ':'
  · simp only [hempty, hparent, hmagic, if_true, if_false, counterpart]
  simp only [hempty, hparent, hmagic, if_false]
  cases hloose : (WriteScope.segmentsOf trimmed).find? looseDoubleStar with
  | none =>
    have hany : (WriteScope.segmentsOf trimmed).any looseDoubleStar = false := by
      rw [List.any_eq_false]
      exact find?_eq_none.mp hloose
    simp [hany]
  | some segment =>
    have hany : (WriteScope.segmentsOf trimmed).any looseDoubleStar = true :=
      List.any_eq_true.mpr ⟨segment, mem_of_find?_eq_some hloose, find?_some hloose⟩
    simp [hany, counterpart]

theorem canonicalizeText_alike (raw value : Text) : Alike Eq (canonicalizeText value) (canonicalizeLoop raw value) := by
  induction hlength : value.length using Nat.strong_induction_on generalizing value with
  | _ n ih =>
    have hread := readSegments_alike (WriteScope.trim value)
    cases hjs : WriteScope.readSegments (WriteScope.trim value) with
    | error why =>
      cases hgit : GitWriteScope.readParts (WriteScope.trim value) with
      | ok parts =>
        rw [hjs, hgit] at hread
        exact hread.elim
      | error why' =>
        rw [hjs, hgit] at hread
        rw [WriteScope.canonicalizeText_error hjs, GitWriteScope.canonicalizeLoop_error (by rwa [trimMatches_eq])]
        exact ⟨rfl, hread⟩
    | ok segments =>
      cases hgit : GitWriteScope.readParts (WriteScope.trim value) with
      | error why' =>
        rw [hjs, hgit] at hread
        exact hread.elim
      | ok parts =>
        rw [hjs, hgit] at hread
        obtain rfl : segments = parts := hread
        rw [WriteScope.canonicalizeText_ok hjs, GitWriteScope.canonicalizeLoop_ok (by rwa [trimMatches_eq]),
          trimMatches_eq]
        by_cases hfix : joinSlash segments = WriteScope.trim (joinSlash segments)
        · rw [if_pos hfix, if_pos hfix]
          exact rfl
        · rw [if_neg hfix, if_neg hfix]
          exact ih _ (hlength ▸ WriteScope.reread_lt hjs hfix) _ rfl

theorem canonicalizeWriteEntry_alike (raw : String) : Alike Eq (canonicalizeWriteEntry (.str raw)) (canonicalize raw) :=
  (canonicalizeText_alike raw.toList raw.toList).map fun _ _ => congrArg String.ofList

theorem canonicalizeFrom_alike (index : ℕ) (out entries : List String) :
    Alike Eq (canonicalizeFrom index out (entries.map .str)) (canonicalizeEach index out entries) := by
  induction entries generalizing index out with
  | nil => exact rfl
  | cons raw entries ih =>
    rw [map_cons, canonicalizeFrom, canonicalizeEach]
    rcases (canonicalizeWriteEntry_alike raw).cases with ⟨entry, _, hjs, hgit, rfl⟩ | ⟨err, err', hjs, hgit, herr⟩
    · rw [hjs, hgit]
      exact ih (index + 1) _
    · rw [hjs, hgit]
      exact ⟨rfl, herr.2⟩

theorem canonicalizeWrites_alike (entries : List String) :
    Alike Eq (canonicalizeWrites (.arr (entries.map .str))) (canonicalizeAll entries) := canonicalizeFrom_alike 0 [] entries

/-! ### Matching -/

theorem covers_eq (entry : Text) {parts : List Text} (hslash : ∀ part ∈ parts, '/' ∉ part) :
    WriteScope.covers entry parts = if hasGlob entry then GitWriteScope.glob (splitSlash entry) parts
      else joinSlash parts = entry || (entry ++ slash).isPrefixOf (joinSlash parts) := by
  rw [WriteScope.covers]
  congr 1
  rw [Bool.eq_iff_iff, WriteScope.globMatches_iff hslash, GitWriteScope.glob_iff]

theorem matchesAny_alike (scope : List String) {parts : List Text} (hslash : ∀ part ∈ parts, '/' ∉ part) :
    Alike Eq ((scope.map .str).anyM fun raw => do return WriteScope.covers (← canonicalizeWriteEntry raw).toList parts)
      (GitWriteScope.matchesAny parts scope) := by
  induction scope with
  | nil => exact rfl
  | cons raw scope ih =>
    rw [map_cons, List.anyM, GitWriteScope.matchesAny]
    rcases (canonicalizeWriteEntry_alike raw).cases with ⟨entry, _, hjs, hgit, rfl⟩ | ⟨err, err', hjs, hgit, herr⟩
    · have hcovers : (do return WriteScope.covers (← (.ok entry : Except WriteScopeError String)).toList parts) =
          (.ok (WriteScope.covers entry.toList parts) : Except WriteScopeError Bool) := rfl
      rw [hjs, hgit, hcovers]
      simp only
      rw [← covers_eq entry.toList hslash]
      cases WriteScope.covers entry.toList parts with
      | true => exact rfl
      | false => exact ih
    · rw [hjs, hgit]
      exact herr

theorem matchesWriteScope_alike {path : String} {bytes : ByteArray} (hbytes : String.fromUTF8? bytes = some path)
    (scope : List String) : Alike Eq (matchesWriteScope (.str path) (scope.map .str)) (matchesPath bytes scope) := by
  have hpath : matchesPath bytes scope = (do
      if path.toList.head? = some '/' ∨ '\\' ∈ path.toList ∨ '\x00' ∈ path.toList then return false
      let parts := (splitSlash path.toList).filter fun s => s != [] && s != dot
      if parts = [] ∨ dotDot ∈ parts ∨ parts.head? = some storeDir then return false
      GitWriteScope.matchesAny parts scope) := by
    rw [matchesPath, GitWriteScope.pathText, hbytes]
    rfl
  rw [hpath, matchesWriteScope]
  simp only
  by_cases hbad : path.toList.head? = some '/' ∨ '\\' ∈ path.toList ∨ '\x00' ∈ path.toList
  · rw [if_pos hbad, if_pos hbad]
    exact rfl
  · rw [if_neg hbad, if_neg hbad]
    by_cases hout : (splitSlash path.toList).filter (fun s => s != [] && s != dot) = [] ∨
        dotDot ∈ (splitSlash path.toList).filter (fun s => s != [] && s != dot) ∨
        ((splitSlash path.toList).filter fun s => s != [] && s != dot).head? = some storeDir
    · rw [if_pos hout, if_pos hout]
      exact rfl
    · rw [if_neg hout, if_neg hout]
      exact matchesAny_alike scope fun part hpart => mem_splitSlash (mem_of_mem_filter hpart)

/-! ### Generated paths -/

theorem literalPrefix_eq (entry : Text) : WriteScope.literalPrefix entry = GitWriteScope.literalPrefix entry :=
  WriteScope.literalPrefix_eq_joinSlash entry

/-- A mapping as the JavaScript reader is given it. -/
def generatedPath (mapping : String × List String) : GeneratedPath := ⟨.str mapping.1, mapping.2.map .str⟩

/-- The targets of the mappings are put behind what was there before. -/
theorem addedBy_alike (scope : List String) (mappings : List (String × List String)) (result : List String) :
    Alike (fun added result' => result'.map Json.str = result.map .str ++ added)
      (WriteScope.addedBy scope (mappings.map generatedPath)) (GitWriteScope.extendFrom scope result mappings) := by
  induction mappings generalizing result with
  | nil =>
    show result.map Json.str = result.map .str ++ []
    exact (append_nil _).symm
  | cons mapping mappings ih =>
    obtain ⟨source, also⟩ := mapping
    rw [map_cons, WriteScope.addedBy, GitWriteScope.extendFrom]
    show Alike _ (canonicalizeWriteEntry (.str source) >>= _) _
    rcases (canonicalizeWriteEntry_alike source).cases with ⟨entry, _, hjs, hgit, rfl⟩ | ⟨err, err', hjs, hgit, herr⟩
    · have htouches : (scope.any fun s =>
          GitWriteScope.overlaps (GitWriteScope.literalPrefix s.toList) (GitWriteScope.literalPrefix entry.toList)) =
          scope.any fun s =>
            WriteScope.literalsOverlap (WriteScope.literalPrefix s.toList) (WriteScope.literalPrefix entry.toList) := by
        simp only [literalPrefix_eq]
        rfl
      rw [hjs, hgit]
      simp only
      rw [htouches]
      show Alike _ (WriteScope.addedBy scope (mappings.map generatedPath) >>= fun added =>
        if (scope.any fun s =>
          WriteScope.literalsOverlap (WriteScope.literalPrefix s.toList) (WriteScope.literalPrefix entry.toList)) = true
        then pure (also.map Json.str ++ added) else pure added) _
      cases scope.any fun s =>
        WriteScope.literalsOverlap (WriteScope.literalPrefix s.toList) (WriteScope.literalPrefix entry.toList) with
      | true =>
        rcases (ih (result ++ also)).cases with ⟨added, result', hjs', hgit', hsame⟩ | ⟨err, err', hjs', hgit', herr⟩
        · rw [hjs', if_pos rfl, hgit']
          show result'.map Json.str = result.map .str ++ (also.map .str ++ added)
          rw [hsame, map_append, append_assoc]
        · rw [hjs', if_pos rfl, hgit']
          exact herr
      | false =>
        rcases (ih result).cases with ⟨added, result', hjs', hgit', hsame⟩ | ⟨err, err', hjs', hgit', herr⟩
        · rw [hjs', if_neg Bool.false_ne_true, hgit']
          exact hsame
        · rw [hjs', if_neg Bool.false_ne_true, hgit']
          exact herr
    · rw [hjs, hgit]
      exact herr

theorem expandGenerated_alike (entries : List String) (mappings : List (String × List String)) :
    Alike Eq (expandGenerated (.arr (entries.map .str)) (mappings.map generatedPath)) (expand entries mappings) := by
  apply (canonicalizeWrites_alike entries).bind
  rintro scope _ rfl
  apply (addedBy_alike scope mappings scope).bind
  intro added result hresult
  rw [← hresult]
  exact canonicalizeWrites_alike result

/-- The two readers agree on scopes, on the paths they cover and on what generated paths add. -/
theorem readers_agree (entries : List String) (mappings : List (String × List String)) (bytes : ByteArray)
    (hutf8 : bytes.IsValidUTF8) : Alike Eq (canonicalizeWrites (.arr (entries.map .str))) (canonicalizeAll entries) ∧
      Alike Eq (matchesWriteScope (.str (String.fromUTF8 bytes hutf8)) (entries.map .str)) (matchesPath bytes entries) ∧
      Alike Eq (expandGenerated (.arr (entries.map .str)) (mappings.map generatedPath)) (expand entries mappings) := by
  refine ⟨canonicalizeWrites_alike entries, matchesWriteScope_alike ?_ entries, expandGenerated_alike entries mappings⟩
  rw [String.fromUTF8?, dif_pos]

/-- Both let `tài liệu/x` into a scope that names it by its first letters. -/
theorem readers_agree_glob : Alike Eq
    (matchesWriteScope (.str (String.fromUTF8 "tài liệu/x".toByteArray "tài liệu/x".isValidUTF8)) [.str "tài*/*"])
    (matchesPath "tài liệu/x".toByteArray ["tài*/*"]) :=
  (readers_agree ["tài*/*"] [] "tài liệu/x".toByteArray "tài liệu/x".isValidUTF8).2.1

end Forgent
