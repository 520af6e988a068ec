import Forgent.Json
import Forgent.RegExp
import Forgent.Segments

/-!
# The write scope of a run

`src/runner/dispatch/write-scope.mjs`: the entries of a declared scope are brought into one spelling, and a path of the
repository is asked against them.  What is handed in is a JSON value, since the functions check for strings and arrays
themselves.
-/

namespace Forgent.WriteScope

/-- What is wrong with an entry. -/
inductive Why where
  | notArray
  | notString
  | absolute
  | badCharacter
  | noPath
  | parent
  | magic
  | looseDoubleStar (segment : Text)
deriving DecidableEq

/-- `WriteScopeError`, with the place in `writes` when a list was read. -/
structure WriteScopeError where
  index : Option ℕ
  why : Why
  raw : Json
deriving DecidableEq

/-- The message without its place; `stringify` is `JSON.stringify`. -/
def WriteScopeError.reason (stringify : Json → String) (err : WriteScopeError) : String :=
  let shown := stringify err.raw
  match err.why with
  | .notArray => "writes must be an array of repo-relative paths."
  | .notString => "write entry must be a string, got: " ++ shown ++ "."
  | .absolute => "write entry must be repo-relative, got absolute path " ++ shown ++ "."
  | .badCharacter => "write entry must not contain a backslash or NUL byte, got: " ++ shown ++ "."
  | .noPath => "write entry must name a path inside the repo, got: " ++ shown ++ "."
  | .parent => "write entry must not contain a \"..\" segment, got: " ++ shown ++ "."
  | .magic => "write entry must not start with \":\" (git pathspec magic), got: " ++ shown ++ "."
  | .looseDoubleStar segment =>
    "\"**\" must be a whole path segment, got segment " ++ stringify (.str (String.ofList segment)) ++ " in " ++ shown ++ "."

def WriteScopeError.message (stringify : Json → String) (err : WriteScopeError) : String :=
  match err.index with
  | none => err.reason stringify
  | some index => "writes[" ++ toString index ++ "]: " ++ err.reason stringify

/-! ### One spelling -/

/-- `WhiteSpace` of the language: tabs, the space separators of Unicode and the byte order mark. -/
def isWhiteSpace (c : Char) : Bool :=
  c.toNat ∈ [0x09, 0x0b, 0x0c, 0xfeff, 0x20, 0xa0, 0x1680, 0x2000, 0x2001, 0x2002, 0x2003, 0x2004, 0x2005, 0x2006, 0x2007,
    0x2008, 0x2009, 0x200a, 0x202f, 0x205f, 0x3000]

def isLineTerminator (c : Char) : Bool := c.toNat ∈ [0x0a, 0x0d, 0x2028, 0x2029]

/-- `String.prototype.trim`. -/
def trim (text : Text) : Text := trimBy (fun c => isWhiteSpace c || isLineTerminator c) text

/-- `.filter((segment, i, all) => !(segment === '**' && all[i - 1] === '**'))`. -/
def withoutRepeats (all : List Text) : List Text :=
  (all.zipIdx.filter fun (segment, i) =>
    !(segment == doubleStar && (if i = 0 then none else all[i - 1]?) == some doubleStar)).map Prod.fst

def segmentsOf (trimmed : Text) : List Text :=
  withoutRepeats ((splitSlash trimmed).filter fun segment => segment != [] && segment != dot)

/-- One reading of a trimmed entry. -/
def readSegments (trimmed : Text) : Except Why (List Text) :=
  if trimmed.head? = some '/' then .error .absolute
  else if '\\' ∈ trimmed ∨ '\x00' ∈ trimmed then .error .badCharacter
  else
    let segments := segmentsOf trimmed
    if segments = [] then .error .noPath
    else if dotDot ∈ segments then .error .parent
    else if segments.head?.bind List.head? = some ':' then .error .magic
    else
      match segments.find? looseDoubleStar with
      | some segment => .error (.looseDoubleStar segment)
      | none => .ok segments

theorem withoutRepeats_sublist (all : List Text) : (withoutRepeats all).Sublist all := by
  have h : (withoutRepeats all).Sublist (all.zipIdx.map Prod.fst) := List.filter_sublist.map _
  rwa [List.zipIdx_map_fst] at h

variable {segments : List Text} {raw : Text}

theorem readSegments_sublist {trimmed : Text} (h : readSegments trimmed = .ok segments) :
    segments.Sublist (splitSlash trimmed) := by
  have hsegments : segmentsOf trimmed = segments := by
    unfold readSegments at h
    simp only at h
    repeat' split at h
    all_goals first | exact Except.ok.inj h | cases h
  rw [← hsegments]
  exact (withoutRepeats_sublist _).trans List.filter_sublist

theorem reread_lt (h : readSegments (trim raw) = .ok segments)
    (hfix : ¬ joinSlash segments = trim (joinSlash segments)) : (joinSlash segments).length < raw.length := by
  have hne : joinSlash segments ≠ trim raw := by
    intro heq
    have hagain : trim (trim raw) = trim raw := trimBy_trimBy _ raw
    exact hfix (by rw [heq, hagain])
  exact (joinSlash_length_lt (readSegments_sublist h) hne).trans_le (trimBy_length_le _ raw)

/-- The canonical spelling of a text.  `docs /` joins to `docs `, which is read again. -/
def canonicalizeText (raw : Text) : Except WriteScopeError Text :=
  match h : readSegments (trim raw) with
  | .error why => .error ⟨none, why, .str (String.ofList raw)⟩
  | .ok segments =>
    if hfix : joinSlash segments = trim (joinSlash segments) then .ok (joinSlash segments)
    else
      have := reread_lt h hfix
      canonicalizeText (joinSlash segments)
termination_by raw.length

theorem canonicalizeText_error {why : Why} (h : readSegments (trim raw) = .error why) :
    canonicalizeText raw = .error ⟨none, why, .str (String.ofList raw)⟩ := by
  rw [canonicalizeText]
  split
  · next h' =>
    rw [h] at h'
    rw [Except.error.inj h']
  · next h' =>
    rw [h] at h'
    cases h'

theorem canonicalizeText_ok (h : readSegments (trim raw) = .ok segments) : canonicalizeText raw =
      if joinSlash segments = trim (joinSlash segments) then .ok (joinSlash segments)
      else canonicalizeText (joinSlash segments) := by
  rw [canonicalizeText]
  split
  · next h' =>
    rw [h] at h'
    cases h'
  · next segments' h' =>
    obtain rfl : segments = segments' := Except.ok.inj (h.symm.trans h')
    rfl

def canonicalizeWriteEntry : Json → Except WriteScopeError String
  | .str raw => (canonicalizeText raw.toList).map String.ofList
  | raw => .error ⟨none, .notString, raw⟩

/-- The loop of `canonicalizeWrites`: `out` holds what was seen. -/
def canonicalizeFrom (index : ℕ) (out : List String) : List Json → Except WriteScopeError (List String)
  | [] => .ok out
  | raw :: list =>
    match canonicalizeWriteEntry raw with
    | .error err => .error { err with index := some index }
    | .ok entry => canonicalizeFrom (index + 1) (if entry ∈ out then out else out ++ [entry]) list

def canonicalizeWrites : Json → Except WriteScopeError (List String)
  | .arr list => canonicalizeFrom 0 [] list
  | raw => .error ⟨none, .notArray, raw⟩

/-! ### Generated paths -/

/-- Leading segments before the first one that carries a glob. -/
def literalPrefix (entry : Text) : Text :=
  let segments := splitSlash entry
  joinSlash (match segments.findIdx? hasGlob with
    | none => segments
    | some firstGlob => segments.take firstGlob)

/-- One literal path encloses the other, by whole segments. -/
def literalsOverlap (a b : Text) : Bool :=
  a = [] || b = [] || a = b || (b ++ slash).isPrefixOf a || (a ++ slash).isPrefixOf b

/-- A generated source, and the render targets it brings along. -/
structure GeneratedPath where
  source : Json
  also : List Json

/-- The targets of the mappings whose source touches the scope. -/
def addedBy (scope : List String) : List GeneratedPath → Except WriteScopeError (List Json)
  | [] => .ok []
  | mapping :: generatedPaths => do
    let fromLiteral := literalPrefix (← canonicalizeWriteEntry mapping.source).toList
    let added ← addedBy scope generatedPaths
    if scope.any fun entry => literalsOverlap (literalPrefix entry.toList) fromLiteral then
      return mapping.also ++ added
    else
      return added

def expandGenerated (writes : Json) (generatedPaths : List GeneratedPath) : Except WriteScopeError (List String) := do
  let scope ← canonicalizeWrites writes
  let added ← addedBy scope generatedPaths
  canonicalizeWrites (.arr (scope.map .str ++ added))

/-! ### Matching -/

/-- The characters that are escaped: `/[.*+?^${}()|[\]\\]/g`. -/
def special : List Char :=
  ['.', '*', '+', '?', '^', '$', '\x7b', '\x7d', '(', ')', '|', '[', ']', '\\']

def escapePart (part : Text) : Text := part.flatMap fun c => if c ∈ special then ['\\', c] else [c]

/-- The source text of the regular expression of a segment. -/
def segmentSource (segment : Text) : Text :=
  let body := "[^/]*".toList.intercalate ((segment.splitOn '*').map escapePart)
  ['^'] ++ body ++ ['$']

/-- `segmentRegex`.  It is never `none`: `segmentRegex_eq`. -/
def segmentRegex (segment : Text) : Option (List RegExp.Term) := RegExp.parse (segmentSource segment)

abbrev Memo := List (ℕ × Bool)

/-- `at` of `globMatches`: whether the pattern from `p` on takes the path from `s` on. -/
def globAt (patternSegments pathSegments : List Text) (p s : ℕ) (memo : Memo) : Bool × Memo :=
  let key := p * (pathSegments.length + 1) + s
  match memo.lookup key with
  | some result => (result, memo)
  | none =>
    let (result, memo) :=
      match h : patternSegments[p]? with
      | none => (s == pathSegments.length, memo)
      | some segment =>
        have hp : p < patternSegments.length := (List.getElem?_eq_some_iff.mp h).1
        if segment = doubleStar then
          let (behind, memo) := globAt patternSegments pathSegments (p + 1) s memo
          if behind then (true, memo)
          else if s < pathSegments.length then globAt patternSegments pathSegments p (s + 1) memo
          else (false, memo)
        else if hs : s < pathSegments.length then
          if (segmentRegex segment).any (RegExp.test · pathSegments[s]) then
            globAt patternSegments pathSegments (p + 1) (s + 1) memo
          else (false, memo)
        else (false, memo)
    (result, (key, result) :: memo)
termination_by (patternSegments.length - p) + (pathSegments.length - s)

def globMatches (patternSegments pathSegments : List Text) : Bool := (globAt patternSegments pathSegments 0 0 []).1

/-- A plain entry covers the path itself and everything beneath it, a glob entry has to match it whole. -/
def covers (entry : Text) (pathSegments : List Text) : Bool :=
  let normalized := joinSlash pathSegments
  if hasGlob entry then globMatches (splitSlash entry) pathSegments
  else normalized = entry || (entry ++ slash).isPrefixOf normalized

def matchesWriteScope (relPath : Json) (scope : List Json) : Except WriteScopeError Bool :=
  match relPath with
  | .str relPath =>
    let relPath := relPath.toList
    if relPath.head? = some '/' ∨ '\\' ∈ relPath ∨ '\x00' ∈ relPath then .ok false
    else
      let pathSegments := (splitSlash relPath).filter fun segment => segment != [] && segment != dot
      if pathSegments = [] ∨ dotDot ∈ pathSegments ∨ pathSegments.head? = some storeDir then .ok false
      else scope.anyM fun raw => do return covers (← canonicalizeWriteEntry raw).toList pathSegments
  | _ => .ok false

/-- Whether two declared scopes can touch one path; a glob is read by its literal leading segments. -/
def writeScopesOverlap (scopeA scopeB : Json) : Except WriteScopeError Bool := do
  let a ← canonicalizeWrites scopeA
  let b ← canonicalizeWrites scopeB
  return a.any fun x => b.any fun y => literalsOverlap (literalPrefix x.toList) (literalPrefix y.toList)

end Forgent.WriteScope
