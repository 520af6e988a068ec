import Forgent.Segments

/-!
# The write scope grammar of the git side

`packages/git/write-scope/src/lib.rs`, written without the JavaScript reader: entries are strings, a queried path is
bytes, and a segment is matched byte by byte.
-/

namespace Forgent.GitWriteScope

open List

/-- Why an entry or a path is refused. -/
inductive Why where
  | absolute
  | badCharacter
  | noPath
  | parent
  | magic
  | looseDoubleStar
  | bytePath
deriving DecidableEq

/-- `ScopeError`, with the place in the entries when a list was read. -/
structure ScopeError where
  index : Option ℕ
  why : Why
  raw : List UInt8
deriving DecidableEq

/-- The message without its place; `debug` is the quoted form of an entry, `hex` that of bytes. -/
def ScopeError.reason (debug hex : List UInt8 → String) (err : ScopeError) : String :=
  match err.why with
  | .absolute => "write entry must be repo-relative, got absolute path: " ++ debug err.raw
  | .badCharacter => "write entry must not contain a backslash or NUL byte: " ++ debug err.raw
  | .noPath => "write entry must name a path inside the repo: " ++ debug err.raw
  | .parent => "write entry must not contain a \"..\" segment: " ++ debug err.raw
  | .magic => "write entry must not start with \":\" (git pathspec magic): " ++ debug err.raw
  | .looseDoubleStar => "write entry requires \"**\" to be a whole path segment: " ++ debug err.raw
  | .bytePath => "unscopable-byte-path: hex:" ++ hex err.raw

def ScopeError.message (debug hex : List UInt8 → String) (err : ScopeError) : String :=
  match err.index with
  | none => err.reason debug hex
  | some i => "writes[" ++ toString i ++ "]: " ++ err.reason debug hex

def asBytes (text : Text) : List UInt8 := text.flatMap String.utf8EncodeChar

/-! ### One spelling -/

/-- ECMAScript trim includes BOM and excludes NEL. -/
def space (c : Char) : Bool :=
  let n := c.toNat
  (0x09 ≤ n && n ≤ 0x0d) || n = 0x20 || n = 0xa0 || n = 0x1680 || (0x2000 ≤ n && n ≤ 0x200a) || n = 0x2028 ||
    n = 0x2029 || n = 0x202f || n = 0x205f || n = 0x3000 || n = 0xfeff

/-- `trim_matches(space)`. -/
def trimMatches (text : Text) : Text := trimBy space text

/-- A part is taken over unless it repeats a double star. -/
def pushPart (parts : List Text) (part : Text) : List Text :=
  if part = doubleStar ∧ parts.getLast? = some doubleStar then parts else parts ++ [part]

def partsOf (trimmed : Text) : List Text :=
  ((splitSlash trimmed).filter fun s => s != [] && s != dot).foldl pushPart []

/-- One round of the loop: the parts of a trimmed value. -/
def readParts (trimmed : Text) : Except Why (List Text) :=
  if trimmed.head? = some '/' then .error .absolute
  else if '\\' ∈ trimmed ∨ '\x00' ∈ trimmed then .error .badCharacter
  else
    let parts := partsOf trimmed
    if parts = [] then .error .noPath
    else if dotDot ∈ parts then .error .parent
    else if parts.head?.bind List.head? = some ':' then .error .magic
    else if parts.any looseDoubleStar then .error .looseDoubleStar
    else .ok parts

theorem foldl_pushPart_sublist (all parts : List Text) : (all.foldl pushPart parts).Sublist (parts ++ all) := by
  induction all generalizing parts with
  | nil => rw [append_nil]; exact .refl _
  | cons part all ih =>
    rw [foldl_cons]
    refine (ih _).trans ?_
    unfold pushPart
    split
    · exact (List.Sublist.refl parts).append (sublist_cons_self part all)
    · rw [append_assoc]
      exact .refl _

variable {parts : List Text} {value : Text}

theorem readParts_sublist {trimmed : Text} (h : readParts trimmed = .ok parts) :
    parts.Sublist (splitSlash trimmed) := by
  have hparts : partsOf trimmed = parts := by
    unfold readParts at h
    simp only at h
    repeat' split at h
    all_goals first | exact Except.ok.inj h | cases h
  rw [← hparts]
  exact (foldl_pushPart_sublist _ []).trans filter_sublist

/-- What goes through the loop again is shorter. -/
theorem loop_lt (h : readParts (trimMatches value) = .ok parts)
    (hfix : ¬ joinSlash parts = trimMatches (joinSlash parts)) : (joinSlash parts).length < value.length := by
  have hne : joinSlash parts ≠ trimMatches value := by
    intro heq
    have hagain : trimMatches (trimMatches value) = trimMatches value := trimBy_trimBy _ value
    exact hfix (by rw [heq, hagain])
  exact (joinSlash_length_lt (readParts_sublist h) hne).trans_le (trimBy_length_le _ value)

/-- The loop of `canonicalize`. -/
def canonicalizeLoop (raw value : Text) : Except ScopeError Text :=
  match h : readParts (trimMatches value) with
  | .error why => .error ⟨none, why, asBytes raw⟩
  | .ok parts =>
    if hfix : joinSlash parts = trimMatches (joinSlash parts) then .ok (joinSlash parts)
    else
      have := loop_lt h hfix
      canonicalizeLoop raw (joinSlash parts)
termination_by value.length

theorem canonicalizeLoop_error {raw : Text} {why : Why} (h : readParts (trimMatches value) = .error why) :
    canonicalizeLoop raw value = .error ⟨none, why, asBytes raw⟩ := by
  rw [canonicalizeLoop]
  split
  · next h' =>
    rw [h] at h'
    rw [Except.error.inj h']
  · next h' =>
    rw [h] at h'
    cases h'

theorem canonicalizeLoop_ok {raw : Text} (h : readParts (trimMatches value) = .ok parts) :
    canonicalizeLoop raw value = if joinSlash parts = trimMatches (joinSlash parts) then .ok (joinSlash parts)
      else canonicalizeLoop raw (joinSlash parts) := by
  rw [canonicalizeLoop]
  split
  · next h' =>
    rw [h] at h'
    cases h'
  · next parts' h' =>
    obtain rfl : parts = parts' := Except.ok.inj (h.symm.trans h')
    rfl

def canonicalize (raw : String) : Except ScopeError String :=
  (canonicalizeLoop raw.toList raw.toList).map String.ofList

/-- The loop of `canonicalize_all`: `seen` are the entries of `result`. -/
def canonicalizeEach (i : ℕ) (result : List String) : List String → Except ScopeError (List String)
  | [] => .ok result
  | entry :: entries =>
    match canonicalize entry with
    | .error err => .error { err with index := some i }
    | .ok entry => canonicalizeEach (i + 1) (if entry ∈ result then result else result ++ [entry]) entries

def canonicalizeAll (entries : List String) : Except ScopeError (List String) := canonicalizeEach 0 [] entries

/-! ### Matching -/

def starByte : UInt8 := 42

/-- The variables of `segment`; `retry` never overtakes `j`. -/
structure Pointers where
  i : ℕ
  j : ℕ
  star : Option ℕ
  retry : ℕ
  retry_le : retry ≤ j

/-- The first loop of `segment`: where it ends, or `none` where it returns false. -/
def segmentLoop (p v : List UInt8) (at_ : Pointers) : Option Pointers :=
  if hj : at_.j < v.length then
    if hi : at_.i < p.length then
      if p[at_.i] = starByte then segmentLoop p v ⟨at_.i + 1, at_.j, some at_.i, at_.j, Nat.le_refl _⟩
      else if p[at_.i] = v[at_.j] then
        segmentLoop p v ⟨at_.i + 1, at_.j + 1, at_.star, at_.retry, Nat.le_succ_of_le at_.retry_le⟩
      else
        match at_.star with
        | some s => segmentLoop p v ⟨s + 1, at_.retry + 1, some s, at_.retry + 1, Nat.le_refl _⟩
        | none => none
    else
      match at_.star with
      | some s => segmentLoop p v ⟨s + 1, at_.retry + 1, some s, at_.retry + 1, Nat.le_refl _⟩
      | none => none
  else some at_
termination_by (v.length - at_.retry, p.length - at_.i)
decreasing_by
  all_goals
    have := at_.retry_le
    simp only [Prod.lex_def, true_and]
    omega

/-- `segment` over bytes; behind the loop only stars may be left of the pattern. -/
def segmentBytes (p v : List UInt8) : Bool :=
  match segmentLoop p v ⟨0, 0, none, 0, Nat.le_refl _⟩ with
  | none => false
  | some at_ => ((p.drop at_.i).dropWhile (· == starByte)).isEmpty

def segment (pattern value : Text) : Bool := segmentBytes (asBytes pattern) (asBytes value)

/-- The row behind a double star: `next[j] = row[j] || next[j - 1]`. -/
def nextWild : Bool → List Bool → List Bool
  | _, [] => []
  | before, here :: row => (here || before) :: nextWild (here || before) row

/-- The row behind a part: `next[j] = row[j - 1] && segment(part, path[j - 1])`. -/
def nextPart (part : Text) (path : List Text) (row : List Bool) : List Bool :=
  false :: List.zipWith (fun before value => before && segment part value) row path

def nextRow (path : List Text) (row : List Bool) (part : Text) : List Bool :=
  if part = doubleStar then nextWild false row else nextPart part path row

def glob (pattern path : List Text) : Bool :=
  let row := pattern.foldl (nextRow path) (true :: List.replicate path.length false)
  row.getD path.length false

/-- `path_text`: query bytes are never trimmed. -/
def pathText (bytes : ByteArray) : Except ScopeError String :=
  match String.fromUTF8? bytes with
  | some path => .ok path
  | none => .error ⟨none, .bytePath, bytes.data.toList⟩

/-- The loop of `matches` over the scope. -/
def matchesAny (parts : List Text) : List String → Except ScopeError Bool
  | [] => .ok false
  | raw :: scope =>
    match canonicalize raw with
    | .error err => .error err
    | .ok entry =>
      let entry := entry.toList
      let normalized := joinSlash parts
      if (if hasGlob entry then glob (splitSlash entry) parts
          else normalized = entry || (entry ++ slash).isPrefixOf normalized) then .ok true
      else matchesAny parts scope

/-- `matches`. -/
def matchesPath (path : ByteArray) (scope : List String) : Except ScopeError Bool := do
  let path := (← pathText path).toList
  if path.head? = some '/' ∨ '\\' ∈ path ∨ '\x00' ∈ path then return false
  let parts := (splitSlash path).filter fun s => s != [] && s != dot
  if parts = [] ∨ dotDot ∈ parts ∨ parts.head? = some storeDir then return false
  matchesAny parts scope

/-! ### Generated paths -/

/-- `prefix`: the segments before the first one with a star. -/
def literalPrefix (entry : Text) : Text := joinSlash ((splitSlash entry).takeWhile fun s => !hasGlob s)

/-- Whether normalized literal path prefixes intersect; the empty one denotes the root. -/
def overlaps (a b : Text) : Bool :=
  a = [] || b = [] || a = b || (b ++ slash).isPrefixOf a || (a ++ slash).isPrefixOf b

/-- The loop of `expand` over the mappings. -/
def extendFrom (scope result : List String) : List (String × List String) → Except ScopeError (List String)
  | [] => .ok result
  | (source, also) :: mappings =>
    match canonicalize source with
    | .error err => .error err
    | .ok source =>
      let source := literalPrefix source.toList
      if scope.any fun s => overlaps (literalPrefix s.toList) source then extendFrom scope (result ++ also) mappings
      else extendFrom scope result mappings

def expand (entries : List String) (mappings : List (String × List String)) : Except ScopeError (List String) := do
  let scope ← canonicalizeAll entries
  let result ← extendFrom scope scope mappings
  canonicalizeAll result

end Forgent.GitWriteScope
