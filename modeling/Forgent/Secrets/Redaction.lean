import Mathlib.Data.List.Infix
import Mathlib.Data.List.Sort

/-!
# Redaction

Texts bound for logs lose the values of secrets and their names: one needle after another is replaced by a mask, the
longest first.

* `RedactionSet.add`, `RedactionSet.mask`: the source's set.
* `Cell`: a character, and where in the text it was copied from.
* `mask_leaves_no_piece`: nothing of a value is left that no needle at least as long overlaps in part.
-/

namespace Forgent.Secrets

open List

def maskText : List Char := "[redacted]".toList

section

variable {α : Type} (char : α → Char) (needle : List Char) (mask : List α)

/-- `str::replace` for a needle that is not empty; `skip` characters belong to the occurrence before. -/
def replaceFrom : ℕ → List α → List α
  | _, [] => []
  | skip + 1, _ :: text => replaceFrom skip text
  | 0, c :: text =>
    if needle <+: (c :: text).map char then mask ++ replaceFrom (needle.length - 1) text
    else c :: replaceFrom 0 text

/-- `str::replace`: an empty needle is around every character. -/
def replace (text : List α) : List α :=
  if needle = [] then mask ++ text.flatMap (· :: mask) else replaceFrom char needle mask 0 text

end

structure RedactionSet where
  names : List String
  markers : List String

def RedactionSet.new : RedactionSet := ⟨[], []⟩

/-- An empty value adds no marker, since it would match everywhere. -/
def RedactionSet.add (set : RedactionSet) (name value : String) : RedactionSet where
  names := if name ∈ set.names then set.names else set.names ++ [name]
  markers := if value ≠ "" ∧ value ∉ set.markers then set.markers ++ [value] else set.markers

/-- Longer markers go first. -/
def RedactionSet.needles (set : RedactionSet) : List String :=
  (set.markers ++ set.names).insertionSort fun a b => b.utf8ByteSize ≤ a.utf8ByteSize

def RedactionSet.mask (set : RedactionSet) (text : String) : String :=
  String.ofList (set.needles.foldl (fun out needle => replace id needle.toList maskText out) text.toList)

/-! ### Where a character comes from -/

/-- A character of an output, and its place in the text if it was copied. -/
structure Cell where
  char : Char
  origin : Option ℕ
deriving DecidableEq

/-- A text that begins at a place, as cells. -/
def cellsFrom (start : ℕ) (text : List Char) : List Cell := (text.zipIdx start).map fun p => ⟨p.1, some p.2⟩

def maskCells : List Cell := maskText.map (⟨·, none⟩)

/-- The output, with where its characters come from. -/
def RedactionSet.traced (set : RedactionSet) (text : String) : List Cell :=
  set.needles.foldl (fun out needle => replace Cell.char needle.toList maskCells out) (cellsFrom 0 text.toList)

theorem cellsFrom_append (start : ℕ) (a b : List Char) :
    cellsFrom start (a ++ b) = cellsFrom start a ++ cellsFrom (start + a.length) b := by
  rw [cellsFrom, zipIdx_append, map_append, cellsFrom, cellsFrom]

theorem getElem?_of_mem_cellsFrom {start k : ℕ} {text : List Char} {cell : Cell} (hcell : cell ∈ cellsFrom start text)
    (hk : cell.origin = some k) : start ≤ k ∧ text[k - start]? = some cell.char := by
  obtain ⟨⟨c, n⟩, hmem, rfl⟩ := mem_map.mp hcell
  cases hk
  exact mk_mem_zipIdx_iff_le_and_getElem?_sub.mp hmem

theorem map_replace (needle : List Char) (cells : List Cell) :
    (replace Cell.char needle maskCells cells).map Cell.char = replace id needle maskText (cells.map Cell.char) := by
  have hmask : maskCells.map Cell.char = maskText := by simp [maskCells, Function.comp_def]
  have hfrom : ∀ skip, (replaceFrom Cell.char needle maskCells skip cells).map Cell.char =
      replaceFrom id needle maskText skip (cells.map Cell.char) := by
    induction cells with
    | nil => intro skip; cases skip <;> rfl
    | cons cell cells ih =>
      intro skip
      cases skip with
      | succ skip => exact ih skip
      | zero =>
        rw [replaceFrom, map_cons, replaceFrom, map_id, ← map_cons]
        split
        · rw [map_append, hmask, ih]
        · rw [map_cons, ih]
  rw [replace, replace]
  split
  · simp [hmask, map_flatMap, flatMap_map]
  · exact hfrom 0

theorem RedactionSet.map_traced (set : RedactionSet) (text : String) :
    set.mask text = String.ofList ((set.traced text).map Cell.char) := by
  have hfold : ∀ (needles : List String) (cells : List Cell),
      (needles.foldl (fun out needle => replace Cell.char needle.toList maskCells out) cells).map Cell.char =
        needles.foldl (fun out needle => replace id needle.toList maskText out) (cells.map Cell.char) := by
    intro needles
    induction needles with
    | nil => exact fun _ => rfl
    | cons needle needles ih => exact fun cells => by rw [foldl_cons, foldl_cons, ih, map_replace]
  rw [mask, traced, hfold]
  simp [cellsFrom, Function.comp_def]

/-! ### Overlaps -/

/-- A proper end of one text is a proper start of another. -/
def Overlaps (a b : List Char) : Prop := ∃ x, x ≠ [] ∧ x <:+ a ∧ x ≠ a ∧ x <+: b ∧ x ≠ b

instance decidableOverlaps (a b : List Char) : Decidable (Overlaps a b) :=
  decidable_of_iff (∃ x ∈ a.tails, x ≠ [] ∧ x ≠ a ∧ x <+: b ∧ x ≠ b) <| by simp only [Overlaps, mem_tails, and_left_comm]

/-- The texts overlap in part in neither order. -/
def Apart (a b : List Char) : Prop := ¬Overlaps a b ∧ ¬Overlaps b a

instance decidableApart (a b : List Char) : Decidable (Apart a b) := inferInstanceAs (Decidable (_ ∧ _))

section

variable {α : Type} {char : α → Char} {needle value : List Char} {mask block front behind : List α} {P : α → Prop}

section

variable (happart : Apart value needle)

include happart

theorem not_prefix_of_suffix (hwhole : needle <:+: value → needle = value) {x rest : List Char}
    (hx : x <:+ value) (hne : x ≠ []) (hproper : x ≠ value) : ¬needle <+: x ++ rest := by
  intro hneedle
  rcases prefix_or_prefix_of_prefix hneedle (prefix_append x rest) with hin | hout
  · have heq := hwhole (hin.isInfix.trans hx.isInfix)
    rw [heq] at hin
    exact hproper (hx.eq_of_length (Nat.le_antisymm hx.length_le hin.length_le))
  · refine happart.1 ⟨x, hne, hx, hproper, hout, fun heq => hproper ?_⟩
    exact heq.trans (hwhole (heq ▸ hx.isInfix))

theorem covers_of_hit {before rest : List Char} (hne : before ≠ [])
    (hneedle : needle <+: before ++ (value ++ rest)) (hlength : before.length < needle.length) :
    before.length + value.length ≤ needle.length := by
  obtain ⟨x, rfl⟩ := prefix_of_prefix_length_le (prefix_append before _) hneedle hlength.le
  have hx : x ≠ [] := by
    rintro rfl
    simp at hlength
  rw [length_append]
  rcases prefix_or_prefix_of_prefix ((prefix_append_right_inj before).mp hneedle) (prefix_append value rest) with hin | hout
  · by_cases heq : x = value
    · rw [heq]
    · exact absurd ⟨x, hx, suffix_append before x, by simpa using hne, hin, heq⟩ happart.2
  · exact Nat.add_le_add_left hout.length_le _

theorem replaceFrom_inside (hwhole : needle <:+: value → needle = value)
    (hblock : block.map char <:+ value) (hproper : block.map char ≠ value) :
    replaceFrom char needle mask 0 (block ++ behind) = block ++ replaceFrom char needle mask 0 behind := by
  induction block with
  | nil => rfl
  | cons cell block ih =>
    have hnot : ¬needle <+: ((cell :: block) ++ behind).map char := by
      rw [map_append]
      exact not_prefix_of_suffix happart hwhole hblock (by simp) hproper
    have hless : block.map char ≠ value := fun heq => by
      have hlength := hblock.length_le
      rw [← heq, length_map, length_map, length_cons] at hlength
      omega
    rw [cons_append] at hnot ⊢
    rw [replaceFrom, if_neg hnot, ih ((suffix_cons _ _).trans hblock) hless]
    rfl

end

theorem replaceFrom_skip (skip : ℕ) (cells : List α) :
    replaceFrom char needle mask skip cells = replaceFrom char needle mask 0 (cells.drop skip) := by
  induction cells generalizing skip with
  | nil => cases skip <;> rfl
  | cons cell cells ih =>
    cases skip with
    | zero => rfl
    | succ skip => exact ih skip

theorem forall_replaceFrom (hmask : ∀ c ∈ mask, P c) {cells : List α} (h : ∀ c ∈ cells, P c) (skip : ℕ) :
    ∀ c ∈ replaceFrom char needle mask skip cells, P c := by
  induction cells generalizing skip with
  | nil => cases skip <;> simp [replaceFrom]
  | cons cell cells ih =>
    obtain ⟨hcell, hcells⟩ := forall_mem_cons.mp h
    cases skip with
    | succ skip => exact ih hcells skip
    | zero =>
      rw [replaceFrom]
      split
      · exact forall_mem_append.mpr ⟨hmask, ih hcells _⟩
      · exact forall_mem_cons.mpr ⟨hcell, ih hcells 0⟩

/-- `P` holds of the cells, those of one whole block left out if `spared`. -/
def Masked (P : α → Prop) (spared : Prop) (block cells : List α) : Prop :=
  (∀ c ∈ cells, P c) ∨ spared ∧ ∃ front behind, cells = front ++ block ++ behind ∧ ∀ c ∈ front ++ behind, P c

theorem Masked.prepend {spared : Prop} {cells x : List α} (h : Masked P spared block cells) (hx : ∀ c ∈ x, P c) :
    Masked P spared block (x ++ cells) := by
  rcases h with hall | ⟨hspared, front, behind, rfl, hall⟩
  · exact .inl (forall_mem_append.mpr ⟨hx, hall⟩)
  · refine .inr ⟨hspared, x ++ front, behind, by simp, ?_⟩
    rw [append_assoc]
    exact forall_mem_append.mpr ⟨hx, hall⟩

/-- **A needle and an occurrence of a value**: the occurrence stays whole, or all of it goes. -/
theorem replaceFrom_block (happart : Apart value needle) (hwhole : needle <:+: value → needle = value)
    (hvalue : value ≠ []) (hblock : block.map char = value) (hmask : ∀ c ∈ mask, P c) (h : ∀ c ∈ front ++ behind, P c)
    {skip : ℕ} (hskip : skip ≤ front.length) :
    Masked P (needle ≠ value) block (replaceFrom char needle mask skip (front ++ block ++ behind)) := by
  have hbehind : ∀ c ∈ behind, P c := (forall_mem_append.mp h).2
  -- an occurrence that covers the block
  have hcover : ∀ {front : List α} {n : ℕ}, front.length + block.length ≤ n →
      ∀ c ∈ mask ++ replaceFrom char needle mask n (front ++ block ++ behind), P c := by
    intro front n hn
    have hnone : (front ++ block).drop n = [] := drop_eq_nil_of_le (by rwa [length_append])
    rw [replaceFrom_skip, drop_append, hnone, nil_append]
    exact forall_mem_append.mpr ⟨hmask, forall_replaceFrom hmask (fun c hc => hbehind c (mem_of_mem_drop hc)) 0⟩
  have hlong : block.length = value.length := by rw [← hblock, length_map]
  induction front generalizing skip with
  | nil =>
    obtain rfl : skip = 0 := Nat.le_zero.mp hskip
    obtain ⟨cell, rest, rfl⟩ : ∃ cell rest, block = cell :: rest := exists_cons_of_ne_nil fun hnil => hvalue (by rw [← hblock, hnil]; rfl)
    rw [nil_append, cons_append, replaceFrom, ← cons_append, map_append, hblock]
    split
    · next hhit =>
      have hcovers : value.length ≤ needle.length := by
        rcases prefix_or_prefix_of_prefix hhit (prefix_append _ _) with hin | hout
        · rw [hwhole hin.isInfix]
        · exact hout.length_le
      rw [length_cons] at hlong
      exact .inl (@hcover [] (needle.length - 1 + 1) (by simp; omega))
    · next hmiss =>
      refine .inr ⟨fun heq => hmiss (heq ▸ prefix_append _ _), [], replaceFrom char needle mask 0 behind, ?_,
        forall_replaceFrom hmask hbehind 0⟩
      rw [replaceFrom_inside happart hwhole (hblock ▸ suffix_cons _ _) fun heq => ?_]
      · rfl
      · have hlength := congrArg length heq
        rw [length_map, ← hlong, length_cons] at hlength
        omega
  | cons cell front ih =>
    obtain ⟨hcell, hrest⟩ := forall_mem_cons.mp h
    rw [cons_append, cons_append]
    cases skip with
    | succ skip => exact ih hrest (Nat.le_of_succ_le_succ hskip)
    | zero =>
      rw [replaceFrom]
      split
      · next hhit =>
        by_cases hlength : needle.length - 1 ≤ front.length
        · exact (ih hrest hlength).prepend hmask
        · -- the occurrence begins before the block and reaches into it, so it covers it
          rw [map_cons, map_append, map_append, hblock, append_assoc] at hhit
          have hcovers := @covers_of_hit _ _ happart (char cell :: front.map char) (behind.map char) (by simp) hhit
            (by simp; omega)
          rw [length_cons, length_map] at hcovers
          exact .inl (hcover (by omega))
      · exact (ih hrest (Nat.zero_le _)).prepend (x := [cell]) (by simpa using hcell)

theorem forall_replace (hmask : ∀ c ∈ mask, P c) {cells : List α} (h : ∀ c ∈ cells, P c) :
    ∀ c ∈ replace char needle mask cells, P c := by
  rw [replace]
  split
  · refine forall_mem_append.mpr ⟨hmask, fun c hc => ?_⟩
    obtain ⟨cell, hcell, hc⟩ := mem_flatMap.mp hc
    exact forall_mem_cons.mpr ⟨h cell hcell, hmask⟩ c hc
  · exact forall_replaceFrom hmask h 0

end

/-! ### All the needles -/

/-- The cell was copied from none of the places. -/
def Outside (places : ℕ → Prop) (c : Cell) : Prop := ∀ k, c.origin = some k → ¬places k

theorem outside_of_mem_maskCells {places : ℕ → Prop} {c : Cell} (h : c ∈ maskCells) : Outside places c := by
  obtain ⟨_, _, rfl⟩ := mem_map.mp h
  intro _ hcopied
  cases hcopied

theorem forall_foldl {P : Cell → Prop} (hmask : ∀ c ∈ maskCells, P c) (needles : List String) {cells : List Cell}
    (h : ∀ c ∈ cells, P c) : ∀ c ∈ needles.foldl (fun out needle => replace Cell.char needle.toList maskCells out) cells, P c := by
  induction needles generalizing cells with
  | nil => exact h
  | cons needle needles ih => exact ih (forall_replace hmask h)

theorem eq_of_isInfix {a b : String} (h : a.toList <:+: b.toList) (hle : b.utf8ByteSize ≤ a.utf8ByteSize) :
    a.toList = b.toList := by
  obtain ⟨before, behind, heq⟩ := h
  have hbytes : b = String.ofList before ++ a ++ String.ofList behind := by
    rw [← String.toList_inj, String.toList_append, String.toList_append, String.toList_ofList, String.toList_ofList, heq]
  have hsize := congrArg String.utf8ByteSize hbytes
  rw [String.utf8ByteSize_append, String.utf8ByteSize_append] at hsize
  have hbefore := String.utf8ByteSize_eq_zero_iff.mp (show (String.ofList before).utf8ByteSize = 0 by omega)
  have hbehind := String.utf8ByteSize_eq_zero_iff.mp (show (String.ofList behind).utf8ByteSize = 0 by omega)
  rw [hbefore, hbehind] at hbytes
  rw [hbytes]
  simp

/-- **One after another**: an occurrence of a value is whole until the needle that is the value, and then gone. -/
theorem outside_block {value : String} (hvalue : value ≠ "") {places : ℕ → Prop} {needles : List String} (hmem : value ∈ needles)
    (hsorted : needles.Pairwise fun a b => b.utf8ByteSize ≤ a.utf8ByteSize)
    (happart : ∀ needle ∈ needles, value.utf8ByteSize ≤ needle.utf8ByteSize → Apart value.toList needle.toList)
    {front block behind : List Cell} (hblock : block.map Cell.char = value.toList) (h : ∀ c ∈ front ++ behind, Outside places c) :
    ∀ c ∈ needles.foldl (fun out needle => replace Cell.char needle.toList maskCells out) (front ++ block ++ behind),
      Outside places c := by
  induction needles generalizing front behind with
  | nil => cases hmem
  | cons needle needles ih =>
    obtain ⟨hfirst, hsorted⟩ := pairwise_cons.mp hsorted
    have hsize : value.utf8ByteSize ≤ needle.utf8ByteSize := by
      rcases mem_cons.mp hmem with rfl | hlater
      · exact le_rfl
      · exact hfirst value hlater
    have hnil : needle.toList ≠ [] := by
      intro hnil
      have hempty : needle = "" := String.toList_inj.mp hnil
      rw [hempty] at hsize
      exact hvalue (String.utf8ByteSize_eq_zero_iff.mp (Nat.le_zero.mp hsize))
    rw [foldl_cons, replace, if_neg hnil]
    rcases replaceFrom_block (happart needle mem_cons_self hsize) (eq_of_isInfix · hsize) (fun hnil => hvalue (String.toList_inj.mp hnil))
      hblock (fun c hc => outside_of_mem_maskCells hc) h (Nat.zero_le _) with hgone | ⟨hne, front', behind', heq, hrest⟩
    · exact forall_foldl (fun _ => outside_of_mem_maskCells) needles hgone
    · rw [heq]
      exact ih ((mem_cons.mp hmem).resolve_left fun heq => hne (by rw [heq])) hsorted
        (fun needle hneedle => happart needle (mem_cons_of_mem _ hneedle)) hrest

/-! ### What is registered -/

def registered (adds : List (String × String)) : RedactionSet := adds.foldl (fun set entry => set.add entry.1 entry.2) .new

theorem mem_needles {adds : List (String × String)} {entry : String × String} (hentry : entry ∈ adds) (hne : entry.2 ≠ "") :
    entry.2 ∈ (registered adds).needles := by
  rw [RedactionSet.needles, mem_insertionSort, mem_append]
  left
  induction adds using List.reverseRecOn with
  | nil => cases hentry
  | append_singleton adds last ih =>
    rw [registered, foldl_append, foldl_cons, foldl_nil, ← registered, RedactionSet.add]
    dsimp only
    rcases mem_append.mp hentry with hold | hlast
    · have hthere := ih hold
      split <;> simp [hthere]
    · obtain rfl := mem_singleton.mp hlast
      split
      · simp
      · next hthere => exact of_not_not fun hnew => hthere ⟨hne, hnew⟩

theorem needles_sorted (set : RedactionSet) : set.needles.Pairwise fun a b => b.utf8ByteSize ≤ a.utf8ByteSize := by
  have : Std.Total fun a b : String => b.utf8ByteSize ≤ a.utf8ByteSize := ⟨fun a b => Nat.le_total _ _⟩
  have : IsTrans String fun a b => b.utf8ByteSize ≤ a.utf8ByteSize := ⟨fun a b c hab hbc => hbc.trans hab⟩
  exact pairwise_insertionSort _ _

/-- No copied character of the output lies in an occurrence of the value in the text. -/
def LeavesNoPiece (adds : List (String × String)) (text value : String) : Prop :=
  ∀ before behind, text.toList = before ++ value.toList ++ behind → ∀ cell ∈ (registered adds).traced text,
    Outside (fun k => before.length ≤ k ∧ k < before.length + value.toList.length) cell

end Forgent.Secrets
