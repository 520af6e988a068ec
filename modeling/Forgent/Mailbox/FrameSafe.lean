import Forgent.Mailbox.Caps

/-!
# What a frame shows

A frame is the contract's text around values that cannot leave their places.  A bounded step measures its frames before it
takes them, and what it then writes fits its bound.
-/

namespace Forgent.Mailbox

open List

/-- Derives a sender's handle from its key, its CLI and its head when a frame is rendered. -/
abbrev HandleOf := WriterKey → Cli → Option String → Option String

/-- The handle derived, or the one the message came with. -/
def MailFrom.shownHandle (handleOf : HandleOf) (sender : MailFrom) : Option String :=
  (sender.cli.bind fun cli => handleOf sender.key cli sender.head) <|> sender.handle

def ClaimedItem.withHandle (handleOf : HandleOf) (item : ClaimedItem) : ClaimedItem :=
  match item.what with
  | .mail sender => { item with what := .mail { sender with handle := sender.shownHandle handleOf } }
  | .notice _ => item

namespace Frame

variable {limits : Limits} {c : Char} {text : List Char} {value : String}

/-! ### Header values -/

/-- The characters of header values and handles. -/
def isPlain (c : Char) : Bool := inNameAlphabet c || c == '@' || c == ':' || c == '/'

def Plain (value : String) : Prop := ∀ c ∈ value.toList, isPlain c = true

theorem plain_escapeHeader (limits : Limits) (value : String) : Plain (escapeHeader limits value) := by
  intro c hc
  rw [escapeHeader, String.toList_ofList] at hc
  obtain ⟨d, -, rfl⟩ := mem_map.mp (mem_of_mem_take hc)
  split
  · next h => rw [isPlain, h]; rfl
  · decide

theorem plain_escapeHandle (limits : Limits) (value : String) : Plain (escapeHandle limits value) := by
  intro c hc
  rw [escapeHandle, String.toList_ofList] at hc
  obtain ⟨d, -, rfl⟩ := mem_map.mp (mem_of_mem_take hc)
  split
  · next h => exact h
  · decide

theorem plain_toString (n : ℕ) : Plain (toString n) := by
  intro c hc
  rw [Nat.toString_eq_ofList_toDigits, String.toList_ofList] at hc
  have hdigit := Nat.isDigit_of_mem_toDigits (by decide) (by decide) hc
  simp [isPlain, inNameAlphabet, Char.isAlphanum, hdigit]

theorem utf8Size_of_isPlain (h : isPlain c = true) : c.utf8Size = 1 := by
  have hupper : c.isUpper = decide (c.val ≥ 'A'.val ∧ c.val ≤ 'Z'.val) := rfl
  have hlower : c.isLower = (decide (c.val ≥ 'a'.val) && decide (c.val ≤ 'z'.val)) := rfl
  have halpha : c.isAlpha = (c.isUpper || c.isLower) := rfl
  have hle : c.val ≤ 127 := by
    simp only [isPlain, inNameAlphabet, Char.isAlphanum, halpha, hupper, hlower, Char.isDigit, Bool.or_eq_true,
      Bool.and_eq_true, decide_eq_true_eq, beq_iff_eq] at h
    rcases h with (((((((⟨-, h⟩ | ⟨-, h⟩) | ⟨-, h⟩) | rfl) | rfl) | rfl) | rfl) | rfl) | rfl
    all_goals first | decide | exact UInt32.le_trans h (by decide)
  exact if_pos hle

theorem byteLen_of_plain (h : Plain value) : byteLen value = value.toList.length := by
  rw [byteLen, map_congr_left fun c hc => utf8Size_of_isPlain (h c hc), map_const', sum_replicate_nat]
  exact Nat.mul_one _

/-! ### What cannot leave its place -/

/-- A text that shows no tag: no angle bracket, a gutter behind every line break, and `&` in an entity only. -/
structure Contained (text : List Char) : Prop where
  tagless : '<' ∉ text ∧ '>' ∉ text
  gutters : ∀ rest, '\n' :: rest <:+ text → "| ".toList <+: rest
  entities : ∀ rest, '&' :: rest <:+ text → ∃ entity ∈ ["amp;", "lt;", "gt;"], entity.toList <+: rest

theorem Contained.nil : Contained [] :=
  ⟨⟨not_mem_nil, not_mem_nil⟩, (fun _ h => by cases suffix_nil.mp h), fun _ h => by cases suffix_nil.mp h⟩

theorem Contained.cons (h : Contained text) (hc : c ≠ '<' ∧ c ≠ '>') (hbreak : c = '\n' → "| ".toList <+: text)
    (hentity : c = '&' → ∃ entity ∈ ["amp;", "lt;", "gt;"], entity.toList <+: text) : Contained (c :: text) where
  tagless := ⟨not_mem_cons_of_ne_of_not_mem hc.1.symm h.tagless.1, not_mem_cons_of_ne_of_not_mem hc.2.symm h.tagless.2⟩
  gutters rest hrest := by
    rcases suffix_cons_iff.mp hrest with heq | hin
    · obtain ⟨rfl, rfl⟩ := cons.inj heq
      exact hbreak rfl
    · exact h.gutters rest hin
  entities rest hrest := by
    rcases suffix_cons_iff.mp hrest with heq | hin
    · obtain ⟨rfl, rfl⟩ := cons.inj heq
      exact hentity rfl
    · exact h.entities rest hin

theorem Contained.letter (h : Contained text) (hc : c ∉ ['<', '>', '\n', '&']) : Contained (c :: text) := by
  simp only [mem_cons, not_or] at hc
  exact h.cons ⟨hc.1, hc.2.1⟩ (fun heq => absurd heq hc.2.2.1) fun heq => absurd heq hc.2.2.2.1

theorem Contained.append_letters (h : Contained text) {l : List Char} (hl : ∀ c ∈ l, c ∉ ['<', '>', '\n', '&']) :
    Contained (l ++ text) := by
  induction l with
  | nil => exact h
  | cons c l ih => exact (ih (forall_mem_cons.mp hl).2).letter (forall_mem_cons.mp hl).1

theorem contained_of_letters (h : ∀ c ∈ text, c ∉ ['<', '>', '\n', '&']) : Contained text := by
  simpa using Contained.nil.append_letters h

theorem letters_of_all {text : List Char} (h : text.all (· ∉ ['<', '>', '\n', '&']) = true) :
    ∀ c ∈ text, c ∉ ['<', '>', '\n', '&'] := fun c hc => of_decide_eq_true (all_eq_true.mp h c hc)

/-- A character of the body as the frame shows it, a gutter behind a line break. -/
def shownChar (c : Char) : List Char := (escapeChar c).flatMap fun c => if c = '\n' then "\n| ".toList else [c]

theorem gutter_lines (text : List Char) :
    ['\n'].intercalate ((text.splitOn '\n').map ("| ".toList ++ ·)) =
      "| ".toList ++ text.flatMap fun c => if c = '\n' then "\n| ".toList else [c] := by
  induction text with
  | nil => rfl
  | cons c text ih =>
    obtain ⟨line, lines, hlines⟩ := exists_cons_of_ne_nil (splitOn_ne_nil '\n' text)
    rw [hlines] at ih
    rw [splitOn_cons_eq_if_modifyHead, flatMap_cons, hlines]
    by_cases hc : c = '\n' <;> simpa [hc] using ih

theorem toList_escapeBody (body : String) :
    (escapeBody body).toList = "| ".toList ++ (unifyBreaks body.toList).flatMap shownChar := by
  rw [escapeBody, String.toList_intercalate, map_map]
  have hline : (String.toList ∘ fun line => "| " ++ String.ofList line) = ("| ".toList ++ ·) := by
    funext line
    simp
  rw [hline]
  exact (gutter_lines _).trans (congrArg _ flatMap_assoc)

theorem contained_shownChar (h : Contained text) (c : Char) : Contained (shownChar c ++ text) := by
  have entity (e : String) (he : e ∈ ["amp;", "lt;", "gt;"]) (hl : ∀ c ∈ e.toList, c ∉ ['<', '>', '\n', '&']) :
      Contained ('&' :: e.toList ++ text) :=
    (h.append_letters hl).cons (by decide) (fun heq => by cases heq) fun _ => ⟨e, he, prefix_append _ _⟩
  rw [shownChar, escapeChar]
  split
  · exact h
  split
  · exact entity "amp;" (by decide) (letters_of_all rfl)
  split
  · exact entity "lt;" (by decide) (letters_of_all rfl)
  split
  · exact entity "gt;" (by decide) (letters_of_all rfl)
  · next hamp hlt hgt =>
    rw [flatMap_singleton]
    split
    · exact ((h.letter (by decide)).letter (by decide)).cons (by decide) (fun _ => prefix_append _ _) fun heq => absurd heq (by decide)
    · next hbreak => exact h.letter (by simp [hamp, hlt, hgt, hbreak])

theorem contained_escapeBody (body : String) : Contained (escapeBody body).toList := by
  rw [toList_escapeBody]
  have hshown : Contained ((unifyBreaks body.toList).flatMap shownChar) := by
    induction unifyBreaks body.toList with
    | nil => exact .nil
    | cons c rest ih => exact contained_shownChar ih c
  exact (hshown.letter (by decide)).letter (by decide)

theorem letters_of_plain (h : Plain value) : ∀ c ∈ value.toList, c ∉ ['<', '>', '\n', '&'] := by
  intro c hc hin
  simp only [mem_cons, not_mem_nil, or_false] at hin
  rcases hin with rfl | rfl | rfl | rfl <;> exact absurd (h _ hc) (by decide)

/-! ### A message's frame -/

/-- What the contract has before the body: the opening tag. -/
def openingTag (label agent handle id attempt : String) : String :=
  fill (messageSection.take 11)
    [("from", label), ("agent", agent), ("handle", handle), ("id", id), ("attempt", attempt)]

/-- What the contract has behind the body. -/
def closing (reply : String) : String := fill (messageSection.drop 12) [("reply", reply)]

/-- The frame of a message is the contract's text around plain header values, a text that shows no tag, and the reply line. -/
structure Framed (frame label agent handle id attempt shown reply : String) : Prop where
  eq : frame = openingTag label agent handle id attempt ++ shown ++ closing reply
  plain : ∀ value ∈ [label, agent, handle, id, attempt], Plain value
  contained : Contained shown.toList
  answer : reply = "" ∨ ∃ target, Plain target ∧ reply = fill replySection [("from", target), ("id", id)]

theorem fill_append (t t' : List Piece) (values : List (String × String)) :
    fill (t ++ t') values = fill t values ++ fill t' values := by
  rw [fill, map_append, String.join_append]
  rfl

theorem fill_messageSection (label agent handle id attempt shown reply : String) :
    fill messageSection [("from", label), ("agent", agent), ("handle", handle), ("id", id), ("attempt", attempt),
      ("body", shown), ("reply", reply)] = openingTag label agent handle id attempt ++ shown ++ closing reply := by
  rw [← take_append_drop 12 messageSection, fill_append]
  congr 1

theorem fill_hole (front back name value : String) :
    fill [.text front, .hole name, .text back] [(name, value)] = front ++ value ++ back := by
  simp [fill, String.append_assoc]

theorem fill_bodyMissingSection (label : String) :
    fill bodyMissingSection [("from", label)] =
      "The text of this message could not be read; ask " ++ label ++ " to send it again." := fill_hole ..

theorem framed_renderMessage (limits : Limits) (item : ClaimedItem) (sender : MailFrom) (body : Option String) :
    ∃ label agent handle id attempt shown reply,
      Framed (renderMessage limits item sender body) label agent handle id attempt shown reply ∧
        (body.isSome = true → "| ".toList <+: shown.toList) := by
  refine ⟨_, _, _, _, _, _, _, ⟨fill_messageSection .., ?_, ?_, ?_⟩, ?_⟩
  · simp only [forall_mem_cons]
    refine ⟨plain_escapeHeader _ _, plain_escapeHeader _ _, ?_, plain_escapeHeader _ _, plain_toString _, by simp⟩
    split
    · exact plain_escapeHandle _ _
    · exact all_eq_true.mp (by decide : "unknown".toList.all isPlain = true)
    · exact all_eq_true.mp (by decide : "unregistered".toList.all isPlain = true)
  · cases body with
    | some text => exact contained_escapeBody text
    | none =>
      refine contained_of_letters fun c hc => ?_
      simp only [fill_bodyMissingSection, String.toList_append, mem_append] at hc
      rcases hc with (hc | hc) | hc
      · exact letters_of_all (by decide) c hc
      · exact letters_of_plain (plain_escapeHeader _ _) c hc
      · exact letters_of_all (by decide) c hc
  · split
    · refine .inr ⟨_, ?_, rfl⟩
      cases sender.replyTo with
      | none => exact plain_escapeHeader _ _
      | some name => exact plain_escapeHandle _ _
    · exact .inl rfl
  · intro hbody
    cases body with
    | some text =>
      show _ <+: (escapeBody text).toList
      rw [toList_escapeBody]
      exact prefix_append _ _
    | none => cases hbody

/-! ### Sizes -/

theorem byteLen_shownChar (c : Char) : ((shownChar c).map Char.utf8Size).sum ≤ 7 * c.utf8Size := by
  have hpos := c.utf8Size_pos
  rw [shownChar, escapeChar]
  split
  · exact Nat.zero_le _
  split
  · show 5 ≤ _
    omega
  split
  · show 4 ≤ _
    omega
  split
  · show 4 ≤ _
    omega
  · rw [flatMap_singleton]
    split
    · show 3 ≤ _
      omega
    · show c.utf8Size + 0 ≤ _
      omega

theorem byteLen_unifyBreaks (text : List Char) :
    ((unifyBreaks text).map Char.utf8Size).sum ≤ (text.map Char.utf8Size).sum := by
  fun_induction unifyBreaks text with
  | case1 rest ih =>
    simp only [map_cons, sum_cons]
    omega
  | case2 c rest _ ih =>
    have hpos := c.utf8Size_pos
    have hbreak : ('\n' : Char).utf8Size = 1 := rfl
    simp only [map_cons, sum_cons]
    split <;> omega
  | case3 => exact Nat.le_refl _

/-- An escaped body stays within the worst case for its bytes. -/
theorem renderedBodyLen_le (body : String) : renderedBodyLen body ≤ worstCaseBodyLen (byteLen body) := by
  have hshown (text : List Char) : ((text.flatMap shownChar).map Char.utf8Size).sum ≤ 7 * (text.map Char.utf8Size).sum := by
    induction text with
    | nil => exact Nat.zero_le _
    | cons c text ih =>
      have hc := byteLen_shownChar c
      simp only [flatMap_cons, map_append, sum_append, map_cons, sum_cons]
      omega
  have hbreaks := byteLen_unifyBreaks body.toList
  rw [renderedBodyLen, byteLen, toList_escapeBody, map_append, sum_append, worstCaseBodyLen, byteLen]
  have hgutter : ("| ".toList.map Char.utf8Size).sum = 2 := rfl
  have hbody := hshown (unifyBreaks body.toList)
  omega

theorem byteLen_escapeHandle_le (value : String) : byteLen (escapeHandle limits value) ≤ limits.frameMaxHeaderChars := by
  rw [byteLen_of_plain (plain_escapeHandle _ _), escapeHandle, String.toList_ofList]
  exact length_take_le _ _

theorem byteLen_longest : limits.frameMaxHeaderChars ≤
    byteLen (escapeHandle limits (String.ofList (replicate limits.frameMaxHeaderChars 'x'))) := by
  refine le_trans ?_ (length_le_byteLen _)
  rw [escapeHandle, String.toList_ofList, String.toList_ofList, length_take, length_map, length_replicate, min_self]

/-- A filled template is no larger than the same one filled with larger values. -/
theorem byteLen_fill_le {values values' : List (String × String)}
    (h : Forall₂ (fun v w => v.1 = w.1 ∧ byteLen v.2 ≤ byteLen w.2) values values') (template : List Piece) :
    byteLen (fill template values) ≤ byteLen (fill template values') := by
  have hlookup (name text : String) :
      byteLen ((values.lookup name).getD text) ≤ byteLen ((values'.lookup name).getD text) := by
    induction h with
    | nil => exact le_rfl
    | cons hhead _ ih =>
      rw [lookup_cons, lookup_cons, hhead.1]
      split
      · exact hhead.2
      · exact ih
  induction template with
  | nil => exact le_rfl
  | cons piece template ih =>
    rw [fill, map_cons, String.join_cons, byteLen_append, fill, map_cons, String.join_cons, byteLen_append]
    refine Nat.add_le_add ?_ ih
    cases piece with
    | text s => exact le_rfl
    | hole name => exact hlookup name _

theorem byteLen_tooLargePointer_le {count : ℕ} (h : count ≤ u32Max) :
    byteLen (tooLargePointer count) ≤ byteLen (tooLargePointer u32Max) := by
  rw [tooLargePointer, tooLargePointer]
  apply byteLen_fill_le
  refine .cons ⟨rfl, ?_⟩ .nil
  rw [byteLen_of_plain (plain_toString _), byteLen_of_plain (plain_toString _), Nat.toString_eq_ofList_toDigits,
    Nat.toString_eq_ofList_toDigits, String.toList_ofList, String.toList_ofList]
  have hmax := (Nat.length_toDigits_le_iff (b := 10) (by decide) Nat.length_toDigits_pos).mp (le_refl (Nat.toDigits 10 u32Max).length)
  exact (Nat.length_toDigits_le_iff (by decide) Nat.length_toDigits_pos).mpr (h.trans_lt hmax)

/-- A frame is no larger than its bound, whatever handle is derived for it after the claim. -/
theorem byteLen_render_le (hfixed : byteLen "unknown" ≤ limits.frameMaxHeaderChars) (handleOf : HandleOf) (item : ClaimedItem)
    {body : Option String} {rendered : ℕ}
    (hbody : ∀ sender, item.what = .mail sender → ∀ text, body = some text → renderedBodyLen text ≤ rendered) :
    byteLen (render limits (item.withHandle handleOf) body) ≤ boundedLen limits item rendered := by
  have hlongest := @byteLen_longest limits
  have hle := fun value => @byteLen_escapeHandle_le limits value
  have hadd {a b c a' b' c' n : ℕ} (ha : a ≤ a') (hb : b ≤ n) (hc : c ≤ c') : a + b + c ≤ a' + b' + c' + n := by omega
  rw [boundedLen, render, ClaimedItem.withHandle]
  cases hitem : item.what with
  | notice facts =>
    simp only [hitem]
    exact le_rfl
  | mail sender =>
    simp only [renderMessage, fill_messageSection, openingTag, closing]
    rw [byteLen_append, byteLen_append, byteLen_append, byteLen_append]
    apply hadd
    · apply byteLen_fill_le
      refine .cons ⟨rfl, le_rfl⟩ (.cons ⟨rfl, le_rfl⟩ (.cons ⟨rfl, ?_⟩ (.cons ⟨rfl, le_rfl⟩ (.cons ⟨rfl, le_rfl⟩ .nil))))
      cases sender.hasHead <;> cases sender.shownHandle handleOf
      · exact le_rfl
      · exact le_rfl
      · exact hfixed.trans hlongest
      · exact (hle _).trans hlongest
    · cases body with
      | some text => exact (hbody sender hitem text rfl).trans (le_max_left _ _)
      | none => exact le_max_right _ _
    · apply byteLen_fill_le
      refine .cons ⟨rfl, ?_⟩ .nil
      cases sender.hasHead with
      | false => exact le_rfl
      | true =>
        apply byteLen_fill_le
        refine .cons ⟨rfl, ?_⟩ (.cons ⟨rfl, le_rfl⟩ .nil)
        cases sender.replyTo with
        | none => exact le_rfl
        | some name => exact (hle name).trans hlongest

end Frame

/-! ### The reply of a bounded step -/

section

variable {limits : Limits} (handleOf : HandleOf)
  {bodies : MessageId → Option String} {s : MailboxState}

/-- The text of `render_reply`: the frames, then the pointer line when items were left as too large. -/
def renderReply (limits : Limits) (items : List ClaimedItem) (tooLarge : ℕ) (bodies : MessageId → Option String)
    (handleOf : HandleOf) : String :=
  Frame.separator.intercalate
    (items.map (fun item => Frame.render limits (item.withHandle handleOf) (bodies item.id)) ++
      if 0 < tooLarge then [Frame.tooLargePointer tooLarge] else [])

theorem byteLen_intercalate (separator : String) {parts : List String} (hne : parts ≠ []) :
    byteLen (separator.intercalate parts) + byteLen separator = (parts.map fun p => byteLen p + byteLen separator).sum := by
  induction parts with
  | nil => exact absurd rfl hne
  | cons p parts ih =>
    by_cases hparts : parts = []
    · subst hparts
      simp
    · have hrest := ih hparts
      rw [String.intercalate_cons_of_ne_nil hparts, byteLen_append, byteLen_append, map_cons, sum_cons]
      omega

/-- The message's sizes are those of the body that is read back, and its offers can be counted on. -/
def Header.Measures (bodies : MessageId → Option String) (h : Header) : Prop :=
  h.offers < u32Max ∧ ∀ text, bodies h.id = some text →
    h.bodyBytes = byteLen text ∧ ∀ rendered, h.bodyRenderedBytes = some rendered → rendered = Frame.renderedBodyLen text

namespace MailboxState

/-- What a bounded step takes fits its budget, and its count of what is too large is a 32-bit number. -/
theorem fit_le (size : Pick → ℕ) (budget : ℕ) (picks : List Pick) (used : ℕ) (first : Bool) :
    ((fit size budget picks used first).1 ≠ [] →
      used + ((fit size budget picks used first).1.map fun p => size p + byteLen Frame.separator).sum ≤
        budget + if first then byteLen Frame.separator else 0) ∧
    (fit size budget picks used first).2 ≤ u32Max := by
  induction picks generalizing used first with
  | nil => exact ⟨fun h => absurd rfl h, Nat.zero_le _⟩
  | cons pick picks ih =>
    rw [fit]
    split
    · exact ⟨(ih used first).1, min_le_right _ _⟩
    · dsimp only
      generalize hjoined : (if first = true then size pick else size pick + byteLen Frame.separator) = joined
      have hsum : joined + (if first = true then byteLen Frame.separator else 0) = size pick + byteLen Frame.separator := by
        cases first <;> simp at hjoined ⊢ <;> omega
      split
      · exact ⟨fun h => absurd rfl h, Nat.zero_le _⟩
      · next hfits =>
        obtain ⟨hle, hcount⟩ := ih (used + joined) false
        refine ⟨fun _ => ?_, hcount⟩
        rw [map_cons, sum_cons]
        by_cases hrest : (fit size budget picks (used + joined) false).1 = []
        · rw [hrest, map_nil, sum_nil]
          omega
        · have hle := hle hrest
          rw [if_neg (by decide)] at hle
          omega

/-- What a claim gives out for a pick. -/
def itemOf (s : MailboxState) : Pick → Option ClaimedItem
  | .message i => s.messages[i]?.map fun h => s.mailItem h (h.offers + 1)
  | .notice i => s.notices[i]?.map s.noticeItem

theorem items_takeAll {hold : Hold} {now : Timestamp} {picks : List Pick} (hnodup : picks.Nodup) (s : MailboxState) :
    (takeAll hold now picks s).1 = picks.filterMap s.itemOf := by
  induction picks generalizing s with
  | nil => rfl
  | cons pick picks ih =>
    obtain ⟨hfresh, hnodup⟩ := nodup_cons.mp hnodup
    have hhead : (s.take hold now pick).1 = s.itemOf pick := by cases pick <;> rfl
    have hkept : ∀ other ∈ picks, (s.take hold now pick).2.itemOf other = s.itemOf other := by
      intro other hother
      have hne : pick ≠ other := by
        rintro rfl
        exact hfresh hother
      cases pick with
      | message i =>
        cases other with
        | message j =>
          show ((s.messages.modify i (Header.hold hold now))[j]?).map _ = _
          rw [getElem?_modify_ne _ _ fun heq => hne (congrArg Pick.message heq)]
          rfl
        | notice j => rfl
      | notice i =>
        cases other with
        | message j => rfl
        | notice j =>
          show ((s.notices.modify i (Notice.hold hold))[j]?).map _ = _
          rw [getElem?_modify_ne _ _ fun heq => hne (congrArg Pick.notice heq)]
          rfl
    show (s.take hold now pick).1.toList ++ (takeAll hold now picks (s.take hold now pick).2).1 = _
    rw [hhead, ih hnodup, filterMap_congr hkept, filterMap_cons]
    cases s.itemOf pick <;> rfl

theorem measures_swept {now : Timestamp} {swept : MailboxState} (hswept : Swept limits now s swept)
    (hbodies : ∀ h ∈ s.messages, h.Measures bodies) : ∀ h ∈ swept.messages, h.Measures bodies := by
  rw [hswept.messages, sweptMessages_eq]
  intro h hh
  obtain ⟨before, hbefore, hswept⟩ := mem_filterMap.mp hh
  have hmeasures := hbodies before hbefore
  rw [Header.swept] at hswept
  split at hswept
  · cases hswept
  · cases hswept
    rw [Header.dropBody, Header.refuseStale, Header.expireClaim]
    repeat' split
    all_goals exact hmeasures

section

variable (hfixed : byteLen "unknown" ≤ limits.frameMaxHeaderChars) (hbodies : ∀ h ∈ s.messages, h.Measures bodies)
include hfixed hbodies

/-- What an item is rendered to is no larger than what the selection reckoned with. -/
theorem byteLen_le_worstCaseOf {pick : Pick} {item : ClaimedItem} (hitem : s.itemOf pick = some item) :
    byteLen (Frame.render limits (item.withHandle handleOf) (bodies item.id)) ≤ s.worstCaseOf limits pick := by
  cases pick with
  | notice i =>
    obtain ⟨n, hn, rfl⟩ := Option.map_eq_some_iff.mp hitem
    rw [worstCaseOf, hn, Option.elim, Frame.worstCaseLen]
    exact Frame.byteLen_render_le hfixed _ _ fun _ hmail => by cases hmail
  | message i =>
    obtain ⟨h, hh, rfl⟩ := Option.map_eq_some_iff.mp hitem
    obtain ⟨hoffers, hmeasures⟩ := hbodies h (mem_of_getElem? hh)
    rw [worstCaseOf, hh, Option.elim, min_eq_left hoffers]
    cases hrendered : h.bodyRenderedBytes with
    | some rendered =>
      exact Frame.byteLen_render_le hfixed _ _ fun _ _ text htext => ((hmeasures text htext).2 rendered hrendered).ge
    | none =>
      refine Frame.byteLen_render_le hfixed _ _ fun _ _ text htext => ?_
      rw [(hmeasures text htext).1]
      exact Frame.renderedBodyLen_le text

theorem sum_frames_le (picks : List Pick) :
    ((picks.filterMap s.itemOf).map fun item =>
      byteLen (Frame.render limits (item.withHandle handleOf) (bodies item.id)) + byteLen Frame.separator).sum ≤
      (picks.map fun p => s.worstCaseOf limits p + byteLen Frame.separator).sum := by
  induction picks with
  | nil => exact le_rfl
  | cons pick picks ih =>
    rw [filterMap_cons]
    cases hitem : s.itemOf pick with
    | none => exact ih.trans (Nat.le_add_left _ _)
    | some item => exact Nat.add_le_add (Nat.add_le_add_right (byteLen_le_worstCaseOf handleOf hfixed hbodies hitem) _) ih

theorem reply_le {bound : ℕ} (hbound : Frame.pointerReserve ≤ bound) (key : WriterKey) (generation : Generation) :
    byteLen (renderReply limits ((s.select limits key generation (.boundedStep bound)).1.filterMap s.itemOf)
      (s.select limits key generation (.boundedStep bound)).2 bodies handleOf) ≤ bound := by
  obtain ⟨hpicks, hcount⟩ := fit_le (s.worstCaseOf limits) (bound - Frame.pointerReserve)
    (s.eligiblePicks key generation (.boundedStep bound)) 0 true
  have hselect : s.select limits key generation (.boundedStep bound) =
    fit (s.worstCaseOf limits) (bound - Frame.pointerReserve) (s.eligiblePicks key generation (.boundedStep bound)) 0 true := rfl
  rw [← hselect] at hpicks hcount
  generalize s.select limits key generation (.boundedStep bound) = selected at hpicks hcount
  obtain ⟨picks, tooLarge⟩ := selected
  dsimp only at hpicks hcount ⊢
  have hframes := sum_frames_le handleOf hfixed hbodies picks
  have hpointer : ((if 0 < tooLarge then [Frame.tooLargePointer tooLarge] else []).map fun p =>
      byteLen p + byteLen Frame.separator).sum ≤ Frame.pointerReserve := by
    split
    · exact Nat.add_le_add_right (Frame.byteLen_tooLargePointer_le hcount) _
    · exact Nat.zero_le _
  rw [renderReply]
  by_cases hnone : (picks.filterMap s.itemOf).map (fun item => Frame.render limits (item.withHandle handleOf) (bodies item.id)) ++
      (if 0 < tooLarge then [Frame.tooLargePointer tooLarge] else []) = []
  · rw [hnone]
    exact Nat.zero_le _
  · have hlength := byteLen_intercalate Frame.separator hnone
    rw [map_append, sum_append, map_map] at hlength
    by_cases hempty : picks = []
    · subst hempty
      simp only [filterMap_nil, map_nil, sum_nil] at hlength ⊢
      omega
    · have hfits := hpicks hempty
      simp only [if_true, Function.comp_def] at hfits hlength
      omega

end

/-- **What a bounded step writes fits its bound**, whatever bodies are read back and handles derived after the claim. -/
theorem step_reply_fits (hfixed : byteLen "unknown" ≤ limits.frameMaxHeaderChars) {bound : ℕ}
    (hbound : Frame.pointerReserve ≤ bound) (hbodies : ∀ h ∈ s.messages, h.Measures bodies) (key : WriterKey)
    (generation : Generation) (now : Timestamp) (ids : IdSource) :
    byteLen (renderReply limits (s.claim limits key generation (.boundedStep bound) now ids).1.items
      (s.claim limits key generation (.boundedStep bound) now ids).1.tooLarge bodies handleOf) ≤ bound := by
  have hswept := swept s limits now ids
  rw [claim]
  split
  · exact Nat.zero_le _
  · split
    · next hpointer =>
      have hreply := reply_le handleOf hfixed hbodies hbound key generation
      have hnone : (s.select limits key generation (.boundedStep bound)).1 = [] := by
        simp only [pointerOnly, Bool.and_eq_true, decide_eq_true_eq] at hpointer
        exact hpointer.1.2
      rw [hnone] at hreply
      exact hreply
    · generalize s.sweep limits now ids = r at hswept ⊢
      obtain ⟨swept, ids'⟩ := r
      simp only at hswept ⊢
      have hmessages : (swept.stampDrain key swept.lastNow).messages = swept.messages := by
        rw [stampDrain]
        split <;> rfl
      have hreply := reply_le handleOf hfixed (hmessages ▸ measures_swept hswept hbodies) hbound key generation
      have hnodup := (nodup_eligiblePicks (swept.stampDrain key swept.lastNow) key generation (.boundedStep bound)).sublist
        (select_sublist _ limits _ _ _)
      split
      · next hselect =>
        rw [hselect] at hreply
        exact hreply
      · next hselect =>
        rw [hselect] at hreply hnodup
        rw [← items_takeAll hnodup] at hreply
        exact hreply

theorem step_reply_fits_unread :
    let claim := ((play Sample.limits Sample.sameKeyTwice).2.claim Sample.limits (Sample.key "p") 1
      (.boundedStep (Frame.pointerReserve + 1000)) 4 Sample.ids).1
    byteLen (renderReply Sample.limits claim.items claim.tooLarge (fun _ => none) fun _ _ _ => none) ≤
      Frame.pointerReserve + 1000 :=
  step_reply_fits _ (by decide) (Nat.le_add_right _ _) (fun h hh =>
    ⟨(by decide : ∀ h ∈ (play Sample.limits Sample.sameKeyTwice).2.messages, h.offers < u32Max) h hh,
      fun _ hnone => by cases hnone⟩) _ _ _ _

end MailboxState

end

end Forgent.Mailbox
