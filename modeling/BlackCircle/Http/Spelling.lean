import BlackCircle.Http.Client
import BlackCircle.Http.HeadText

/-!
# Spellings of a head

A field line may be spelled in several ways: names in either letter case, any
blanks around the value, and the name of the transfer coding in either case.
The reader takes a head literally.  It refuses a line with no space behind the
colon, or with nothing behind that space, and it looks for two names and one
value exactly as they are written in the code.
-/

namespace BlackCircle.Http.Spelling

open BlackCircle.Foundation
open BlackCircle.Foundation.ByteString
open BlackCircle.Foundation.Peg
open BlackCircle.Http.Client
open BlackCircle.Http.HeadText
open BlackCircle.Http.Message
open BlackCircle.Http.Response

/-! ## Lines -/

/-- The blanks that may stand around a field value. -/
def isOws (b : Byte) : Bool := b == 32 || b == 9

/-- A field line with the blanks in front of its value and behind it; the value may be empty. -/
structure Line where
  name : Bytes
  before : Bytes
  value : Bytes
  after : Bytes
  name_nonempty : name ≠ []
  name_clean : ∀ b ∈ name, b ≠ CR ∧ b ≠ colon
  before_blank : ∀ b ∈ before, isOws b = true
  after_blank : ∀ b ∈ after, isOws b = true
  value_clean : ∀ b ∈ value, b ≠ CR
  value_first : ∀ b ∈ value.head?, isOws b = false
  value_last : ∀ b ∈ value.getLast?, isOws b = false

namespace Line

/-- What stands behind the colon. -/
def behind (line : Line) : Bytes := line.before ++ line.value ++ line.after

def text (line : Line) : Bytes := line.name ++ (colon :: line.behind) ++ eol1

/-- What stands behind the first byte behind the colon. -/
def shown (line : Line) : Bytes := line.behind.tail

/-- A space stands behind the colon, and something behind that space. -/
def Plain (line : Line) : Prop := line.behind.head? = some (byte ' ') ∧ line.shown ≠ []

instance (line : Line) : Decidable line.Plain := inferInstanceAs (Decidable (_ ∧ _))

end Line

/-- A head with these field lines. -/
def spelledHead (status : StatusLine) (lines : List Line) : Bytes :=
  status.text ++ lines.flatMap Line.text ++ eol1

/-! ## Equivalent spellings -/

def lowerByte (b : Byte) : Byte := if byte 'A' ≤ b ∧ b ≤ byte 'Z' then b + 32 else b

def lower (text : Bytes) : Bytes := text.map lowerByte

/-- A text without the blanks around it. -/
def trim (text : Bytes) : Bytes :=
  ((text.dropWhile isOws).reverse.dropWhile isOws).reverse

def transferEncoding : Bytes := ascii "Transfer-Encoding"

def contentLength : Bytes := ascii "Content-Length"

def chunked : Bytes := ascii "chunked"

/-- The same transfer coding; the name `chunked` may be in either letter case. -/
def SameCoding (a b : Bytes) : Prop := a = b ∨ lower a = lower b ∧ trim (lower a) = chunked

/-- The same field. -/
structure SameField (a b : Line) : Prop where
  name : lower a.name = lower b.name
  value : a.value = b.value ∨ lower a.name = lower transferEncoding ∧
    List.Forall₂ SameCoding (a.value.splitOn (byte ',')) (b.value.splitOn (byte ','))

/-- A field that has no part in the framing. -/
def Unrelated (line : Line) : Prop :=
  lower line.name ≠ lower transferEncoding ∧ lower line.name ≠ lower contentLength

/-- The same fields in the same order, with unrelated ones among them on either side. -/
inductive Equivalent : List Line → List Line → Prop where
  | nil : Equivalent [] []
  | same {a b : Line} {left right : List Line} (h : SameField a b)
      (hmore : Equivalent left right) : Equivalent (a :: left) (b :: right)
  | left {a : Line} {left right : List Line} (h : Unrelated a) (hmore : Equivalent left right) :
      Equivalent (a :: left) right
  | right {b : Line} {left right : List Line} (h : Unrelated b) (hmore : Equivalent left right) :
      Equivalent left (b :: right)

/-- Two equivalent heads. -/
structure Heads where
  status : StatusLine
  left : List Line
  right : List Line
  equivalent : Equivalent left right

/-! ## Framing -/

/-- How a response is delimited, or that its head is refused. -/
inductive Framing where
  | refused
  | chunked
  | counted (length : Nat)
  | other
  deriving DecidableEq

/-- What a turn of `header_read_complete` goes on with. -/
def framing (turn : ClientTurn) : Framing :=
  match turn.next with
  | .throw _ => .refused
  | .issue _ (.chunkSizeReadComplete _) => .chunked
  | .issue _ (.plainBodyReadComplete _ length) => .counted length
  | _ => .other

/-- The text shown by the first line with exactly this name. -/
def firstShown (lines : List Line) (name : Bytes) : Option Bytes :=
  (lines.find? fun line => line.name = name).map Line.shown

/-- The line for the transfer coding shows `chunked` and nothing else. -/
def ShowsChunked (lines : List Line) : Prop := firstShown lines transferEncoding = some chunked

instance (lines : List Line) : Decidable (ShowsChunked lines) :=
  inferInstanceAs (Decidable (_ = _))

/-- The number that the line for the length shows, if it is one. -/
def shownLength (w : Nat) (lines : List Line) : Option Nat :=
  lexicalCastSize w ((firstShown lines contentLength).getD (ascii "0"))

/-- A line is not plain, or a length is needed and none is shown. -/
def Unreadable (w : Nat) (lines : List Line) : Prop :=
  (∃ line ∈ lines, ¬ line.Plain) ∨ (¬ ShowsChunked lines ∧ shownLength w lines = none)

instance (w : Nat) (lines : List Line) : Decidable (Unreadable w lines) :=
  inferInstanceAs (Decidable (_ ∨ _))

/-- Both heads are unreadable, or neither is and they show the same: both `chunked`, or both the
same length. -/
def ShowSame (w : Nat) (left right : List Line) : Prop :=
  (Unreadable w left ∧ Unreadable w right) ∨
    (¬ Unreadable w left ∧ ¬ Unreadable w right ∧ (ShowsChunked left ↔ ShowsChunked right) ∧
      (¬ ShowsChunked left → shownLength w left = shownLength w right))

/-! ## Reading the lines -/

section Reading

variable {line : Line} {lines : List Line}

theorem ne_CR_of_isOws {b : Byte} (h : isOws b = true) : b ≠ CR := by
  rintro rfl
  exact absurd h (by decide)

theorem Line.behind_clean (line : Line) : ∀ b ∈ line.behind, b ≠ CR := by
  intro b hb
  simp only [Line.behind, List.mem_append] at hb
  rcases hb with (hbefore | hvalue) | hafter
  · exact ne_CR_of_isOws (line.before_blank b hbefore)
  · exact line.value_clean b hvalue
  · exact ne_CR_of_isOws (line.after_blank b hafter)

theorem Line.shown_clean (line : Line) : ∀ b ∈ line.shown, b ≠ CR :=
  fun b hb => line.behind_clean b (List.mem_of_mem_tail hb)

/-- What stands behind the colon of a plain line. -/
theorem Line.Plain.behind_eq (h : line.Plain) : line.behind = byte ' ' :: line.shown := by
  obtain ⟨hhead, -⟩ := h
  rw [Line.shown]
  cases hbehind : line.behind with
  | nil =>
      rw [hbehind] at hhead
      cases hhead
  | cons b tail =>
      rw [hbehind] at hhead
      cases hhead
      rfl

/-- A plain line is a field line as the reader expects it. -/
theorem Line.Plain.field (h : line.Plain) :
    ∃ field : Field, field.name = line.name ∧ field.value = line.shown ∧
      field.text = line.text := by
  have hne : line.shown ≠ [] := h.2
  have htext : line.text = line.name ++ ascii ": " ++ line.shown ++ eol1 := by
    rw [Line.text, h.behind_eq, List.append_assoc line.name (ascii ": ")]
    rfl
  exact ⟨⟨line.name, line.shown, line.name_nonempty, line.name_clean, hne, line.shown_clean⟩,
    rfl, rfl, htext.symm⟩

/-- A head of plain lines only. -/
theorem plain_fields (h : ∀ line ∈ lines, line.Plain) :
    ∃ fields : List Field, fieldsText fields = lines.flatMap Line.text ∧
      ∀ name, firstValue fields name = firstShown lines name := by
  induction lines with
  | nil => exact ⟨[], rfl, fun _ => rfl⟩
  | cons line lines ih =>
      obtain ⟨hline, hlines⟩ := List.forall_mem_cons.mp h
      obtain ⟨field, hname, hvalue, htext⟩ := hline.field
      obtain ⟨fields, hfields, hfirst⟩ := ih hlines
      refine ⟨field :: fields, ?_, fun name => ?_⟩
      · rw [fieldsText, List.flatMap_cons, htext, List.flatMap_cons, ← hfields]
        rfl
      · have hmore := hfirst name
        rw [firstValue, firstShown] at hmore ⊢
        rw [List.find?_cons, List.find?_cons, hname]
        by_cases hsame : line.name = name
        · simp only [hsame, decide_true, Option.map_some, hvalue]
        · simp only [hsame, decide_false]
          exact hmore

/-- Any other line makes the reader throw. -/
theorem fieldLine_throw (h : ¬ line.Plain) (rest : Bytes) :
    fieldLine.run (line.text ++ rest) = .throw .expectation := by
  have hname : (many1 (satisfy notCRColon)).run
      (line.name ++ (colon :: (line.behind ++ (eol1 ++ rest)))) =
        .ok line.name (colon :: (line.behind ++ (eol1 ++ rest))) := by
    refine many1_satisfy_append line.name_nonempty ?_ ?_
    · intro b hb
      simpa [notCRColon] using line.name_clean b hb
    · intro b tail heq
      cases heq
      decide
  have htext : line.text ++ rest =
      line.name ++ (colon :: (line.behind ++ (eol1 ++ rest))) := by
    simp only [Line.text, List.append_assoc, List.cons_append]
  rw [htext, fieldLine, bind_ok hname]
  by_cases hspace : line.behind.head? = some (byte ' ')
  · -- nothing stands behind the space
    have hshown : line.shown = [] := by
      by_contra hne
      exact h ⟨hspace, hne⟩
    have hbehind : line.behind = [byte ' '] := by
      rw [Line.shown] at hshown
      cases hcons : line.behind with
      | nil =>
          rw [hcons] at hspace
          cases hspace
      | cons b tail =>
          rw [hcons] at hspace hshown
          cases hspace
          cases hshown
          rfl
    have hcolon : (lit (ascii ": ")).run (colon :: (line.behind ++ (eol1 ++ rest))) =
        .ok () (eol1 ++ rest) := by
      rw [hbehind]
      exact lit_append (ascii ": ") _
    have hvalue : (many1 (satisfy notCR)).run (eol1 ++ rest) = .fail :=
      many1_fail (satisfy_fail (by decide))
    rw [must_bind_ok hcolon, must_bind_fail hvalue]
  · have hcolon : (lit (ascii ": ")).run (colon :: (line.behind ++ (eol1 ++ rest))) = .fail := by
      refine lit_fail fun hprefix => hspace ?_
      obtain ⟨-, hrest⟩ := List.cons_prefix_cons.mp hprefix
      cases hbehind : line.behind with
      | nil =>
          rw [hbehind] at hrest
          exact absurd (List.cons_prefix_cons.mp hrest).1 (by decide)
      | cons b tail =>
          rw [hbehind] at hrest
          exact congrArg some (List.cons_prefix_cons.mp hrest).1.symm
    rw [must_bind_fail hcolon]

theorem many_fieldLine_throw (h : ∃ line ∈ lines, ¬ line.Plain) (rest : Bytes) :
    (many fieldLine).run (lines.flatMap Line.text ++ rest) = .throw .expectation := by
  induction lines with
  | nil =>
      obtain ⟨line, hmem, -⟩ := h
      cases hmem
  | cons line lines ih =>
      rw [List.flatMap_cons, List.append_assoc]
      by_cases hline : line.Plain
      · obtain ⟨other, hmem, hother⟩ := h
        have hmore : ∃ other ∈ lines, ¬ other.Plain := by
          rcases List.mem_cons.mp hmem with rfl | hmem
          · exact absurd hline hother
          · exact ⟨other, hmem, hother⟩
        obtain ⟨field, -, -, htext⟩ := hline.field
        rw [← htext, many_round advances_fieldLine (field.fieldLine_text _), ih hmore]
        rfl
      · exact many_throw (fieldLine_throw hline _)

end Reading

/-! ## What is shown decides -/

section Deciding

variable {w : Nat} {status : StatusLine} {lines : List Line} {ec : Bool}

theorem spelledHead_ne_nil (status : StatusLine) (lines : List Line) (rest : Bytes) :
    (spelledHead status lines ++ rest).length ≠ 0 := by
  have heol : eol1.length = 2 := rfl
  simp only [spelledHead, List.length_append]
  omega

theorem parseHeader_throw (h : ∃ line ∈ lines, ¬ line.Plain) (rest : Bytes) :
    parseHeader (spelledHead status lines ++ rest) default = .error .expectation := by
  have hsplit : spelledHead status lines ++ rest =
      status.text ++ (lines.flatMap Line.text ++ (eol1 ++ rest)) := by
    simp only [spelledHead, List.append_assoc]
  have hstatus := opt_ok (status.statusLine_run (lines.flatMap Line.text ++ (eol1 ++ rest)))
  have hfields : fieldLines.run (lines.flatMap Line.text ++ (eol1 ++ rest)) =
      .throw .expectation := bind_throw (many_fieldLine_throw h (eol1 ++ rest))
  rw [parseHeader, hsplit, hstatus]
  simp only [hfields]

/-- A head with a line that is not plain is refused. -/
theorem framing_refused (h : ∃ line ∈ lines, ¬ line.Plain) (rest : Bytes) :
    framing (headerReadComplete w default ec (spelledHead status lines ++ rest)) = .refused := by
  rw [headerReadComplete, if_neg (spelledHead_ne_nil status lines rest), parseHeader_throw h]
  rfl

/-- Plain lines are taken for what they show. -/
theorem framing_plain (h : ∀ line ∈ lines, line.Plain) (rest : Bytes) :
    framing (headerReadComplete w default ec (spelledHead status lines ++ rest)) =
      if ShowsChunked lines then .chunked
      else (shownLength w lines).elim .refused .counted := by
  obtain ⟨fields, hfields, hfirst⟩ := plain_fields h
  have hhead : spelledHead status lines = headText status fields := by
    rw [spelledHead, headText, hfields]
  have hparsed := parseHeader_run status fields rest
  have hshown : ∀ name, (insertFields OrderedMap.empty (pairs fields)).find? name =
      firstShown lines name := by
    intro name
    rw [Head.find?_insertFields, OrderedMap.find?_empty, Option.none_or, ← hfirst]
    rfl
  have hlength := spelledHead_ne_nil status lines rest
  rw [hhead] at hlength ⊢
  rw [headerReadComplete, if_neg hlength, hparsed]
  have hcoding : mapGetOr (insertFields OrderedMap.empty (pairs fields))
      (ascii "Transfer-Encoding") (ascii "") = ascii "chunked" ↔ ShowsChunked lines := by
    rw [mapGetOr, hshown, ShowsChunked, transferEncoding, chunked]
    cases firstShown lines (ascii "Transfer-Encoding") with
    | none => exact iff_of_false (by decide) (by rintro ⟨⟩)
    | some text => rw [Option.getD_some, Option.some_inj]
  have hcast : lexicalCastSize w (mapGetOr (insertFields OrderedMap.empty (pairs fields))
      (ascii "Content-Length") (ascii "0")) = shownLength w lines := by
    rw [mapGetOr, hshown, shownLength, contentLength]
  by_cases hchunked : ShowsChunked lines
  · rw [if_pos hchunked]
    simp only [if_pos (hcoding.mpr hchunked)]
    rfl
  · rw [if_neg hchunked]
    simp only [if_neg (hcoding.not.mpr hchunked), hcast]
    cases shownLength w lines with
    | none => rfl
    | some length => rfl

/-- What the lines show, as a framing. -/
def shownFraming (w : Nat) (lines : List Line) : Framing :=
  if Unreadable w lines then .refused
  else if ShowsChunked lines then .chunked
  else .counted ((shownLength w lines).getD 0)

theorem framing_spelledHead (rest : Bytes) :
    framing (headerReadComplete w default ec (spelledHead status lines ++ rest)) =
      shownFraming w lines := by
  rw [shownFraming]
  by_cases hplain : ∃ line ∈ lines, ¬ line.Plain
  · have hunreadable : Unreadable w lines := Or.inl hplain
    rw [if_pos hunreadable, framing_refused hplain]
  · have hall : ∀ line ∈ lines, line.Plain := by
      intro line hmem
      by_contra hline
      exact hplain ⟨line, hmem, hline⟩
    rw [framing_plain hall]
    by_cases hchunked : ShowsChunked lines
    · have hreadable : ¬ Unreadable w lines := by
        rintro (h | h)
        · exact hplain h
        · exact h.1 hchunked
      rw [if_pos hchunked, if_neg hreadable, if_pos hchunked]
    · rw [if_neg hchunked, if_neg hchunked]
      cases hlength : shownLength w lines with
      | none =>
          have hunreadable : Unreadable w lines := Or.inr ⟨hchunked, hlength⟩
          rw [if_pos hunreadable, Option.elim_none]
      | some length =>
          have hreadable : ¬ Unreadable w lines := by
            rintro (h | h)
            · exact hplain h
            · rw [hlength] at h
              cases h.2
          rw [if_neg hreadable, Option.elim_some, Option.getD_some]

/-- A readable head that does not show `chunked` shows a length. -/
theorem shownLength_of_readable (h : ¬ Unreadable w lines) (hchunked : ¬ ShowsChunked lines) :
    ∃ length, shownLength w lines = some length := by
  rw [Unreadable, not_or, not_and] at h
  exact Option.ne_none_iff_exists'.mp (h.2 hchunked)

theorem shownFraming_eq_iff {left right : List Line} :
    shownFraming w left = shownFraming w right ↔ ShowSame w left right := by
  rw [shownFraming, shownFraming, ShowSame]
  by_cases hleft : Unreadable w left
  · by_cases hright : Unreadable w right
    · rw [if_pos hleft, if_pos hright]
      exact iff_of_true rfl (Or.inl ⟨hleft, hright⟩)
    · rw [if_pos hleft, if_neg hright]
      refine iff_of_false ?_ ?_
      · split_ifs <;> rintro ⟨⟩
      · rintro (h | h)
        · exact hright h.2
        · exact h.1 hleft
  · by_cases hright : Unreadable w right
    · rw [if_neg hleft, if_pos hright]
      refine iff_of_false ?_ ?_
      · split_ifs <;> rintro ⟨⟩
      · rintro (h | h)
        · exact hleft h.1
        · exact h.2.1 hright
    · rw [if_neg hleft, if_neg hright]
      constructor
      · intro hsame
        refine Or.inr ⟨hleft, hright, ?_, fun hnot => ?_⟩
        · constructor
          · intro hchunked
            by_contra hnot
            rw [if_pos hchunked, if_neg hnot] at hsame
            cases hsame
          · intro hchunked
            by_contra hnot
            rw [if_neg hnot, if_pos hchunked] at hsame
            cases hsame
        · by_cases hchunked : ShowsChunked right
          · rw [if_neg hnot, if_pos hchunked] at hsame
            cases hsame
          · obtain ⟨m, hm⟩ := shownLength_of_readable hleft hnot
            obtain ⟨n, hn⟩ := shownLength_of_readable hright hchunked
            rw [if_neg hnot, if_neg hchunked, hm, hn] at hsame
            cases hsame
            rw [hm, hn]
      · rintro (h | ⟨-, -, hcoding, hlength⟩)
        · exact absurd h.1 hleft
        · by_cases hchunked : ShowsChunked left
          · rw [if_pos hchunked, if_pos (hcoding.mp hchunked)]
          · rw [if_neg hchunked, if_neg (hcoding.not.mp hchunked), hlength hchunked]

/-- Two equivalent heads are framed alike, whatever follows, just when they show the same. -/
theorem framing_eq_iff (w : Nat) (ec : Bool) (heads : Heads) (rest : Bytes) :
    framing (headerReadComplete w default ec (spelledHead heads.status heads.left ++ rest)) =
        framing (headerReadComplete w default ec (spelledHead heads.status heads.right ++ rest)) ↔
      ShowSame w heads.left heads.right := by
  rw [framing_spelledHead, framing_spelledHead, shownFraming_eq_iff]

/-- A field name in lower case is not found, and a further field with no value is refused. -/
theorem not_framing_eq :
    (¬ ∀ (heads : Heads) (rest : Bytes),
      framing (headerReadComplete 64 default false
          (spelledHead heads.status heads.left ++ rest)) =
        framing (headerReadComplete 64 default false
          (spelledHead heads.status heads.right ++ rest))) ∧
    ∃ (status : StatusLine) (line : Line), Unrelated line ∧ ∀ rest : Bytes,
      framing (headerReadComplete 64 default false (spelledHead status [] ++ rest)) =
        .counted 0 ∧
      framing (headerReadComplete 64 default false (spelledHead status [line] ++ rest)) =
        .refused := by
  have hstatus : ∃ status : StatusLine, status.digits = ascii "200" :=
    ⟨⟨byte '1', byte '1', none, ascii "200", ascii "OK", by decide, by decide, by rintro b ⟨⟩,
      by decide, by decide, by decide, by decide, by decide⟩, rfl⟩
  obtain ⟨status, -⟩ := hstatus
  constructor
  · intro hall
    obtain ⟨usual, husual⟩ : ∃ line : Line, line =
        ⟨ascii "Transfer-Encoding", ascii " ", ascii "chunked", [], by decide, by decide,
          by decide, by decide, by decide, by rintro b ⟨⟩; decide, by rintro b ⟨⟩; decide⟩ :=
      ⟨_, rfl⟩
    obtain ⟨lowered, hlowered⟩ : ∃ line : Line, line =
        ⟨ascii "transfer-encoding", ascii " ", ascii "chunked", [], by decide, by decide,
          by decide, by decide, by decide, by rintro b ⟨⟩; decide, by rintro b ⟨⟩; decide⟩ :=
      ⟨_, rfl⟩
    have hsame : SameField usual lowered := by
      rw [husual, hlowered]
      exact ⟨by decide, Or.inl rfl⟩
    have hframed := hall ⟨status, [usual], [lowered], .same hsame .nil⟩ []
    rw [framing_spelledHead, framing_spelledHead] at hframed
    have hne : shownFraming 64 [usual] ≠ shownFraming 64 [lowered] := by
      rw [husual, hlowered]
      decide
    exact hne hframed
  · refine ⟨status, ⟨ascii "X-Trace", [], [], [], by decide, by decide, by decide, by decide,
      by decide, by rintro b ⟨⟩, by rintro b ⟨⟩⟩, ⟨by decide, by decide⟩, fun rest => ?_⟩
    rw [framing_spelledHead, framing_spelledHead]
    constructor <;> decide

end Deciding

/-! ## Heads spelled in the usual way -/

section Usual

variable {a b : Line} {left right : List Line}

/-- A line as the code expects it: a field that has a part in the framing has its usual name, one
space in front of its value and none behind, and the name `chunked` in lower case. -/
structure Usual (line : Line) : Prop where
  plain : line.Plain
  coding : lower line.name = lower transferEncoding → line.name = transferEncoding ∧
    line.shown = line.value ∧
      ∀ coding ∈ line.value.splitOn (byte ','), trim (lower coding) = chunked →
        lower coding = coding
  length : lower line.name = lower contentLength → line.name = contentLength ∧
    line.shown = line.value

/-- Codings in lower case are the same only if they are equal. -/
theorem SameCoding.eq {c d : Bytes} (h : SameCoding c d)
    (hc : trim (lower c) = chunked → lower c = c) (hd : trim (lower d) = chunked → lower d = d) :
    c = d := by
  rcases h with h | ⟨hlower, htrim⟩
  · exact h
  · rw [← hc htrim, hlower, hd (hlower ▸ htrim)]

theorem forall₂_eq {cs ds : List Bytes} (h : List.Forall₂ SameCoding cs ds)
    (hcs : ∀ c ∈ cs, trim (lower c) = chunked → lower c = c)
    (hds : ∀ d ∈ ds, trim (lower d) = chunked → lower d = d) : cs = ds := by
  induction h with
  | nil => rfl
  | cons hsame _ ih =>
      obtain ⟨hc, hcs⟩ := List.forall_mem_cons.mp hcs
      obtain ⟨hd, hds⟩ := List.forall_mem_cons.mp hds
      rw [hsame.eq hc hd, ih hcs hds]

/-- The two fields that have a part in the framing, in their usual spelling. -/
theorem SameField.usual (h : SameField a b) (ha : Usual a) (hb : Usual b) {name : Bytes}
    (hname : name = transferEncoding ∨ name = contentLength) :
    (a.name = name ↔ b.name = name) ∧ (a.name = name → a.shown = b.shown) := by
  rcases hname with rfl | rfl
  · have hnames : a.name = transferEncoding ↔ b.name = transferEncoding := by
      constructor
      · intro hname
        exact (hb.coding (by rw [← h.name, hname])).1
      · intro hname
        exact (ha.coding (by rw [h.name, hname])).1
    refine ⟨hnames, fun hname => ?_⟩
    obtain ⟨-, hshowna, hlowera⟩ := ha.coding (by rw [hname])
    obtain ⟨-, hshownb, hlowerb⟩ := hb.coding (by rw [hnames.mp hname])
    rw [hshowna, hshownb]
    rcases h.value with hvalue | ⟨-, hcodings⟩
    · exact hvalue
    · have hsplit := forall₂_eq hcodings hlowera hlowerb
      have hjoin : ∀ v : Bytes, [byte ','].intercalate (v.splitOn (byte ',')) = v :=
        fun _ => List.intercalate_splitOn (byte ',')
      rw [← hjoin a.value, hsplit, hjoin]
  · have hnames : a.name = contentLength ↔ b.name = contentLength := by
      constructor
      · intro hname
        exact (hb.length (by rw [← h.name, hname])).1
      · intro hname
        exact (ha.length (by rw [h.name, hname])).1
    refine ⟨hnames, fun hname => ?_⟩
    obtain ⟨-, hshowna⟩ := ha.length (by rw [hname])
    obtain ⟨-, hshownb⟩ := hb.length (by rw [hnames.mp hname])
    rw [hshowna, hshownb]
    rcases h.value with hvalue | ⟨hcoding, -⟩
    · exact hvalue
    · rw [hname] at hcoding
      exact absurd hcoding (by decide)

theorem Unrelated.ne {line : Line} (h : Unrelated line) {name : Bytes}
    (hname : name = transferEncoding ∨ name = contentLength) : line.name ≠ name := by
  rintro rfl
  rcases hname with hname | hname
  · exact h.1 (by rw [hname])
  · exact h.2 (by rw [hname])

theorem firstShown_cons_of_ne {line : Line} {name : Bytes} (h : line.name ≠ name)
    (lines : List Line) : firstShown (line :: lines) name = firstShown lines name := by
  rw [firstShown, List.find?_cons]
  simp only [h, decide_false]
  rfl

/-- Equivalent heads in the usual spelling show the same texts. -/
theorem firstShown_usual (h : Equivalent left right) (hleft : ∀ line ∈ left, Usual line)
    (hright : ∀ line ∈ right, Usual line) {name : Bytes}
    (hname : name = transferEncoding ∨ name = contentLength) :
    firstShown left name = firstShown right name := by
  induction h with
  | nil => rfl
  | @same a b left right hsame _ ih =>
      obtain ⟨ha, hleft⟩ := List.forall_mem_cons.mp hleft
      obtain ⟨hb, hright⟩ := List.forall_mem_cons.mp hright
      obtain ⟨hnames, hshown⟩ := hsame.usual ha hb hname
      by_cases haname : a.name = name
      · have hbname := hnames.mp haname
        rw [firstShown, firstShown, List.find?_cons, List.find?_cons]
        simp only [haname, hbname, decide_true, Option.map_some, hshown haname]
      · rw [firstShown_cons_of_ne haname, firstShown_cons_of_ne (hnames.not.mp haname),
          ih hleft hright]
  | left hunrelated _ ih =>
      rw [firstShown_cons_of_ne (hunrelated.ne hname)]
      exact ih (List.forall_mem_cons.mp hleft).2 hright
  | right hunrelated _ ih =>
      rw [firstShown_cons_of_ne (hunrelated.ne hname)]
      exact ih hleft (List.forall_mem_cons.mp hright).2

/-- So they are framed alike. -/
theorem showSame_usual (w : Nat) (h : Equivalent left right) (hleft : ∀ line ∈ left, Usual line)
    (hright : ∀ line ∈ right, Usual line) : ShowSame w left right := by
  have hcoding : ShowsChunked left ↔ ShowsChunked right := by
    rw [ShowsChunked, ShowsChunked, firstShown_usual h hleft hright (Or.inl rfl)]
  have hlength : shownLength w left = shownLength w right := by
    rw [shownLength, shownLength, firstShown_usual h hleft hright (Or.inr rfl)]
  have hplain : ∀ lines : List Line, (∀ line ∈ lines, Usual line) →
      ¬ ∃ line ∈ lines, ¬ line.Plain := by
    rintro lines husual ⟨line, hmem, hnot⟩
    exact hnot (husual line hmem).plain
  have hreadable : Unreadable w left ↔ Unreadable w right := by
    rw [Unreadable, Unreadable, or_iff_right (hplain left hleft),
      or_iff_right (hplain right hright), hcoding, hlength]
  by_cases hleft : Unreadable w left
  · exact Or.inl ⟨hleft, hreadable.mp hleft⟩
  · exact Or.inr ⟨hleft, hreadable.not.mp hleft, hcoding, fun _ => hlength⟩

end Usual

end BlackCircle.Http.Spelling
