import BlackCircle.Foundation.Delimiter
import BlackCircle.Http.Response

/-!
# Well-formed message texts

The wire format the reader is meant for: a status line, `name: value` lines and
an empty line; chunks with a hexadecimal size line; trailer lines.  Each piece
is a structure that carries its own well-formedness, has a text, and comes with
the two facts the reader's proofs use: where its delimiter first ends, and what
the buffer parsers make of it whatever stands behind it.
-/

namespace BlackCircle.Http.Message

open BlackCircle.Foundation
open BlackCircle.Foundation.ByteString
open BlackCircle.Foundation.Delimiter
open BlackCircle.Foundation.Numeral
open BlackCircle.Foundation.Peg
open BlackCircle.Http.Response

/-! ## Field lines -/

structure Field where
  name : Bytes
  value : Bytes
  name_nonempty : name ≠ []
  name_clean : ∀ b ∈ name, b ≠ CR ∧ b ≠ colon
  value_nonempty : value ≠ []
  value_clean : ∀ b ∈ value, b ≠ CR

namespace Field

def line (field : Field) : Bytes := field.name ++ ascii ": " ++ field.value

def text (field : Field) : Bytes := field.line ++ eol1

theorem line_nonempty (field : Field) : field.line ≠ [] := by
  simp [line, field.name_nonempty]

theorem CR_notMem_line (field : Field) : CR ∉ field.line := by
  intro hmem
  simp only [line, List.mem_append] at hmem
  rcases hmem with (hname | hsep) | hvalue
  · exact (field.name_clean CR hname).1 rfl
  · exact absurd hsep (by decide)
  · exact field.value_clean CR hvalue rfl

theorem fieldLine_text (field : Field) (rest : Bytes) :
    fieldLine.run (field.text ++ rest) = .ok (field.name, field.value) rest := by
  have hname : (many1 (satisfy notCRColon)).run
      (field.name ++ (ascii ": " ++ (field.value ++ (eol1 ++ rest)))) =
        .ok field.name (ascii ": " ++ (field.value ++ (eol1 ++ rest))) := by
    refine many1_satisfy_append field.name_nonempty ?_ ?_
    · intro b hb
      simpa [notCRColon] using field.name_clean b hb
    · intro b tail heq
      cases heq
      decide
  have hvalue : (many1 (satisfy notCR)).run (field.value ++ (eol1 ++ rest)) =
      .ok field.value (eol1 ++ rest) := by
    refine many1_satisfy_append field.value_nonempty ?_ ?_
    · intro b hb
      simpa [notCR] using field.value_clean b hb
    · intro b tail heq
      cases heq
      decide
  rw [text, line]
  simp only [List.append_assoc]
  rw [fieldLine, bind_ok hname, must_bind_ok (lit_append _ _), must_bind_ok hvalue,
    must_bind_ok (lit_append _ _)]
  rfl

end Field

/-- The text of a list of field lines. -/
def fieldsText (fields : List Field) : Bytes := fields.flatMap Field.text

/-- The name and value pairs of field lines, as the parser returns them. -/
def pairs (fields : List Field) : List (Bytes × Bytes) :=
  fields.map fun field => (field.name, field.value)

theorem fieldLine_eol1 (rest : Bytes) : fieldLine.run (eol1 ++ rest) = .fail :=
  bind_fail (many1_fail rfl)

theorem many_fieldLine (fields : List Field) (rest : Bytes) :
    (many fieldLine).run (fieldsText fields ++ (eol1 ++ rest)) =
      .ok (pairs fields) (eol1 ++ rest) := by
  induction fields with
  | nil => exact many_fail (fieldLine_eol1 rest)
  | cons field fields ih =>
      have htext : fieldsText (field :: fields) ++ (eol1 ++ rest) =
          field.text ++ (fieldsText fields ++ (eol1 ++ rest)) := by
        simp [fieldsText]
      rw [htext]
      exact many_cons advances_fieldLine (field.fieldLine_text _) ih

theorem fieldLines_text (fields : List Field) (rest : Bytes) :
    fieldLines.run (fieldsText fields ++ (eol1 ++ rest)) = .ok (pairs fields) rest := by
  rw [fieldLines, bind_ok (many_fieldLine fields rest), must_bind_ok (lit_append _ _)]
  rfl

/-- Field lines and the empty line behind them: the text ends with the first
empty line in it. -/
theorem firstEnds_fieldsText {line : Bytes} (hline : CR ∉ line) (fields : List Field) :
    FirstEnds eol2 (line ++ eol1 ++ fieldsText fields ++ eol1) := by
  have hlines : ∀ l ∈ fields.map Field.line, CR ∉ l ∧ l ≠ [] := by
    intro l hl
    obtain ⟨field, -, rfl⟩ := List.mem_map.mp hl
    exact ⟨field.CR_notMem_line, field.line_nonempty⟩
  have hfirst := firstEnds_lines CR_ne_LF hline (fields.map Field.line) hlines
  rw [List.flatMap_map] at hfirst
  have heol : eol1 = [CR, LF] := rfl
  have hjoined : line ++ eol1 ++ fieldsText fields ++ eol1 =
      line ++ CR :: LF :: (fieldsText fields ++ [CR, LF]) := by
    simp [heol]
  rw [hjoined]
  exact hfirst

/-- The text of field lines does not begin like a status line unless a name does. -/
theorem not_statusLine_fieldsText {fields : List Field} (rest : Bytes)
    (hplain : ∀ field ∈ fields, ¬ ascii "HTTP/" <+: field.name) :
    ¬ ascii "HTTP/" <+: fieldsText fields ++ (eol1 ++ rest) := by
  cases fields with
  | nil =>
      intro hprefix
      have hfirst := (List.cons_prefix_cons.mp hprefix).1
      exact absurd hfirst (by decide)
  | cons field fields =>
      intro hprefix
      have htext : fieldsText (field :: fields) ++ (eol1 ++ rest) =
          field.name ++ (colon :: (ascii " " ++ field.value ++ eol1 ++ fieldsText fields ++
            (eol1 ++ rest))) := by
        simp [fieldsText, Field.text, Field.line, ascii, colon, byte]
      rw [htext] at hprefix
      have hcolon : colon ∉ ascii "HTTP/" := by decide
      exact hplain field List.mem_cons_self (prefix_of_notMem hcolon hprefix)

/-- `parse_header` on field lines without a status line: the status stays as it is. -/
theorem parseHeader_fieldsText {fields : List Field} (rest : Bytes) (res : HttpResponseData)
    (hplain : ∀ field ∈ fields, ¬ ascii "HTTP/" <+: field.name) :
    parseHeader (fieldsText fields ++ eol1 ++ rest) res =
      .ok ((fieldsText fields ++ eol1).length,
        { res with header := insertFields res.header (pairs fields) }) := by
  have hstatus : (opt statusLine).run (fieldsText fields ++ (eol1 ++ rest)) =
      .ok none (fieldsText fields ++ (eol1 ++ rest)) :=
    opt_fail (bind_fail (lit_fail (not_statusLine_fieldsText rest hplain)))
  have hlen : (fieldsText fields ++ eol1 ++ rest).length - rest.length =
      (fieldsText fields ++ eol1).length := by
    rw [List.length_append, Nat.add_sub_cancel]
  rw [parseHeader, hlen.symm, List.append_assoc, hstatus]
  simp only [fieldLines_text, Option.getD_none]

/-! ## Heads -/

/-- A response head: `HTTP/d.d code reason`, the field lines, the empty line. -/
structure Head where
  major : Byte
  minor : Byte
  code : Bytes
  reason : Bytes
  fields : List Field
  major_digit : isDigit 10 major = true
  minor_digit : isDigit 10 minor = true
  code_numeral : IsNumeral 10 code
  code_fits : value 10 code < 2 ^ 31
  reason_nonempty : reason ≠ []
  reason_clean : ∀ b ∈ reason, b ≠ CR

namespace Head

def startLine (head : Head) : Bytes :=
  ascii "HTTP/" ++ [head.major] ++ ascii "." ++ [head.minor] ++ ascii " " ++ head.code ++
    ascii " " ++ head.reason

def text (head : Head) : Bytes :=
  head.startLine ++ eol1 ++ fieldsText head.fields ++ eol1

/-- The status a head announces. -/
def status (head : Head) : Int × Bytes := ((value 10 head.code : Int), head.reason)

/-- The header map of a head: each name with the value of its first line. -/
def header (head : Head) : OrderedMap Bytes Bytes :=
  insertFields OrderedMap.empty (pairs head.fields)

/-- The value of the first field line with a name. -/
def fieldValue (head : Head) (name : Bytes) : Option Bytes :=
  (head.fields.find? fun field => field.name = name).map Field.value

theorem find_pairs (fields : List Field) (name : Bytes) :
    EntryList.find name (pairs fields) =
      (fields.find? fun field => field.name = name).map Field.value := by
  induction fields with
  | nil => rfl
  | cons field fields ih =>
      have hcons : pairs (field :: fields) = (field.name, field.value) :: pairs fields := rfl
      rw [hcons, EntryList.find, ih]
      by_cases hname : field.name = name
      · simp [hname]
      · simp [hname, Ne.symm hname]

theorem find?_insertFields (fields : List Field) (m : OrderedMap Bytes Bytes) (name : Bytes) :
    (insertFields m (pairs fields)).find? name =
      (m.find? name).or ((fields.find? fun field => field.name = name).map Field.value) := by
  rw [Response.find?_insertFields, find_pairs]

/-- The header map gives each name the value of its first line. -/
theorem find?_header (head : Head) (name : Bytes) :
    head.header.find? name = head.fieldValue name := by
  rw [header, find?_insertFields]
  simp [fieldValue]

/-- The response data the reader holds after this head. -/
def response (head : Head) : HttpResponseData := ⟨head.status, head.header, []⟩

theorem notCR_of_digit {b : Byte} {base : Nat} (hbase : base ≤ 36) (h : isDigit base b = true) :
    b ≠ CR := by
  rintro rfl
  have hlt : digitValue CR < base := by simpa [isDigit] using h
  have hvalue : digitValue CR = 36 := by decide
  omega

theorem CR_notMem_startLine (head : Head) : CR ∉ head.startLine := by
  intro hmem
  simp only [startLine, List.mem_append, List.mem_singleton] at hmem
  rcases hmem with ((((((h | h) | h) | h) | h) | h) | h) | h
  · exact absurd h (by decide)
  · exact notCR_of_digit (by omega) head.major_digit h.symm
  · exact absurd h (by decide)
  · exact notCR_of_digit (by omega) head.minor_digit h.symm
  · exact absurd h (by decide)
  · exact notCR_of_digit (by omega) (head.code_numeral.digits CR h) rfl
  · exact absurd h (by decide)
  · exact head.reason_clean CR h rfl

/-- The empty line of a head is the first one in it. -/
theorem firstEnds (head : Head) : FirstEnds eol2 head.text :=
  firstEnds_fieldsText head.CR_notMem_startLine head.fields

theorem digit_cons {b : Byte} {rest : Bytes} (h : isDigit 10 b = true) :
    digit.run (b :: rest) = .ok b rest :=
  satisfy_ok h

theorem statusLine_text (head : Head) (rest : Bytes) :
    statusLine.run (head.startLine ++ (eol1 ++ rest)) = .ok head.status rest := by
  have hcode : int_.run (head.code ++ (ascii " " ++ (head.reason ++ (eol1 ++ rest)))) =
      .ok (value 10 head.code : Int) (ascii " " ++ (head.reason ++ (eol1 ++ rest))) := by
    have hfits := head.code_fits
    refine signedNumeral_append head.code_numeral (terminates_cons (by decide)) ?_ ?_
    · omega
    · omega
  have hreason : (many1 (satisfy notCR)).run (head.reason ++ (eol1 ++ rest)) =
      .ok head.reason (eol1 ++ rest) := by
    refine many1_satisfy_append head.reason_nonempty ?_ ?_
    · intro b hb
      simpa [notCR] using head.reason_clean b hb
    · intro b tail heq
      cases heq
      decide
  simp only [startLine, List.append_assoc, List.cons_append, List.nil_append]
  rw [statusLine, bind_ok (lit_append _ _), must_bind_ok (digit_cons head.major_digit),
    must_bind_ok (lit_append _ _), must_bind_ok (digit_cons head.minor_digit),
    must_bind_ok (lit_append _ _), must_bind_ok hcode, must_bind_ok (lit_append _ _),
    must_bind_ok hreason, must_bind_ok (lit_append _ _)]
  rfl

/-- `parse_header` takes exactly the head, whatever stands behind it. -/
theorem parseHeader_text (head : Head) (rest : Bytes) :
    parseHeader (head.text ++ rest) default = .ok (head.text.length, head.response) := by
  have hsplit : head.text ++ rest =
      head.startLine ++ (eol1 ++ (fieldsText head.fields ++ (eol1 ++ rest))) := by
    simp [text]
  have hstatus := opt_ok (head.statusLine_text (fieldsText head.fields ++ (eol1 ++ rest)))
  have hlen : (head.text ++ rest).length - rest.length = head.text.length := by simp
  rw [parseHeader, hlen.symm, hsplit, hstatus]
  simp only [fieldLines_text]
  rfl

theorem text_length_pos (head : Head) : 0 < head.text.length := by
  simp [text, eol1, ascii]

/-- `HTTP/1.1 200 OK` with the given field lines. -/
def ok (fields : List Field) : Head where
  major := byte '1'
  minor := byte '1'
  code := ascii "200"
  reason := ascii "OK"
  fields := fields
  major_digit := by decide
  minor_digit := by decide
  code_numeral := by decide
  code_fits := by decide
  reason_nonempty := by decide
  reason_clean := by decide

end Head

/-! ## Chunks -/

/-- A chunk as it is sent: a size in hexadecimal, an optional extension, the data. -/
structure Chunk where
  size : Bytes
  extension : Bytes
  data : Bytes
  size_numeral : IsNumeral 16 size
  size_value : value 16 size = data.length
  extension_start : ∀ b tail, extension = b :: tail → b = byte ';'
  extension_clean : ∀ b ∈ extension, b ≠ CR ∧ b ≠ LF
  data_nonempty : data ≠ []

/-- `parse_chunk_size` takes a number in range and everything up to the next line feed. -/
theorem chunkSizeLine_upto {size tail : Bytes} (hsize : IsNumeral 16 size) {rest : Bytes}
    (hstop : Terminates 16 (tail ++ LF :: rest)) (hfits : value 16 size < 2 ^ 32)
    (hclean : LF ∉ tail) :
    chunkSizeLine.run (size ++ (tail ++ LF :: rest)) = .ok (value 16 size) rest := by
  have hline : (many (satisfy notLF)).run (tail ++ LF :: rest) = .ok tail (LF :: rest) := by
    refine many_satisfy_append ?_ ?_
    · intro b hb
      have hne : b ≠ LF := fun heq => hclean (heq ▸ hb)
      simpa [notLF] using hne
    · intro b tail heq
      cases heq
      decide
  have hend : (lit [LF]).run (LF :: rest) = .ok () rest := lit_append [LF] rest
  rw [chunkSizeLine, bind_ok (unsignedNumeral_append hsize hstop hfits), must_bind_ok hline,
    must_bind_ok hend]
  rfl

/-- A size line: hexadecimal digits and an optional extension. -/
structure SizeLine (size extension : Bytes) : Prop where
  numeral : IsNumeral 16 size
  start : ∀ b tail, extension = b :: tail → b = byte ';'
  clean : ∀ b ∈ extension, b ≠ CR ∧ b ≠ LF

namespace SizeLine

variable {size extension : Bytes}

theorem firstEnds (h : SizeLine size extension) :
    FirstEnds eol1 (size ++ extension ++ eol1) := by
  have hfree : CR ∉ size ++ extension := by
    intro hmem
    rcases List.mem_append.mp hmem with hsize | hext
    · exact h.numeral.notMem (by decide) hsize
    · exact (h.clean CR hext).1 rfl
  exact firstEnds_of_notMem hfree

theorem terminates (h : SizeLine size extension) (rest : Bytes) :
    Terminates 16 (extension ++ eol1 ++ rest) := by
  cases hext : extension with
  | nil => exact terminates_cons (by decide)
  | cons b tail =>
      rw [h.start b tail hext]
      exact terminates_cons (by decide)

theorem chunkSizeLine_text (h : SizeLine size extension) (hfits : value 16 size < 2 ^ 32)
    (rest : Bytes) :
    chunkSizeLine.run (size ++ extension ++ eol1 ++ rest) = .ok (value 16 size) rest := by
  have hsplit : size ++ extension ++ eol1 ++ rest =
      size ++ ((extension ++ [CR]) ++ LF :: rest) := by
    simp [eol1, ascii, CR, LF, byte]
  have hstop : Terminates 16 ((extension ++ [CR]) ++ LF :: rest) := by
    simpa [eol1, ascii, CR, LF, byte] using h.terminates rest
  have hclean : LF ∉ extension ++ [CR] := by
    rw [List.mem_append, List.mem_singleton, not_or]
    exact ⟨fun hmem => (h.clean LF hmem).2 rfl, by decide⟩
  rw [hsplit]
  exact chunkSizeLine_upto h.numeral hstop hfits hclean

/-- `parse_chunk_size` takes exactly the size line, whatever stands behind it. -/
theorem parseChunkSize_text (h : SizeLine size extension) (hfits : value 16 size < 2 ^ 32)
    (rest : Bytes) (s : Nat) :
    parseChunkSize (size ++ extension ++ eol1 ++ rest) s =
      .ok ((size ++ extension ++ eol1).length, value 16 size) := by
  have hlen : (size ++ extension ++ eol1 ++ rest).length - rest.length =
      (size ++ extension ++ eol1).length := by
    rw [List.length_append, Nat.add_sub_cancel]
  rw [parseChunkSize, h.chunkSizeLine_text hfits rest]
  dsimp only
  rw [hlen]

/-- `parse_header` throws on a size line without an extension: it reads a field name, and no
colon follows. -/
theorem parseHeader_sizeLine (h : IsNumeral 16 size) (rest : Bytes) (res : HttpResponseData) :
    parseHeader (size ++ (eol1 ++ rest)) res = .error .expectation := by
  have hstart : ¬ ascii "HTTP/" <+: size ++ (eol1 ++ rest) := by
    cases hsize : size with
    | nil => exact absurd hsize h.nonempty
    | cons b tail =>
        intro hprefix
        have hb := h.digits b (by simp [hsize])
        rw [← (List.cons_prefix_cons.mp hprefix).1] at hb
        exact absurd hb (by decide)
  have hstatus : (opt statusLine).run (size ++ (eol1 ++ rest)) =
      .ok none (size ++ (eol1 ++ rest)) :=
    opt_fail (bind_fail (lit_fail hstart))
  have hname : (many1 (satisfy notCRColon)).run (size ++ (eol1 ++ rest)) =
      .ok size (eol1 ++ rest) := by
    refine many1_satisfy_append h.nonempty ?_ ?_
    · intro b hb
      have hcr : b ≠ CR := by
        rintro rfl
        exact h.notMem (by decide) hb
      have hcolon : b ≠ colon := by
        rintro rfl
        exact h.notMem (by decide) hb
      simp [notCRColon, hcr, hcolon]
    · intro b tail heq
      cases heq
      decide
  have hcolon : ¬ ascii ": " <+: eol1 ++ rest := by
    intro hprefix
    exact absurd (List.cons_prefix_cons.mp hprefix).1 (by decide)
  have hfield : fieldLine.run (size ++ (eol1 ++ rest)) = .throw .expectation := by
    rw [fieldLine, bind_ok hname, must_bind_fail (lit_fail hcolon)]
  have hfields : fieldLines.run (size ++ (eol1 ++ rest)) = .throw .expectation :=
    bind_throw (many_throw hfield)
  rw [parseHeader, hstatus]
  simp only [hfields]

/-- `parse_chunk_size` refuses a number beyond 32 bits: nothing is consumed, and the size
variable keeps its value. -/
theorem parseChunkSize_oversize (h : SizeLine size extension) (hover : 2 ^ 32 ≤ value 16 size)
    (rest : Bytes) (s : Nat) :
    parseChunkSize (size ++ extension ++ eol1 ++ rest) s = .ok (0, s) := by
  have hrefuse : (unsignedNumeral 16 (2 ^ 32)).run (size ++ (extension ++ eol1 ++ rest)) =
      .fail :=
    unsignedNumeral_overflow h.numeral (h.terminates rest) hover
  have hline : chunkSizeLine.run (size ++ extension ++ eol1 ++ rest) = .fail := by
    simp only [List.append_assoc] at hrefuse ⊢
    exact bind_fail hrefuse
  rw [parseChunkSize, hline]

end SizeLine

namespace Chunk

theorem sizeLine (chunk : Chunk) : SizeLine chunk.size chunk.extension where
  numeral := chunk.size_numeral
  start := chunk.extension_start
  clean := chunk.extension_clean

def sizeText (chunk : Chunk) : Bytes := chunk.size ++ chunk.extension ++ eol1

/-- The data of a chunk followed by its closing CRLF. -/
def body (chunk : Chunk) : Bytes := chunk.data ++ eol1

def text (chunk : Chunk) : Bytes := chunk.sizeText ++ chunk.body

theorem body_length (chunk : Chunk) : chunk.body.length = chunk.data.length + 2 := by
  simp [body, eol1, ascii]

theorem sizeText_length (chunk : Chunk) : 2 < chunk.sizeText.length := by
  have hsize : 0 < chunk.size.length := List.length_pos_iff.mpr chunk.size_numeral.nonempty
  have heol : eol1.length = 2 := rfl
  simp only [sizeText, List.length_append, heol]
  omega

end Chunk

/-- The text of a list of chunks. -/
def chunksText (chunks : List Chunk) : Bytes := chunks.flatMap Chunk.text

theorem chunksText_cons (chunk : Chunk) (chunks : List Chunk) :
    chunksText (chunk :: chunks) = chunk.text ++ chunksText chunks :=
  List.flatMap_cons

end BlackCircle.Http.Message
