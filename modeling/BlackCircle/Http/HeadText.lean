import BlackCircle.Http.Message

/-!
# What `parse_header` takes

`parse_header` runs over everything that is buffered, not over the bytes up to
the empty line.  The status code is any number of an `int`, with or without a
sign; the field lines are those of `BlackCircle.Http.Message`.  Nothing behind
the empty line has a part in what is taken.
-/

namespace BlackCircle.Http.HeadText

open BlackCircle.Foundation
open BlackCircle.Foundation.ByteString
open BlackCircle.Foundation.Numeral
open BlackCircle.Foundation.Peg
open BlackCircle.Http.Message
open BlackCircle.Http.Response

/-- A status line `HTTP/d.d code reason`. -/
structure StatusLine where
  major : Byte
  minor : Byte
  sign : Option Byte
  digits : Bytes
  reason : Bytes
  major_digit : isDigit 10 major = true
  minor_digit : isDigit 10 minor = true
  sign_is : ∀ b ∈ sign, isSign b = true
  numeral : IsNumeral 10 digits
  low : -2 ^ 31 ≤ signed sign (value 10 digits)
  high : signed sign (value 10 digits) ≤ 2 ^ 31 - 1
  reason_nonempty : reason ≠ []
  reason_clean : ∀ b ∈ reason, b ≠ CR

namespace StatusLine

/-- The status code as it is written. -/
def code (line : StatusLine) : Bytes := line.sign.toList ++ line.digits

def text (line : StatusLine) : Bytes :=
  ascii "HTTP/" ++ [line.major] ++ ascii "." ++ [line.minor] ++ ascii " " ++ line.code ++
    ascii " " ++ line.reason ++ eol1

/-- The code and the reason of the line. -/
def status (line : StatusLine) : Int × Bytes :=
  (signed line.sign (value 10 line.digits), line.reason)

theorem code_run (line : StatusLine) {rest : Bytes} (hrest : Terminates 10 rest) :
    int_.run (line.code ++ rest) = .ok (signed line.sign (value 10 line.digits)) rest :=
  signedNumeral_signed line.sign_is line.numeral hrest line.low line.high

theorem statusLine_run (line : StatusLine) (rest : Bytes) :
    statusLine.run (line.text ++ rest) = .ok line.status rest := by
  have hcode : int_.run (line.code ++ (ascii " " ++ (line.reason ++ (eol1 ++ rest)))) =
      .ok (signed line.sign (value 10 line.digits))
        (ascii " " ++ (line.reason ++ (eol1 ++ rest))) :=
    line.code_run (terminates_cons (by decide))
  have hreason : (many1 (satisfy notCR)).run (line.reason ++ (eol1 ++ rest)) =
      .ok line.reason (eol1 ++ rest) := by
    refine many1_satisfy_append line.reason_nonempty ?_ ?_
    · intro b hb
      simpa [notCR] using line.reason_clean b hb
    · intro b tail heq
      cases heq
      decide
  simp only [text, List.append_assoc, List.cons_append, List.nil_append]
  rw [statusLine, bind_ok (lit_append _ _), must_bind_ok (Head.digit_cons line.major_digit),
    must_bind_ok (lit_append _ _), must_bind_ok (Head.digit_cons line.minor_digit),
    must_bind_ok (lit_append _ _), must_bind_ok hcode, must_bind_ok (lit_append _ _),
    must_bind_ok hreason, must_bind_ok (lit_append _ _)]
  rfl

end StatusLine

/-- The value of the first field line with a name. -/
def firstValue (fields : List Field) (name : Bytes) : Option Bytes :=
  (fields.find? fun field => field.name = name).map Field.value

/-- A status line, field lines and the empty line. -/
def headText (line : StatusLine) (fields : List Field) : Bytes :=
  line.text ++ fieldsText fields ++ eol1

theorem parseHeader_run (line : StatusLine) (fields : List Field) (rest : Bytes) :
    parseHeader (headText line fields ++ rest) default =
      .ok ((headText line fields).length,
        ⟨line.status, insertFields OrderedMap.empty (pairs fields), []⟩) := by
  have hsplit : headText line fields ++ rest =
      line.text ++ (fieldsText fields ++ (eol1 ++ rest)) := by
    simp only [headText, List.append_assoc]
  have hstatus := opt_ok (line.statusLine_run (fieldsText fields ++ (eol1 ++ rest)))
  have hlen : (headText line fields ++ rest).length - rest.length =
      (headText line fields).length := by
    rw [List.length_append, Nat.add_sub_cancel]
  rw [parseHeader, hlen.symm, hsplit, hstatus]
  simp only [fieldLines_text]
  rfl

/-- `parse_header` takes exactly the head.  What it fills in is the same whatever stands behind
the head: the status, and for each name the value of its first line. -/
theorem parseHeader_takes_head (line : StatusLine) (fields : List Field) :
    ∃ res : HttpResponseData, (∀ rest : Bytes,
      parseHeader (headText line fields ++ rest) default =
        .ok ((headText line fields).length, res)) ∧
      res.status = line.status ∧ (∀ name, res.header.find? name = firstValue fields name) ∧
      res.data = [] := by
  refine ⟨_, parseHeader_run line fields, rfl, ?_, rfl⟩
  intro name
  rw [Head.find?_insertFields, OrderedMap.find?_empty, Option.none_or]
  rfl

end BlackCircle.Http.HeadText
