import BlackCircle.Foundation.ReadLoop
import BlackCircle.Http.Response

/-!
# The response reader of `http_client`

The completion handlers of `http_client`, as a reader of
`BlackCircle.Foundation.ReadLoop`.  The continuation of a read is the bound
handler with its bound arguments; an output is one call of the client's
`http_handler` with response data.  `size_t` has `w` bits.

Taking more bytes from the stream buffer than it holds is undefined in the
source; a handler that would do so fails with `overread` here, and with
`assertionFailed` where the source asserts the size first.
-/

namespace BlackCircle.Http.Client

open BlackCircle.Foundation
open BlackCircle.Foundation.ByteString
open BlackCircle.Foundation.Numeral
open BlackCircle.Foundation.ReadLoop
open BlackCircle.Http.Response

/-! ## `size_t` -/

/-- Addition of `size_t` values. -/
def sizeAdd (w a b : Nat) : Nat := (a + b) % 2 ^ w

/-- Subtraction of `size_t` values; it wraps around when `b` is larger. -/
def sizeSub (w a b : Nat) : Nat := (a + (2 ^ w - b % 2 ^ w)) % 2 ^ w

/-- `lexical_cast<size_t>`: an optional sign and decimal digits whose value fits.
A minus sign negates the converted value modulo the width. -/
def lexicalCastSize (w : Nat) (text : Bytes) : Option Nat :=
  let minus := text.head? = some (byte '-')
  let digits := if minus ∨ text.head? = some (byte '+') then text.tail else text
  if IsNumeral 10 digits ∧ value 10 digits < 2 ^ w then
    some (if minus then sizeSub w 0 (value 10 digits) else value 10 digits)
  else none

theorem sizeAdd_of_lt {w a b : Nat} (h : a + b < 2 ^ w) : sizeAdd w a b = a + b :=
  Nat.mod_eq_of_lt h

theorem sizeSub_of_le {w a b : Nat} (hle : b ≤ a) (ha : a < 2 ^ w) : sizeSub w a b = a - b := by
  have hb : b % 2 ^ w = b := Nat.mod_eq_of_lt (by omega)
  have hsum : a + (2 ^ w - b) = (a - b) + 2 ^ w := by omega
  rw [sizeSub, hb, hsum, Nat.add_mod_right, Nat.mod_eq_of_lt (by omega)]

/-- A difference that would be negative wraps around. -/
theorem sizeSub_of_lt {w a b : Nat} (hlt : a < b) (hb : b < 2 ^ w) :
    sizeSub w a b = 2 ^ w - (b - a) := by
  rw [sizeSub, Nat.mod_eq_of_lt hb, Nat.mod_eq_of_lt (by omega)]
  omega

/-- A difference is exact just when it is not negative. -/
theorem sizeSub_eq_iff {w a b : Nat} (ha : a < 2 ^ w) (hb : b < 2 ^ w) :
    sizeSub w a b = a - b ↔ b ≤ a := by
  by_cases hle : b ≤ a
  · exact iff_of_true (sizeSub_of_le hle ha) hle
  · refine iff_of_false ?_ hle
    rw [sizeSub_of_lt (Nat.not_le.mp hle) hb]
    omega

/-- A plain digit string that fits is cast to its value. -/
theorem lexicalCastSize_numeral {w : Nat} {text : Bytes} (h : IsNumeral 10 text)
    (hfits : value 10 text < 2 ^ w) : lexicalCastSize w text = some (value 10 text) := by
  have hsign : ∀ c, isDigit 10 c = false → text.head? ≠ some c := by
    intro c hc hhead
    exact h.notMem hc (List.mem_of_head? hhead)
  have hminus := hsign (byte '-') (by decide)
  have hplus := hsign (byte '+') (by decide)
  simp [lexicalCastSize, hminus, hplus, h, hfits]

/-! ## Completion handlers -/

/-- What leaves a completion handler other than a return. -/
inductive Failure where
  | parse (fault : Peg.Fault)
  | badLexicalCast
  | assertionFailed
  | overread
  deriving DecidableEq, Repr

/-- The bound completion handlers. -/
inductive Handler where
  | headerReadComplete (res : HttpResponseData)
  | plainBodyReadComplete (res : HttpResponseData) (length : Nat)
  | chunkSizeReadComplete (res : HttpResponseData)
  | chunkBodyReadComplete (res : HttpResponseData) (chunkSize : Nat)
  | lastchunkReadComplete
  deriving DecidableEq

abbrev ClientTurn : Type := Turn Byte Handler HttpResponseData Failure

abbrev ClientSession : Type := Session Byte Handler HttpResponseData Failure

/-- `start_read` on the buffer `sb`, after the calls made so far. -/
def startRead (sb : Bytes) (calls : List HttpResponseData) : ClientTurn :=
  ⟨sb, calls, .issue (.readUntil eol2) (.headerReadComplete default)⟩

def headerReadComplete (w : Nat) (res : HttpResponseData) (_ec : Bool) (sb : Bytes) : ClientTurn :=
  if sb.length = 0 then ⟨sb, [], .done⟩
  else
    match parseHeader sb res with
    | .error fault => ⟨sb, [], .throw (.parse fault)⟩
    | .ok (consumed, res) =>
        let sb := sb.drop consumed
        let trnEnc := mapGetOr res.header (ascii "Transfer-Encoding") (ascii "")
        if trnEnc = ascii "chunked" then
          ⟨sb, [], .issue (.readUntil eol1) (.chunkSizeReadComplete res)⟩
        else
          match lexicalCastSize w (mapGetOr res.header (ascii "Content-Length") (ascii "0")) with
          | none => ⟨sb, [], .throw .badLexicalCast⟩
          | some length =>
              ⟨sb, [], .issue (.readAtLeast (sizeSub w length sb.length))
                (.plainBodyReadComplete res length)⟩

def plainBodyReadComplete (res : HttpResponseData) (length : Nat) (_ec : Bool) (sb : Bytes) :
    ClientTurn :=
  if sb.length = 0 then ⟨sb, [], .done⟩
  else if length ≤ sb.length then
    startRead (sb.drop length) [{ res with data := sb.take length }]
  else ⟨sb, [], .throw .overread⟩

def chunkBodyReadComplete (w : Nat) (res : HttpResponseData) (chunkSize : Nat) (_ec : Bool)
    (sb : Bytes) : ClientTurn :=
  if sb.length = 0 then ⟨sb, [], .done⟩
  else if chunkSize = 0 then ⟨sb, [], .issue (.readUntil eol2) .lastchunkReadComplete⟩
  else if sizeAdd w chunkSize 2 ≤ sb.length then
    let res := { res with data := sb.take (sizeAdd w chunkSize 2) }
    ⟨sb.drop res.data.length, [res], .issue (.readUntil eol1) (.chunkSizeReadComplete res)⟩
  else ⟨sb, [], .throw .assertionFailed⟩

def chunkSizeReadComplete (w : Nat) (res : HttpResponseData) (ec : Bool) (sb : Bytes) :
    ClientTurn :=
  if sb.length = 0 then ⟨sb, [], .done⟩
  else if sb.length ≤ 2 then ⟨sb, [], .issue (.readUntil eol1) (.chunkSizeReadComplete res)⟩
  else
    match parseChunkSize sb 0 with
    | .error fault => ⟨sb, [], .throw (.parse fault)⟩
    | .ok (consumed, chunkSize) =>
        let sb := sb.drop consumed
        let bufsize := sb.length
        if sizeAdd w chunkSize 2 > bufsize then
          ⟨sb, [], .issue (.readAtLeast (sizeSub w (sizeAdd w chunkSize 2) bufsize))
            (.chunkBodyReadComplete res chunkSize)⟩
        else chunkBodyReadComplete w res chunkSize ec sb

def lastchunkReadComplete (_ec : Bool) (sb : Bytes) : ClientTurn :=
  if sb.length = 0 then ⟨sb, [], .done⟩ else startRead sb []

/-- Run the bound handler of a completed read. -/
def complete (w : Nat) : Handler → Bool → Bytes → ClientTurn
  | .headerReadComplete res => headerReadComplete w res
  | .plainBodyReadComplete res length => plainBodyReadComplete res length
  | .chunkSizeReadComplete res => chunkSizeReadComplete w res
  | .chunkBodyReadComplete res chunkSize => chunkBodyReadComplete w res chunkSize
  | .lastchunkReadComplete => lastchunkReadComplete

/-- One step of a client's reader. -/
def clientStep (w : Nat) : ClientSession → Option ClientSession := step (complete w)

/-- A client on which `start_read` has been called, and what its peer will send:
the segments in which the bytes arrive, and whether the connection then ends. -/
def connect (segments : List Bytes) (closed : Bool) : ClientSession :=
  ⟨[], .reading (.readUntil eol2) 0 (.headerReadComplete default), segments, closed, []⟩

end BlackCircle.Http.Client
