import BlackCircle.Foundation.Numeral
import BlackCircle.Foundation.OrderedMap

/-!
# Response data and the two buffer parsers

`parseHeader` and `parseChunkSize` run over the bytes that are buffered, and
return how many of them they have consumed.  Both throw when an operand behind
an expectation point does not match.
-/

namespace BlackCircle.Http.Response

open BlackCircle.Foundation
open BlackCircle.Foundation.ByteString
open BlackCircle.Foundation.Numeral
open BlackCircle.Foundation.Peg

/-- What a response handler is given. -/
structure HttpResponseData where
  status : Int × Bytes
  header : OrderedMap Bytes Bytes
  data : Bytes
  deriving DecidableEq

/-- A value-initialised response: status `(0, "")`, no header, no data. -/
instance : Inhabited HttpResponseData := ⟨⟨(0, []), OrderedMap.empty, []⟩⟩

/-- Look a key up, with a default. -/
def mapGetOr {κ ν : Type} [LinearOrder κ] (m : OrderedMap κ ν) (k : κ) (v : ν) : ν :=
  (m.find? k).getD v

def eol1 : Bytes := ascii "\r\n"

def eol2 : Bytes := ascii "\r\n\r\n"

def colon : Byte := byte ':'

/-! ## `parse_chunk_size` -/

/-- Any byte but a line feed. -/
def notLF (b : Byte) : Bool := b != LF

/-- A 32-bit hexadecimal number, then everything up to and including the next line feed. -/
def chunkSizeLine : Parser Byte Nat := do
  let size ← unsignedNumeral 16 (2 ^ 32)
  let _ ← must (many (satisfy notLF))
  must (lit [LF])
  return size

/-- The consumed length and the new value of `s`, which keeps its old value when
the parser refuses. -/
def parseChunkSize (r : Bytes) (s : Nat) : Except Fault (Nat × Nat) :=
  match chunkSizeLine.run r with
  | .ok size ite => .ok (r.length - ite.length, size)
  | .fail => .ok (0, s)
  | .throw fault => .error fault

/-! ## `parse_header` -/

def digit : Parser Byte Byte := satisfy (isDigit 10)

/-- A number in the range of `int`. -/
def int_ : Parser Byte Int := signedNumeral (-2 ^ 31) (2 ^ 31 - 1)

/-- Any byte but a carriage return. -/
def notCR (b : Byte) : Bool := b != CR

/-- Any byte but a carriage return or a colon. -/
def notCRColon (b : Byte) : Bool := b != CR && b != colon

def statusLine : Parser Byte (Int × Bytes) := do
  lit (ascii "HTTP/")
  let _ ← must digit
  must (lit (ascii "."))
  let _ ← must digit
  must (lit (ascii " "))
  let first ← must int_
  must (lit (ascii " "))
  let second ← must (many1 (satisfy notCR))
  must (lit eol1)
  return (first, second)

def fieldLine : Parser Byte (Bytes × Bytes) := do
  let name ← many1 (satisfy notCRColon)
  must (lit (ascii ": "))
  let value ← must (many1 (satisfy notCR))
  must (lit eol1)
  return (name, value)

/-- The field lines and the empty line behind them. -/
def fieldLines : Parser Byte (List (Bytes × Bytes)) := do
  let fields ← many fieldLine
  must (lit eol1)
  return fields

/-- `map::insert` for each field line in turn: the first line with a name stays. -/
def insertFields (header : OrderedMap Bytes Bytes) (fields : List (Bytes × Bytes)) :
    OrderedMap Bytes Bytes :=
  fields.foldl (fun m field => m.insert field.1 field.2) header

/-- The value inserted first under a name stays. -/
theorem find?_insertFields (fields : List (Bytes × Bytes)) (m : OrderedMap Bytes Bytes)
    (name : Bytes) :
    (insertFields m fields).find? name = (m.find? name).or (EntryList.find name fields) := by
  induction fields generalizing m with
  | nil => exact Option.or_none.symm
  | cons field fields ih =>
      have hstep : insertFields m (field :: fields) =
          insertFields (m.insert field.1 field.2) fields := rfl
      rw [hstep, ih, EntryList.find]
      by_cases hname : name = field.1
      · subst hname
        cases hm : m.find? field.1 <;> simp [hm]
      · rw [OrderedMap.find?_insert_of_ne _ hname, if_neg hname]

/-- The consumed length and the filled-in response. -/
def parseHeader (r : Bytes) (res : HttpResponseData) : Except Fault (Nat × HttpResponseData) :=
  match (opt statusLine).run r with
  | .ok status ite =>
      let res := { res with status := status.getD res.status }
      match fieldLines.run ite with
      | .ok fields ite =>
          .ok (r.length - ite.length, { res with header := insertFields res.header fields })
      | .fail => .ok (r.length - ite.length, res)
      | .throw fault => .error fault
  | .fail => .ok (0, res)
  | .throw fault => .error fault

/-! ## Consumption -/

theorem tame_notLF (n : Nat) : Tame n (many (satisfy notLF)) :=
  (tame_satisfy _).many (advances_satisfy _)

theorem tame_notCR (n : Nat) : Tame n (many1 (satisfy notCR)) :=
  (tame_satisfy _).many1 (advances_satisfy _)

theorem tame_chunkSizeLine (n : Nat) : Tame n chunkSizeLine :=
  (tame_unsignedNumeral n 16 _).bind fun _ => (tame_notLF n).must.bind fun _ =>
    (tame_lit _).must.bind fun _ => tame_pure _

theorem advances_chunkSizeLine : Advances chunkSizeLine :=
  (advances_unsignedNumeral 16 _).bind fun _ => (tame_notLF 0).keeps.must.bind fun _ =>
    (keeps_lit _).must.bind fun _ => keeps_pure _

theorem tame_statusLine (n : Nat) : Tame n statusLine :=
  (tame_lit _).bind fun _ => (tame_satisfy _).must.bind fun _ =>
    (tame_lit _).must.bind fun _ => (tame_satisfy _).must.bind fun _ =>
      (tame_lit _).must.bind fun _ => (tame_signedNumeral n _ _).must.bind fun _ =>
        (tame_lit _).must.bind fun _ => (tame_notCR n).must.bind fun _ =>
          (tame_lit _).must.bind fun _ => tame_pure _

/-- Behind the name of a field line. -/
theorem tame_fieldLine_rest (n : Nat) (name : Bytes) : Tame n (do
    must (lit (ascii ": "))
    let value ← must (many1 (satisfy notCR))
    must (lit eol1)
    return (name, value)) :=
  (tame_lit _).must.bind fun _ => (tame_notCR n).must.bind fun _ =>
    (tame_lit _).must.bind fun _ => tame_pure _

theorem tame_fieldLine (n : Nat) : Tame n fieldLine :=
  ((tame_satisfy _).many1 (advances_satisfy _)).bind fun name => tame_fieldLine_rest n name

theorem advances_fieldLine : Advances fieldLine :=
  (Advances.many1 (advances_satisfy _)).bind fun name => (tame_fieldLine_rest 0 name).keeps

theorem tame_fieldLines (n : Nat) : Tame n fieldLines :=
  ((tame_fieldLine n).many advances_fieldLine).bind fun _ =>
    (tame_lit _).must.bind fun _ => tame_pure _

/-- Field lines that match end with an empty line, so they are not empty. -/
theorem advances_fieldLines : Advances fieldLines :=
  (keeps_many advances_fieldLine.keeps).bind_advances fun _ =>
    (advances_lit (by decide)).must.bind fun _ => keeps_pure _

theorem settles_fieldLines : Settles fieldLines :=
  (settles_many _).bind fun _ => (settles_must _).bind fun _ => settles_pure _

/-- A head that is accepted has at least one byte. -/
theorem parseHeader_consumes {r : Bytes} {res res' : HttpResponseData} {consumed : Nat}
    (h : parseHeader r res = .ok (consumed, res')) : 0 < consumed ∧ consumed ≤ r.length := by
  unfold parseHeader at h
  split at h
  · rename_i status middle hstatus
    have hmiddle := ((tame_statusLine 0).keeps.opt r status middle hstatus).length_le
    dsimp only at h
    split at h
    · rename_i fields rest hfields
      obtain ⟨-, hlt⟩ := advances_fieldLines middle fields rest hfields
      simp only [Except.ok.injEq, Prod.mk.injEq] at h
      omega
    · rename_i hfields
      exact absurd hfields (settles_fieldLines middle)
    · cases h
  · rename_i hstatus
    exact absurd hstatus (settles_opt _ r)
  · cases h

/-- Nothing is consumed exactly where the size keeps its value. -/
theorem parseChunkSize_consumes {r : Bytes} {s size consumed : Nat}
    (h : parseChunkSize r s = .ok (consumed, size)) :
    consumed ≤ r.length ∧ (0 < consumed ∨ consumed = 0 ∧ size = s) := by
  unfold parseChunkSize at h
  split at h
  · rename_i value rest hline
    obtain ⟨-, hlt⟩ := advances_chunkSizeLine r value rest hline
    simp only [Except.ok.injEq, Prod.mk.injEq] at h
    omega
  · simp only [Except.ok.injEq, Prod.mk.injEq] at h
    omega
  · cases h

/-- A size that is read has 32 bits. -/
theorem parseChunkSize_lt {r : Bytes} {s size consumed : Nat} (hs : s < 2 ^ 32)
    (h : parseChunkSize r s = .ok (consumed, size)) : size < 2 ^ 32 := by
  unfold parseChunkSize at h
  split at h
  · rename_i value rest hline
    obtain ⟨first, middle, hnumeral, hbehind⟩ := bind_eq_ok hline
    obtain ⟨-, behind, -, hend⟩ := bind_eq_ok hbehind
    obtain ⟨-, last, -, hvalue⟩ := bind_eq_ok hend
    rw [run_pure, Reply.ok.injEq] at hvalue
    simp only [Except.ok.injEq, Prod.mk.injEq] at h
    rw [← h.2, ← hvalue.1]
    exact unsignedNumeral_lt hnumeral
  · simp only [Except.ok.injEq, Prod.mk.injEq] at h
    rwa [← h.2]
  · cases h

/-- The bounds of the model's repetitions are never what a buffer parser fails with. -/
theorem parseHeader_ne_exhausted (r : Bytes) (res : HttpResponseData) :
    parseHeader r res ≠ .error .exhausted := by
  intro h
  unfold parseHeader at h
  split at h
  · rename_i status middle hstatus
    dsimp only at h
    split at h
    · cases h
    · cases h
    · rename_i fault hfields
      cases h
      exact (tame_fieldLines _).bounded middle (Nat.lt_succ_self _) hfields
  · cases h
  · rename_i fault hstatus
    cases h
    exact (tame_statusLine _).opt.bounded r (Nat.lt_succ_self _) hstatus

theorem parseChunkSize_ne_exhausted (r : Bytes) (s : Nat) :
    parseChunkSize r s ≠ .error .exhausted := by
  intro h
  unfold parseChunkSize at h
  split at h
  · cases h
  · cases h
  · rename_i fault hline
    cases h
    exact (tame_chunkSizeLine _).bounded r (Nat.lt_succ_self _) hline

example : parseChunkSize (ascii "1a;x\r\nrest") 0 = .ok (6, 26) := by decide

example :
    (parseHeader (ascii "HTTP/1.1 200 OK\r\nA: b\r\n\r\nrest") default).toOption.map Prod.fst =
      some 25 := by
  decide

end BlackCircle.Http.Response
