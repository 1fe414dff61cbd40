import BlackCircle.Http.Client
import BlackCircle.Http.Message
import Mathlib.Data.List.TakeWhile

/-!
# Lines in place of a chunk size

What `chunk_size_read_complete` makes of any line that is ended by CRLF.  A line
that begins with no number in range is not an error: `parse_chunk_size` consumes
nothing and leaves the size at zero.  Nor is anything behind a number one: all up
to the next line feed is passed over.
-/

namespace BlackCircle.Http.SizeLines

open BlackCircle.Foundation
open BlackCircle.Foundation.ByteString
open BlackCircle.Foundation.Numeral
open BlackCircle.Foundation.Peg
open BlackCircle.Foundation.ReadLoop
open BlackCircle.Http.Client
open BlackCircle.Http.Message
open BlackCircle.Http.Response

/-! ## Size lines -/

/-- The digits at the start of a line. -/
def digits (line : Bytes) : Bytes := line.takeWhile (isDigit 16)

/-- What is behind them. -/
def extension (line : Bytes) : Bytes := line.dropWhile (isDigit 16)

def number (line : Bytes) : Nat := value 16 (digits line)

/-- A hexadecimal number of any length, and an optional extension behind it. -/
structure IsSizeLine (line : Bytes) : Prop where
  numeral : digits line ≠ []
  start : ∀ b ∈ (extension line).head?, b = byte ';' ∨ b = byte ' '
  clean : ∀ b ∈ extension line, b ≠ CR ∧ b ≠ LF

section Handler

variable (w : Nat) (res : HttpResponseData) (ec : Bool)

/-- How `chunk_size_read_complete` goes on with a size and what is buffered behind its line. -/
def withSize (chunkSize : Nat) (sb : Bytes) : ClientTurn :=
  if sizeAdd w chunkSize 2 > sb.length then
    ⟨sb, [], .issue (.readAtLeast (sizeSub w (sizeAdd w chunkSize 2) sb.length))
      (.chunkBodyReadComplete res chunkSize)⟩
  else chunkBodyReadComplete w res chunkSize ec sb

/-- The end of the body is waited for, now or when more has been read. -/
def AtEnd (turn : ClientTurn) : Prop :=
  turn.next = .issue (.readUntil eol2) .lastchunkReadComplete ∨
    ∃ count res, turn.next = .issue (.readAtLeast count) (.chunkBodyReadComplete res 0)

def Raises (turn : ClientTurn) : Prop := ∃ failure, turn.next = .throw failure

/-- A line is read exactly: the size is the number of the line and the line is consumed, or the
number does not fit and an error is raised; any other line is an error; and the end of the body is
met on a zero only. -/
def ReadExactly (line rest : Bytes) : Prop :=
  let turn := chunkSizeReadComplete w res ec (line ++ eol1 ++ rest)
  (IsSizeLine line →
      parseChunkSize (line ++ eol1 ++ rest) 0 = .ok ((line ++ eol1).length, number line) ∧
          turn = withSize w res ec (number line) rest ∨
        2 ^ 32 ≤ number line ∧ Raises turn) ∧
    (¬IsSizeLine line → Raises turn) ∧
    (AtEnd turn → IsSizeLine line ∧ number line = 0)

end Handler

/-! ## What is read -/

section Lines

variable {line : Bytes}

theorem digits_extension (line : Bytes) : digits line ++ extension line = line :=
  List.takeWhile_append_dropWhile

theorem isNumeral_digits (h : digits line ≠ []) : IsNumeral 16 (digits line) where
  nonempty := h
  digits := fun _ hb => List.mem_takeWhile_imp hb

/-- The extension, or the line end, ends the number. -/
theorem terminates_extension (line rest : Bytes) :
    Terminates 16 (extension line ++ (eol1 ++ rest)) := by
  cases hext : extension line with
  | nil => exact terminates_cons (by decide)
  | cons b tail =>
      have hstop := List.head?_dropWhile_not (isDigit 16) line
      rw [extension] at hext
      rw [hext] at hstop
      exact terminates_cons hstop

theorem split_line (line rest : Bytes) :
    line ++ eol1 ++ rest = digits line ++ (extension line ++ (eol1 ++ rest)) := by
  rw [← List.append_assoc, ← List.append_assoc, digits_extension]

/-- A line without a number in range: nothing is consumed. -/
theorem parseChunkSize_refused (h : digits line = [] ∨ 2 ^ 32 ≤ number line) (rest : Bytes) :
    parseChunkSize (line ++ eol1 ++ rest) 0 = .ok (0, 0) := by
  have hrefused : (unsignedNumeral 16 (2 ^ 32)).run (line ++ eol1 ++ rest) = .fail := by
    by_cases hempty : digits line = []
    · have hrun : (digitRun 16).run (line ++ eol1 ++ rest) = .fail := by
        rw [split_line, hempty, List.nil_append]
        cases hbuffer : extension line ++ (eol1 ++ rest) with
        | nil => rfl
        | cons b tail =>
            exact bind_fail (satisfy_fail (terminates_extension line rest b tail hbuffer))
      exact bind_fail hrun
    · rw [split_line]
      exact unsignedNumeral_overflow (isNumeral_digits hempty) (terminates_extension line rest)
        (h.resolve_left hempty)
  have hline : chunkSizeLine.run (line ++ eol1 ++ rest) = .fail := bind_fail hrefused
  rw [parseChunkSize, hline]

/-- A line with a number in range, whatever is behind the number. -/
theorem parseChunkSize_number (h : digits line ≠ []) (hfits : number line < 2 ^ 32)
    (rest : Bytes) :
    ∃ consumed, parseChunkSize (line ++ eol1 ++ rest) 0 = .ok (consumed, number line) := by
  have hmem : LF ∈ extension line ++ (eol1 ++ rest) :=
    List.mem_append_right _ (List.mem_append_left rest (by decide))
  obtain ⟨tail, behind, hsplit, hclean⟩ := List.eq_append_cons_of_mem hmem
  have hstop := terminates_extension line rest
  rw [hsplit] at hstop
  have hline := chunkSizeLine_upto (isNumeral_digits h) hstop hfits hclean
  rw [← hsplit, ← split_line] at hline
  exact ⟨_, by rw [parseChunkSize, hline]; rfl⟩

/-- A size line whose number is in range. -/
theorem parseChunkSize_sizeLine (h : IsSizeLine line) (hfits : number line < 2 ^ 32)
    (rest : Bytes) :
    parseChunkSize (line ++ eol1 ++ rest) 0 = .ok ((line ++ eol1).length, number line) := by
  have htail : extension line ++ (eol1 ++ rest) = (extension line ++ [CR]) ++ LF :: rest := by
    rw [List.append_assoc]
    rfl
  have hsplit := split_line line rest
  have hstop := terminates_extension line rest
  have hclean : LF ∉ extension line ++ [CR] := by
    rw [List.mem_append, List.mem_singleton, not_or]
    exact ⟨fun hmem => (h.clean LF hmem).2 rfl, by decide⟩
  rw [htail] at hsplit hstop
  have hline := chunkSizeLine_upto (isNumeral_digits h.numeral) hstop hfits hclean
  have hlen : (line ++ eol1 ++ rest).length - rest.length = (line ++ eol1).length := by
    rw [List.length_append, Nat.add_sub_cancel]
  rw [← hsplit] at hline
  rw [parseChunkSize, hline]
  dsimp only
  rw [hlen]
  rfl

end Lines

/-! ## What the handler does -/

section Turns

variable (w : Nat) (res : HttpResponseData) (ec : Bool) {line : Bytes}

/-- The assertion on the chunk is met where the handler goes on at once. -/
theorem withSize_not_raises (chunkSize : Nat) (sb : Bytes) :
    ¬Raises (withSize w res ec chunkSize sb) := by
  rintro ⟨failure, hthrow⟩
  rw [withSize] at hthrow
  split at hthrow
  · cases hthrow
  · rw [chunkBodyReadComplete] at hthrow
    split_ifs at hthrow
    omega

theorem withSize_atEnd {chunkSize : Nat} {sb : Bytes}
    (h : AtEnd (withSize w res ec chunkSize sb)) : chunkSize = 0 := by
  rw [withSize] at h
  split at h
  · rcases h with hnext | ⟨count, res', hnext⟩
    · cases hnext
    · cases hnext
      rfl
  · rw [chunkBodyReadComplete] at h
    split_ifs at h with _ hzero _
    · rcases h with hnext | ⟨count, res', hnext⟩ <;> cases hnext
    · exact hzero
    · rcases h with hnext | ⟨count, res', hnext⟩ <;> cases hnext
    · rcases h with hnext | ⟨count, res', hnext⟩ <;> cases hnext

theorem chunkSizeReadComplete_parsed {sb : Bytes} (hlong : 2 < sb.length) {consumed size : Nat}
    (h : parseChunkSize sb 0 = .ok (consumed, size)) :
    chunkSizeReadComplete w res ec sb = withSize w res ec size (sb.drop consumed) := by
  rw [chunkSizeReadComplete, if_neg (by omega), if_neg (by omega), h]
  rfl

/-- No line makes the handler raise an error. -/
theorem not_raises (line rest : Bytes) :
    ¬Raises (chunkSizeReadComplete w res ec (line ++ eol1 ++ rest)) := by
  by_cases hlong : 2 < (line ++ eol1 ++ rest).length
  · have hparse : ∃ consumed size, parseChunkSize (line ++ eol1 ++ rest) 0 =
        .ok (consumed, size) := by
      by_cases hrefused : digits line = [] ∨ 2 ^ 32 ≤ number line
      · exact ⟨0, 0, parseChunkSize_refused hrefused rest⟩
      · rw [not_or, Nat.not_le] at hrefused
        obtain ⟨consumed, hparse⟩ := parseChunkSize_number hrefused.1 hrefused.2 rest
        exact ⟨consumed, number line, hparse⟩
    obtain ⟨consumed, size, hparse⟩ := hparse
    rw [chunkSizeReadComplete_parsed w res ec hlong hparse]
    exact withSize_not_raises w res ec size _
  · rintro ⟨failure, hthrow⟩
    rw [chunkSizeReadComplete] at hthrow
    split_ifs at hthrow
    omega

/-- A line is read exactly just when it is a size line with a number of 32 bits. -/
theorem readExactly_iff (line rest : Bytes) :
    ReadExactly w res ec line rest ↔ IsSizeLine line ∧ number line < 2 ^ 32 := by
  constructor
  · rintro ⟨hsize, hother, -⟩
    have hline : IsSizeLine line := by
      by_contra hnot
      exact not_raises w res ec line rest (hother hnot)
    refine ⟨hline, ?_⟩
    rcases hsize hline with ⟨hparse, -⟩ | ⟨-, hraises⟩
    · by_contra hover
      rw [parseChunkSize_refused (Or.inr (Nat.le_of_not_lt hover)) rest, Except.ok.injEq,
        Prod.mk.injEq, List.length_append] at hparse
      exact absurd hparse.1 (Nat.succ_ne_zero _).symm
    · exact absurd hraises (not_raises w res ec line rest)
  · rintro ⟨hline, hfits⟩
    have hparse := parseChunkSize_sizeLine hline hfits rest
    have hlong : 2 < (line ++ eol1 ++ rest).length := by
      have hdigits := congrArg List.length (digits_extension line)
      have hpos := List.length_pos_iff.mpr hline.numeral
      have heol : eol1.length = 2 := rfl
      rw [List.length_append] at hdigits
      rw [List.length_append, List.length_append, heol]
      omega
    have hturn := chunkSizeReadComplete_parsed w res ec hlong hparse
    rw [List.drop_left] at hturn
    refine ⟨fun _ => Or.inl ⟨hparse, hturn⟩, fun hnot => absurd hline hnot, fun hend => ?_⟩
    rw [hturn] at hend
    exact ⟨hline, withSize_atEnd w res ec hend⟩

end Turns

/-- A line that is no number. -/
theorem not_readExactly : ¬∀ (w : Nat) (res : HttpResponseData) (ec : Bool) (line rest : Bytes),
    ReadExactly w res ec line rest := by
  intro hall
  obtain ⟨-, hother, -⟩ := hall 64 default false (ascii "xyz") []
  refine not_raises 64 default false (ascii "xyz") [] (hother fun hline => ?_)
  exact hline.numeral (by decide)

end BlackCircle.Http.SizeLines
