import BlackCircle.Http.BodyEnd
import BlackCircle.Http.CountedReader

/-!
# What follows a chunked response

The reader reads its next head from behind the zero-size line, where the
trailers and the closing CRLF of the chunked response still stand.
-/

namespace BlackCircle.Http.Resync

open BlackCircle.Foundation
open BlackCircle.Foundation.ByteString
open BlackCircle.Foundation.Delimiter
open BlackCircle.Foundation.Numeral
open BlackCircle.Foundation.ReadLoop
open BlackCircle.Http.BodyEnd
open BlackCircle.Http.ChunkedReader
open BlackCircle.Http.Client
open BlackCircle.Http.CountedReader
open BlackCircle.Http.HeadReader
open BlackCircle.Http.Message
open BlackCircle.Http.Response
open StateTransition

/-- A whole chunked response: a head, chunks, the zero-size line, trailers. -/
structure Chunked where
  head : Head
  chunks : List Chunk
  lastSize : Bytes
  lastExtension : Bytes
  trailers : List Field
  chunked : IsChunked head
  lastLine : SizeLine lastSize lastExtension
  last_zero : value 16 lastSize = 0

namespace Chunked

def lastText (r : Chunked) : Bytes := r.lastSize ++ r.lastExtension ++ eol1

/-- The trailers and the final CRLF. -/
def ending (r : Chunked) : Bytes := fieldsText r.trailers ++ eol1

def text (r : Chunked) : Bytes :=
  r.head.text ++ (chunksText r.chunks ++ (r.lastText ++ r.ending))

def calls (r : Chunked) : List HttpResponseData := r.chunks.map (chunkCall r.head.response)

theorem two_le_ending (r : Chunked) : 2 ≤ r.ending.length := by
  simp [ending, eol1, ascii]

end Chunked

/-- The reader stays in step: it waits for a head only before the chunked response and
after all of it, and it makes the calls for the chunks and then the one for `r`. -/
def Resynchronises (first : Chunked) (r : Counted) (segments : List Bytes) : Prop :=
  (∀ s, Reaches (clientStep 64) (connect segments false) s → AwaitsHead s →
    s.pending = first.text ++ r.text ∨ s.pending <:+ r.text) ∧
  ∃ s ∈ eval (clientStep 64) (connect segments false), s.outputs = first.calls ++ [r.call]

section Ending

variable {w : Nat} {s : ClientSession} {res : HttpResponseData} {first : Chunked} {rest : Bytes}

theorem two_lt_of_wide (hw : 2 ^ 32 + 2 ≤ 2 ^ w) : 2 < 2 ^ w := by omega

/-- When every size fits into 32 bits, the chunks are handed over and the next head is read
from the trailers. -/
theorem reaches_ending (hw : 2 ^ 32 + 2 ≤ 2 ^ w)
    (hfits : ∀ chunk ∈ first.chunks, chunk.data.length < 2 ^ 32) (hawaits : AwaitsSize res s)
    (hpending : s.pending = chunksText first.chunks ++ (first.lastText ++ rest))
    (hrest : 2 ≤ rest.length) (hmark : eol2 <:+: rest) :
    ∃ s', Reaches (clientStep w) s s' ∧ AwaitsHead s' ∧ s'.pending = rest ∧
      s'.outputs = s.outputs ++ first.chunks.map (chunkCall res) ∧ s'.closed = s.closed := by
  obtain ⟨s₁, hreach₁, hawaits₁, hpending₁, houtputs₁, hclosed₁⟩ :=
    reaches_chunks hw first.chunks hawaits hpending hfits
  obtain ⟨s₂, hreach₂, hlast, hpending₂, houtputs₂, hclosed₂⟩ :=
    reaches_last (two_lt_of_wide hw) first.lastLine first.last_zero hawaits₁ hpending₁ hrest
  obtain ⟨s₃, hreach₃, hhead, hpending₃, houtputs₃, hclosed₃⟩ :=
    reaches_startRead hlast (hpending₂ ▸ hmark)
  exact ⟨s₃, (hreach₁.trans hreach₂).trans hreach₃, hhead, hpending₃.trans hpending₂,
    houtputs₃.trans (houtputs₂.trans houtputs₁), hclosed₃.trans (hclosed₂.trans hclosed₁)⟩

/-- Whatever the sizes are, the next head is read from within the chunked body or its ending. -/
theorem reaches_head_within (hw : 2 ^ 32 + 2 ≤ 2 ^ w) (chunks : List Chunk)
    {size extension : Bytes} (hline : SizeLine size extension) (hzero : value 16 size = 0)
    {s : ClientSession} (hawaits : AwaitsSize res s)
    (hpending : s.pending = chunksText chunks ++ (size ++ extension ++ eol1 ++ rest))
    (hrest : 2 ≤ rest.length) (hmark : eol2 <:+: rest) :
    ∃ s', Reaches (clientStep w) s s' ∧ AwaitsHead s' ∧ rest <:+ s'.pending ∧
      s'.pending <:+ s.pending := by
  induction chunks generalizing s with
  | nil =>
      obtain ⟨s₁, hreach₁, hlast, hpending₁, -, -⟩ :=
        reaches_last (two_lt_of_wide hw) hline hzero hawaits hpending hrest
      obtain ⟨s₂, hreach₂, hhead, hpending₂, -, -⟩ :=
        reaches_startRead hlast (hpending₁ ▸ hmark)
      have heq : s₂.pending = rest := hpending₂.trans hpending₁
      refine ⟨s₂, hreach₁.trans hreach₂, hhead, heq ▸ List.suffix_rfl, ?_⟩
      rw [heq, hpending]
      exact ⟨_, List.append_assoc _ _ _⟩
  | cons chunk chunks ih =>
      have hsplit : s.pending = chunk.text ++
          (chunksText chunks ++ (size ++ extension ++ eol1 ++ rest)) := by
        rw [hpending, chunksText_cons, List.append_assoc]
      by_cases hfits : chunk.data.length < 2 ^ 32
      · obtain ⟨s₁, hreach₁, hawaits₁, hpending₁, -, -⟩ :=
          reaches_chunk hw hfits hawaits hsplit
        obtain ⟨s₂, hreach₂, hhead, hlow, hhigh⟩ := ih hawaits₁ hpending₁
        refine ⟨s₂, hreach₁.trans hreach₂, hhead, hlow, hhigh.trans ?_⟩
        exact ⟨chunk.text, by rw [hsplit, hpending₁]⟩
      · have hover : 2 ^ 32 ≤ value 16 chunk.size := by
          rw [chunk.size_value]
          exact not_lt.mp hfits
        have hchunk : s.pending = chunk.size ++ chunk.extension ++ eol1 ++
            (chunk.body ++ (chunksText chunks ++ (size ++ extension ++ eol1 ++ rest))) := by
          rw [hsplit, Chunk.text, List.append_assoc]
          rfl
        obtain ⟨s₁, hreach₁, hlast, hpending₁, -, -⟩ :=
          reaches_last_oversize (two_lt_of_wide hw) chunk.sizeLine hover hawaits hchunk
        have htail : rest <:+ s.pending := by
          refine ⟨chunksText (chunk :: chunks) ++ (size ++ extension ++ eol1), ?_⟩
          rw [hpending]
          simp only [List.append_assoc]
        obtain ⟨s₂, hreach₂, hhead, hpending₂, -, -⟩ :=
          reaches_startRead hlast (hpending₁ ▸ hmark.trans htail.isInfix)
        have heq : s₂.pending = s.pending := hpending₂.trans hpending₁
        exact ⟨s₂, hreach₁.trans hreach₂, hhead, heq ▸ htail, heq ▸ List.suffix_rfl⟩

end Ending

/-- Some head is read from within the chunked response. -/
theorem exists_head_within (first : Chunked) (r : Counted) (segments : List Bytes)
    (hstream : segments.flatten = first.text ++ r.text) :
    ∃ s, Reaches (clientStep 64) (connect segments false) s ∧ AwaitsHead s ∧
      r.text.length < s.pending.length ∧ s.pending.length < (first.text ++ r.text).length := by
  have hpending : (connect segments false).pending = first.head.text ++
      (chunksText first.chunks ++ (first.lastText ++ (first.ending ++ r.text))) := by
    have hconnect : (connect segments false).pending = segments.flatten := rfl
    rw [hconnect, hstream]
    simp [Chunked.text]
  obtain ⟨s₁, hreach₁, hsize, hpending₁, -, -⟩ :=
    reaches_chunked_head first.chunked (awaitsHead_connect segments false) hpending
  have hending := first.two_le_ending
  have hmark : eol2 <:+: first.ending ++ r.text :=
    (eol2_infix_text r.head r.body).trans (List.suffix_append _ _).isInfix
  have hw : 2 ^ 32 + 2 ≤ 2 ^ 64 := by decide
  obtain ⟨s₂, hreach₂, hhead, hlow, hhigh⟩ :=
    reaches_head_within hw first.chunks first.lastLine first.last_zero hsize hpending₁
      (by rw [List.length_append]; omega) hmark
  have hlow := hlow.length_le
  have hhigh := hhigh.length_le
  have hpos := first.head.text_length_pos
  refine ⟨s₂, hreach₁.trans hreach₂, hhead, ?_, ?_⟩
  · rw [List.length_append] at hlow
    omega
  · rw [hpending₁] at hhigh
    simp only [Chunked.text, List.length_append] at hhigh ⊢
    omega

theorem not_resynchronises {first : Chunked} {r : Counted} {segments : List Bytes}
    {s : ClientSession} (hreach : Reaches (clientStep 64) (connect segments false) s)
    (hhead : AwaitsHead s) (hlow : r.text.length < s.pending.length)
    (hhigh : s.pending.length < (first.text ++ r.text).length) :
    ¬ Resynchronises first r segments := by
  rintro ⟨hstep, -⟩
  rcases hstep s hreach hhead with hstart | hdone
  · rw [hstart] at hhigh
    omega
  · have := hdone.length_le
    omega

/-- **No resynchronisation.**  However a chunked response and a counted response behind
it arrive, the reader does not stay in step. -/
theorem never_resynchronises (first : Chunked) (r : Counted) (segments : List Bytes)
    (hstream : segments.flatten = first.text ++ r.text) : ¬ Resynchronises first r segments := by
  obtain ⟨s, hreach, hhead, hlow, hhigh⟩ := exists_head_within first r segments hstream
  exact not_resynchronises hreach hhead hlow hhigh

/-- One chunk `hello` and no trailers. -/
def helloChunked : Chunked where
  head := Head.ok [chunkedField]
  chunks := [helloChunk]
  lastSize := ascii "0"
  lastExtension := []
  trailers := []
  chunked := by decide
  lastLine := ⟨by decide, by simp, by simp⟩
  last_zero := by decide

/-- A response of one chunk and a counted one, each in one read. -/
theorem never_resynchronises_hello :
    ¬ Resynchronises helloChunked twoBytes [helloChunked.text, twoBytes.text] :=
  never_resynchronises helloChunked twoBytes _ (by decide)

/-- So resynchronisation is not what the reader does, even behind a single chunk. -/
theorem not_always_resynchronises :
    ¬ ∀ (first : Chunked) (r : Counted) (segments : List Bytes), r.body ≠ [] →
      segments.flatten = first.text ++ r.text → Resynchronises first r segments := by
  intro hall
  have hstream : [helloChunked.text, twoBytes.text].flatten =
      helloChunked.text ++ twoBytes.text := by decide
  obtain ⟨s, hreach, hhead, hlow, hhigh⟩ :=
    exists_head_within helloChunked twoBytes [helloChunked.text, twoBytes.text] hstream
  exact not_resynchronises hreach hhead hlow hhigh
    (hall helloChunked twoBytes _ (by decide) hstream)

/-! ## The calls behind a chunked response -/

/-- Trailers that neither look like a status line nor describe a body. -/
def PlainTrailers (fields : List Field) : Prop :=
  ∀ field ∈ fields, ¬ ascii "HTTP/" <+: field.name ∧
    field.name ≠ ascii "Transfer-Encoding" ∧ field.name ≠ ascii "Content-Length"

/-- A buffer with an empty line in it holds the trailers and the final CRLF. -/
theorem split_ending (trailers : List Field) {buffer unread rest : Bytes}
    (hstream : buffer ++ unread = fieldsText trailers ++ eol1 ++ rest)
    (hmark : eol2 <:+: buffer) :
    ∃ behind, buffer = fieldsText trailers ++ eol1 ++ behind ∧ behind ++ unread = rest := by
  cases trailers with
  | nil =>
      have hlen : eol1.length ≤ buffer.length :=
        le_trans (by decide) hmark.length_le
      obtain ⟨behind, rfl⟩ := List.prefix_of_prefix_length_le ⟨rest, rfl⟩ ⟨unread, hstream⟩ hlen
      rw [List.append_assoc] at hstream
      exact ⟨behind, rfl, List.append_cancel_left hstream⟩
  | cons field fields =>
      have hends := firstEnds_fieldsText field.CR_notMem_line fields
      have htext : fieldsText (field :: fields) ++ eol1 =
          field.line ++ eol1 ++ fieldsText fields ++ eol1 := by
        simp [fieldsText, Field.text]
      rw [htext] at hstream ⊢
      exact hends.split_of_infix hstream hmark

theorem headerReadComplete_ending {trailers : List Field} (hplain : PlainTrailers trailers)
    (ec : Bool) (behind : Bytes) :
    ∃ res, headerReadComplete 64 default ec (fieldsText trailers ++ eol1 ++ behind) =
      ⟨behind, [], .issue (.readAtLeast (sizeSub 64 0 behind.length))
        (.plainBodyReadComplete res 0)⟩ := by
  have hlookup : ∀ name, (∀ field ∈ trailers, field.name ≠ name) →
      (insertFields OrderedMap.empty (pairs trailers)).find? name = none := by
    intro name hname
    rw [Head.find?_insertFields]
    simpa [List.find?_eq_none] using hname
  have htransfer := hlookup (ascii "Transfer-Encoding") fun field hmem => (hplain field hmem).2.1
  have hlength := hlookup (ascii "Content-Length") fun field hmem => (hplain field hmem).2.2
  have hpos : ¬ (fieldsText trailers ++ eol1 ++ behind).length = 0 := by
    simp [eol1, ascii]
  have hcast : lexicalCastSize 64 (ascii "0") = some 0 :=
    lexicalCastSize_numeral (by decide) (by decide)
  refine ⟨{ (default : HttpResponseData) with
    header := insertFields OrderedMap.empty (pairs trailers) }, ?_⟩
  have hparse := parseHeader_fieldsText behind default fun field hmem => (hplain field hmem).1
  rw [headerReadComplete, if_neg hpos, hparse]
  have hempty : (default : HttpResponseData).header = OrderedMap.empty := rfl
  simp only [List.drop_left, mapGetOr, hempty, htransfer, hlength, Option.getD_none, hcast]
  rfl

/-- With plain trailers the reader never comes to the head behind them: at rest it has made
the calls for the chunks, and no other. -/
theorem no_call_behind_chunks (first : Chunked) (r : Counted) (segments : List Bytes)
    (hstream : segments.flatten = first.text ++ r.text)
    (hfits : ∀ chunk ∈ first.chunks, chunk.data.length < 2 ^ 32)
    (hplain : PlainTrailers first.trailers)
    (hsize : (first.text ++ r.text).length < 2 ^ 64) :
    ∃ s ∈ eval (clientStep 64) (connect segments false), s.outputs = first.calls := by
  have hpending : (connect segments false).pending = first.head.text ++
      (chunksText first.chunks ++ (first.lastText ++ (first.ending ++ r.text))) := by
    have hconnect : (connect segments false).pending = segments.flatten := rfl
    rw [hconnect, hstream]
    simp [Chunked.text]
  have hw : 2 ^ 32 + 2 ≤ 2 ^ 64 := by decide
  have hrest : 2 ≤ (first.ending ++ r.text).length := by
    have := first.two_le_ending
    rw [List.length_append]
    omega
  have hmark : eol2 <:+: first.ending ++ r.text :=
    (eol2_infix_text r.head r.body).trans (List.suffix_append _ _).isInfix
  obtain ⟨s₁, hreach₁, hawaits₁, hpending₁, houtputs₁, hclosed₁⟩ :=
    reaches_chunked_head first.chunked (awaitsHead_connect segments false) hpending
  obtain ⟨s₂, hreach₂, ⟨start, hact⟩, hpending₂, houtputs₂, hclosed₂⟩ :=
    reaches_ending hw hfits hawaits₁ hpending₁ hrest hmark
  have hmark₂ : eol2 <:+: s₂.pending := hpending₂ ▸ hmark
  obtain ⟨buffer, unread, hflat, hsat, hreach₃⟩ :=
    reaches_complete hact (by simpa using hmark₂)
  rw [hpending₂] at hflat
  obtain ⟨behind, rfl, hbehind⟩ := split_ending first.trailers hflat (by simpa using hsat)
  change Reaches (clientStep 64) s₂ (Session.resume _
    (headerReadComplete 64 default false (fieldsText first.trailers ++ eol1 ++ behind)))
    at hreach₃
  obtain ⟨res, hres⟩ := headerReadComplete_ending hplain false behind
  rw [hres] at hreach₃
  have houtputs : s₂.outputs ++ [] = first.calls := by
    rw [List.append_nil, houtputs₂, houtputs₁]
    rfl
  rw [reaches_eval ((hreach₁.trans hreach₂).trans hreach₃)]
  rw [← houtputs]
  cases behind with
  | nil => exact quiet_of_empty rfl rfl
  | cons b behind =>
      refine quiet_of_wrapped rfl (hclosed₂.trans hclosed₁) (Nat.succ_pos _) ?_
      have hlen : (b :: behind).length + unread.flatten.length < 2 ^ 64 := by
        rw [← List.length_append, hbehind]
        simp only [List.length_append] at hsize ⊢
        omega
      rwa [← List.length_append] at hlen

end BlackCircle.Http.Resync
