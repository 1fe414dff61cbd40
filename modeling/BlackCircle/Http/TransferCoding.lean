import BlackCircle.Http.Resync
import Mathlib.Data.List.TakeWhile

/-!
# The same body under the two transfer codings

What the calls of a run hand over, put together, for one body that is sent in
chunks and for the same body sent with its length.
-/

namespace BlackCircle.Http.TransferCoding

open BlackCircle.Foundation.ByteString
open BlackCircle.Foundation.Delimiter
open BlackCircle.Foundation.Numeral
open BlackCircle.Foundation.Peg
open BlackCircle.Foundation.ReadLoop
open BlackCircle.Http.BodyEnd
open BlackCircle.Http.ChunkedReader
open BlackCircle.Http.Client
open BlackCircle.Http.CountedReader
open BlackCircle.Http.HeadReader
open BlackCircle.Http.Message
open BlackCircle.Http.Response
open BlackCircle.Http.Resync
open StateTransition

/-- The data of all calls, put together, when the reads have been handled. -/
def handedOver (segments : List Bytes) : Part Bytes :=
  (eval (clientStep 64) (connect segments false)).map fun s =>
    s.outputs.flatMap HttpResponseData.data

/-- The chunks before the first one whose size does not fit into 32 bits. -/
def readable (chunks : List Chunk) : List Chunk :=
  chunks.takeWhile fun chunk => chunk.data.length < 2 ^ 32

theorem readable_cons_of_lt {chunk : Chunk} (h : chunk.data.length < 2 ^ 32)
    (chunks : List Chunk) : readable (chunk :: chunks) = chunk :: readable chunks :=
  List.takeWhile_cons_of_pos (decide_eq_true h)

theorem readable_cons_of_le {chunk : Chunk} (h : ¬ chunk.data.length < 2 ^ 32)
    (chunks : List Chunk) : readable (chunk :: chunks) = [] :=
  List.takeWhile_cons_of_neg (by simpa using h)

theorem mem_handedOver {segments : List Bytes} {calls : List HttpResponseData}
    (h : ∃ s ∈ eval (clientStep 64) (connect segments false), s.outputs = calls) :
    calls.flatMap HttpResponseData.data ∈ handedOver segments := by
  obtain ⟨s, hs, hcalls⟩ := h
  exact (Part.mem_map_iff _).mpr ⟨s, hs, by rw [hcalls]⟩

/-! ## Counted -/

/-- A counted response with a body, alone on its connection, is handed over. -/
theorem handedOver_counted (r : Counted) (hbody : r.body ≠ []) {segments : List Bytes}
    (hstream : segments.flatten = r.text) : r.body ∈ handedOver segments := by
  obtain ⟨s, hs, houtputs⟩ := delivered_alone hbody hstream segments List.prefix_rfl
  have hcalls : s.outputs = [r.call] := by
    rw [houtputs, hstream, arrived, if_pos le_rfl]
    simp [arrived]
  simpa [Counted.call] using mem_handedOver ⟨s, hs, hcalls⟩

/-! ## Chunked -/

/-- At a size line that does not fit into 32 bits the run ends by an exception. -/
theorem eval_oversize {s : ClientSession} {res : HttpResponseData} {size rest : Bytes}
    (hline : SizeLine size []) (hover : 2 ^ 32 ≤ value 16 size) (hawaits : AwaitsSize res s)
    (hpending : s.pending = size ++ [] ++ eol1 ++ rest) (hmark : eol2 <:+: s.pending) :
    ∃ s' ∈ eval (clientStep 64) s, s'.outputs = s.outputs := by
  have hw : 2 < 2 ^ 64 := by decide
  obtain ⟨s₁, hreach₁, hlast, hpending₁, houtputs₁, -⟩ :=
    reaches_last_oversize hw hline hover hawaits hpending
  obtain ⟨s₂, hreach₂, ⟨start, hact⟩, hpending₂, houtputs₂, -⟩ :=
    reaches_startRead hlast (hpending₁ ▸ hmark)
  have hmark₂ : eol2 <:+: s₂.pending := by
    rw [hpending₂, hpending₁]
    exact hmark
  obtain ⟨buffer, unread, hflat, hsat, hreach₃⟩ :=
    reaches_complete hact (by simpa using hmark₂)
  rw [hpending₂, hpending₁, hpending] at hflat
  have hmark₃ : eol1 <:+: buffer := by
    have hinfix : eol2 <:+: buffer := by simpa using hsat
    exact List.IsInfix.trans (by decide) hinfix
  obtain ⟨behind, rfl, -⟩ := hline.firstEnds.split_of_infix hflat hmark₃
  change Reaches (clientStep 64) s₂ (Session.resume _
    (headerReadComplete 64 default false (size ++ [] ++ eol1 ++ behind))) at hreach₃
  have hpos : ¬ (size ++ [] ++ eol1 ++ behind).length = 0 := by
    have := sizeLine_length hline behind
    omega
  rw [headerReadComplete, if_neg hpos, List.append_nil, List.append_assoc,
    SizeLine.parseHeader_sizeLine hline.numeral] at hreach₃
  rw [reaches_eval ((hreach₁.trans hreach₂).trans hreach₃)]
  refine ⟨_, mem_eval.mpr ⟨Relation.ReflTransGen.refl, rfl⟩, ?_⟩
  simp [houtputs₂, houtputs₁]

/-- A reader at a size line hands over the readable chunks, and no other. -/
theorem eval_readable (chunks : List Chunk) {s : ClientSession} {res : HttpResponseData}
    {size extension : Bytes} (hawaits : AwaitsSize res s) (hopen : s.closed = false)
    (hplain : ∀ chunk ∈ chunks, 2 ^ 32 ≤ chunk.data.length → chunk.extension = [])
    (hline : SizeLine size extension) (hzero : value 16 size = 0)
    (hpending : s.pending = chunksText chunks ++ (size ++ extension ++ eol1 ++ eol1)) :
    ∃ s' ∈ eval (clientStep 64) s,
      s'.outputs = s.outputs ++ (readable chunks).map (chunkCall res) := by
  have hw : 2 ^ 32 + 2 ≤ 2 ^ 64 := by decide
  induction chunks generalizing s with
  | nil =>
      obtain ⟨s₁, hreach₁, ⟨start, hact⟩, hpending₁, houtputs₁, hclosed₁⟩ :=
        reaches_last (two_lt_of_wide hw) hline hzero hawaits hpending (by decide)
      have hmark : ¬ eol2 <:+: s₁.pending := by
        rw [hpending₁]
        decide
      obtain ⟨s', hs', houtputs'⟩ :=
        quiet_of_not_infix hact (hclosed₁.trans hopen) hmark
      refine ⟨s', by rwa [reaches_eval hreach₁], ?_⟩
      simp [houtputs', houtputs₁, readable]
  | cons chunk chunks ih =>
      have hsplit : s.pending = chunk.text ++
          (chunksText chunks ++ (size ++ extension ++ eol1 ++ eol1)) := by
        rw [hpending, chunksText_cons, List.append_assoc]
      by_cases hfits : chunk.data.length < 2 ^ 32
      · obtain ⟨s₁, hreach₁, hawaits₁, hpending₁, houtputs₁, hclosed₁⟩ :=
          reaches_chunk hw hfits hawaits hsplit
        obtain ⟨s', hs', houtputs'⟩ := ih hawaits₁ (hclosed₁.trans hopen)
          (fun other hmem => hplain other (List.mem_cons_of_mem _ hmem)) hpending₁
        refine ⟨s', by rwa [reaches_eval hreach₁], ?_⟩
        rw [houtputs', houtputs₁, readable_cons_of_lt hfits]
        simp
      · have hext := hplain chunk List.mem_cons_self (not_lt.mp hfits)
        have hover : 2 ^ 32 ≤ value 16 chunk.size := by
          rw [chunk.size_value]
          exact not_lt.mp hfits
        have hchunk : s.pending = chunk.size ++ [] ++ eol1 ++
            (chunk.body ++ (chunksText chunks ++ (size ++ extension ++ eol1 ++ eol1))) := by
          rw [hsplit, Chunk.text, Chunk.sizeText, hext, List.append_assoc]
        have hmark : eol2 <:+: s.pending := by
          have hsuffix : eol2 <:+ s.pending := by
            refine ⟨chunksText (chunk :: chunks) ++ (size ++ extension), ?_⟩
            have heol : eol2 = eol1 ++ eol1 := rfl
            rw [hpending, heol]
            simp only [List.append_assoc]
          exact hsuffix.isInfix
        rw [readable_cons_of_le hfits, List.map_nil, List.append_nil]
        exact eval_oversize (hext ▸ chunk.sizeLine) hover hawaits hchunk hmark

/-- A body that is sent in chunks is handed over with the CRLF behind each of them. -/
theorem handedOver_chunked (r : Chunked)
    (hplain : ∀ chunk ∈ r.chunks, 2 ^ 32 ≤ chunk.data.length → chunk.extension = [])
    (htrailers : r.trailers = []) {segments : List Bytes} (hstream : segments.flatten = r.text) :
    (readable r.chunks).flatMap Chunk.body ∈ handedOver segments := by
  have hpending : (connect segments false).pending = r.head.text ++
      (chunksText r.chunks ++ (r.lastText ++ eol1)) := by
    have hconnect : (connect segments false).pending = segments.flatten := rfl
    rw [hconnect, hstream, Chunked.text, Chunked.ending, htrailers]
    rfl
  obtain ⟨s₁, hreach₁, hawaits₁, hpending₁, houtputs₁, hclosed₁⟩ :=
    reaches_chunked_head r.chunked (awaitsHead_connect segments false) hpending
  obtain ⟨s', hs', houtputs'⟩ :=
    eval_readable r.chunks hawaits₁ hclosed₁ hplain r.lastLine r.last_zero hpending₁
  have hcalls : s'.outputs = (readable r.chunks).map (chunkCall r.head.response) := by
    rw [houtputs', houtputs₁]
    rfl
  have hmem := mem_handedOver ⟨s', by rwa [reaches_eval hreach₁], hcalls⟩
  rwa [List.flatMap_map] at hmem

/-! ## Comparison -/

/-- Each readable chunk is handed over two bytes longer than it is. -/
theorem length_flatMap_body (chunks : List Chunk) :
    (chunks.flatMap Chunk.body).length =
      (chunks.flatMap Chunk.data).length + 2 * chunks.length := by
  induction chunks with
  | nil => rfl
  | cons chunk chunks ih =>
      simp only [List.flatMap_cons, List.length_append, ih, chunk.body_length, List.length_cons]
      omega

/-- **Transfer coding changes the body.**  A non-empty body is handed over the same in
chunks and with its length only if a chunk is too long to be read and the chunks
before it, each with its closing CRLF, happen to spell out the whole body. -/
theorem handedOver_eq_iff (r : Chunked)
    (hplain : ∀ chunk ∈ r.chunks, 2 ^ 32 ≤ chunk.data.length → chunk.extension = [])
    (htrailers : r.trailers = []) (counted : Counted)
    (hsame : r.chunks.flatMap Chunk.data = counted.body) (hbody : counted.body ≠ [])
    (chunkedSegments countedSegments : List Bytes)
    (hchunked : chunkedSegments.flatten = r.text)
    (hcounted : countedSegments.flatten = counted.text) :
    handedOver chunkedSegments = handedOver countedSegments ↔
      (∃ chunk ∈ r.chunks, 2 ^ 32 ≤ chunk.data.length) ∧
        (readable r.chunks).flatMap Chunk.body = counted.body := by
  have hleft := handedOver_chunked r hplain htrailers hchunked
  have hright := handedOver_counted counted hbody hcounted
  constructor
  · intro heq
    have hbodies : (readable r.chunks).flatMap Chunk.body = counted.body :=
      Part.mem_unique hleft (heq ▸ hright)
    refine ⟨?_, hbodies⟩
    by_contra hshort
    have hall : readable r.chunks = r.chunks := by
      apply List.takeWhile_eq_self_iff.mpr
      intro chunk hmem
      have hlt : ¬ 2 ^ 32 ≤ chunk.data.length := fun hle => hshort ⟨chunk, hmem, hle⟩
      exact decide_eq_true (not_le.mp hlt)
    have hlen := length_flatMap_body r.chunks
    rw [hall] at hbodies
    rw [hbodies, hsame] at hlen
    have hnone : r.chunks = [] := List.length_eq_zero_iff.mp (by omega)
    rw [hnone] at hsame
    exact hbody hsame.symm
  · rintro ⟨-, hbodies⟩
    rw [hbodies] at hleft
    rw [Part.eq_some_iff.mpr hleft, Part.eq_some_iff.mpr hright]

/-- A response with the counted body `hello`. -/
def helloCounted : Counted where
  head := Head.ok [lengthField (ascii "5") (by decide) (by decide)]
  length := ascii "5"
  body := ascii "hello"
  unchunked := by decide
  counted := by decide
  length_numeral := by decide
  length_value := by decide
  body_fits := by decide

/-- The body `hello` in one chunk, read byte by byte, is not handed over as it is with its
length. -/
theorem handedOver_eq_iff_hello :
    handedOver (helloChunked.text.map fun b => [b]) ≠ handedOver [helloCounted.text] := by
  intro heq
  obtain ⟨⟨chunk, hmem, hlarge⟩, -⟩ := (handedOver_eq_iff helloChunked (by decide) rfl helloCounted
    (by decide) (by decide) _ _ (by decide) (by decide)).mp heq
  rw [List.mem_singleton.mp hmem] at hlarge
  exact absurd hlarge (by decide)

/-- In one chunk, `hello` is handed over as `hello` and a CRLF. -/
theorem handedOver_hello_ne : handedOver [helloChunked.text] ≠ handedOver [helloCounted.text] := by
  have hchunked : ascii "hello\r\n" ∈ handedOver [helloChunked.text] :=
    handedOver_chunked helloChunked (by decide) rfl (by decide)
  have hcounted : ascii "hello" ∈ handedOver [helloCounted.text] :=
    handedOver_counted helloCounted (by decide) (by decide)
  intro heq
  rw [heq] at hchunked
  exact absurd (Part.mem_unique hchunked hcounted) (by decide)

end BlackCircle.Http.TransferCoding
