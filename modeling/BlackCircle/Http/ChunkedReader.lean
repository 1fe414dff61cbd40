import BlackCircle.Http.HeadReader

/-!
# The reader on chunked responses

The proofs follow the wire: one lemma carries a waiting reader over the head,
one over a single chunk, and one says that a reader which has only a part of a
chunk makes no call.  How the bytes are divided between the buffer and the
network is never looked at.
-/

namespace BlackCircle.Http.ChunkedReader

open BlackCircle.Foundation
open BlackCircle.Foundation.ByteString
open BlackCircle.Foundation.Delimiter
open BlackCircle.Foundation.Numeral
open BlackCircle.Foundation.ReadLoop
open BlackCircle.Http.Client
open BlackCircle.Http.HeadReader
open BlackCircle.Http.Message
open BlackCircle.Http.Response
open StateTransition

/-- A head whose first `Transfer-Encoding` line has the value `chunked`. -/
def IsChunked (head : Head) : Prop :=
  head.fieldValue (ascii "Transfer-Encoding") = some (ascii "chunked")

instance (head : Head) : Decidable (IsChunked head) :=
  inferInstanceAs (Decidable (head.fieldValue (ascii "Transfer-Encoding") = _))

/-- The call made for a chunk: the data is the chunk with its closing CRLF. -/
def chunkCall (res : HttpResponseData) (chunk : Chunk) : HttpResponseData :=
  { res with data := chunk.body }

/-- The chunks that lie within the first `received` bytes of the chunked body. -/
def arrivedChunks : Nat → List Chunk → List Chunk
  | _, [] => []
  | received, chunk :: chunks =>
      if chunk.text.length ≤ received then
        chunk :: arrivedChunks (received - chunk.text.length) chunks
      else []

/-! ## The head -/

/-- The reader waits for a chunk-size line; it holds the response `res`, up to its data. -/
def AwaitsSize (res : HttpResponseData) (s : ClientSession) : Prop :=
  ∃ start data, s.activity =
    .reading (.readUntil eol1) start (.chunkSizeReadComplete { res with data := data })

/-- After a chunked head the reader waits for a size line. -/
theorem reaches_chunked_head {w : Nat} {s : ClientSession} {head : Head} {rest : Bytes}
    (hchunked : IsChunked head) (hawaits : AwaitsHead s)
    (hpending : s.pending = head.text ++ rest) :
    ∃ s', Reaches (clientStep w) s s' ∧ AwaitsSize head.response s' ∧ s'.pending = rest ∧
      s'.outputs = s.outputs ∧ s'.closed = s.closed := by
  obtain ⟨behind, unread, hrest, hreach⟩ := reaches_head hawaits hpending
  have hget : mapGetOr head.header (ascii "Transfer-Encoding") (ascii "") = ascii "chunked" := by
    rw [mapGetOr, head.find?_header, hchunked]
    rfl
  rw [headerReadComplete_text, if_pos hget] at hreach
  exact ⟨_, hreach, ⟨behind.length, [], rfl⟩, hrest, List.append_nil _, rfl⟩

/-! ## One chunk -/

section OneChunk

variable {w : Nat} {chunk : Chunk} (hw : 2 ^ 32 + 2 ≤ 2 ^ w)
  (hfits : chunk.data.length < 2 ^ 32)

include hw hfits in
theorem sizeAdd_chunk : sizeAdd w chunk.data.length 2 = chunk.body.length := by
  rw [sizeAdd_of_lt (by omega), chunk.body_length]

include hw hfits in
/-- The body handler on a buffer that holds the whole chunk body. -/
theorem chunkBodyReadComplete_body (res : HttpResponseData) (ec : Bool) (behind : Bytes) :
    chunkBodyReadComplete w res chunk.data.length ec (chunk.body ++ behind) =
      ⟨behind, [chunkCall res chunk],
        .issue (.readUntil eol1) (.chunkSizeReadComplete (chunkCall res chunk))⟩ := by
  have hbody := chunk.body_length
  have hdata : chunk.data.length ≠ 0 := by simpa using chunk.data_nonempty
  have hlen : (chunk.body ++ behind).length = chunk.body.length + behind.length :=
    List.length_append
  rw [chunkBodyReadComplete, if_neg (by omega), if_neg hdata, sizeAdd_chunk hw hfits,
    if_pos (by omega)]
  simp [chunkCall, List.take_left', List.drop_left']

include hw hfits in
/-- The size-line handler: it calls the body handler at once when the chunk is
buffered, and otherwise asks for the bytes that are missing. -/
theorem chunkSizeReadComplete_text (res : HttpResponseData) (ec : Bool) (behind : Bytes) :
    chunkSizeReadComplete w res ec (chunk.sizeText ++ behind) =
      (if chunk.body.length > behind.length then
        ⟨behind, [], .issue (.readAtLeast (chunk.body.length - behind.length))
          (.chunkBodyReadComplete res chunk.data.length)⟩
      else chunkBodyReadComplete w res chunk.data.length ec behind) := by
  have hsize := chunk.sizeText_length
  have hbody := chunk.body_length
  have hlen : (chunk.sizeText ++ behind).length = chunk.sizeText.length + behind.length :=
    List.length_append
  have hparse : parseChunkSize (chunk.sizeText ++ behind) 0 =
      .ok (chunk.sizeText.length, chunk.data.length) := by
    rw [← chunk.size_value]
    exact chunk.sizeLine.parseChunkSize_text (chunk.size_value ▸ hfits) behind 0
  rw [chunkSizeReadComplete, if_neg (by omega), if_neg (by omega), hparse]
  simp only [List.drop_left, sizeAdd_chunk hw hfits]
  by_cases hmore : chunk.body.length > behind.length
  · rw [if_pos hmore, if_pos hmore, sizeSub_of_le (by omega) (by omega)]
  · rw [if_neg hmore, if_neg hmore]

/-- The reader waits for the rest of a chunk body of which it has too little. -/
structure AwaitsBody (res : HttpResponseData) (chunk : Chunk) (s : ClientSession) : Prop where
  short : s.buffer.length < chunk.body.length
  reading : ∃ data, s.activity =
    .reading (.readAtLeast (chunk.body.length - s.buffer.length)) s.buffer.length
      (.chunkBodyReadComplete { res with data := data } chunk.data.length)

/-- A buffer that is filled with a chunk body and what follows it, and is long enough,
holds the body. -/
theorem split_body {buffer more : Bytes} (hstream : buffer <+: chunk.body ++ more)
    (hlen : chunk.body.length ≤ buffer.length) : ∃ tail, buffer = chunk.body ++ tail := by
  obtain ⟨tail, htail⟩ :=
    List.prefix_of_prefix_length_le (List.prefix_append chunk.body more) hstream hlen
  exact ⟨tail, htail.symm⟩

include hw hfits in
/-- A size line completes the reader's delimited read.  What the reader does next
depends on whether the chunk body is already buffered behind the line. -/
theorem reaches_size {s : ClientSession} {res : HttpResponseData} {rest more : Bytes}
    (hawaits : AwaitsSize res s) (hpending : s.pending = chunk.sizeText ++ rest)
    (hstream : rest <+: chunk.body ++ more) :
    ∃ s', Reaches (clientStep w) s s' ∧ s'.closed = s.closed ∧
      ((AwaitsBody res chunk s' ∧ s'.pending = rest ∧ s'.outputs = s.outputs) ∨
        ∃ tail, rest = chunk.body ++ tail ∧ AwaitsSize res s' ∧ s'.pending = tail ∧
          s'.outputs = s.outputs ++ [chunkCall res chunk]) := by
  obtain ⟨start, data, hact⟩ := hawaits
  have hmark : eol1 <:+: s.pending := by
    rw [hpending]
    exact (chunk.sizeLine.firstEnds.infix_iff List.prefix_rfl).mpr (List.prefix_append _ _)
  obtain ⟨buffer, unread, hflat, hsat, hreach⟩ :=
    reaches_complete hact (by simpa using hmark)
  rw [hpending] at hflat
  obtain ⟨behind, rfl, hrest⟩ :=
    chunk.sizeLine.firstEnds.split_of_infix hflat (by simpa using hsat)
  change Reaches (clientStep w) s (Session.resume _
    (chunkSizeReadComplete w _ false (chunk.sizeText ++ behind))) at hreach
  rw [chunkSizeReadComplete_text hw hfits] at hreach
  refine ⟨_, hreach, rfl, ?_⟩
  by_cases hmore : chunk.body.length > behind.length
  · rw [if_pos hmore]
    exact Or.inl ⟨⟨hmore, data, rfl⟩, hrest, List.append_nil _⟩
  · have hbehind : behind <+: chunk.body ++ more :=
      (List.prefix_append behind unread.flatten).trans (hrest ▸ hstream)
    obtain ⟨after, rfl⟩ := split_body hbehind (not_lt.mp hmore)
    rw [if_neg hmore, chunkBodyReadComplete_body hw hfits]
    rw [List.append_assoc] at hrest
    exact Or.inr ⟨after ++ unread.flatten, hrest.symm, ⟨after.length, chunk.body, rfl⟩, rfl, rfl⟩

include hw hfits in
/-- The missing bytes of a chunk body complete the reader's counted read. -/
theorem reaches_body {s : ClientSession} {res : HttpResponseData} {rest : Bytes}
    (hawaits : AwaitsBody res chunk s) (hpending : s.pending = chunk.body ++ rest) :
    ∃ s', Reaches (clientStep w) s s' ∧ AwaitsSize res s' ∧ s'.pending = rest ∧
      s'.outputs = s.outputs ++ [chunkCall res chunk] ∧ s'.closed = s.closed := by
  obtain ⟨data, hact⟩ := hawaits.reading
  have hshort := hawaits.short
  have henough : chunk.body.length - s.buffer.length ≤ s.pending.length - s.buffer.length := by
    rw [hpending, List.length_append]
    omega
  obtain ⟨buffer, unread, hflat, hsat, hreach⟩ :=
    reaches_complete hact (by simpa using henough)
  have hbuffer : chunk.body.length ≤ buffer.length := by
    have hcount : chunk.body.length - s.buffer.length ≤ buffer.length - s.buffer.length := by
      simpa using hsat
    omega
  rw [hpending] at hflat
  obtain ⟨after, rfl⟩ := split_body ⟨unread.flatten, hflat⟩ hbuffer
  change Reaches (clientStep w) s (Session.resume _
    (chunkBodyReadComplete w _ chunk.data.length false (chunk.body ++ after))) at hreach
  rw [chunkBodyReadComplete_body hw hfits] at hreach
  rw [List.append_assoc] at hflat
  exact ⟨_, hreach, ⟨after.length, chunk.body, rfl⟩, List.append_cancel_left hflat, rfl, rfl⟩

include hw hfits in
/-- The bytes of a chunk carry the reader from one size line to the next, with one call. -/
theorem reaches_chunk {s : ClientSession} {res : HttpResponseData} {rest : Bytes}
    (hawaits : AwaitsSize res s) (hpending : s.pending = chunk.text ++ rest) :
    ∃ s', Reaches (clientStep w) s s' ∧ AwaitsSize res s' ∧ s'.pending = rest ∧
      s'.outputs = s.outputs ++ [chunkCall res chunk] ∧ s'.closed = s.closed := by
  rw [Chunk.text, List.append_assoc] at hpending
  obtain ⟨s₁, hreach₁, hclosed₁, hnext⟩ :=
    reaches_size hw hfits hawaits hpending (List.prefix_append_right_inj _ |>.mpr List.prefix_rfl)
  rcases hnext with ⟨hbody, hpending₁, houtputs₁⟩ | ⟨tail, htail, hsize, hpending₁, houtputs₁⟩
  · obtain ⟨s₂, hreach₂, hsize, hpending₂, houtputs₂, hclosed₂⟩ :=
      reaches_body hw hfits hbody hpending₁
    exact ⟨s₂, hreach₁.trans hreach₂, hsize, hpending₂, by rw [houtputs₂, houtputs₁],
      by rw [hclosed₂, hclosed₁]⟩
  · have hrest : rest = tail := List.append_cancel_left htail
    exact ⟨s₁, hreach₁, hsize, by rw [hpending₁, hrest], houtputs₁, hclosed₁⟩

include hw hfits in
/-- A reader that has only a part of the next chunk comes to rest without a call. -/
theorem quiet_of_part {s : ClientSession} {res : HttpResponseData}
    (hawaits : AwaitsSize res s) (hopen : s.closed = false) (hstream : s.pending <+: chunk.text)
    (hshort : s.pending.length < chunk.text.length) :
    ∃ s' ∈ eval (clientStep w) s, s'.outputs = s.outputs := by
  have htext : chunk.text.length = chunk.sizeText.length + chunk.body.length :=
    List.length_append
  by_cases hline : s.pending.length < chunk.sizeText.length
  · obtain ⟨start, data, hact⟩ := hawaits
    exact quiet_of_not_infix hact hopen
      (chunk.sizeLine.firstEnds.not_infix_of_short hstream hline)
  · obtain ⟨rest, hrest⟩ := List.prefix_of_prefix_length_le
      (List.prefix_append chunk.sizeText chunk.body) hstream (not_lt.mp hline)
    have hpart : rest <+: chunk.body := by
      rw [← hrest] at hstream
      exact (List.prefix_append_right_inj _).mp hstream
    have hrestlen : rest.length < chunk.body.length := by
      rw [← hrest, List.length_append] at hshort
      omega
    obtain ⟨s₁, hreach, hclosed, hnext⟩ :=
      reaches_size hw hfits hawaits hrest.symm (hpart.trans (List.prefix_append _ []))
    rcases hnext with ⟨hbody, hpending, houtputs⟩ | ⟨tail, htail, -, -, -⟩
    · obtain ⟨data, hact⟩ := hbody.reading
      have hshort₁ := hbody.short
      have hunsat : ¬ chunk.body.length - s₁.buffer.length ≤
          s₁.pending.length - s₁.buffer.length := by
        rw [hpending]
        omega
      rw [reaches_eval hreach]
      exact ⟨_, eval_waiting hact (by rw [hclosed, hopen]) (by simpa using hunsat), houtputs⟩
    · rw [htail, List.length_append] at hrestlen
      omega

end OneChunk

/-! ## Whole bodies -/

section Body

variable {w : Nat} (hw : 2 ^ 32 + 2 ≤ 2 ^ w)

include hw in
/-- A list of chunks is delivered one call for each, in order. -/
theorem reaches_chunks {res : HttpResponseData} {rest : Bytes} (chunks : List Chunk)
    {s : ClientSession} (hawaits : AwaitsSize res s)
    (hpending : s.pending = chunksText chunks ++ rest)
    (hfits : ∀ chunk ∈ chunks, chunk.data.length < 2 ^ 32) :
    ∃ s', Reaches (clientStep w) s s' ∧ AwaitsSize res s' ∧ s'.pending = rest ∧
      s'.outputs = s.outputs ++ chunks.map (chunkCall res) ∧ s'.closed = s.closed := by
  induction chunks generalizing s with
  | nil => exact ⟨s, Relation.ReflTransGen.refl, hawaits, hpending, by simp, rfl⟩
  | cons chunk chunks ih =>
      have hfirst : s.pending = chunk.text ++ (chunksText chunks ++ rest) := by
        rw [hpending, chunksText_cons, List.append_assoc]
      obtain ⟨s₁, hreach₁, hawaits₁, hpending₁, houtputs₁, hclosed₁⟩ :=
        reaches_chunk hw (hfits chunk List.mem_cons_self) hawaits hfirst
      obtain ⟨s₂, hreach₂, hawaits₂, hpending₂, houtputs₂, hclosed₂⟩ := ih hawaits₁ hpending₁
        (fun other hmem => hfits other (List.mem_cons_of_mem _ hmem))
      refine ⟨s₂, hreach₁.trans hreach₂, hawaits₂, hpending₂, ?_, by rw [hclosed₂, hclosed₁]⟩
      rw [houtputs₂, houtputs₁]
      simp

include hw in
/-- A reader at a size line, given any part of the chunks that follow, calls its
handler for the chunks that have arrived whole, and then rests. -/
theorem eval_chunks {res : HttpResponseData} (chunks : List Chunk) {s : ClientSession}
    (hawaits : AwaitsSize res s) (hopen : s.closed = false)
    (hstream : s.pending <+: chunksText chunks)
    (hfits : ∀ chunk ∈ chunks, chunk.data.length < 2 ^ 32) :
    ∃ s' ∈ eval (clientStep w) s,
      s'.outputs = s.outputs ++ (arrivedChunks s.pending.length chunks).map (chunkCall res) := by
  induction chunks generalizing s with
  | nil =>
      have hnone : s.pending = [] := List.prefix_nil.mp hstream
      obtain ⟨start, data, hact⟩ := hawaits
      have hmark : ¬ eol1 <:+: s.pending := by
        rw [hnone]
        decide
      simpa [arrivedChunks] using quiet_of_not_infix hact hopen hmark
  | cons chunk chunks ih =>
      rw [chunksText_cons] at hstream
      by_cases hwhole : chunk.text.length ≤ s.pending.length
      · obtain ⟨rest, hrest⟩ := List.prefix_of_prefix_length_le
          (List.prefix_append chunk.text _) hstream hwhole
        obtain ⟨s₁, hreach, hawaits₁, hpending₁, houtputs₁, hclosed₁⟩ :=
          reaches_chunk hw (hfits chunk List.mem_cons_self) hawaits hrest.symm
        have hstream₁ : s₁.pending <+: chunksText chunks := by
          rw [← hrest] at hstream
          rw [hpending₁]
          exact (List.prefix_append_right_inj _).mp hstream
        obtain ⟨s', heval, houtputs⟩ := ih hawaits₁ (by rw [hclosed₁, hopen]) hstream₁
          (fun other hmem => hfits other (List.mem_cons_of_mem _ hmem))
        refine ⟨s', by rwa [reaches_eval hreach], ?_⟩
        have hcount : s.pending.length - chunk.text.length = s₁.pending.length := by
          rw [← hrest, hpending₁, List.length_append]
          omega
        rw [houtputs, houtputs₁, arrivedChunks, if_pos hwhole, hcount]
        simp
      · have hpart : s.pending <+: chunk.text :=
          List.prefix_of_prefix_length_le hstream (List.prefix_append _ _) (by omega)
        simpa [arrivedChunks, hwhole] using
          quiet_of_part hw (hfits chunk List.mem_cons_self) hawaits hopen hpart (by omega)

/-- If everything has arrived, no chunk is left out. -/
theorem arrivedChunks_all (chunks : List Chunk) :
    arrivedChunks (chunksText chunks).length chunks = chunks := by
  induction chunks with
  | nil => rfl
  | cons chunk chunks ih =>
      rw [arrivedChunks, chunksText_cons, List.length_append, if_pos (Nat.le_add_right _ _),
        Nat.add_sub_cancel_left, ih]

include hw in
/-- A client that has received a chunked head and a part of its chunks. -/
theorem eval_behind_head {head : Head} (hchunked : IsChunked head) {chunks : List Chunk}
    (hfits : ∀ chunk ∈ chunks, chunk.data.length < 2 ^ 32) {segments : List Bytes} {rest : Bytes}
    (hreceived : segments.flatten = head.text ++ rest) (hstream : rest <+: chunksText chunks) :
    ∃ s ∈ eval (clientStep w) (connect segments false),
      s.outputs = (arrivedChunks rest.length chunks).map (chunkCall head.response) := by
  have hpending : (connect segments false).pending = segments.flatten := rfl
  obtain ⟨s, hreach, hsize, hpending₁, houtputs, hclosed⟩ :=
    reaches_chunked_head hchunked (awaitsHead_connect segments false)
      (hpending.trans hreceived)
  obtain ⟨s', heval, houtputs'⟩ :=
    eval_chunks hw chunks hsize hclosed (by rwa [hpending₁]) hfits
  refine ⟨s', by rwa [reaches_eval hreach], ?_⟩
  rw [houtputs', houtputs, hpending₁]
  rfl

end Body

/-- **Segmentation independence.**  Cut a chunked response into network segments in
any way and stop at any of them: once the pending completions have run, the
handler has been called exactly for the chunks whose closing CRLF has arrived,
in order, each time with the parsed status and header and with the chunk's data
followed by that CRLF. -/
theorem chunked_calls (head : Head) (hchunked : IsChunked head) (chunks : List Chunk)
    (hfits : ∀ chunk ∈ chunks, chunk.data.length < 2 ^ 32) (segments : List Bytes)
    (hstream : segments.flatten <+: head.text ++ chunksText chunks) :
    ∃ s ∈ eval (clientStep 64) (connect segments false),
      s.outputs = (arrivedChunks (segments.flatten.length - head.text.length) chunks).map
        (chunkCall head.response) := by
  by_cases hhead : segments.flatten.length < head.text.length
  · obtain ⟨start, hact⟩ := awaitsHead_connect segments false
    have hnone : arrivedChunks 0 chunks = [] := by
      cases chunks with
      | nil => rfl
      | cons chunk chunks =>
          have hline := chunk.sizeText_length
          have htext : chunk.text.length = chunk.sizeText.length + chunk.body.length :=
            List.length_append
          rw [arrivedChunks, if_neg (by omega)]
    rw [Nat.sub_eq_zero_of_le (by omega), hnone]
    exact quiet_of_not_infix hact rfl (head.firstEnds.not_infix_of_short hstream hhead)
  · obtain ⟨rest, hrest⟩ := List.prefix_of_prefix_length_le
      (List.prefix_append head.text _) hstream (not_lt.mp hhead)
    rw [← hrest] at hstream
    rw [← hrest, List.length_append, Nat.add_sub_cancel_left]
    exact eval_behind_head (by decide) hchunked hfits hrest.symm
      ((List.prefix_append_right_inj _).mp hstream)

/-- The line `Transfer-Encoding: chunked`. -/
def chunkedField : Field where
  name := ascii "Transfer-Encoding"
  value := ascii "chunked"
  name_nonempty := by decide
  name_clean := by decide
  value_nonempty := by decide
  value_clean := by decide

/-- The chunk `5`, `hello`. -/
def helloChunk : Chunk where
  size := ascii "5"
  extension := []
  data := ascii "hello"
  size_numeral := by decide
  size_value := by decide
  extension_start := by simp
  extension_clean := by simp
  data_nonempty := by decide

/-- A chunk without an extension. -/
def plainChunk (size data : Bytes) (hnumeral : IsNumeral 16 size)
    (hvalue : value 16 size = data.length) (hdata : data ≠ []) : Chunk where
  size := size
  extension := []
  data := data
  size_numeral := hnumeral
  size_value := hvalue
  extension_start := by simp
  extension_clean := by simp
  data_nonempty := hdata

/-- Two chunks, the second one cut off, in segments that respect no boundary. -/
theorem chunked_calls_hello :
    ∃ s ∈ eval (clientStep 64) (connect
        [ascii "HTTP/1.1 200 OK\r\nTransfer-Encoding: chunked\r\n\r",
          ascii "\n5\r\nhel", ascii "lo\r\n5\r\nhe"] false),
      s.outputs = [⟨(200, ascii "OK"), (Head.ok [chunkedField]).header, ascii "hello\r\n"⟩] :=
  chunked_calls (Head.ok [chunkedField]) (by decide) [helloChunk, helloChunk] (by decide) _
    (by decide)

end BlackCircle.Http.ChunkedReader
