import BlackCircle.Http.ChunkedReader
import BlackCircle.Json.Weight
import BlackCircle.Twitter.Handler

/-!
# Messages on the user stream

The messages of the stream are cut into chunks anywhere, and the handler takes
every chunk for a message.  If a chunk brings one whole message, or nothing but
line ends, each message is processed once.  The converse rests on the weights of
the values: the values that were processed weigh as much as all messages count,
so that no chunk can have brought more than was processed.

Whole messages leave the stores behind that their history leaves
(`userStream_stores`), so what `Processing` shows of a history holds of a stream.
-/

namespace BlackCircle.Twitter.UserStream

open BlackCircle.Foundation.ByteString
open BlackCircle.Foundation.ReadLoop
open BlackCircle.Http.ChunkedReader
open BlackCircle.Http.Client
open BlackCircle.Http.Message
open BlackCircle.Http.Response
open BlackCircle.Json (Value)
open BlackCircle.Json.Grammar
open BlackCircle.Json.Print
open BlackCircle.Json.RoundTrip
open BlackCircle.Json.Weight
open BlackCircle.Twitter.Handler
open BlackCircle.Twitter.Integrity
open BlackCircle.Twitter.Processing
  (WelcomeHistory authorsStored_handleAll handleAll newYearText)
open StateTransition

/-- A message: what stands between its braces, and the members of the object it is. -/
structure Message where
  inner : Bytes
  members : List (Bytes × Value)

namespace Message

def text (m : Message) : Bytes := byte '\x7b' :: (m.inner ++ [byte '\x7d'])

def value (m : Message) : Value := .object m.members

end Message

/-- The text of the stream: every message is followed by a line end. -/
def streamText (messages : List Message) : Bytes := messages.flatMap fun m => m.text ++ eol1

/-- The bytes of line ends. -/
def isBreak (b : Byte) : Bool := b == CR || b == LF

/-- Every chunk brings nothing but line ends, or one whole message with line ends around it. -/
inductive OnePerChunk : List Bytes → List Message → Prop where
  | nil : OnePerChunk [] []
  | blank {data : Bytes} {chunks : List Bytes} {messages : List Message}
      (hdata : ∀ b ∈ data, isBreak b = true) (hrest : OnePerChunk chunks messages) :
      OnePerChunk (data :: chunks) messages
  | whole {before after : Bytes} {m : Message} {chunks : List Bytes} {messages : List Message}
      (hbefore : ∀ b ∈ before, isBreak b = true) (hafter : ∀ b ∈ after, isBreak b = true)
      (hrest : OnePerChunk chunks messages) :
      OnePerChunk ((before ++ (m.text ++ after)) :: chunks) (m :: messages)

theorem OnePerChunk.length_le {chunks : List Bytes} {messages : List Message}
    (h : OnePerChunk chunks messages) : messages.length ≤ chunks.length := by
  induction h with
  | nil => exact le_refl 0
  | blank hdata hrest ih => exact ih.trans (Nat.le_succ _)
  | whole hbefore hafter hrest ih => exact Nat.succ_le_succ ih

/-- `parse_json` reads the message, whatever line ends stand around it. -/
def Readable (m : Message) : Prop :=
  ∀ before after : Bytes, (∀ b ∈ before, isBreak b = true) → (∀ b ∈ after, isBreak b = true) →
    parseJson (before ++ (m.text ++ after)) = .ok m.value

/-- The message is written with no more than its value needs. -/
def Tight (m : Message) : Prop := size m.text = weight m.value

/-- What the handler is called with for the data of a chunk makes it process. -/
def chunkEntity (data : Bytes) : Option Value := userStreamEntity (data ++ eol1)

theorem eol1_breaks : ∀ b ∈ eol1, isBreak b = true := by decide

theorem isSpace_of_isBreak {b : Byte} (h : isBreak b = true) : isSpace b = true := by
  simp only [isBreak, Bool.or_eq_true, beq_iff_eq] at h
  rcases h with rfl | rfl <;> decide

theorem size_breaks {gap : Bytes} (h : ∀ b ∈ gap, isBreak b = true) : size gap = 0 :=
  size_eq_zero.mpr fun b hb => isSpace_of_isBreak (h b hb)

/-! ## Whole messages are processed -/

theorem chunkEntity_blank {data : Bytes} (h : ∀ b ∈ data, isBreak b = true) :
    chunkEntity data = none := by
  rw [chunkEntity, Option.eq_none_iff_forall_ne_some]
  intro t ht
  obtain ⟨-, hopen⟩ := userStreamEntity_eq_some.mp ht
  have hbreak := List.forall_mem_append.mpr ⟨h, eol1_breaks⟩ _ hopen
  exact absurd hbreak (by decide)

theorem chunkEntity_whole {m : Message} (hread : Readable m) {before after : Bytes}
    (hbefore : ∀ b ∈ before, isBreak b = true) (hafter : ∀ b ∈ after, isBreak b = true) :
    chunkEntity (before ++ (m.text ++ after)) = some m.value := by
  rw [chunkEntity, List.append_assoc, List.append_assoc, userStreamEntity_eq_some]
  refine ⟨hread before _ hbefore (List.forall_mem_append.mpr ⟨hafter, eol1_breaks⟩), ?_⟩
  simp [Message.text]

theorem entities_of_onePerChunk {chunks : List Bytes} {messages : List Message}
    (h : OnePerChunk chunks messages) (hread : ∀ m ∈ messages, Readable m) :
    chunks.filterMap chunkEntity = messages.map Message.value := by
  induction h with
  | nil => rfl
  | blank hdata hrest ih => rw [List.filterMap_cons_none (chunkEntity_blank hdata), ih hread]
  | whole hbefore hafter hrest ih =>
      have hfirst := chunkEntity_whole (hread _ List.mem_cons_self) hbefore hafter
      rw [List.filterMap_cons_some hfirst, List.map_cons,
        ih fun m hmem => hread m (List.mem_cons_of_mem _ hmem)]

/-! ## What was processed has been brought whole -/

theorem weight_le_of_chunkEntity {data : Bytes} {m : Message}
    (h : chunkEntity data = some m.value) : weight m.value ≤ size data := by
  have hle := weight_le_size (userStreamEntity_eq_some.mp h).1
  rwa [size_append, size_breaks eol1_breaks, Nat.add_zero] at hle

/-- The chunks count at least what the processed values weigh. -/
theorem weights_le {chunks : List Bytes} {messages : List Message}
    (h : chunks.filterMap chunkEntity = messages.map Message.value) :
    (messages.map fun m => weight m.value).sum ≤ size chunks.flatten := by
  induction chunks generalizing messages with
  | nil =>
      have hnone : messages = [] := List.map_eq_nil_iff.mp h.symm
      rw [hnone]
      exact le_refl _
  | cons data chunks ih =>
      rw [List.flatten_cons, size_append]
      cases hentity : chunkEntity data with
      | none =>
          rw [List.filterMap_cons_none hentity] at h
          exact (ih h).trans (Nat.le_add_left _ _)
      | some t =>
          rw [List.filterMap_cons_some hentity] at h
          obtain ⟨m, messages, rfl, rfl, hrest⟩ := List.map_eq_cons_iff.mp h.symm
          rw [List.map_cons, List.sum_cons]
          exact Nat.add_le_add (weight_le_of_chunkEntity hentity) (ih hrest.symm)

theorem size_streamText {messages : List Message} (htight : ∀ m ∈ messages, Tight m) :
    size (streamText messages) = (messages.map fun m => weight m.value).sum := by
  induction messages with
  | nil => rfl
  | cons m messages ih =>
      have hfirst : size m.text = weight m.value := htight m List.mem_cons_self
      have hrest := ih fun other hmem => htight other (List.mem_cons_of_mem _ hmem)
      rw [streamText, List.flatMap_cons, size_append, size_append, size_breaks eol1_breaks, hfirst,
        List.map_cons, List.sum_cons, ← hrest]
      rfl

/-- White space at the front of the stream lies in front of its first message. -/
theorem split_spaces {blank rest gap : Bytes} {messages : List Message}
    (hblank : ∀ b ∈ blank, isSpace b = true)
    (hstream : blank ++ rest = gap ++ streamText messages) :
    ∃ left, gap = blank ++ left ∧ rest = left ++ streamText messages := by
  rcases List.append_eq_append_iff.mp hstream with
    ⟨left, hgap, hrest⟩ | ⟨excess, hexcess, hmessages⟩
  · exact ⟨left, hgap, hrest⟩
  · cases excess with
    | nil => exact ⟨[], by rw [hexcess, List.append_nil, List.append_nil], hmessages.symm⟩
    | cons b excess =>
        have hspace : isSpace b = true := hblank b (by simp [hexcess])
        cases messages with
        | nil => cases hmessages
        | cons m messages =>
            simp only [streamText, List.flatMap_cons, Message.text, List.cons_append,
              List.cons.injEq] at hmessages
            rw [← hmessages.1] at hspace
            exact absurd hspace (by decide)

/-- A part of the stream that counts as much as its first message brings that message whole. -/
theorem split_message {data rest gap : Bytes} {m : Message} {messages : List Message}
    (hgap : ∀ b ∈ gap, isBreak b = true) (hsize : size data = size m.text)
    (hstream : data ++ rest = gap ++ (m.text ++ (eol1 ++ streamText messages))) :
    ∃ after left, data = gap ++ (m.text ++ after) ∧ eol1 = after ++ left ∧
      rest = left ++ streamText messages := by
  have hcount : size data = size (gap ++ m.text) := by
    rw [size_append, size_breaks hgap, hsize, Nat.zero_add]
  rw [← List.append_assoc gap] at hstream
  rcases List.append_eq_append_iff.mp hstream with ⟨torn, htorn, hrest⟩ | ⟨excess, hexcess, hmore⟩
  · -- The torn-off end counts nothing, but a message ends in a brace.
    have hnone : size torn = 0 := by
      rw [htorn, size_append] at hcount
      omega
    cases torn using List.reverseRecOn with
    | nil =>
        rw [List.append_nil] at htorn
        exact ⟨[], eol1, by rw [← htorn, List.append_nil], rfl, hrest⟩
    | append_singleton torn b =>
        have hlast : b = byte '\x7d' := by
          have hends : (gap ++ m.text).getLast? = some (byte '\x7d') := by
            simp [Message.text, List.getLast?_cons]
          rw [htorn] at hends
          simpa using hends
        have hspace := size_eq_zero.mp hnone b (by simp)
        rw [hlast] at hspace
        exact absurd hspace (by decide)
  · have hnone : size excess = 0 := by
      rw [hexcess, size_append] at hcount
      omega
    obtain ⟨left, heol, hrest⟩ := split_spaces (size_eq_zero.mp hnone) hmore.symm
    exact ⟨excess, left, by rw [hexcess, List.append_assoc], heol, hrest⟩

/-- If exactly the messages of a stream have been processed, each was brought whole by one chunk:
a chunk that was not processed counts nothing, and one that was counts as much as its message. -/
theorem onePerChunk_of_entities {chunks : List Bytes} {messages : List Message} {gap : Bytes}
    (htight : ∀ m ∈ messages, Tight m) (hgap : ∀ b ∈ gap, isBreak b = true)
    (hstream : chunks.flatten = gap ++ streamText messages)
    (h : chunks.filterMap chunkEntity = messages.map Message.value) :
    OnePerChunk chunks messages := by
  induction chunks generalizing messages gap with
  | nil =>
      have hnone : messages = [] := List.map_eq_nil_iff.mp h.symm
      rw [hnone]
      exact .nil
  | cons data chunks ih =>
      rw [List.flatten_cons] at hstream
      have htotal : size data + size chunks.flatten =
          (messages.map fun m => weight m.value).sum := by
        rw [← size_append, hstream, size_append, size_breaks hgap, size_streamText htight,
          Nat.zero_add]
      cases hentity : chunkEntity data with
      | none =>
          rw [List.filterMap_cons_none hentity] at h
          have hle := weights_le h
          have hnone : size data = 0 := by omega
          obtain ⟨left, hleft, hrest⟩ := split_spaces (size_eq_zero.mp hnone) hstream
          rw [hleft, List.forall_mem_append] at hgap
          exact .blank hgap.1 (ih htight hgap.2 hrest h)
      | some t =>
          rw [List.filterMap_cons_some hentity] at h
          obtain ⟨m, messages, rfl, rfl, hothers⟩ := List.map_eq_cons_iff.mp h.symm
          have hle := weights_le hothers.symm
          have hfirst := weight_le_of_chunkEntity hentity
          have hm : size m.text = weight m.value := htight m List.mem_cons_self
          have htail : ∀ other ∈ messages, Tight other :=
            fun other hmem => htight other (List.mem_cons_of_mem _ hmem)
          rw [List.map_cons, List.sum_cons] at htotal
          have hsize : size data = size m.text := by omega
          rw [streamText, List.flatMap_cons, List.append_assoc] at hstream
          obtain ⟨after, left, rfl, heol, hrest⟩ := split_message hgap hsize hstream
          have hbreaks := eol1_breaks
          rw [heol, List.forall_mem_append] at hbreaks
          exact .whole hgap hbreaks.1 (ih htail hbreaks.2 hrest hothers.symm)

/-! ## Printed messages -/

/-- A message that is printed from an object with distinct keys. -/
structure IsPrinted (m : Message) (members : List (Plain × Tree)) : Prop where
  distinct : (Tree.object members).Distinct
  spaced : Spaced (Tree.object members).tokens m.text
  value : m.value = (Tree.object members).value

namespace IsPrinted

variable {m : Message} {members : List (Plain × Tree)}

theorem readable (h : IsPrinted m members) : Readable m := by
  have hblank : ∀ b, isBreak b = true → isBlank b = true := by
    intro b hb
    simp only [isBreak, Bool.or_eq_true, beq_iff_eq] at hb
    rcases hb with rfl | rfl <;> decide
  intro before after hbefore hafter
  have hspaced := Spaced.surround h.spaced (fun b hb => hblank b (hbefore b hb))
    (fun b hb => hblank b (hafter b hb))
  rw [← List.append_nil (Tree.object members).tokens] at hspaced
  rw [h.value]
  exact parseJson_tokens (.object members) trivial h.distinct hspaced

theorem tight (h : IsPrinted m members) : Tight m := by
  rw [Tight, h.value, size_spaced h.spaced]
  exact size_tokens (.object members) h.distinct

end IsPrinted

/-! ## The stream -/

section Stream

variable {σ ε α : Type} (process : Nat → Value → σ → Except ε α × σ)

/-- The calls of the handler on the user stream process the messages, once each and in order. -/
def Delivered (initial : σ) (calls : List HttpResponseData) (messages : List Message) : Prop :=
  (handleCalls process .userStream calls ⟨initial, []⟩).entities = messages.map Message.value

theorem delivered_chunks {head : Head} (hstatus : head.status.1 = 200) (initial : σ)
    (chunks : List Chunk) (messages : List Message) :
    Delivered process initial (chunks.map (chunkCall head.response)) messages ↔
      (chunks.map Chunk.data).filterMap chunkEntity = messages.map Message.value := by
  have hcalls : ∀ data ∈ chunks.map (chunkCall head.response), data.status.1 = 200 := by
    intro data hdata
    obtain ⟨chunk, -, rfl⟩ := List.mem_map.mp hdata
    exact hstatus
  rw [Delivered, entities_handleCalls process hcalls, List.nil_append, List.filterMap_map,
    List.filterMap_map]
  rfl

/-- The reader of a stream that has arrived calls the handler for every chunk. -/
theorem eval_userStream {head : Head} (hchunked : IsChunked head) {chunks : List Chunk}
    (hfits : ∀ chunk ∈ chunks, chunk.data.length < 2 ^ 32) {segments : List Bytes}
    (hstream : segments.flatten = head.text ++ chunksText chunks) :
    ∃ s ∈ eval (clientStep 64) (connect segments false),
      s.outputs = chunks.map (chunkCall head.response) := by
  have hw : 2 ^ 32 + 2 ≤ 2 ^ 64 := by decide
  obtain ⟨s, heval, houtputs⟩ := eval_behind_head hw hchunked hfits hstream List.prefix_rfl
  rw [arrivedChunks_all] at houtputs
  exact ⟨s, heval, houtputs⟩

/-- Cut the messages of a user stream into chunks and these into network segments in any way.
If every chunk brings one whole message, or nothing but line ends, the messages are processed
once each and in order; if they are so processed and are written tightly, every chunk did. -/
theorem userStream_delivered (initial : σ) (head : Head) (hchunked : IsChunked head)
    (hstatus : head.status.1 = 200) (chunks : List Chunk)
    (hfits : ∀ chunk ∈ chunks, chunk.data.length < 2 ^ 32) (messages : List Message)
    (hcut : chunks.flatMap Chunk.data = streamText messages) (segments : List Bytes)
    (hstream : segments.flatten = head.text ++ chunksText chunks) :
    ∃ s ∈ eval (clientStep 64) (connect segments false),
      ((∀ m ∈ messages, Readable m) → OnePerChunk (chunks.map Chunk.data) messages →
        Delivered process initial s.outputs messages) ∧
      ((∀ m ∈ messages, Tight m) → Delivered process initial s.outputs messages →
        OnePerChunk (chunks.map Chunk.data) messages) := by
  obtain ⟨s, heval, houtputs⟩ := eval_userStream hchunked hfits hstream
  refine ⟨s, heval, ?_⟩
  rw [houtputs, delivered_chunks process hstatus]
  constructor
  · intro hread hone
    exact entities_of_onePerChunk hone hread
  · intro htight hentities
    exact @onePerChunk_of_entities _ _ [] htight (by simp) (by rwa [← List.flatMap_def])
      hentities

end Stream

/-- The stores behind the calls of the handler on the user stream. -/
def storesBehind {Time : Type} (readTime : Bytes → Time) (dateText : Time → Option Bytes)
    (around : Nat → Nat → Surroundings Time) (calls : List HttpResponseData) : Stores Time :=
  (handleCalls (processStored readTime dateText around) .userStream calls ⟨.empty, []⟩).state

/-- The stores behind a user stream whose chunks bring whole messages: those behind the history of
these messages, and with every author stored if the users of the history are welcome. -/
theorem userStream_stores {Time : Type} (readTime : Bytes → Time)
    (dateText : Time → Option Bytes) (around : Nat → Nat → Surroundings Time) (head : Head)
    (hchunked : IsChunked head) (hstatus : head.status.1 = 200) (chunks : List Chunk)
    (hfits : ∀ chunk ∈ chunks, chunk.data.length < 2 ^ 32) (messages : List Message)
    (hread : ∀ m ∈ messages, Readable m) (hone : OnePerChunk (chunks.map Chunk.data) messages)
    (segments : List Bytes) (hstream : segments.flatten = head.text ++ chunksText chunks) :
    ∃ s ∈ eval (clientStep 64) (connect segments false),
      storesBehind readTime dateText around s.outputs =
        handleAll readTime dateText (history around (messages.map Message.value)) .empty ∧
      (WelcomeHistory readTime dateText .empty (history around (messages.map Message.value)) →
        AuthorsStored (storesBehind readTime dateText around s.outputs)) := by
  obtain ⟨s, heval, houtputs⟩ := eval_userStream hchunked hfits hstream
  have hdelivered : Delivered (processStored readTime dateText around) .empty s.outputs
      messages := by
    rw [houtputs, delivered_chunks _ hstatus]
    exact entities_of_onePerChunk hone hread
  have hinitial : Recorded readTime dateText around .empty ⟨.empty, []⟩ := rfl
  have hstores := recorded_handleCalls hinitial .userStream s.outputs
  rw [Recorded, hdelivered] at hstores
  refine ⟨s, heval, hstores, ?_⟩
  intro hwelcome
  rw [storesBehind, hstores]
  exact authorsStored_handleAll (by rintro t ⟨⟩) hwelcome

/-- The message of an empty object. -/
def emptyMessage : Message where
  inner := []
  members := []

theorem isPrinted_emptyMessage : IsPrinted emptyMessage [] where
  distinct := ⟨List.nodup_nil, trivial⟩
  spaced := by
    refine @Spaced.cons [] (ascii "\x7b") _ _ (by decide) ?_
    refine @Spaced.cons [] (ascii "\x7d") [] _ (by decide) ?_
    exact @Spaced.nil [] (by decide)
  value := congrArg Value.object List.mergeSort_nil.symm

theorem forall_emptyMessage {p : Message → Prop} (h : p emptyMessage) :
    ∀ m ∈ [emptyMessage, emptyMessage], p m := by
  simpa using h

/-- The chunk `4`, an empty object and a line end. -/
def emptyChunk : Chunk :=
  plainChunk (ascii "4") (ascii "\x7b\x7d\r\n") (by decide) (by decide) (by decide)

/-- The chunk `8`, twice an empty object and a line end. -/
def pairChunk : Chunk :=
  plainChunk (ascii "8") (ascii "\x7b\x7d\r\n\x7b\x7d\r\n") (by decide) (by decide) (by decide)

theorem onePerChunk_emptyChunks : OnePerChunk ([emptyChunk, emptyChunk].map Chunk.data)
    [emptyMessage, emptyMessage] := by
  refine @OnePerChunk.whole [] (ascii "\r\n") emptyMessage _ _ (by decide) (by decide) ?_
  refine @OnePerChunk.whole [] (ascii "\r\n") emptyMessage _ _ (by decide) (by decide) ?_
  exact OnePerChunk.nil

/-- Two messages in two chunks. -/
theorem userStream_delivered_pair :
    ∃ s ∈ eval (clientStep 64) (connect
        [ascii "HTTP/1.1 200 OK\r\nTransfer-Encoding: chunked\r\n\r\n4\r\n\x7b",
          ascii "\x7d\r\n\r\n4\r\n\x7b\x7d\r\n\r\n"] false),
      Delivered (processStored (fun _ => ()) newYearText fun _ _ => default) .empty s.outputs
        [emptyMessage, emptyMessage] := by
  have hread := forall_emptyMessage isPrinted_emptyMessage.readable
  obtain ⟨s, heval, hdelivered, -⟩ := userStream_delivered
    (processStored (fun _ => ()) newYearText fun _ _ => default) .empty (Head.ok [chunkedField])
      (by decide)
    (by decide) [emptyChunk, emptyChunk] (by decide) [emptyMessage, emptyMessage] (by decide)
    [ascii "HTTP/1.1 200 OK\r\nTransfer-Encoding: chunked\r\n\r\n4\r\n\x7b",
      ascii "\x7d\r\n\r\n4\r\n\x7b\x7d\r\n\r\n"] (by decide)
  exact ⟨s, heval, hdelivered hread onePerChunk_emptyChunks⟩

/-- Two messages in one chunk: they are not processed once each. -/
theorem not_userStream_delivered_joined :
    (∀ m ∈ [emptyMessage, emptyMessage], Readable m) ∧
      ∃ s ∈ eval (clientStep 64) (connect
          [ascii "HTTP/1.1 200 OK\r\nTransfer-Encoding: chunked\r\n\r\n8\r\n",
            ascii "\x7b\x7d\r\n\x7b\x7d\r\n\r\n"] false),
        ¬ Delivered (processStored (fun _ => ()) newYearText fun _ _ => default) .empty s.outputs
          [emptyMessage, emptyMessage] := by
  obtain ⟨s, heval, houtputs⟩ := @eval_userStream (Head.ok [chunkedField]) (by decide) [pairChunk]
    (by decide) [ascii "HTTP/1.1 200 OK\r\nTransfer-Encoding: chunked\r\n\r\n8\r\n",
      ascii "\x7b\x7d\r\n\x7b\x7d\r\n\r\n"] (by decide)
  refine ⟨forall_emptyMessage isPrinted_emptyMessage.readable, s, heval, ?_⟩
  rw [houtputs, delivered_chunks _ (by decide)]
  intro hentities
  have hone := @onePerChunk_of_entities ([pairChunk].map Chunk.data)
    [emptyMessage, emptyMessage] [] (forall_emptyMessage isPrinted_emptyMessage.tight) (by simp)
    (by decide) hentities
  exact absurd hone.length_le (by decide)

end BlackCircle.Twitter.UserStream
