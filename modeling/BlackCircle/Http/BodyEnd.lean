import BlackCircle.Http.ChunkedReader

/-!
# The reader at the end of a chunked body

A zero-size line, or a size that does not fit into 32 bits, makes the reader
look for an empty line and then start over.  Neither the search nor its handler
consumes anything, so the next head is read from where the search began.
-/

namespace BlackCircle.Http.BodyEnd

open BlackCircle.Foundation.ByteString
open BlackCircle.Foundation.Delimiter
open BlackCircle.Foundation.Numeral
open BlackCircle.Foundation.ReadLoop
open BlackCircle.Http.ChunkedReader
open BlackCircle.Http.Client
open BlackCircle.Http.HeadReader
open BlackCircle.Http.Message
open BlackCircle.Http.Response
open StateTransition

/-- The reader looks for the empty line behind the last chunk. -/
def AwaitsLast (s : ClientSession) : Prop :=
  ∃ start, s.activity = .reading (.readUntil eol2) start .lastchunkReadComplete

theorem chunkBodyReadComplete_zero (w : Nat) (res : HttpResponseData) (ec : Bool) {sb : Bytes}
    (hsb : sb ≠ []) :
    chunkBodyReadComplete w res 0 ec sb =
      ⟨sb, [], .issue (.readUntil eol2) .lastchunkReadComplete⟩ := by
  rw [chunkBodyReadComplete, if_neg (by simpa using hsb), if_pos rfl]

section BodyEnd

variable {w : Nat} {s : ClientSession} {res : HttpResponseData} {size extension rest : Bytes}

/-- After a zero-size line the reader asks for two more bytes if it has fewer buffered. -/
theorem reaches_closing {earlier : ClientSession} (hearlier : Reaches (clientStep w) earlier s)
    (hshort : s.buffer.length < 2)
    (hact : s.activity = .reading (.readAtLeast (2 - s.buffer.length)) s.buffer.length
      (.chunkBodyReadComplete res 0)) (hrest : 2 ≤ s.pending.length) :
    ∃ s', Reaches (clientStep w) earlier s' ∧ AwaitsLast s' ∧ s'.pending = s.pending ∧
      s'.outputs = s.outputs ∧ s'.closed = s.closed := by
  have henough : 2 - s.buffer.length ≤ s.pending.length - s.buffer.length := by omega
  obtain ⟨buffer, unread, hflat, hsat, hreach⟩ :=
    reaches_complete hact (by simpa using henough)
  change Reaches (clientStep w) s (Session.resume _
    (chunkBodyReadComplete w res 0 false buffer)) at hreach
  have hnonempty : buffer ≠ [] := by
    rintro rfl
    have hcount : 2 - s.buffer.length ≤ 0 - s.buffer.length := by simpa using hsat
    omega
  rw [chunkBodyReadComplete_zero w res _ hnonempty] at hreach
  exact ⟨_, hearlier.trans hreach, ⟨buffer.length, rfl⟩, hflat, List.append_nil _, rfl⟩

/-- A size line completes the reader's delimited read, whatever it announces. -/
theorem reaches_sizeLine (hline : SizeLine size extension) (hawaits : AwaitsSize res s)
    (hpending : s.pending = size ++ extension ++ eol1 ++ rest) :
    ∃ data behind unread, behind ++ unread.flatten = rest ∧
      Reaches (clientStep w) s (({ s with unread := unread } : ClientSession).resume
        (chunkSizeReadComplete w { res with data := data } false
          (size ++ extension ++ eol1 ++ behind))) := by
  obtain ⟨start, data, hact⟩ := hawaits
  have hmark : eol1 <:+: s.pending := by
    rw [hpending]
    exact (hline.firstEnds.infix_iff List.prefix_rfl).mpr (List.prefix_append _ _)
  obtain ⟨buffer, unread, hflat, hsat, hreach⟩ :=
    reaches_complete hact (by simpa using hmark)
  rw [hpending] at hflat
  obtain ⟨behind, rfl, hbehind⟩ := hline.firstEnds.split_of_infix hflat (by simpa using hsat)
  exact ⟨data, behind, unread, hbehind, hreach⟩

theorem sizeLine_length (hline : SizeLine size extension) (behind : Bytes) :
    2 < (size ++ extension ++ eol1 ++ behind).length := by
  have hsize : 0 < size.length := List.length_pos_iff.mpr hline.numeral.nonempty
  have heol : eol1.length = 2 := rfl
  simp only [List.length_append]
  omega

/-- A zero-size line is consumed, and the reader looks for the end of the body. -/
theorem reaches_last (hw : 2 < 2 ^ w) (hline : SizeLine size extension)
    (hzero : value 16 size = 0) (hawaits : AwaitsSize res s)
    (hpending : s.pending = size ++ extension ++ eol1 ++ rest) (hrest : 2 ≤ rest.length) :
    ∃ s', Reaches (clientStep w) s s' ∧ AwaitsLast s' ∧ s'.pending = rest ∧
      s'.outputs = s.outputs ∧ s'.closed = s.closed := by
  obtain ⟨data, behind, unread, hbehind, hreach⟩ := reaches_sizeLine hline hawaits hpending
  have hlen := sizeLine_length hline behind
  have hparse := hline.parseChunkSize_text (by omega) behind 0
  rw [hzero] at hparse
  rw [chunkSizeReadComplete, if_neg (by omega), if_neg (by omega), hparse] at hreach
  simp only [List.drop_left] at hreach
  rw [sizeAdd_of_lt (by omega), Nat.zero_add] at hreach
  by_cases hmore : 2 > behind.length
  · rw [if_pos hmore, sizeSub_of_le (by omega) hw] at hreach
    have hlong : 2 ≤ (behind ++ unread.flatten).length := by rwa [hbehind]
    obtain ⟨s', hreach', hlast, hpending', houtputs, hclosed⟩ :=
      reaches_closing hreach hmore rfl hlong
    exact ⟨s', hreach', hlast, hpending'.trans hbehind,
      houtputs.trans (List.append_nil _), hclosed⟩
  · have hnonempty : behind ≠ [] := by
      rintro rfl
      simp at hmore
    rw [if_neg hmore, chunkBodyReadComplete_zero w _ _ hnonempty] at hreach
    exact ⟨_, hreach, ⟨behind.length, rfl⟩, hbehind, List.append_nil _, rfl⟩

/-- A size beyond 32 bits is taken for zero, and its line is not consumed. -/
theorem reaches_last_oversize (hw : 2 < 2 ^ w) (hline : SizeLine size extension)
    (hover : 2 ^ 32 ≤ value 16 size) (hawaits : AwaitsSize res s)
    (hpending : s.pending = size ++ extension ++ eol1 ++ rest) :
    ∃ s', Reaches (clientStep w) s s' ∧ AwaitsLast s' ∧ s'.pending = s.pending ∧
      s'.outputs = s.outputs ∧ s'.closed = s.closed := by
  obtain ⟨data, behind, unread, hbehind, hreach⟩ := reaches_sizeLine hline hawaits hpending
  have hlen := sizeLine_length hline behind
  have hnonempty : size ++ extension ++ eol1 ++ behind ≠ [] := by
    intro hnil
    rw [hnil] at hlen
    simp at hlen
  rw [chunkSizeReadComplete, if_neg (by omega), if_neg (by omega),
    hline.parseChunkSize_oversize hover behind 0] at hreach
  simp only [List.drop_zero] at hreach
  rw [sizeAdd_of_lt (by omega), Nat.zero_add, if_neg (by omega),
    chunkBodyReadComplete_zero w _ _ hnonempty] at hreach
  refine ⟨_, hreach, ⟨_, rfl⟩, ?_, List.append_nil _, rfl⟩
  rw [hpending, ← hbehind, ← List.append_assoc]
  rfl

/-- The empty line makes the reader start over, with nothing consumed. -/
theorem reaches_startRead (hawaits : AwaitsLast s) (hmark : eol2 <:+: s.pending) :
    ∃ s', Reaches (clientStep w) s s' ∧ AwaitsHead s' ∧ s'.pending = s.pending ∧
      s'.outputs = s.outputs ∧ s'.closed = s.closed := by
  obtain ⟨start, hact⟩ := hawaits
  obtain ⟨buffer, unread, hflat, hsat, hreach⟩ :=
    reaches_complete hact (by simpa using hmark)
  change Reaches (clientStep w) s (Session.resume _
    (lastchunkReadComplete false buffer)) at hreach
  have hnonempty : ¬ buffer.length = 0 := by
    intro hzero
    have hmark' : eol2 <:+: buffer := by simpa using hsat
    have hle := hmark'.length_le
    rw [hzero] at hle
    exact absurd hle (by decide)
  rw [lastchunkReadComplete, if_neg hnonempty] at hreach
  exact ⟨_, hreach, ⟨buffer.length, rfl⟩, hflat, List.append_nil _, rfl⟩

end BodyEnd

end BlackCircle.Http.BodyEnd
