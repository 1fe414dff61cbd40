import BlackCircle.Http.ChunkedReader
import BlackCircle.Http.Turns
import Mathlib.Data.Prod.Lex
import Mathlib.Order.WellFounded

/-!
# Runs that come to rest

The size-line handler re-issues its read when one or two bytes are buffered.  If
these are a CRLF, or the connection has ended, the read completes at once and
nothing has changed.  Apart from that, every step takes a segment from the
network, or bytes from the buffer, or goes to a handler of lower rank.
-/

namespace BlackCircle.Http.Progress

open BlackCircle.Foundation.ByteString
open BlackCircle.Foundation.ReadLoop
open BlackCircle.Http.ChunkedReader
open BlackCircle.Http.Client
open BlackCircle.Http.HeadReader
open BlackCircle.Http.Message
open BlackCircle.Http.Response
open BlackCircle.Http.Turns
open StateTransition

/-- The reader waits for a size line with one or two bytes buffered that will not change:
they are a CRLF, or nothing more will arrive. -/
structure Spinning (s : ClientSession) : Prop where
  reading : ∃ start res, s.activity = .reading (.readUntil eol1) start (.chunkSizeReadComplete res)
  partly : s.buffer ≠ []
  short : s.buffer.length ≤ 2
  stuck : eol1 <:+: s.buffer ∨ (s.unread = [] ∧ s.closed = true)

/-! ## Descent -/

/-- The order in which handlers follow each other when nothing is consumed. -/
def rank : Handler → Nat
  | .headerReadComplete _ => 1
  | .plainBodyReadComplete _ _ => 2
  | .lastchunkReadComplete => 2
  | .chunkSizeReadComplete _ => 3
  | .chunkBodyReadComplete _ _ => 4

def activityRank : Activity Byte Handler Failure → Nat
  | .reading _ _ handler => rank handler
  | .stopped => 0
  | .failed _ => 0

/-- Segments to come, bytes buffered, rank of what is outstanding. -/
def weight (s : ClientSession) : ℕ ×ₗ ℕ ×ₗ ℕ :=
  toLex (s.unread.length, toLex (s.buffer.length, activityRank s.activity))

/-- A size-line handler that does nothing but re-issue its read. -/
def Retries (handler : Handler) (sb : Bytes) : Prop :=
  (∃ res, handler = .chunkSizeReadComplete res) ∧ sb ≠ [] ∧ sb.length ≤ 2

/-- A turn that shortens the buffer, or keeps it and goes to a lower rank. -/
def Descends (handler : Handler) (sb : Bytes) (turn : ClientTurn) : Prop :=
  turn.buffer.length < sb.length ∨ (turn.buffer.length ≤ sb.length ∧
    activityRank (turn.next.activity turn.buffer.length) < rank handler)

theorem drop_length_lt {sb : Bytes} {n : Nat} (hn : 0 < n) (hle : n ≤ sb.length) :
    (sb.drop n).length < sb.length := by
  rw [List.length_drop]
  omega

theorem rank_pos (handler : Handler) : 0 < rank handler := by
  cases handler <;> exact Nat.succ_pos _

/-- A body handler that is called from the size-line handler. -/
theorem descends_direct {w : Nat} {res : HttpResponseData} {sb : Bytes}
    {consumed chunkSize : Nat} {turn : ClientTurn} (hlong : 2 < sb.length)
    (hparse : parseChunkSize sb 0 = .ok (consumed, chunkSize))
    (hbody : TurnOf w (.chunkBodyReadComplete res chunkSize) (sb.drop consumed) turn)
    (hdescends : Descends (.chunkBodyReadComplete res chunkSize) (sb.drop consumed) turn) :
    Descends (.chunkSizeReadComplete res) sb turn := by
  obtain ⟨hle, hpos | ⟨rfl, rfl⟩⟩ := parseChunkSize_consumes hparse
  · have hlt := drop_length_lt hpos hle
    left
    rcases hdescends with hless | ⟨hkeep, -⟩
    · exact hless.trans hlt
    · exact lt_of_le_of_lt hkeep hlt
  · -- no size was read, so the chunk is taken for the last one
    rw [List.drop_zero] at hbody
    generalize hzero : 0 = size at hbody
    cases hbody with
    | drained => simp at hlong
    | bodyLast hsb => exact Or.inr ⟨le_rfl, Nat.lt_succ_self 2⟩
    | bodyWhole hsb hsize henough => exact absurd hzero.symm hsize
    | bodyCut hsb hsize hshort => exact absurd hzero.symm hsize

/-- Every turn but a retry descends. -/
theorem descends_of_turnOf {w : Nat} {handler : Handler} {sb : Bytes} {turn : ClientTurn}
    (h : TurnOf w handler sb turn) (hretry : ¬ Retries handler sb) :
    Descends handler sb turn := by
  induction h with
  | drained handler => exact Or.inr ⟨le_rfl, rank_pos handler⟩
  | headerMalformed hparse => exact Or.inr ⟨le_rfl, rank_pos _⟩
  | headerChunked hsb hparse =>
      obtain ⟨hpos, hle⟩ := parseHeader_consumes hparse
      exact Or.inl (drop_length_lt hpos hle)
  | headerBadLength hsb hparse =>
      obtain ⟨hpos, hle⟩ := parseHeader_consumes hparse
      exact Or.inl (drop_length_lt hpos hle)
  | headerCounted hsb hparse hlength =>
      obtain ⟨hpos, hle⟩ := parseHeader_consumes hparse
      exact Or.inl (drop_length_lt hpos hle)
  | plainWhole hsb hlength => exact Or.inr ⟨by simp [startRead], Nat.lt_succ_self 1⟩
  | plainCut hsb hlength => exact Or.inr ⟨le_rfl, rank_pos _⟩
  | sizeRetry hsb hshort => exact absurd ⟨⟨_, rfl⟩, hsb, hshort⟩ hretry
  | sizeMalformed hlong hparse => exact Or.inr ⟨le_rfl, rank_pos _⟩
  | @sizeShort res sb consumed chunkSize hlong hparse hshort =>
      obtain ⟨hle, hpos | ⟨rfl, rfl⟩⟩ := parseChunkSize_consumes hparse
      · exact Or.inl (drop_length_lt hpos hle)
      · have htwo : sizeAdd w 0 2 ≤ 2 := Nat.mod_le _ _
        rw [List.drop_zero] at hshort
        omega
  | sizeDirect hlong hparse henough hbody ih =>
      refine descends_direct hlong hparse hbody (ih ?_)
      rintro ⟨⟨res, ⟨⟩⟩, -⟩
  | bodyLast hsb => exact Or.inr ⟨le_rfl, show 2 < 4 by decide⟩
  | bodyWhole hsb hsize henough => exact Or.inr ⟨by simp, Nat.lt_succ_self 3⟩
  | bodyCut hsb hsize hshort => exact Or.inr ⟨le_rfl, rank_pos _⟩
  | lastchunk hsb => exact Or.inr ⟨le_rfl, Nat.lt_succ_self 1⟩

/-! ## Runs -/

/-- A size line is awaited by a delimited read. -/
def SizeByLine (s : ClientSession) : Prop :=
  ∀ op start res, s.activity = .reading op start (.chunkSizeReadComplete res) →
    op = .readUntil eol1

theorem sizeByLine_turn {w : Nat} {handler : Handler} {sb : Bytes} {turn : ClientTurn}
    (h : TurnOf w handler sb turn) {op : ReadOp Byte} {res : HttpResponseData}
    (hnext : turn.next = .issue op (.chunkSizeReadComplete res)) : op = .readUntil eol1 := by
  induction h with
  | headerChunked hsb hparse =>
      cases hnext
      rfl
  | sizeRetry hsb hshort =>
      cases hnext
      rfl
  | sizeDirect hlong hparse henough hbody ih => exact ih hnext
  | bodyWhole hsb hsize henough =>
      cases hnext
      rfl
  | _ => cases hnext

theorem sizeByLine_resume {w : Nat} {handler : Handler} (s : ClientSession) (ec : Bool) :
    SizeByLine (s.resume (complete w handler ec s.buffer)) := by
  intro op start res hact
  obtain ⟨hnext, -⟩ := Next.issue_of_reading hact
  exact sizeByLine_turn (turnOf_complete w ec s.buffer handler) hnext

theorem sizeByLine_step {w : Nat} (s s' : ClientSession) (hline : SizeByLine s)
    (hstep : clientStep w s = some s') : SizeByLine s' := by
  obtain ⟨op, start, handler, hact, hcase⟩ := step_cases hstep
  rcases hcase with ⟨-, rfl⟩ | ⟨-, segment, unread, -, rfl⟩ | ⟨-, -, -, rfl⟩
  · exact sizeByLine_resume s false
  · exact hline
  · exact sizeByLine_resume s true

/-- A step out of a state that does not spin descends. -/
theorem weight_step {w : Nat} {s s' : ClientSession} (hline : SizeByLine s)
    (hspin : ¬ Spinning s) (hstep : clientStep w s = some s') : weight s' < weight s := by
  obtain ⟨op, start, handler, hact, hcase⟩ := step_cases hstep
  have hresume : ∀ ec, ¬ Retries handler s.buffer →
      weight (s.resume (complete w handler ec s.buffer)) < weight s := by
    intro ec hretry
    have hdescends := descends_of_turnOf (turnOf_complete w ec s.buffer handler) hretry
    rw [weight, weight, Prod.Lex.toLex_lt_toLex]
    right
    refine ⟨rfl, ?_⟩
    rw [Prod.Lex.toLex_lt_toLex, hact]
    rcases hdescends with hless | ⟨hkeep, hrank⟩
    · exact Or.inl hless
    · rcases Nat.lt_or_eq_of_le hkeep with hless | hsame
      · exact Or.inl hless
      · exact Or.inr ⟨hsame, hrank⟩
  rcases hcase with ⟨hsat, rfl⟩ | ⟨-, segment, unread, hunread, rfl⟩ | ⟨-, hunread, hclosed, rfl⟩
  · refine hresume false ?_
    rintro ⟨⟨res, rfl⟩, hne, hshort⟩
    obtain rfl := hline op start res hact
    exact hspin ⟨⟨start, res, hact⟩, hne, hshort, Or.inl (by simpa using hsat)⟩
  · rw [weight, weight, Prod.Lex.toLex_lt_toLex, hunread]
    exact Or.inl (Nat.lt_succ_self _)
  · refine hresume true ?_
    rintro ⟨⟨res, rfl⟩, hne, hshort⟩
    obtain rfl := hline op start res hact
    exact hspin ⟨⟨start, res, hact⟩, hne, hshort, Or.inr ⟨hunread, hclosed⟩⟩

/-- A spinning reader takes a step, and spins. -/
theorem spinning_step {w : Nat} (s : ClientSession) (hspin : Spinning s) :
    ∃ s', clientStep w s = some s' ∧ Spinning s' := by
  obtain ⟨⟨start, res, hact⟩, hne, hshort, hstuck⟩ := hspin
  have hpos : 0 < s.buffer.length := List.length_pos_iff.mpr hne
  have hretry : ∀ ec, chunkSizeReadComplete w res ec s.buffer =
      ⟨s.buffer, [], .issue (.readUntil eol1) (.chunkSizeReadComplete res)⟩ := by
    intro ec
    rw [chunkSizeReadComplete, if_neg (by omega), if_pos hshort]
  have hagain : ∀ ec, Spinning (s.resume (chunkSizeReadComplete w res ec s.buffer)) := by
    intro ec
    rw [hretry]
    exact ⟨⟨s.buffer.length, res, rfl⟩, hne, hshort, hstuck⟩
  by_cases hmark : eol1 <:+: s.buffer
  · exact ⟨_, step_satisfied hact (by simpa using hmark), hagain false⟩
  · obtain ⟨hunread, hclosed⟩ := hstuck.resolve_left hmark
    exact ⟨_, step_closed hact (by simpa using hmark) hunread hclosed, hagain true⟩

/-- **Progress.**  On a connection that ends, the reader comes to rest exactly when it never
gets to wait for a size line with a lone CRLF, or with one or two last bytes. -/
theorem run_ends_iff (w : Nat) (segments : List Bytes) :
    (eval (clientStep w) (connect segments true)).Dom ↔
      ∀ s, Reaches (clientStep w) (connect segments true) s → ¬ Spinning s := by
  constructor
  · intro hdom s hreach hspin
    rw [reaches_eval hreach] at hdom
    exact not_eval_dom spinning_step hspin hdom
  · intro hnever
    have hdescent : ∀ s s',
        SizeByLine s ∧ Reaches (clientStep w) (connect segments true) s →
        clientStep w s = some s' →
        (SizeByLine s' ∧ Reaches (clientStep w) (connect segments true) s') ∧
          InvImage (· < ·) weight s' s := by
      rintro s s' ⟨hline, hreach⟩ hstep
      exact ⟨⟨sizeByLine_step s s' hline hstep, hreach.tail hstep⟩,
        weight_step hline (hnever s hreach) hstep⟩
    have hline : SizeByLine (connect segments true) := by
      rintro op start res ⟨⟩
    exact eval_dom_of_descent (InvImage.wf weight wellFounded_lt) hdescent
      ⟨hline, Relation.ReflTransGen.refl⟩

/-- Where the run comes to rest, a handler has returned without a new read, or thrown. -/
theorem rests_without_read {w : Nat} {segments : List Bytes} {s : ClientSession}
    (h : s ∈ eval (clientStep w) (connect segments true)) :
    s.activity = .stopped ∨ ∃ fault, s.activity = .failed fault := by
  obtain ⟨hreach, hrest⟩ := mem_eval.mp h
  have hkeep : ∀ s s' : ClientSession, s.closed = true → clientStep w s = some s' →
      s'.closed = true :=
    fun s s' hclosed hstep => (closed_step hstep).trans hclosed
  exact not_reading_of_rest (reaches_invariant hkeep hreach rfl) hrest

/-- A chunked response that is cut off behind `0` and a carriage return. -/
theorem run_does_not_end :
    ¬ (eval (clientStep 64)
      (connect [ascii "HTTP/1.1 200 OK\r\nTransfer-Encoding: chunked\r\n\r\n0\r"] true)).Dom := by
  obtain ⟨s, hreach, ⟨start, data, hact⟩, hpending, -, hclosed⟩ :=
    @reaches_chunked_head 64 _ (Head.ok [chunkedField]) (ascii "0\r") (by decide)
      (awaitsHead_connect
        [ascii "HTTP/1.1 200 OK\r\nTransfer-Encoding: chunked\r\n\r\n0\r"] true) (by decide)
  have hmark : ¬ eol1 <:+: s.pending := by
    rw [hpending]
    decide
  have hwait : Reaches (clientStep 64) s { s with buffer := s.pending, unread := [] } :=
    reaches_unsatisfied hact (by simpa using hmark)
  rw [reaches_eval (hreach.trans hwait)]
  refine not_eval_dom spinning_step ⟨⟨start, _, hact⟩, ?_, ?_, Or.inr ⟨rfl, hclosed⟩⟩
  · simp [hpending, ascii]
  · simp [hpending, ascii]

end BlackCircle.Http.Progress
