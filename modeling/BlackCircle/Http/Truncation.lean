import BlackCircle.Http.Turns

/-!
# Bytes taken and bytes present

The handlers do not look at the error flag.  A counted read that ends with the
connection may leave a body handler with a part of the body, and the handler
then takes more bytes than there are.  This is the only way in which it can:
every read that is issued for a body asks for enough.
-/

namespace BlackCircle.Http.Truncation

open BlackCircle.Foundation.ByteString
open BlackCircle.Foundation.ReadLoop
open BlackCircle.Http.Client
open BlackCircle.Http.Response
open BlackCircle.Http.Turns
open StateTransition

/-- How many bytes a handler takes from the buffer without looking at its size. -/
def taken (w : Nat) : Handler → Nat
  | .headerReadComplete _ => 0
  | .plainBodyReadComplete _ length => length
  | .chunkSizeReadComplete _ => 0
  | .chunkBodyReadComplete _ chunkSize => if chunkSize = 0 then 0 else sizeAdd w chunkSize 2
  | .lastchunkReadComplete => 0

/-- A handler has taken bytes that were not there. -/
def OfMissingBytes : Failure → Prop
  | .parse _ => False
  | .badLexicalCast => False
  | .assertionFailed => True
  | .overread => True

/-- In no state of the run has a handler taken bytes that were not there. -/
def BytesPresent (w : Nat) (start : ClientSession) : Prop :=
  ∀ s, Reaches (clientStep w) start s → ∀ fault, s.activity = .failed fault →
    ¬ OfMissingBytes fault

/-- The connection has ended within a body: the read for the body is outstanding, nothing
more will arrive, and some but not all of the bytes are buffered. -/
structure CutInBody (w : Nat) (s : ClientSession) : Prop where
  ended : s.unread = [] ∧ s.closed = true
  partly : s.buffer ≠ []
  short : ∃ op start handler, s.activity = .reading op start handler ∧
    s.buffer.length < taken w handler

/-! ## Single handlers -/

/-- A read that is issued with `start` bytes buffered, and completes without the error flag,
leaves its handler with enough bytes. -/
def Suffices (w : Nat) (start : Nat) (handler : Handler) : ReadOp Byte → Prop
  | .readUntil _ => taken w handler = 0
  | .readAtLeast count => taken w handler ≤ start + count

/-- What every turn of a handler guarantees for the next one. -/
def Sound (w : Nat) (turn : ClientTurn) : Prop :=
  ∀ op handler, turn.next = .issue op handler → Suffices w turn.buffer.length handler op

theorem le_add_sizeSub (w a b : Nat) (ha : a < 2 ^ w) : a ≤ b + sizeSub w a b := by
  by_cases hle : b ≤ a
  · rw [sizeSub_of_le hle ha]
    omega
  · omega

/-- A read that a handler issues for a body asks for what is missing of it. -/
theorem sound_of_turnOf {w : Nat} {handler : Handler} {sb : Bytes} {turn : ClientTurn}
    (h : TurnOf w handler sb turn) : Sound w turn := by
  induction h with
  | headerCounted hsb hparse hlength =>
      rintro op handler ⟨⟩
      exact le_add_sizeSub w _ _ hlength
  | sizeShort hlong hparse hshort =>
      rintro op handler ⟨⟩
      refine le_trans ?_ (le_add_sizeSub w _ _ (Nat.mod_lt _ (Nat.two_pow_pos w)))
      simp only [taken]
      split
      · omega
      · exact le_rfl
  | sizeDirect hlong hparse henough hbody ih => exact ih
  | headerChunked hsb hparse =>
      rintro op handler ⟨⟩
      rfl
  | plainWhole hsb hlength =>
      rintro op handler ⟨⟩
      rfl
  | sizeRetry hsb hshort =>
      rintro op handler ⟨⟩
      rfl
  | bodyLast hsb =>
      rintro op handler ⟨⟩
      rfl
  | bodyWhole hsb hsize henough =>
      rintro op handler ⟨⟩
      rfl
  | lastchunk hsb =>
      rintro op handler ⟨⟩
      rfl
  | _ => rintro op handler ⟨⟩

/-- A handler fails for missing bytes exactly when it has some, but fewer than it takes. -/
theorem fails_iff {w : Nat} {handler : Handler} {sb : Bytes} {turn : ClientTurn}
    (h : TurnOf w handler sb turn) :
    (∃ fault, turn.next = .throw fault ∧ OfMissingBytes fault) ↔
      sb ≠ [] ∧ sb.length < taken w handler := by
  induction h with
  | plainWhole hsb hlength => simp [startRead, taken, not_lt.mpr hlength]
  | plainCut hsb hlength => simp [OfMissingBytes, taken, hsb, hlength]
  | sizeDirect hlong hparse henough hbody ih =>
      refine ih.trans (iff_of_false ?_ ?_)
      · rintro ⟨-, hlt⟩
        simp only [taken] at hlt
        split at hlt
        · omega
        · omega
      · simp [taken]
  | bodyWhole hsb hsize henough => simp [taken, hsize, not_lt.mpr henough]
  | bodyCut hsb hsize hshort => simp [OfMissingBytes, taken, hsb, hsize, hshort]
  | _ => simp [OfMissingBytes, startRead, taken]

/-! ## Runs -/

/-- The outstanding read was issued with no more bytes buffered than there are now, and asks
for enough. -/
def ReadSuffices (w : Nat) (s : ClientSession) : Prop :=
  ∀ op start handler, s.activity = .reading op start handler →
    Suffices w start handler op ∧ start ≤ s.buffer.length

theorem readSuffices_connect (w : Nat) (segments : List Bytes) (closed : Bool) :
    ReadSuffices w (connect segments closed) := by
  rintro op start handler ⟨⟩
  exact ⟨rfl, Nat.zero_le _⟩

theorem readSuffices_resume {w : Nat} {handler : Handler} (s : ClientSession) (ec : Bool) :
    ReadSuffices w (s.resume (complete w handler ec s.buffer)) := by
  intro op start handler' hact
  obtain ⟨hnext, rfl⟩ := Next.issue_of_reading hact
  exact ⟨sound_of_turnOf (turnOf_complete w ec s.buffer handler) _ _ hnext, le_rfl⟩

theorem readSuffices_step {w : Nat} (s s' : ClientSession) (hinv : ReadSuffices w s)
    (hstep : clientStep w s = some s') : ReadSuffices w s' := by
  obtain ⟨op, start, handler, hact, hcase⟩ := step_cases hstep
  rcases hcase with ⟨-, rfl⟩ | ⟨-, segment, unread, -, rfl⟩ | ⟨-, -, -, rfl⟩
  · exact readSuffices_resume s false
  · intro op' start' handler' hact'
    obtain ⟨hsuffices, hle⟩ := hinv op' start' handler' hact'
    refine ⟨hsuffices, ?_⟩
    rw [List.length_append]
    omega
  · exact readSuffices_resume s true

theorem taken_le_of_satisfied {w start : Nat} {handler : Handler} {op : ReadOp Byte}
    {buffer : Bytes} (hsuffices : Suffices w start handler op) (hstart : start ≤ buffer.length)
    (hsat : op.satisfied start buffer = true) : taken w handler ≤ buffer.length := by
  cases op with
  | readUntil delim =>
      have hnone : taken w handler = 0 := hsuffices
      omega
  | readAtLeast count =>
      have henough : taken w handler ≤ start + count := hsuffices
      have hcount : count ≤ buffer.length - start := by simpa using hsat
      omega

/-- **Bytes taken are bytes present**, as long as the connection does not end within a
body; and when it does, they are not. -/
theorem bytesPresent_iff (w : Nat) (segments : List Bytes) (closed : Bool) :
    BytesPresent w (connect segments closed) ↔
      ∀ s, Reaches (clientStep w) (connect segments closed) s → ¬ CutInBody w s := by
  have hinv : ∀ s, Reaches (clientStep w) (connect segments closed) s → ReadSuffices w s :=
    fun s hreach =>
      reaches_invariant readSuffices_step hreach (readSuffices_connect w segments closed)
  constructor
  · rintro hpresent s hreach ⟨⟨hunread, hclosed⟩, hpartly, op, start, handler, hact, hshort⟩
    obtain ⟨hsuffices, hstart⟩ := hinv s hreach op start handler hact
    have hunsat : op.satisfied start s.buffer = false := by
      by_contra hsat
      have := taken_le_of_satisfied hsuffices hstart (by simpa using hsat)
      omega
    obtain ⟨fault, hfault, hmissing⟩ :=
      (fails_iff (turnOf_complete w true s.buffer handler)).mpr ⟨hpartly, hshort⟩
    have hnext := hreach.tail (step_closed hact hunsat hunread hclosed)
    refine hpresent _ hnext fault ?_ hmissing
    rw [Session.resume_activity, hfault]
    rfl
  · intro hcut s hreach fault hfailed hmissing
    cases hreach with
    | refl => cases hfailed
    | @tail before _ hbefore hstep =>
        obtain ⟨op, start, handler, hact, hcase⟩ := step_cases hstep
        obtain ⟨hsuffices, hstart⟩ := hinv before hbefore op start handler hact
        rcases hcase with ⟨hsat, rfl⟩ | ⟨-, segment, unread, -, rfl⟩ | ⟨-, hunread, hclosed, rfl⟩
        · -- a completed read has brought everything its handler takes
          obtain ⟨-, hshort⟩ := (fails_iff (turnOf_complete w false before.buffer handler)).mp
            ⟨fault, Next.throw_of_failed hfailed, hmissing⟩
          have := taken_le_of_satisfied hsuffices hstart hsat
          omega
        · rw [hact] at hfailed
          cases hfailed
        · obtain ⟨hpartly, hshort⟩ := (fails_iff (turnOf_complete w true before.buffer handler)).mp
            ⟨fault, Next.throw_of_failed hfailed, hmissing⟩
          exact hcut before hbefore
            ⟨⟨hunread, hclosed⟩, hpartly, op, start, handler, hact, hshort⟩

/-- A response that announces five bytes, and a connection that ends after two of them. -/
theorem not_bytesPresent_cut :
    ¬ BytesPresent 64
      (connect [ascii "HTTP/1.1 200 OK\r\nContent-Length: 5\r\n\r\nab"] true) := by
  intro hpresent
  refine hpresent _ (reaches_stateAfter 3 _) .overread ?_ trivial
  decide

end BlackCircle.Http.Truncation
