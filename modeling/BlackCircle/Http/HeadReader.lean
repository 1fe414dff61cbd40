import BlackCircle.Http.Client
import BlackCircle.Http.Message

/-!
# The reader on a response head

What every kind of response has in common: a reader that waits for a head, and
what its handler does with one.  A reader's state enters only through what it
waits for and through `pending`, the bytes it has not consumed.
-/

namespace BlackCircle.Http.HeadReader

open BlackCircle.Foundation.ByteString
open BlackCircle.Foundation.Delimiter
open BlackCircle.Foundation.ReadLoop
open BlackCircle.Http.Client
open BlackCircle.Http.Message
open BlackCircle.Http.Response
open StateTransition

/-- The reader waits for the end of a head. -/
def AwaitsHead (s : ClientSession) : Prop :=
  ∃ start, s.activity = .reading (.readUntil eol2) start (.headerReadComplete default)

theorem awaitsHead_connect (segments : List Bytes) (closed : Bool) :
    AwaitsHead (connect segments closed) := ⟨0, rfl⟩

/-- A reader that waits for a mark which has not arrived comes to rest without a call. -/
theorem quiet_of_not_infix {w : Nat} {s : ClientSession} {mark : Bytes} {start : Nat}
    {handler : Handler} (hact : s.activity = .reading (.readUntil mark) start handler)
    (hopen : s.closed = false) (hmark : ¬ mark <:+: s.pending) :
    ∃ s' ∈ eval (clientStep w) s, s'.outputs = s.outputs :=
  ⟨_, eval_waiting hact hopen (by simpa using hmark), rfl⟩

theorem headerReadComplete_text (w : Nat) (head : Head) (ec : Bool) (behind : Bytes) :
    headerReadComplete w default ec (head.text ++ behind) =
      (if mapGetOr head.header (ascii "Transfer-Encoding") (ascii "") = ascii "chunked" then
        ⟨behind, [], .issue (.readUntil eol1) (.chunkSizeReadComplete head.response)⟩
      else
        match lexicalCastSize w
          (mapGetOr head.header (ascii "Content-Length") (ascii "0")) with
        | none => ⟨behind, [], .throw .badLexicalCast⟩
        | some length =>
            ⟨behind, [], .issue (.readAtLeast (sizeSub w length behind.length))
              (.plainBodyReadComplete head.response length)⟩) := by
  have hlen : (head.text ++ behind).length ≠ 0 := by
    have := head.text_length_pos
    rw [List.length_append]
    omega
  rw [headerReadComplete, if_neg hlen, head.parseHeader_text behind]
  simp only [List.drop_left]
  rfl

theorem eol2_infix_text (head : Head) (behind : Bytes) : eol2 <:+: head.text ++ behind :=
  (head.firstEnds.infix_iff List.prefix_rfl).mpr (List.prefix_append _ _)

/-- The bytes of a head complete the reader's delimited read, and the handler
sees the head with some of what follows it. -/
theorem reaches_head {w : Nat} {s : ClientSession} {head : Head} {rest : Bytes}
    (hawaits : AwaitsHead s) (hpending : s.pending = head.text ++ rest) :
    ∃ behind unread, behind ++ unread.flatten = rest ∧
      Reaches (clientStep w) s (({ s with unread := unread } : ClientSession).resume
        (headerReadComplete w default false (head.text ++ behind))) := by
  obtain ⟨start, hact⟩ := hawaits
  have hmark : eol2 <:+: s.pending := by
    rw [hpending]
    exact eol2_infix_text head rest
  obtain ⟨buffer, unread, hflat, hsat, hreach⟩ :=
    reaches_complete hact (by simpa using hmark)
  rw [hpending] at hflat
  obtain ⟨behind, rfl, hrest⟩ := head.firstEnds.split_of_infix hflat (by simpa using hsat)
  change Reaches (clientStep w) s (Session.resume _
    (headerReadComplete w default false (head.text ++ behind))) at hreach
  exact ⟨behind, unread, hrest, hreach⟩

end BlackCircle.Http.HeadReader
