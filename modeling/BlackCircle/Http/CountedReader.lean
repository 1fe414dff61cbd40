import BlackCircle.Http.HeadReader
import Mathlib.Data.List.Infix

/-!
# The reader on responses with a counted body

The size of the body read is computed without regard to how much of the body,
or of what follows it, is buffered already.  What a reader does with a response
therefore depends on where the network reads end: the first read that ends
behind the head must not end behind the body as well.
-/

namespace BlackCircle.Http.CountedReader

open BlackCircle.Foundation.ByteString
open BlackCircle.Foundation.Numeral
open BlackCircle.Foundation.ReadLoop
open BlackCircle.Http.Client
open BlackCircle.Http.HeadReader
open BlackCircle.Http.Message
open BlackCircle.Http.Response
open StateTransition

/-- A response whose body is counted by its `Content-Length` line. -/
structure Counted where
  head : Head
  length : Bytes
  body : Bytes
  unchunked : head.fieldValue (ascii "Transfer-Encoding") = none
  counted : head.fieldValue (ascii "Content-Length") = some length
  length_numeral : IsNumeral 10 length
  length_value : value 10 length = body.length
  body_fits : body.length < 2 ^ 64

namespace Counted

def text (r : Counted) : Bytes := r.head.text ++ r.body

/-- The call made for a response: its status, its header and exactly its body. -/
def call (r : Counted) : HttpResponseData := { r.head.response with data := r.body }

theorem text_length (r : Counted) : r.text.length = r.head.text.length + r.body.length :=
  List.length_append

theorem headerReadComplete_counted (r : Counted) (ec : Bool) (behind : Bytes) :
    headerReadComplete 64 default ec (r.head.text ++ behind) =
      ⟨behind, [], .issue (.readAtLeast (sizeSub 64 r.body.length behind.length))
        (.plainBodyReadComplete r.head.response r.body.length)⟩ := by
  have hplain : ¬ mapGetOr r.head.header (ascii "Transfer-Encoding") (ascii "") =
      ascii "chunked" := by
    rw [mapGetOr, r.head.find?_header, r.unchunked]
    decide
  have hlength : mapGetOr r.head.header (ascii "Content-Length") (ascii "0") = r.length := by
    rw [mapGetOr, r.head.find?_header, r.counted]
    rfl
  have hcast : lexicalCastSize 64 r.length = some r.body.length := by
    have hvalue := r.length_value
    have hfits := r.body_fits
    rw [lexicalCastSize_numeral r.length_numeral (by omega), hvalue]
  rw [headerReadComplete_text, if_neg hplain, hlength, hcast]

end Counted

theorem plainBodyReadComplete_body {body : Bytes} (hbody : body ≠ []) (res : HttpResponseData)
    (ec : Bool) (after : Bytes) :
    plainBodyReadComplete res body.length ec (body ++ after) =
      startRead after [{ res with data := body }] := by
  have hpos : 0 < body.length := List.length_pos_iff.mpr hbody
  have hlen : (body ++ after).length = body.length + after.length := List.length_append
  rw [plainBodyReadComplete, if_neg (by omega), if_pos (by omega), List.take_left, List.drop_left]

def responsesText (responses : List Counted) : Bytes := responses.flatMap Counted.text

/-- The responses whose last byte lies within the first `received` bytes. -/
def arrived : Nat → List Counted → List Counted
  | _, [] => []
  | received, r :: responses =>
      if r.text.length ≤ received then r :: arrived (received - r.text.length) responses
      else []

/-- After any of the reads, and once the pending completions have run, exactly the
responses that have arrived have been handed over, each with its own body. -/
def Delivered (segments : List Bytes) (responses : List Counted) : Prop :=
  ∀ received, received <+: segments → ∃ s ∈ eval (clientStep 64) (connect received false),
    s.outputs = (arrived received.flatten.length responses).map Counted.call

/-- No response from position `start` on has an empty body, and for each of them some
read ends behind the head but not behind the body.  The reads begin at `buffered`. -/
def Aligned (buffered : Nat) (segments : List Bytes) : Nat → List Counted → Prop
  | _, [] => True
  | start, r :: responses =>
      (r.body ≠ [] ∧ ∃ received ∈ segments.inits,
        start + r.head.text.length ≤ buffered + received.flatten.length ∧
        buffered + received.flatten.length ≤ start + r.text.length) ∧
      Aligned buffered segments (start + r.text.length) responses

instance decidableAligned (buffered : Nat) (segments : List Bytes) :
    ∀ (start : Nat) (responses : List Counted),
      Decidable (Aligned buffered segments start responses)
  | _, [] => inferInstanceAs (Decidable True)
  | start, r :: responses =>
      haveI := decidableAligned buffered segments (start + r.text.length) responses
      inferInstanceAs (Decidable (_ ∧ _))

/-- Where reads end behind a position does not depend on where counting begins. -/
theorem aligned_shift {buffered buffered' cut : Nat} {taken unread : List Bytes}
    (hcut : buffered + taken.flatten.length = cut + buffered')
    (hbefore : ∀ fewer, fewer <+: taken → fewer ≠ taken →
      buffered + fewer.flatten.length < cut) (start : Nat) (responses : List Counted) :
    Aligned buffered (taken ++ unread) (cut + start) responses ↔
      Aligned buffered' unread start responses := by
  induction responses generalizing start with
  | nil => exact Iff.rfl
  | cons r responses ih =>
      have hnext := ih (start + r.text.length)
      rw [← Nat.add_assoc] at hnext
      rw [Aligned, Aligned, hnext]
      have hhead := r.head.text_length_pos
      have hends : (∃ received ∈ (taken ++ unread).inits,
            cut + start + r.head.text.length ≤ buffered + received.flatten.length ∧
            buffered + received.flatten.length ≤ cut + start + r.text.length) ↔
          (∃ received ∈ unread.inits,
            start + r.head.text.length ≤ buffered' + received.flatten.length ∧
            buffered' + received.flatten.length ≤ start + r.text.length) := by
        simp only [List.mem_inits]
        constructor
        · rintro ⟨received, hreceived, hlow, hhigh⟩
          rcases List.prefix_or_prefix_of_prefix (List.prefix_append taken unread) hreceived
            with ⟨more, rfl⟩ | hle
          · rw [List.prefix_append_right_inj] at hreceived
            rw [List.flatten_append, List.length_append] at hlow hhigh
            exact ⟨more, hreceived, by omega, by omega⟩
          · by_cases heq : received = taken
            · rw [heq] at hlow hhigh
              exact ⟨[], List.nil_prefix, by simpa using by omega, by simpa using by omega⟩
            · have := hbefore received hle heq
              omega
        · rintro ⟨received, hreceived, hlow, hhigh⟩
          refine ⟨taken ++ received, (List.prefix_append_right_inj taken).mpr hreceived, ?_, ?_⟩
          · rw [List.flatten_append, List.length_append]
            omega
          · rw [List.flatten_append, List.length_append]
            omega
      rw [hends]

/-! ## One response -/

section OneResponse

variable {s : ClientSession} {r : Counted} {taken unread : List Bytes}

/-- The reads that first reach the end of the head run the head's handler. -/
theorem reaches_counted_head {behind : Bytes} (hawaits : AwaitsHead s)
    (hunread : s.unread = taken ++ unread)
    (hbuffer : s.buffer ++ taken.flatten = r.head.text ++ behind)
    (hfills : Fills s.buffer.length r.head.text.length taken) :
    Reaches (clientStep 64) s
      { s with
        buffer := behind
        unread := unread
        activity := .reading (.readAtLeast (sizeSub 64 r.body.length behind.length))
          behind.length (.plainBodyReadComplete r.head.response r.body.length) } := by
  obtain ⟨start, hact⟩ := hawaits
  have hearliest : Earliest (.readUntil eol2) start s.buffer taken := by
    apply hfills.congr
    rintro part ⟨rest, rfl⟩
    have hpart : s.buffer ++ part.flatten <+: r.head.text ++ behind := by
      refine ⟨rest.flatten, ?_⟩
      rw [← hbuffer, List.flatten_append, List.append_assoc]
    rw [ReadOp.satisfied_readUntil, decide_eq_true_eq, r.head.firstEnds.infix_iff hpart,
      ← List.length_append]
    constructor
    · exact List.prefix_of_prefix_length_le (List.prefix_append _ _) hpart
    · exact List.IsPrefix.length_le
  have hreach : Reaches (clientStep 64) s _ := reaches_earliest hact hunread hearliest
  change Reaches (clientStep 64) s (Session.resume _
    (headerReadComplete 64 default false (s.buffer ++ taken.flatten))) at hreach
  rw [hbuffer, r.headerReadComplete_counted] at hreach
  simpa [Session.resume, Next.activity] using hreach

/-- The reads that first reach the end of the body make the call. -/
theorem reaches_counted_body {after : Bytes} {needed : Nat}
    (hact : s.activity = .reading (.readAtLeast (needed - s.buffer.length)) s.buffer.length
      (.plainBodyReadComplete r.head.response r.body.length))
    (hneeded : needed = r.body.length) (hbody : r.body ≠ [])
    (hunread : s.unread = taken ++ unread)
    (hbuffer : s.buffer ++ taken.flatten = r.body ++ after)
    (hfills : Fills s.buffer.length r.body.length taken) :
    Reaches (clientStep 64) s
      { s with
        buffer := after
        unread := unread
        activity := .reading (.readUntil eol2) after.length (.headerReadComplete default)
        outputs := s.outputs ++ [r.call] } := by
  have hearliest : Earliest (.readAtLeast (needed - s.buffer.length)) s.buffer.length
      s.buffer taken := by
    apply hfills.congr
    intro part _
    rw [ReadOp.satisfied_readAtLeast, decide_eq_true_eq, List.length_append]
    omega
  have hreach : Reaches (clientStep 64) s _ := reaches_earliest hact hunread hearliest
  change Reaches (clientStep 64) s (Session.resume _
    (plainBodyReadComplete r.head.response r.body.length false
      (s.buffer ++ taken.flatten))) at hreach
  rw [hbuffer, plainBodyReadComplete_body hbody] at hreach
  exact hreach

/-- The reads that first reach the end of a response make its call, when one of them
ends within the body. -/
theorem reaches_counted {after : Bytes} (hawaits : AwaitsHead s) (hbody : r.body ≠ [])
    (hunread : s.unread = taken ++ unread)
    (hbuffer : s.buffer ++ taken.flatten = r.text ++ after)
    (hfills : Fills s.buffer.length r.text.length taken)
    (hends : ∃ part, part <+: taken ∧
      r.head.text.length ≤ s.buffer.length + part.flatten.length ∧
      s.buffer.length + part.flatten.length ≤ r.text.length) :
    Reaches (clientStep 64) s
      { s with
        buffer := after
        unread := unread
        activity := .reading (.readUntil eol2) after.length (.headerReadComplete default)
        outputs := s.outputs ++ [r.call] } := by
  obtain ⟨part, hpart, hlow, hhigh⟩ := hends
  obtain ⟨first, later, hpartsplit, hfirst⟩ : ∃ first later, part = first ++ later ∧
      Fills s.buffer.length r.head.text.length first := exists_fewest hlow
  obtain ⟨later', htaken⟩ : first <+: taken :=
    (hpartsplit ▸ List.prefix_append first later).trans hpart
  have hwithin : s.buffer.length + first.flatten.length ≤ r.text.length := by
    rw [hpartsplit, List.flatten_append, List.length_append] at hhigh
    omega
  have htext := r.text_length
  have hfits := r.body_fits
  subst htaken
  rw [Counted.text, List.append_assoc] at hbuffer
  obtain ⟨behind, hbehind, hrest, hlength⟩ := hfirst.split hbuffer
  have hhead := reaches_counted_head hawaits (by rw [hunread, List.append_assoc]) hbehind hfirst
  rw [sizeSub_of_le (by omega) hfits] at hhead
  exact hhead.trans (reaches_counted_body rfl rfl hbody rfl hrest (hfills.later hlength htext))

end OneResponse

/-! ## Responses that are not delivered -/

/-- A body read whose size has wrapped around asks for more than will ever arrive. -/
theorem quiet_of_wrapped {s : ClientSession} {res : HttpResponseData} {length : Nat}
    (hact : s.activity = .reading (.readAtLeast (sizeSub 64 length s.buffer.length))
      s.buffer.length (.plainBodyReadComplete res length))
    (hopen : s.closed = false) (hless : length < s.buffer.length)
    (hbound : s.pending.length < 2 ^ 64) :
    ∃ s' ∈ eval (clientStep 64) s, s'.outputs = s.outputs := by
  have hpending : s.pending.length = s.buffer.length + s.unread.flatten.length :=
    List.length_append
  have hwrap : sizeSub 64 length s.buffer.length = 2 ^ 64 - (s.buffer.length - length) :=
    sizeSub_of_lt hless (by omega)
  refine ⟨_, eval_waiting hact hopen ?_, rfl⟩
  simp only [hwrap, ReadOp.satisfied_readAtLeast, decide_eq_false_iff_not]
  omega

/-- A body read of nothing is complete at once, and its handler takes the empty buffer for the
end of the connection. -/
theorem quiet_of_empty {s : ClientSession} {res : HttpResponseData}
    (hact : s.activity = .reading (.readAtLeast (sizeSub 64 0 s.buffer.length))
      s.buffer.length (.plainBodyReadComplete res 0))
    (hempty : s.buffer = []) : ∃ s' ∈ eval (clientStep 64) s, s'.outputs = s.outputs := by
  have hnone : sizeSub 64 0 s.buffer.length = 0 := by
    rw [hempty]
    rfl
  rw [hnone] at hact
  have hsat : (ReadOp.readAtLeast 0).satisfied s.buffer.length s.buffer = true := by simp
  have hstep : clientStep 64 s =
      some (s.resume (complete 64 (.plainBodyReadComplete res 0) false s.buffer)) :=
    step_satisfied hact hsat
  rw [hempty] at hstep
  refine ⟨_, mem_eval.mpr ⟨Relation.ReflTransGen.single hstep, rfl⟩, ?_⟩
  simp [plainBodyReadComplete, complete, Session.resume]

section Quiet

variable {s : ClientSession} {r : Counted} {rest : Bytes}

/-- As long as the response is incomplete, no call is made. -/
theorem quiet_of_short (hawaits : AwaitsHead s) (hopen : s.closed = false)
    (hpending : s.pending <+: r.text ++ rest) (hshort : s.pending.length < r.text.length) :
    ∃ s' ∈ eval (clientStep 64) s, s'.outputs = s.outputs := by
  obtain ⟨missing, hstream⟩ := hpending
  rw [Counted.text, List.append_assoc] at hstream
  by_cases hhead : s.pending.length < r.head.text.length
  · obtain ⟨start, hact⟩ := hawaits
    exact quiet_of_not_infix hact hopen
      (r.head.firstEnds.not_infix_of_short ⟨missing, hstream⟩ hhead)
  · have henough : r.head.text.length ≤ s.buffer.length + s.unread.flatten.length := by
      rw [← List.length_append]
      exact not_lt.mp hhead
    obtain ⟨taken, unread, hunread, hfills⟩ : ∃ taken unread, s.unread = taken ++ unread ∧
        Fills s.buffer.length r.head.text.length taken := exists_fewest henough
    have hwhole : s.buffer ++ (taken ++ (unread ++ [missing])).flatten =
        r.head.text ++ (r.body ++ rest) := by
      rw [← hstream, Session.pending, hunread]
      simp
    obtain ⟨behind, hbehind, hbody, hlength⟩ := hfills.split hwhole
    have hreach := reaches_counted_head hawaits hunread hbehind hfills
    have htext := r.text_length
    have hfits := r.body_fits
    have hpendinglen : s.pending.length =
        r.head.text.length + (behind.length + unread.flatten.length) := by
      rw [← Nat.add_assoc, ← hlength, Session.pending, hunread]
      simp only [List.flatten_append, List.length_append]
      omega
    rw [sizeSub_of_le (by omega) hfits] at hreach
    rw [reaches_eval hreach]
    refine ⟨_, eval_waiting rfl hopen ?_, rfl⟩
    simp only [Session.pending, ReadOp.satisfied_readAtLeast, List.length_append,
      decide_eq_false_iff_not]
    omega

/-- When the reads go from within the head to behind the body at once, or the body is empty,
the response is complete and no call is made. -/
theorem quiet_of_overrun (hawaits : AwaitsHead s) (hopen : s.closed = false)
    (hpending : s.pending = r.text ++ rest) (hbuffer : s.buffer.length < 2 ^ 64)
    (hsegments : ∀ segment ∈ s.unread, segment.length < 2 ^ 64)
    (hends : r.body ≠ [] → ∀ part, part <+: s.unread →
      r.head.text.length ≤ s.buffer.length + part.flatten.length →
      r.text.length < s.buffer.length + part.flatten.length) :
    ∃ received, received <+: s.unread ∧
      r.text.length ≤ s.buffer.length + received.flatten.length ∧
      ∃ s' ∈ eval (clientStep 64) { s with unread := received }, s'.outputs = s.outputs := by
  rw [Counted.text, List.append_assoc] at hpending
  have henough : r.head.text.length ≤ s.buffer.length + s.unread.flatten.length := by
    rw [← List.length_append, ← Session.pending, hpending, List.length_append]
    omega
  obtain ⟨taken, unread, hunread, hfills⟩ : ∃ taken unread, s.unread = taken ++ unread ∧
      Fills s.buffer.length r.head.text.length taken := exists_fewest henough
  have hwhole : s.buffer ++ (taken ++ unread).flatten = r.head.text ++ (r.body ++ rest) := by
    rw [← hpending, Session.pending, hunread]
  obtain ⟨behind, hbehind, -, hlength⟩ := hfills.split hwhole
  have hbound : s.buffer.length + taken.flatten.length < r.head.text.length + 2 ^ 64 :=
    hfills.overshoot (by omega)
      (fun segment hmem => hsegments segment (hunread ▸ List.mem_append_left _ hmem))
  have htaken : taken <+: s.unread := hunread ▸ List.prefix_append taken unread
  have htext := r.text_length
  have hreach : Reaches (clientStep 64) ({ s with unread := taken } : ClientSession) _ :=
    reaches_counted_head hawaits (List.append_nil taken).symm hbehind hfills
  have hover : r.body = [] ∧ behind = [] ∨ r.body.length < behind.length := by
    by_cases hbody : r.body = []
    · have hzero : r.body.length = 0 := by rw [hbody, List.length_nil]
      rcases List.eq_nil_or_concat' behind with hnone | ⟨_, _, hsome⟩
      · exact Or.inl ⟨hbody, hnone⟩
      · right
        rw [hzero, hsome]
        simp
    · have := hends hbody taken htaken hfills.holds
      right
      omega
  refine ⟨taken, htaken, ?_, ?_⟩
  · rcases hover with ⟨hbody, -⟩ | hlt
    · have hzero : r.body.length = 0 := by rw [hbody, List.length_nil]
      omega
    · omega
  · rw [reaches_eval hreach]
    rcases hover with ⟨hbody, rfl⟩ | hlt
    · have hzero : r.body.length = 0 := by rw [hbody, List.length_nil]
      rw [hzero]
      exact quiet_of_empty rfl rfl
    · refine quiet_of_wrapped rfl hopen hlt ?_
      simp only [Session.pending, List.flatten_nil, List.append_nil]
      omega

end Quiet

/-! ## All responses -/

/-- `Delivered`, from a waiting reader on. -/
def DeliveredFrom (s : ClientSession) (responses : List Counted) : Prop :=
  ∀ received, received <+: s.unread →
    ∃ s' ∈ eval (clientStep 64) { s with unread := received },
      s'.outputs = s.outputs ++
        (arrived (s.buffer.length + received.flatten.length) responses).map Counted.call

section AllResponses

variable {s : ClientSession} {r : Counted} {responses : List Counted}

/-- The calls made when the first response has arrived, and something behind it. -/
theorem calls_cons (outputs : List HttpResponseData) {received behind : Nat}
    (h : received = r.text.length + behind) :
    outputs ++ (arrived received (r :: responses)).map Counted.call =
      (outputs ++ [r.call]) ++ (arrived behind responses).map Counted.call := by
  rw [h, arrived, if_pos (Nat.le_add_right _ _), Nat.add_sub_cancel_left]
  simp

/-- A read that ends inside the first response is among those that fill it. -/
theorem ends_among_taken {start : Nat} {taken unread : List Bytes}
    (hfills : Fills start r.text.length taken)
    (hends : ∃ part, part <+: taken ++ unread ∧
      r.head.text.length ≤ start + part.flatten.length ∧
      start + part.flatten.length ≤ r.text.length) :
    ∃ part, part <+: taken ∧ r.head.text.length ≤ start + part.flatten.length ∧
      start + part.flatten.length ≤ r.text.length := by
  obtain ⟨part, hpart, hlow, hhigh⟩ := hends
  rcases List.prefix_or_prefix_of_prefix (List.prefix_append taken unread) hpart
    with ⟨more, rfl⟩ | hle
  · -- the read that fills the response is not longer than this one
    have hfull := hfills.holds
    have htext := r.text_length
    rw [List.flatten_append, List.length_append] at hhigh
    exact ⟨taken, List.prefix_rfl, by omega, by omega⟩
  · exact ⟨part, hle, hlow, hhigh⟩

/-- As long as the first response has not arrived, no call is made. -/
theorem eval_before (hawaits : AwaitsHead s) (hopen : s.closed = false)
    (hpending : s.pending = r.text ++ responsesText responses) {received : List Bytes}
    (hreceived : received <+: s.unread)
    (hshort : ¬ r.text.length ≤ s.buffer.length + received.flatten.length) :
    ∃ s' ∈ eval (clientStep 64) ({ s with unread := received } : ClientSession),
      s'.outputs = s.outputs ++
        (arrived (s.buffer.length + received.flatten.length) (r :: responses)).map
          Counted.call := by
  obtain ⟨later, hlater⟩ := hreceived
  have hpart : ({ s with unread := received } : ClientSession).pending <+:
      r.text ++ responsesText responses := by
    refine ⟨later.flatten, ?_⟩
    rw [← hpending, Session.pending, Session.pending, ← hlater]
    simp
  have hlength : ({ s with unread := received } : ClientSession).pending.length <
      r.text.length := by
    rw [Session.pending, List.length_append]
    exact not_le.mp hshort
  rw [arrived, if_neg hshort, List.map_nil, List.append_nil]
  exact quiet_of_short hawaits hopen hpart hlength

/-- An aligned response is delivered; what remains is delivered if and only if it is
delivered from the state behind that response. -/
theorem deliveredFrom_cons (hawaits : AwaitsHead s) (hopen : s.closed = false)
    (hpending : s.pending = r.text ++ responsesText responses) (hbody : r.body ≠ [])
    (hends : ∃ part, part <+: s.unread ∧
      r.head.text.length ≤ s.buffer.length + part.flatten.length ∧
      s.buffer.length + part.flatten.length ≤ r.text.length) :
    ∃ s' taken, AwaitsHead s' ∧ s'.closed = false ∧ s'.pending = responsesText responses ∧
      s.unread = taken ++ s'.unread ∧ Fills s.buffer.length r.text.length taken ∧
      s.buffer.length + taken.flatten.length = r.text.length + s'.buffer.length ∧
      (DeliveredFrom s (r :: responses) ↔ DeliveredFrom s' responses) := by
  have henough : r.text.length ≤ s.buffer.length + s.unread.flatten.length := by
    rw [← List.length_append, ← Session.pending, hpending, List.length_append]
    omega
  obtain ⟨taken, unread, hunread, hfills⟩ : ∃ taken unread, s.unread = taken ++ unread ∧
      Fills s.buffer.length r.text.length taken := exists_fewest henough
  have hwhole : s.buffer ++ (taken ++ unread).flatten = r.text ++ responsesText responses := by
    rw [← hpending, Session.pending, hunread]
  obtain ⟨after, hafter, hrest, hlength⟩ := hfills.split hwhole
  have hends' := ends_among_taken hfills (hunread ▸ hends)
  have hreach : ∀ more, Reaches (clientStep 64) ({ s with unread := taken ++ more } : ClientSession)
      { s with
        buffer := after
        unread := more
        activity := .reading (.readUntil eol2) after.length (.headerReadComplete default)
        outputs := s.outputs ++ [r.call] } :=
    fun more => reaches_counted hawaits hbody rfl hafter hfills hends'
  have hmore : ∀ more : List Bytes, s.buffer.length + (taken ++ more).flatten.length =
      r.text.length + (after.length + more.flatten.length) := by
    intro more
    rw [List.flatten_append, List.length_append]
    omega
  refine ⟨{ s with
        buffer := after
        unread := unread
        activity := .reading (.readUntil eol2) after.length (.headerReadComplete default)
        outputs := s.outputs ++ [r.call] }, taken, ⟨after.length, rfl⟩, hopen, hrest, hunread,
    hfills, hlength, ?_⟩
  constructor
  · intro hdelivered more hprefix
    obtain ⟨s', heval, houtputs⟩ := hdelivered (taken ++ more)
      (hunread ▸ (List.prefix_append_right_inj taken).mpr hprefix)
    refine ⟨s', ?_, by rw [houtputs, calls_cons s.outputs (hmore more)]⟩
    rwa [reaches_eval (hreach more)] at heval
  · intro hdelivered received hreceived
    by_cases hlong : r.text.length ≤ s.buffer.length + received.flatten.length
    · obtain ⟨more, rfl⟩ := hfills.prefix_of_enough (hunread ▸ hreceived) hlong
      obtain ⟨s', heval, houtputs⟩ := hdelivered more
        ((List.prefix_append_right_inj taken).mp (hunread ▸ hreceived))
      refine ⟨s', ?_, by rw [houtputs, calls_cons s.outputs (hmore more)]⟩
      rwa [reaches_eval (hreach more)]
    · exact eval_before hawaits hopen hpending hreceived hlong

/-- With nothing left to arrive, nothing more is handed over. -/
theorem deliveredFrom_nil (hawaits : AwaitsHead s) (hopen : s.closed = false)
    (hpending : s.pending = []) : DeliveredFrom s [] := by
  rintro received ⟨later, hlater⟩
  obtain ⟨start, hact⟩ := hawaits
  have hnone : ({ s with unread := received } : ClientSession).pending = [] := by
    rw [Session.pending, ← hlater, List.flatten_append, ← List.append_assoc] at hpending
    exact (List.append_eq_nil_iff.mp hpending).1
  have hmark : ¬ eol2 <:+: ({ s with unread := received } : ClientSession).pending := by
    rw [hnone]
    decide
  rw [arrived, List.map_nil, List.append_nil]
  exact quiet_of_not_infix hact hopen hmark

/-- From a waiting reader on, the responses are delivered if and only if they are aligned. -/
theorem deliveredFrom_iff (responses : List Counted) {s : ClientSession} (hawaits : AwaitsHead s)
    (hopen : s.closed = false) (hpending : s.pending = responsesText responses)
    (hbuffer : s.buffer.length < 2 ^ 64)
    (hsegments : ∀ segment ∈ s.unread, segment.length < 2 ^ 64) :
    DeliveredFrom s responses ↔ Aligned s.buffer.length s.unread 0 responses := by
  induction responses generalizing s with
  | nil =>
      exact iff_of_true (deliveredFrom_nil hawaits hopen hpending) trivial
  | cons r responses ih =>
      have htext : responsesText (r :: responses) = r.text ++ responsesText responses := by
        simp [responsesText]
      rw [htext] at hpending
      rw [Aligned]
      simp only [Nat.zero_add, List.mem_inits]
      by_cases hfits : r.body ≠ [] ∧ ∃ part, part <+: s.unread ∧
          r.head.text.length ≤ s.buffer.length + part.flatten.length ∧
          s.buffer.length + part.flatten.length ≤ r.text.length
      · obtain ⟨s', taken, hawaits', hopen', hpending', hunread, hfills, hlength, hiff⟩ :=
          deliveredFrom_cons hawaits hopen hpending hfits.1 hfits.2
        have hbuffer' : s'.buffer.length < 2 ^ 64 := by
          have hbound : s.buffer.length + taken.flatten.length < r.text.length + 2 ^ 64 :=
            hfills.overshoot (by omega)
              (fun segment hmem => hsegments segment (hunread ▸ List.mem_append_left _ hmem))
          omega
        have hsegments' : ∀ segment ∈ s'.unread, segment.length < 2 ^ 64 :=
          fun segment hmem => hsegments segment (hunread ▸ List.mem_append_right _ hmem)
        have hshift : Aligned s.buffer.length (taken ++ s'.unread) (r.text.length + 0) responses ↔
            Aligned s'.buffer.length s'.unread 0 responses :=
          aligned_shift hlength
            (fun fewer hfewer hne => not_le.mp (hfills.minimal fewer hfewer hne)) 0 responses
        rw [hiff, ih hawaits' hopen' hpending' hbuffer' hsegments', ← hshift, ← hunread,
          Nat.add_zero]
        exact (and_iff_right hfits).symm
      · refine iff_of_false ?_ (fun haligned => hfits haligned.1)
        intro hdelivered
        have hends : r.body ≠ [] → ∀ part, part <+: s.unread →
            r.head.text.length ≤ s.buffer.length + part.flatten.length →
            r.text.length < s.buffer.length + part.flatten.length := by
          intro hbody part hpart hlow
          by_contra hhigh
          exact hfits ⟨hbody, part, hpart, hlow, not_lt.mp hhigh⟩
        obtain ⟨received, hreceived, hlong, s₁, heval₁, hquiet⟩ :=
          quiet_of_overrun hawaits hopen hpending hbuffer hsegments hends
        obtain ⟨s₂, heval₂, houtputs⟩ := hdelivered received hreceived
        rw [Part.mem_unique heval₂ heval₁, hquiet, arrived, if_pos hlong] at houtputs
        simp at houtputs

end AllResponses

/-- `Delivered` is delivery from a fresh connection on. -/
theorem delivered_iff_deliveredFrom (segments : List Bytes) (responses : List Counted) :
    Delivered segments responses ↔ DeliveredFrom (connect segments false) responses := by
  simp [Delivered, DeliveredFrom, connect]

/-- A response with a body that is alone on its connection is delivered, however it arrives. -/
theorem delivered_alone {r : Counted} (hbody : r.body ≠ []) {segments : List Bytes}
    (hstream : segments.flatten = r.text) : Delivered segments [r] := by
  have hpending : (connect segments false).pending = r.text ++ responsesText [] := by
    rw [responsesText, List.flatMap_nil, List.append_nil, ← hstream]
    rfl
  have hends : ∃ part, part <+: (connect segments false).unread ∧
      r.head.text.length ≤ 0 + part.flatten.length ∧ 0 + part.flatten.length ≤ r.text.length := by
    have htext := r.text_length
    exact ⟨segments, List.prefix_rfl, by rw [hstream]; omega, by rw [hstream]; omega⟩
  obtain ⟨s, -, hawaits, hopen, hpending', -, -, -, hiff⟩ :=
    deliveredFrom_cons (awaitsHead_connect segments false) rfl hpending hbody hends
  rw [delivered_iff_deliveredFrom, hiff]
  exact deliveredFrom_nil hawaits hopen hpending'

/-- Alone on its connection, such a response makes its call, and the reader comes to rest behind it
without an exception, whether the connection then ends or not. -/
theorem rests_alone {r : Counted} (hbody : r.body ≠ []) {segments : List Bytes} (closed : Bool)
    (hstream : segments.flatten = r.text) :
    ∃ s ∈ eval (clientStep 64) (connect segments closed), s.outputs = [r.call] ∧
      ∀ fault, s.activity ≠ .failed fault := by
  obtain ⟨taken, unread, rfl, hfills⟩ : ∃ taken unread, segments = taken ++ unread ∧
      Fills 0 r.text.length taken := by
    apply exists_fewest
    rw [hstream, Nat.zero_add]
  obtain ⟨after, hafter, hrest, hlength⟩ := @Fills.split Byte [] r.text [] taken unread hfills
    (hstream.trans (List.append_nil _).symm)
  obtain ⟨rfl, hnone⟩ := List.append_eq_nil_iff.mp hrest
  rw [List.length_nil, Nat.add_zero, Nat.zero_add] at hlength
  have htext := r.text_length
  have hends : ∃ part, part <+: taken ∧ r.head.text.length ≤ 0 + part.flatten.length ∧
      0 + part.flatten.length ≤ r.text.length :=
    ⟨taken, List.prefix_rfl, by omega, by omega⟩
  have hreach := @reaches_counted (connect (taken ++ unread) closed) r taken unread []
    (awaitsHead_connect _ _) hbody rfl hafter hfills hends
  have hpending : ({ connect (taken ++ unread) closed with
      buffer := []
      unread := unread
      activity := .reading (.readUntil eol2) 0 (.headerReadComplete default)
      outputs := [r.call] } : ClientSession).pending = [] := hnone
  have hunsat : (ReadOp.readUntil eol2).satisfied 0 ([] : Bytes) = false := by decide
  have hwaits :=
    @reaches_unsatisfied _ _ _ _ _ (complete 64) { connect (taken ++ unread) closed with
      buffer := []
      unread := unread
      activity := .reading (.readUntil eol2) 0 (.headerReadComplete default)
      outputs := [r.call] } _ _ _ rfl
    ((congrArg (fun buffer => (ReadOp.readUntil eol2).satisfied 0 buffer) hpending).trans hunsat)
  rw [hpending] at hwaits
  have hall := hreach.trans hwaits
  cases closed with
  | false => exact ⟨_, mem_eval.mpr ⟨hall, step_waiting rfl hunsat rfl rfl⟩, rfl, nofun⟩
  | true =>
      have hlast := hall.tail (step_closed rfl hunsat rfl rfl)
      exact ⟨_, mem_eval.mpr ⟨hlast, rfl⟩, rfl, nofun⟩

/-- **Delivery of counted responses.**  Let the reads divide a sequence of counted
responses, each read shorter than `2 ^ 64` bytes.  Exactly when every body is
non-empty and, for each response, some read ends behind the head but not behind the
body, every response is handed over as soon as it has arrived. -/
theorem counted_delivered_iff (responses : List Counted) (segments : List Bytes)
    (hstream : segments.flatten = responsesText responses)
    (hsegments : ∀ segment ∈ segments, segment.length < 2 ^ 64) :
    Delivered segments responses ↔ Aligned 0 segments 0 responses := by
  rw [delivered_iff_deliveredFrom]
  exact deliveredFrom_iff responses (awaitsHead_connect segments false) rfl hstream
    (by simp [connect]) hsegments

/-- A `Content-Length` line. -/
def lengthField (length : Bytes) (hne : length ≠ []) (hclean : ∀ b ∈ length, b ≠ CR) : Field where
  name := ascii "Content-Length"
  value := length
  name_nonempty := by decide
  name_clean := by decide
  value_nonempty := hne
  value_clean := hclean

/-- A response with the two-byte body `ab`. -/
def twoBytes : Counted where
  head := Head.ok [lengthField (ascii "2") (by decide) (by decide)]
  length := ascii "2"
  body := ascii "ab"
  unchunked := by decide
  counted := by decide
  length_numeral := by decide
  length_value := by decide
  body_fits := by decide

/-- Two responses, in reads that end within the bodies. -/
theorem counted_delivered_twice :
    Delivered
      [ascii "HTTP/1.1 200 OK\r\nContent-Length: 2\r\n\r\na",
        ascii "bHTTP/1.1 200 OK\r\nContent-Length: 2\r\n\r\na", ascii "b"]
      [twoBytes, twoBytes] :=
  (counted_delivered_iff [twoBytes, twoBytes] _ (by decide) (by decide)).mpr (by decide)

/-- Two responses in one read are not delivered. -/
theorem counted_not_delivered_at_once :
    ¬ Delivered [responsesText [twoBytes, twoBytes]] [twoBytes, twoBytes] := by
  rw [delivered_iff_deliveredFrom,
    deliveredFrom_iff _ (awaitsHead_connect _ _) rfl (List.append_nil _) (by simp [connect])
      (by decide)]
  decide

end BlackCircle.Http.CountedReader
