import BlackCircle.Http.CountedReader
import BlackCircle.Http.SizeLines
import BlackCircle.Http.Turns

/-!
# How much of a body is asked for

The handler of a head and the handler of a size line ask for the bytes that are
missing of a body.  Both count in `size_t`.  Only the second one looks first
whether there are any missing; but it adds two to the size before.
-/

namespace BlackCircle.Http.BodySizes

open BlackCircle.Foundation.ByteString
open BlackCircle.Foundation.Numeral
open BlackCircle.Foundation.ReadLoop
open BlackCircle.Http.Client
open BlackCircle.Http.CountedReader (lengthField)
open BlackCircle.Http.HeadReader
open BlackCircle.Http.Message
open BlackCircle.Http.Response
open BlackCircle.Http.SizeLines
open BlackCircle.Http.Turns
open StateTransition

/-! ## What is asked for -/

/-- What `transfer_at_least` is called with; a turn without a counted read asks for nothing. -/
def requested (turn : ClientTurn) : Nat :=
  match turn.next with
  | .issue (.readAtLeast count) _ => count
  | _ => 0

/-- The buffer begins with the head of a counted body of this length, which `lexical_cast` reads
from the head; so many bytes are buffered behind the head. -/
inductive CountedHead (w : Nat) (res : HttpResponseData) (sb : Bytes) : Nat → Nat → Prop where
  | mk {res' : HttpResponseData} {consumed length : Nat} (hsb : sb ≠ [])
      (hparse : parseHeader sb res = .ok (consumed, res'))
      (hplain : mapGetOr res'.header (ascii "Transfer-Encoding") (ascii "") ≠ ascii "chunked")
      (hcast : lexicalCastSize w (mapGetOr res'.header (ascii "Content-Length") (ascii "0")) =
        some length) :
      CountedHead w res sb length (sb.drop consumed).length

/-- `parse_chunk_size` leaves this size, and so many bytes behind what it consumes. -/
inductive SizeRead (sb : Bytes) : Nat → Nat → Prop where
  | mk {consumed chunkSize : Nat} (hlong : 2 < sb.length)
      (hparse : parseChunkSize sb 0 = .ok (consumed, chunkSize)) :
      SizeRead sb chunkSize (sb.drop consumed).length

/-- What is asked for is what is missing of the body, or nothing; the differences are those of
natural numbers. -/
def ExactCounts (w : Nat) (res : HttpResponseData) (ec : Bool) (sb : Bytes) : Prop :=
  (∀ length buffered, CountedHead w res sb length buffered →
      requested (headerReadComplete w res ec sb) = length - buffered) ∧
    ∀ chunkSize buffered, SizeRead sb chunkSize buffered →
      requested (chunkSizeReadComplete w res ec sb) = chunkSize + 2 - buffered

section Turns

variable {w length chunkSize buffered : Nat} {res : HttpResponseData} {sb : Bytes}

theorem CountedHead.buffered_le (h : CountedHead w res sb length buffered) :
    buffered ≤ sb.length := by
  cases h with
  | mk => exact (List.drop_suffix _ _).length_le

theorem CountedHead.length_lt (h : CountedHead w res sb length buffered) : length < 2 ^ w := by
  cases h with
  | mk _ _ _ hcast => exact lexicalCastSize_lt hcast

theorem SizeRead.buffered_le (h : SizeRead sb chunkSize buffered) : buffered ≤ sb.length := by
  cases h with
  | mk => exact (List.drop_suffix _ _).length_le

/-- A size has 32 bits. -/
theorem SizeRead.chunkSize_lt (h : SizeRead sb chunkSize buffered) : chunkSize < 2 ^ 32 := by
  cases h with
  | mk _ hparse => exact parseChunkSize_lt (by decide) hparse

/-- Nothing is looked at before the subtraction. -/
theorem requested_head (h : CountedHead w res sb length buffered) (ec : Bool) :
    requested (headerReadComplete w res ec sb) = sizeSub w length buffered := by
  cases h with
  | mk hsb hparse hplain hcast =>
      rw [headerReadComplete, if_neg (mt List.length_eq_zero_iff.mp hsb), hparse]
      dsimp only
      rw [if_neg hplain, hcast]
      rfl

/-- The handler of a body issues no counted read. -/
theorem requested_body (w : Nat) (res : HttpResponseData) (chunkSize : Nat) (ec : Bool)
    (sb : Bytes) : requested (chunkBodyReadComplete w res chunkSize ec sb) = 0 := by
  rw [chunkBodyReadComplete]
  split_ifs <;> rfl

/-- The guard keeps the subtraction from wrapping around. -/
theorem requested_size (h : SizeRead sb chunkSize buffered) (ec : Bool) :
    requested (chunkSizeReadComplete w res ec sb) = sizeAdd w chunkSize 2 - buffered := by
  cases h with
  | mk hlong hparse =>
      rw [chunkSizeReadComplete_parsed w res ec hlong hparse, withSize]
      split
      case isTrue hmore =>
        exact sizeSub_of_le (Nat.le_of_lt hmore) (Nat.mod_lt _ (Nat.two_pow_pos w))
      case isFalse henough =>
        rw [requested_body]
        exact (Nat.sub_eq_zero_of_le (Nat.not_lt.mp henough)).symm

/-! ## Where the counts are exact -/

theorem requested_head_iff (hfits : sb.length < 2 ^ w)
    (h : CountedHead w res sb length buffered) (ec : Bool) :
    requested (headerReadComplete w res ec sb) = length - buffered ↔ buffered ≤ length := by
  rw [requested_head h]
  exact sizeSub_eq_iff h.length_lt (h.buffered_le.trans_lt hfits)

theorem requested_size_iff (hfits : sb.length < 2 ^ w) (h : SizeRead sb chunkSize buffered)
    (ec : Bool) :
    requested (chunkSizeReadComplete w res ec sb) = chunkSize + 2 - buffered ↔
      chunkSize + 2 < 2 ^ w := by
  have hbuffered := h.buffered_le.trans_lt hfits
  rw [requested_size h]
  constructor
  · intro heq
    by_contra hover
    -- the sum has lost a multiple of the modulus, and more is missing than that
    have hsum : sizeAdd w chunkSize 2 < chunkSize + 2 :=
      (Nat.mod_lt _ (Nat.two_pow_pos w)).trans_le (Nat.not_lt.mp hover)
    omega
  · intro hlt
    rw [sizeAdd_of_lt hlt]

end Turns

/-! ## Runs -/

/-- How many bytes the handler of a body read is for. -/
def expected (w : Nat) : Handler → Nat
  | .headerReadComplete _ => 0
  | .plainBodyReadComplete _ length => length
  | .chunkSizeReadComplete _ => 0
  | .chunkBodyReadComplete _ chunkSize => sizeAdd w chunkSize 2
  | .lastchunkReadComplete => 0

/-- A counted read that is outstanding asks for the rest of a body, as `size_t` has it. -/
def AsksForRest (w : Nat) (s : ClientSession) : Prop :=
  ∀ count start handler, s.activity = .reading (.readAtLeast count) start handler →
    expected w handler < 2 ^ w ∧ count = sizeSub w (expected w handler) start

section Runs

variable {w count start : Nat} {handler next : Handler} {sb : Bytes} {turn : ClientTurn}
  {segments : List Bytes} {closed : Bool} {s : ClientSession}

theorem asks_turn (h : TurnOf w handler sb turn)
    (hnext : turn.next = .issue (.readAtLeast count) next) :
    expected w next < 2 ^ w ∧ count = sizeSub w (expected w next) turn.buffer.length := by
  induction h with
  | headerCounted hsb hparse hlength =>
      cases hnext
      exact ⟨hlength, rfl⟩
  | sizeShort hlong hparse hshort =>
      cases hnext
      exact ⟨Nat.mod_lt _ (Nat.two_pow_pos w), rfl⟩
  | sizeDirect hlong hparse henough hbody ih => exact ih hnext
  | _ => cases hnext

theorem asksForRest_resume (s : ClientSession) (ec : Bool) :
    AsksForRest w (s.resume (complete w handler ec s.buffer)) := by
  intro count start next hact
  obtain ⟨hnext, rfl⟩ := Next.issue_of_reading hact
  exact asks_turn (turnOf_complete w ec s.buffer handler) hnext

theorem asksForRest_step (s s' : ClientSession) (hasks : AsksForRest w s)
    (hstep : clientStep w s = some s') : AsksForRest w s' := by
  obtain ⟨op, start, handler, hact, hcase⟩ := step_cases hstep
  rcases hcase with ⟨-, rfl⟩ | ⟨-, segment, unread, -, rfl⟩ | ⟨-, -, -, rfl⟩
  · exact asksForRest_resume s false
  · exact hasks
  · exact asksForRest_resume s true

/-- In every run, what a body read asks for is exact just when no more was buffered at its issue
than the body has. -/
theorem count_exact_iff (hreach : Reaches (clientStep w) (connect segments closed) s)
    (hact : s.activity = .reading (.readAtLeast count) start handler) (hstart : start < 2 ^ w) :
    count = expected w handler - start ↔ start ≤ expected w handler := by
  have hconnect : AsksForRest w (connect segments closed) := by
    rintro count start handler ⟨⟩
  obtain ⟨hlt, rfl⟩ := reaches_invariant asksForRest_step hreach hconnect count start handler hact
  exact sizeSub_eq_iff hlt hstart

end Runs

/-! ## All heads and size lines -/

/-- What is asked for is exact just when no more is buffered than a counted body has, and two can
be added to the size of a chunk. -/
theorem exactCounts_iff {w : Nat} {sb : Bytes} (hfits : sb.length < 2 ^ w)
    (res : HttpResponseData) (ec : Bool) :
    ExactCounts w res ec sb ↔
      (∀ length buffered, CountedHead w res sb length buffered → buffered ≤ length) ∧
        ∀ chunkSize buffered, SizeRead sb chunkSize buffered → chunkSize + 2 < 2 ^ w := by
  refine and_congr ?_ ?_
  · exact forall₃_congr fun _ _ h => requested_head_iff hfits h ec
  · exact forall₃_congr fun _ _ h => requested_size_iff hfits h ec

section Heads

variable {w length : Nat} (head : Head) (behind : Bytes)

/-- A head as the reader finds it. -/
theorem countedHead_text
    (hplain : mapGetOr head.header (ascii "Transfer-Encoding") (ascii "") ≠ ascii "chunked")
    (hcast : lexicalCastSize w (mapGetOr head.header (ascii "Content-Length") (ascii "0")) =
      some length) : CountedHead w default (head.text ++ behind) length behind.length := by
  have hsb : head.text ++ behind ≠ [] := by
    have hpos := List.length_pos_iff.mp head.text_length_pos
    exact List.append_ne_nil_of_left_ne_nil hpos behind
  have hhead := CountedHead.mk hsb (head.parseHeader_text behind) hplain hcast
  rwa [List.drop_left] at hhead

end Heads

/-- Two of five bytes are buffered behind the head. -/
theorem exactCounts_two_of_five :
    ExactCounts 64 default false
      ((Head.ok [lengthField (ascii "5") (by decide) (by decide)]).text ++ ascii "ab") := by
  refine (exactCounts_iff (by decide) default false).mpr ⟨fun length buffered h => ?_,
    fun chunkSize buffered h => ?_⟩
  · cases h with
    | mk hsb hparse hplain hcast =>
        rw [Head.parseHeader_text, Except.ok.injEq, Prod.mk.injEq] at hparse
        obtain ⟨rfl, rfl⟩ := hparse
        rw [List.drop_left]
        have hfive : some 5 = some _ := hcast
        rw [← Option.some.inj hfive]
        decide
  · have hlt := h.chunkSize_lt
    omega

/-- Two bytes behind a head without a `Content-Length`. -/
theorem not_exactCounts : ¬∀ (w : Nat) (res : HttpResponseData) (ec : Bool) (sb : Bytes),
    w = 32 ∨ w = 64 → sb.length < 2 ^ w → ExactCounts w res ec sb := by
  intro hall
  have hexact := hall 64 default false ((Head.ok []).text ++ ascii "ab") (Or.inr rfl) (by decide)
  have hhead := @countedHead_text 64 0 (Head.ok []) (ascii "ab") (by decide) (by decide)
  have hcount := (requested_head_iff (by decide) hhead false).mp (hexact.1 0 2 hhead)
  exact absurd hcount (by decide)

end BlackCircle.Http.BodySizes
