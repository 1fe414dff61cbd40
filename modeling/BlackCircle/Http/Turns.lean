import BlackCircle.Http.Client

/-!
# What a completion handler can do

`TurnOf w handler sb turn` lists the branches of the handlers, one constructor
for each, with what is known in it.  `turnOf_complete` says that the list is
complete; invariants are proved by cases on it.
-/

namespace BlackCircle.Http.Turns

open BlackCircle.Foundation.ByteString
open BlackCircle.Foundation.ReadLoop
open BlackCircle.Http.Client
open BlackCircle.Http.Response

/-- The branches of the completion handlers.  No branch depends on the error flag. -/
inductive TurnOf (w : Nat) : Handler → Bytes → ClientTurn → Prop where
  | drained (handler : Handler) : TurnOf w handler [] ⟨[], [], .done⟩
  | headerMalformed {res : HttpResponseData} {sb : Bytes} {fault : Foundation.Peg.Fault}
      (hparse : parseHeader sb res = .error fault) :
      TurnOf w (.headerReadComplete res) sb ⟨sb, [], .throw (.parse fault)⟩
  | headerChunked {res res' : HttpResponseData} {sb : Bytes} {consumed : Nat}
      (hsb : sb ≠ []) (hparse : parseHeader sb res = .ok (consumed, res')) :
      TurnOf w (.headerReadComplete res) sb
        ⟨sb.drop consumed, [], .issue (.readUntil eol1) (.chunkSizeReadComplete res')⟩
  | headerBadLength {res res' : HttpResponseData} {sb : Bytes} {consumed : Nat}
      (hsb : sb ≠ []) (hparse : parseHeader sb res = .ok (consumed, res')) :
      TurnOf w (.headerReadComplete res) sb ⟨sb.drop consumed, [], .throw .badLexicalCast⟩
  | headerCounted {res res' : HttpResponseData} {sb : Bytes} {consumed length : Nat}
      (hsb : sb ≠ []) (hparse : parseHeader sb res = .ok (consumed, res'))
      (hlength : length < 2 ^ w) :
      TurnOf w (.headerReadComplete res) sb
        ⟨sb.drop consumed, [], .issue (.readAtLeast (sizeSub w length (sb.drop consumed).length))
          (.plainBodyReadComplete res' length)⟩
  | plainWhole {res : HttpResponseData} {sb : Bytes} {length : Nat} (hsb : sb ≠ [])
      (hlength : length ≤ sb.length) :
      TurnOf w (.plainBodyReadComplete res length) sb
        (startRead (sb.drop length) [{ res with data := sb.take length }])
  | plainCut {res : HttpResponseData} {sb : Bytes} {length : Nat} (hsb : sb ≠ [])
      (hlength : sb.length < length) :
      TurnOf w (.plainBodyReadComplete res length) sb ⟨sb, [], .throw .overread⟩
  | sizeRetry {res : HttpResponseData} {sb : Bytes} (hsb : sb ≠ []) (hshort : sb.length ≤ 2) :
      TurnOf w (.chunkSizeReadComplete res) sb
        ⟨sb, [], .issue (.readUntil eol1) (.chunkSizeReadComplete res)⟩
  | sizeMalformed {res : HttpResponseData} {sb : Bytes} {fault : Foundation.Peg.Fault}
      (hlong : 2 < sb.length) (hparse : parseChunkSize sb 0 = .error fault) :
      TurnOf w (.chunkSizeReadComplete res) sb ⟨sb, [], .throw (.parse fault)⟩
  | sizeShort {res : HttpResponseData} {sb : Bytes} {consumed chunkSize : Nat}
      (hlong : 2 < sb.length) (hparse : parseChunkSize sb 0 = .ok (consumed, chunkSize))
      (hshort : (sb.drop consumed).length < sizeAdd w chunkSize 2) :
      TurnOf w (.chunkSizeReadComplete res) sb
        ⟨sb.drop consumed, [],
          .issue (.readAtLeast (sizeSub w (sizeAdd w chunkSize 2) (sb.drop consumed).length))
            (.chunkBodyReadComplete res chunkSize)⟩
  | sizeDirect {res : HttpResponseData} {sb : Bytes} {consumed chunkSize : Nat}
      {turn : ClientTurn} (hlong : 2 < sb.length)
      (hparse : parseChunkSize sb 0 = .ok (consumed, chunkSize))
      (henough : sizeAdd w chunkSize 2 ≤ (sb.drop consumed).length)
      (hbody : TurnOf w (.chunkBodyReadComplete res chunkSize) (sb.drop consumed) turn) :
      TurnOf w (.chunkSizeReadComplete res) sb turn
  | bodyLast {res : HttpResponseData} {sb : Bytes} (hsb : sb ≠ []) :
      TurnOf w (.chunkBodyReadComplete res 0) sb
        ⟨sb, [], .issue (.readUntil eol2) .lastchunkReadComplete⟩
  | bodyWhole {res : HttpResponseData} {sb : Bytes} {chunkSize : Nat} (hsb : sb ≠ [])
      (hsize : chunkSize ≠ 0) (henough : sizeAdd w chunkSize 2 ≤ sb.length) :
      TurnOf w (.chunkBodyReadComplete res chunkSize) sb
        ⟨sb.drop (sizeAdd w chunkSize 2), [{ res with data := sb.take (sizeAdd w chunkSize 2) }],
          .issue (.readUntil eol1)
            (.chunkSizeReadComplete { res with data := sb.take (sizeAdd w chunkSize 2) })⟩
  | bodyCut {res : HttpResponseData} {sb : Bytes} {chunkSize : Nat} (hsb : sb ≠ [])
      (hsize : chunkSize ≠ 0) (hshort : sb.length < sizeAdd w chunkSize 2) :
      TurnOf w (.chunkBodyReadComplete res chunkSize) sb ⟨sb, [], .throw .assertionFailed⟩
  | lastchunk {sb : Bytes} (hsb : sb ≠ []) : TurnOf w .lastchunkReadComplete sb (startRead sb [])

theorem lexicalCastSize_lt {w : Nat} {text : Bytes} {n : Nat}
    (h : lexicalCastSize w text = some n) : n < 2 ^ w := by
  unfold lexicalCastSize at h
  extract_lets minus digits at h
  split at h
  · rename_i hvalue
    rw [Option.some.injEq] at h
    subst h
    split
    · exact Nat.mod_lt _ (Nat.two_pow_pos w)
    · exact hvalue.2
  · cases h

section Branches

variable (w : Nat) (res : HttpResponseData) (ec : Bool) (sb : Bytes)

/-- On an empty buffer all handlers do the same. -/
theorem turnOf_of_nonempty {handler : Handler}
    (h : sb ≠ [] → TurnOf w handler sb (complete w handler ec sb)) :
    TurnOf w handler sb (complete w handler ec sb) := by
  by_cases hsb : sb = []
  · subst hsb
    have hdone : complete w handler ec [] = ⟨[], [], .done⟩ := by
      cases handler <;> rfl
    rw [hdone]
    exact .drained handler
  · exact h hsb

theorem turnOf_header : TurnOf w (.headerReadComplete res) sb (headerReadComplete w res ec sb) := by
  refine turnOf_of_nonempty w ec sb fun hne => ?_
  rw [complete, headerReadComplete, if_neg (mt List.length_eq_zero_iff.mp hne)]
  split
  · rename_i fault hparse
    exact .headerMalformed hparse
  · rename_i consumed res' hparse
    dsimp only
    split
    · exact .headerChunked hne hparse
    · split
      · exact .headerBadLength hne hparse
      · rename_i length hcast
        exact .headerCounted hne hparse (lexicalCastSize_lt hcast)

theorem turnOf_plain (length : Nat) :
    TurnOf w (.plainBodyReadComplete res length) sb (plainBodyReadComplete res length ec sb) := by
  refine turnOf_of_nonempty w ec sb fun hne => ?_
  rw [complete, plainBodyReadComplete, if_neg (mt List.length_eq_zero_iff.mp hne)]
  split
  · exact .plainWhole hne (by assumption)
  · exact .plainCut hne (not_le.mp (by assumption))

theorem turnOf_body (chunkSize : Nat) :
    TurnOf w (.chunkBodyReadComplete res chunkSize) sb
      (chunkBodyReadComplete w res chunkSize ec sb) := by
  refine turnOf_of_nonempty w ec sb fun hne => ?_
  rw [complete, chunkBodyReadComplete, if_neg (mt List.length_eq_zero_iff.mp hne)]
  split
  · rename_i hzero
    rw [hzero]
    exact .bodyLast hne
  · split
    · rename_i hsize henough
      have hdrop : (sb.take (sizeAdd w chunkSize 2)).length = sizeAdd w chunkSize 2 := by
        rw [List.length_take, min_eq_left henough]
      dsimp only
      rw [hdrop]
      exact .bodyWhole hne hsize henough
    · rename_i hsize hshort
      exact .bodyCut hne hsize (not_le.mp hshort)

theorem turnOf_size :
    TurnOf w (.chunkSizeReadComplete res) sb (chunkSizeReadComplete w res ec sb) := by
  refine turnOf_of_nonempty w ec sb fun hne => ?_
  rw [complete, chunkSizeReadComplete, if_neg (mt List.length_eq_zero_iff.mp hne)]
  split
  · exact .sizeRetry hne (by assumption)
  · rename_i hlong
    split
    · rename_i fault hparse
      exact .sizeMalformed (not_le.mp hlong) hparse
    · rename_i consumed chunkSize hparse
      dsimp only
      split
      · exact .sizeShort (not_le.mp hlong) hparse (by assumption)
      · rename_i henough
        exact .sizeDirect (not_le.mp hlong) hparse (not_lt.mp henough)
          (turnOf_body w res ec _ chunkSize)

theorem turnOf_lastchunk :
    TurnOf w .lastchunkReadComplete sb (lastchunkReadComplete ec sb) := by
  refine turnOf_of_nonempty w ec sb fun hne => ?_
  rw [complete, lastchunkReadComplete, if_neg (mt List.length_eq_zero_iff.mp hne)]
  exact .lastchunk hne

/-- Every turn of a completion handler is one of the listed ones. -/
theorem turnOf_complete (handler : Handler) : TurnOf w handler sb (complete w handler ec sb) := by
  cases handler with
  | headerReadComplete res => exact turnOf_header w res ec sb
  | plainBodyReadComplete res length => exact turnOf_plain w res ec sb length
  | chunkSizeReadComplete res => exact turnOf_size w res ec sb
  | chunkBodyReadComplete res chunkSize => exact turnOf_body w res ec sb chunkSize
  | lastchunkReadComplete => exact turnOf_lastchunk w ec sb

end Branches

/-- A turn makes no call, or it makes one and throws nothing. -/
theorem TurnOf.calls {w : Nat} {handler : Handler} {sb : Bytes} {turn : ClientTurn}
    (h : TurnOf w handler sb turn) :
    turn.outputs = [] ∨ ∃ data, turn.outputs = [data] ∧ ∀ fault, turn.next ≠ .throw fault := by
  induction h with
  | plainWhole hsb hlength => exact Or.inr ⟨_, rfl, nofun⟩
  | bodyWhole hsb hsize henough => exact Or.inr ⟨_, rfl, nofun⟩
  | sizeDirect hlong hparse henough hbody ih => exact ih
  | drained => exact Or.inl rfl
  | headerMalformed => exact Or.inl rfl
  | headerChunked => exact Or.inl rfl
  | headerBadLength => exact Or.inl rfl
  | headerCounted => exact Or.inl rfl
  | plainCut => exact Or.inl rfl
  | sizeRetry => exact Or.inl rfl
  | sizeMalformed => exact Or.inl rfl
  | sizeShort => exact Or.inl rfl
  | bodyLast => exact Or.inl rfl
  | bodyCut => exact Or.inl rfl
  | lastchunk => exact Or.inl rfl

/-- A step of the reader makes no call, or it makes one and throws nothing. -/
theorem clientStep_calls {w : Nat} {s s' : ClientSession} (h : clientStep w s = some s') :
    s'.outputs = s.outputs ∨
      ∃ data, s'.outputs = s.outputs ++ [data] ∧ ∀ fault, s'.activity ≠ .failed fault := by
  obtain ⟨op, start, handler, -, hcase⟩ := step_cases h
  have hturn : ∀ ec, s' = s.resume (complete w handler ec s.buffer) →
      s'.outputs = s.outputs ∨
        ∃ data, s'.outputs = s.outputs ++ [data] ∧ ∀ fault, s'.activity ≠ .failed fault := by
    rintro ec rfl
    rcases (turnOf_complete w ec s.buffer handler).calls with hnone | ⟨data, hone, hreturns⟩
    · exact Or.inl (by rw [Session.resume_outputs, hnone, List.append_nil])
    · refine Or.inr ⟨data, by rw [Session.resume_outputs, hone], fun fault hfailed => ?_⟩
      exact hreturns fault (Next.throw_of_failed hfailed)
  rcases hcase with ⟨-, hnext⟩ | ⟨-, segment, unread, -, rfl⟩ | ⟨-, -, -, hnext⟩
  · exact hturn false hnext
  · exact Or.inl rfl
  · exact hturn true hnext

end BlackCircle.Http.Turns
