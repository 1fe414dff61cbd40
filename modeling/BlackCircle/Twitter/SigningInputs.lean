import BlackCircle.Twitter.SignedSent

/-!
# What OAuth 1.0 signs

The key and the base string as OAuth 1.0 defines them, over any list of
parameters, and the key and the message that `gen_request_signature` hands to
the HMAC.  The messages agree for every parameter map that a requester can
hold; the keys agree for secrets that percent-encoding leaves as they are.
-/

namespace BlackCircle.Twitter.SigningInputs

open BlackCircle.Foundation
open BlackCircle.Foundation.ByteString
open BlackCircle.Foundation.EntryList
open BlackCircle.Oauth
open BlackCircle.Oauth.Combiner
open BlackCircle.Oauth.Encode
open BlackCircle.Oauth.Receiver
open BlackCircle.Twitter.Requests
open BlackCircle.Twitter.SignedSent

/-! ## The definition of the protocol -/

/-- A hexadecimal digit, in upper case. -/
def upperHex (n : Nat) : Byte := UInt8.ofNat (if n < 10 then 48 + n else 55 + n)

/-- A byte as it is, or a `%` and its two hexadecimal digits. -/
def percentByte (c : Byte) : Bytes :=
  if isUnreserved c then [c] else [byte '%', upperHex (c.toNat / 16), upperHex (c.toNat % 16)]

def percentEncode (s : Bytes) : Bytes := s.flatMap percentByte

/-- The parameters, without a signature, encoded, sorted by name and joined. -/
def normalized (params : List (Bytes × Bytes)) : Bytes :=
  (ascii "&").intercalate
    ((inKeyOrder ((params.filter fun p => p.1 ≠ ascii "oauth_signature").map fun p =>
      (percentEncode p.1, percentEncode p.2))).map fun p => p.1 ++ ascii "=" ++ p.2)

def baseString (method uri : Bytes) (params : List (Bytes × Bytes)) : Bytes :=
  method ++ ascii "&" ++ percentEncode uri ++ ascii "&" ++ percentEncode (normalized params)

def signingKey (consumerSecret tokenSecret : Bytes) : Bytes :=
  percentEncode consumerSecret ++ ascii "&" ++ percentEncode tokenSecret

/-! ## Percent-encoding -/

theorem hex_eq_upperHex {n : Nat} (h : n < 16) : hex.getD n 0 = upperHex n := by
  interval_cases n <;> decide

theorem escapeByte_eq_percentByte (c : Byte) : escapeByte c = percentByte c := by
  have hhigh : ((c >>> 4) &&& 0xF).toNat < 16 := nibble_lt (c >>> 4)
  have hlow : (c &&& 0xF).toNat < 16 := nibble_lt c
  have hnibbles := toNat_nibbles c
  have hdiv : c.toNat / 16 = ((c >>> 4) &&& 0xF).toNat := by omega
  have hmod : c.toNat % 16 = (c &&& 0xF).toNat := by omega
  unfold escapeByte doEscape percentByte
  split
  · rfl
  · rw [hdiv, hmod, ← hex_eq_upperHex hhigh, ← hex_eq_upperHex hlow]
    rfl

/-- `url_escape` is the percent-encoding of the protocol. -/
theorem urlEscape_eq_percentEncode (s : Bytes) : urlEscape s = percentEncode s := by
  rw [urlEscape_eq, percentEncode]
  exact congrArg (fun f => s.flatMap f) (funext escapeByte_eq_percentByte)

/-- A text that percent-encoding leaves as it is. -/
def Plain (s : Bytes) : Prop := ∀ b ∈ s, isUnreserved b = true

instance (s : Bytes) : Decidable (Plain s) :=
  inferInstanceAs (Decidable (∀ b ∈ s, isUnreserved b = true))

theorem Plain.notMem {s : Bytes} (h : Plain s) {b : Byte} (hb : isUnreserved b = false) :
    b ∉ s := by
  intro hmem
  rw [h b hmem] at hb
  cases hb

theorem percentEncode_plain {s : Bytes} (h : Plain s) : percentEncode s = s := by
  induction s with
  | nil => rfl
  | cons b s ih =>
      have hb : percentByte b = [b] := if_pos (h b List.mem_cons_self)
      have hrest := ih fun c hc => h c (List.mem_cons_of_mem _ hc)
      rw [percentEncode, List.flatMap_cons, hb]
      exact congrArg (b :: ·) hrest

theorem length_le_percentEncode (s : Bytes) : s.length ≤ (percentEncode s).length := by
  induction s with
  | nil => exact Nat.le_refl 0
  | cons b s ih =>
      have hb : 1 ≤ (percentByte b).length := by
        unfold percentByte
        split
        · exact Nat.le_refl 1
        · exact Nat.le_add_left 1 2
      rw [percentEncode, List.flatMap_cons, List.length_append, List.length_cons]
      rw [percentEncode] at ih
      omega

/-- Only the plain texts do not grow. -/
theorem plain_of_length {s : Bytes} (h : (percentEncode s).length ≤ s.length) : Plain s := by
  induction s with
  | nil => exact fun b hb => absurd hb List.not_mem_nil
  | cons b s ih =>
      have hrest := length_le_percentEncode s
      rw [percentEncode, List.flatMap_cons, List.length_append, List.length_cons] at h
      rw [percentEncode] at hrest
      have hb : isUnreserved b = true := by
        by_contra hreserved
        have hlength : (percentByte b).length = 3 := by
          rw [percentByte, if_neg hreserved]
          rfl
        omega
      have hone : (percentByte b).length = 1 := by
        rw [percentByte, if_pos hb]
        rfl
      refine List.forall_mem_cons.mpr ⟨hb, ih ?_⟩
      rw [percentEncode]
      omega

theorem notMem_percentEncode {b : Byte} (h : isEscaped b = false) (s : Bytes) :
    b ∉ percentEncode s := by
  rw [← urlEscape_eq_percentEncode]
  exact notMem_urlEscape h s

theorem percentEncode_inj {s t : Bytes} (h : percentEncode s = percentEncode t) : s = t := by
  rw [← urlEscape_eq_percentEncode, ← urlEscape_eq_percentEncode] at h
  rw [← percentDecode_urlEscape s, h, percentDecode_urlEscape]

/-- Different pairs of secrets have different keys. -/
theorem signingKey_inj {consumer token consumer' token' : Bytes}
    (h : signingKey consumer token = signingKey consumer' token') :
    consumer = consumer' ∧ token = token' := by
  have hcut : ∀ s t : Bytes, Delimiter.cutAt (byte '&') (signingKey s t) =
      (percentEncode s, percentEncode t) := by
    intro s t
    have hkey : signingKey s t = percentEncode s ++ byte '&' :: percentEncode t := by
      rw [signingKey, List.append_assoc]
      rfl
    rw [hkey]
    exact Delimiter.cutAt_append (notMem_percentEncode (by decide) s) _
  have hpair := hcut consumer token
  rw [h, hcut, Prod.mk.injEq] at hpair
  exact ⟨(percentEncode_inj hpair.1).symm, (percentEncode_inj hpair.2).symm⟩

/-! ## Reachable requesters -/

/-- What a requester can be: newly made, and after any of its own operations and of the changes
that `statuses_update` makes to its parameters. -/
inductive Reachable : TokenRequester → Prop where
  | make : Reachable .make
  | setConsumer {req : TokenRequester} (h : Reachable req) (key secret : Bytes) :
      Reachable (req.setConsumer key secret)
  | setToken {req : TokenRequester} (h : Reachable req) (key secret : Bytes) :
      Reachable (req.setToken key secret)
  | setPinNumber {req : TokenRequester} (h : Reachable req) (pin : Bytes) :
      Reachable (req.setPinNumber pin)
  | clearPinNumber {req : TokenRequester} (h : Reachable req) : Reachable req.clearPinNumber
  | setStatus {req : TokenRequester} (h : Reachable req) (status : Bytes) :
      Reachable { req with params := req.params.assign (ascii "status") status }
  | eraseStatus {req : TokenRequester} (h : Reachable req) :
      Reachable { req with params := req.params.erase (ascii "status") }
  | genRequestSignature {req : TokenRequester} (h : Reachable req)
      (hmac : Bytes → Bytes → Bytes) (moment : Moment) (uri method : Bytes) :
      Reachable (req.genRequestSignature hmac moment uri method).1

/-- The requester stays reachable through all requests of a client. -/
theorem Reachable.perform {req : TokenRequester} (h : Reachable req)
    (hmac : Bytes → Bytes → Bytes) (operation : Operation) :
    Reachable (perform hmac operation req).1 := by
  cases operation with
  | setConsumer key secret => exact h.setConsumer key secret
  | setToken key secret => exact h.setToken key secret
  | setPinNumber pin => exact h.setPinNumber pin
  | clearPinNumber => exact h.clearPinNumber
  | makeUserstream moment => exact h.genRequestSignature hmac moment _ _
  | requestFriendsTimeline moment => exact h.genRequestSignature hmac moment _ _
  | statusesUpdate moment status =>
      exact ((h.setStatus status).genRequestSignature hmac moment _ _).eraseStatus

theorem Reachable.plainNames {req : TokenRequester} (h : Reachable req) :
    PlainNames req.params.entries := by
  induction h with
  | make => exact ready_make.names
  | setConsumer _ key _ ih => exact plainNames_assign ih (by decide) key
  | setToken _ key _ ih => exact plainNames_assign ih (by decide) key
  | setPinNumber _ pin ih => exact plainNames_assign ih (by decide) pin
  | clearPinNumber _ ih => exact plainNames_erase ih _
  | setStatus _ status ih => exact plainNames_assign ih (by decide) status
  | eraseStatus _ ih => exact plainNames_erase ih _
  | genRequestSignature _ hmac moment uri method ih =>
      exact plainNames_assign (plainNames_signed ih) (by decide) _

/-! ## What is signed -/

/-- The parameters with the nonce and the time of a signing. -/
def stamped (moment : Moment) (params : Params) : Params :=
  (params.assign (ascii "oauth_nonce") moment.nonce).assign (ascii "oauth_timestamp") moment.time

/-- Parameters that are found in any order, beside a signature, are normalised to the parameter
string of the source. -/
theorem normalized_of_perm {params : Params} (h : PlainNames params.entries)
    {found : List (Bytes × Bytes)}
    (hperm : (found.filter fun p => p.1 ≠ ascii "oauth_signature").Perm params.entries) :
    normalized found = makeRequest combineAsGetParam params := by
  have hencoded : params.entries.map (fun p => (percentEncode p.1, percentEncode p.2)) =
      params.entries.map fun p => (p.1, percentEncode p.2) :=
    List.map_congr_left fun p hp => by rw [percentEncode_plain (h p hp)]
  have hkeys : Sorted (params.entries.map fun p => (p.1, percentEncode p.2)) :=
    List.pairwise_map.mpr params.sorted
  have hfound := hperm.map fun p => (percentEncode p.1, percentEncode p.2)
  rw [hencoded] at hfound
  rw [makeRequest_eq, normalized, inKeyOrder_eq_of_perm hkeys hfound, List.map_map]
  refine congrArg _ (List.map_congr_left fun p _ => ?_)
  simp [Combiner.combine, combineAsGetParam, urlEscape_eq_percentEncode]

/-- The parameter string of the source is normalised as the protocol wants it. -/
theorem makeRequest_eq_normalized {params : Params} (h : PlainNames params.entries) :
    makeRequest combineAsGetParam (params.erase (ascii "oauth_signature")) =
      normalized params.entries := by
  refine (normalized_of_perm (plainNames_erase h _) ?_).symm
  rw [OrderedMap.entries_erase]

/-- What is signed at a moment is what the protocol says, whatever the HMAC is. -/
def SignsAsDefined (req : TokenRequester) (moment : Moment) (uri method : Bytes) : Prop :=
  ∀ hmac : Bytes → Bytes → Bytes,
    (req.genRequestSignature hmac moment uri method).1.params.find? (ascii "oauth_signature") =
      some (base64Encode (hmac (signingKey req.consumerSecret req.tokenSecret)
        (baseString method uri (stamped moment req.params).entries)))

theorem message_eq_baseString {req : TokenRequester} (h : PlainNames req.params.entries)
    (moment : Moment) (uri method : Bytes) :
    Signing.message ⟨method, uri, req.signedParams moment⟩ =
      baseString method uri (stamped moment req.params).entries := by
  have hstamped : PlainNames (stamped moment req.params).entries :=
    plainNames_assign (plainNames_assign h (by decide) _) (by decide) _
  have hparams : Signing.parameterString ⟨method, uri, req.signedParams moment⟩ =
      normalized (stamped moment req.params).entries :=
    makeRequest_eq_normalized hstamped
  rw [Signing.message, baseString, hparams, urlEscape_eq_percentEncode,
    urlEscape_eq_percentEncode]

/-- The signature that is stored, for any HMAC. -/
theorem find_genRequestSignature (req : TokenRequester) (hmac : Bytes → Bytes → Bytes)
    (moment : Moment) (uri method : Bytes) :
    (req.genRequestSignature hmac moment uri method).1.params.find? (ascii "oauth_signature") =
      some (base64Encode (hmac (req.consumerSecret ++ ascii "&" ++ req.tokenSecret)
        (Signing.message ⟨method, uri, req.signedParams moment⟩))) :=
  OrderedMap.find?_assign_self _ _ _

/-- The keys agree only for secrets that need no encoding. -/
theorem plain_of_key_eq {consumer token : Bytes}
    (h : consumer ++ ascii "&" ++ token = signingKey consumer token) :
    Plain consumer ∧ Plain token := by
  have hlength := congrArg List.length h
  have hconsumer := length_le_percentEncode consumer
  have htoken := length_le_percentEncode token
  simp only [signingKey, List.length_append] at hlength
  exact ⟨plain_of_length (by omega), plain_of_length (by omega)⟩

/-- A signature shows the key it was made with to some HMAC. -/
theorem plain_of_signs {req : TokenRequester} {moment : Moment} {uri method : Bytes}
    (h : SignsAsDefined req moment uri method) :
    Plain req.consumerSecret ∧ Plain req.tokenSecret := by
  apply plain_of_key_eq
  by_contra hne
  -- an HMAC that tells the two keys apart
  have hsignature := h fun key _ =>
    if key = signingKey req.consumerSecret req.tokenSecret then [0] else [1]
  rw [find_genRequestSignature] at hsignature
  simp only [if_neg hne, if_true] at hsignature
  exact absurd hsignature (by decide)

/-- Two plain secrets are found again in the key that is made of them. -/
theorem key_inj {consumer token consumer' token' : Bytes} (hconsumer : Plain consumer)
    (htoken : Plain token)
    (h : consumer ++ ascii "&" ++ token = consumer' ++ ascii "&" ++ token') :
    consumer = consumer' ∧ token = token' := by
  have hjoin : ∀ s t : Bytes, s ++ ascii "&" ++ t = s ++ byte '&' :: t := by
    intro s t
    rw [List.append_assoc]
    rfl
  rw [hjoin, hjoin] at h
  have hfree := hconsumer.notMem (by decide : isUnreserved (byte '&') = false)
  have hcount := congrArg (List.count (byte '&')) h
  rw [List.count_append, List.count_append, List.count_cons_self, List.count_cons_self,
    List.count_eq_zero.mpr hfree,
    List.count_eq_zero.mpr (htoken.notMem (by decide : isUnreserved (byte '&') = false))] at hcount
  have hfree' : byte '&' ∉ consumer' := List.count_eq_zero.mp (by omega)
  have hcut := congrArg (Delimiter.cutAt (byte '&')) h
  rw [Delimiter.cutAt_append hfree, Delimiter.cutAt_append hfree', Prod.mk.injEq] at hcut
  exact hcut

/-- Whatever a requester holds, it signs what the protocol says just when both its secrets need
no encoding; such secrets share their key with no others. -/
theorem signsAsDefined_iff {req : TokenRequester} (h : Reachable req)
    (consumerSecret tokenSecret : Bytes) (moment : Moment) (uri method : Bytes) :
    (SignsAsDefined { req with consumerSecret := consumerSecret, tokenSecret := tokenSecret }
        moment uri method ↔
      Plain consumerSecret ∧ Plain tokenSecret) ∧
    (Plain consumerSecret → Plain tokenSecret → ∀ consumer' token',
      consumerSecret ++ ascii "&" ++ tokenSecret = consumer' ++ ascii "&" ++ token' →
        consumerSecret = consumer' ∧ tokenSecret = token') := by
  have hmessage := @message_eq_baseString
    { req with consumerSecret := consumerSecret, tokenSecret := tokenSecret } h.plainNames
    moment uri method
  refine ⟨⟨plain_of_signs, ?_⟩, fun hconsumer htoken _ _ => key_inj hconsumer htoken⟩
  rintro ⟨hconsumer, htoken⟩ hmac
  rw [find_genRequestSignature, hmessage, signingKey, percentEncode_plain hconsumer,
    percentEncode_plain htoken]

/-- A requester with a token, and secrets of letters and digits. -/
theorem signsAsDefined_letters :
    SignsAsDefined { TokenRequester.make.setToken (ascii "t/1") (ascii "x") with
        consumerSecret := ascii "c0", tokenSecret := ascii "s1" }
      ⟨ascii "n", ascii "1"⟩ (ascii "https://api.twitter.com/1/") (ascii "GET") :=
  (signsAsDefined_iff (Reachable.make.setToken (ascii "t/1") (ascii "x")) _ _ _ _ _).1.mpr
    ⟨by decide, by decide⟩

/-- An ampersand at the end of one secret or at the beginning of the other gives one key. -/
theorem not_signsAsDefined :
    (¬ ∀ (req : TokenRequester), Reachable req → ∀ (moment : Moment) (uri method : Bytes),
      SignsAsDefined req moment uri method) ∧
    ascii "a&" ++ ascii "&" ++ ascii "b" = ascii "a" ++ ascii "&" ++ ascii "&b" := by
  refine ⟨fun hall => ?_, rfl⟩
  have hreach := (Reachable.make.setConsumer (ascii "k") (ascii "a&")).setToken (ascii "t")
    (ascii "b")
  have hplain := plain_of_signs (hall _ hreach ⟨[], []⟩ [] (ascii "GET"))
  exact absurd hplain.1 (by decide)

end BlackCircle.Twitter.SigningInputs
