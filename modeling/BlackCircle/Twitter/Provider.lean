import BlackCircle.Twitter.Requested
import BlackCircle.Twitter.SigningInputs

/-!
# What a provider accepts

A provider knows the secrets behind a consumer key and a token.  From a request,
as it has received it, it computes the signature that OAuth 1.0 asks for, and
compares it with the one it finds.  They are the same if percent-encoding leaves
both secrets as they are.
-/

namespace BlackCircle.Twitter.Provider

open BlackCircle.Foundation
open BlackCircle.Foundation.ByteString
open BlackCircle.Foundation.Delimiter
open BlackCircle.Foundation.EntryList
open BlackCircle.Foundation.EventRun
open BlackCircle.Http.Request
open BlackCircle.Json (Value)
open BlackCircle.Oauth
open BlackCircle.Oauth.Combiner
open BlackCircle.Oauth.Encode
open BlackCircle.Oauth.Receiver
open BlackCircle.Twitter
open BlackCircle.Twitter.Handler (ApiType Record)
open BlackCircle.Twitter.Processing (newYearText)
open BlackCircle.Twitter.Requested
open BlackCircle.Twitter.Requests
open BlackCircle.Twitter.Service
open BlackCircle.Twitter.SignedSent
open BlackCircle.Twitter.SigningInputs (Plain baseString message_eq_baseString
  normalized_of_perm percentEncode_plain signingKey urlEscape_eq_percentEncode)

/-! ## The check -/

/-- A consumer and its secret, and the token, the secret and the verifier of a user. -/
structure Grant where
  consumerKey : Bytes
  consumerSecret : Bytes
  token : Option Bytes
  tokenSecret : Bytes
  verifier : Option Bytes
  deriving DecidableEq

/-- The secrets are texts that percent-encoding leaves as they are. -/
structure Grant.PlainSecrets (grant : Grant) : Prop where
  consumerSecret : Plain grant.consumerSecret
  tokenSecret : Plain grant.tokenSecret

/-- The token and its secret are texts that percent-encoding leaves as they are. -/
structure Grant.PlainToken (grant : Grant) : Prop where
  token : ∀ token ∈ grant.token, Plain token
  tokenSecret : Plain grant.tokenSecret

/-- What has been issued, where the token and its secret have been taken out of a form as they
stand there: in a form they are encoded. -/
def Grant.issued (grant : Grant) : Grant :=
  { grant with
    token := grant.token.map percentDecode
    tokenSecret := percentDecode grant.tokenSecret }

theorem percentDecode_plain {s : Bytes} (h : Plain s) : percentDecode s = s :=
  percentDecode_of_notMem (h.notMem (by decide))

theorem Grant.issued_of_plain {grant : Grant} (h : grant.PlainToken) : grant.issued = grant := by
  obtain ⟨consumerKey, consumerSecret, token, tokenSecret, verifier⟩ := grant
  have hsecret : percentDecode tokenSecret = tokenSecret := percentDecode_plain h.tokenSecret
  cases token with
  | none => simp only [Grant.issued, Option.map_none, hsecret]
  | some token =>
      have htoken : percentDecode token = token := percentDecode_plain (h.token token rfl)
      simp only [Grant.issued, Option.map_some, hsecret, htoken]

/-- The parameter of a name in a request. -/
def parameter (name : Bytes) (received : Received) : Option Bytes :=
  find name (requestParams received)

/-- The signature that belongs to a request, as the protocol defines it. -/
def expected (hmac : Bytes → Bytes → Bytes) (grant : Grant) (received : Received) : Bytes :=
  base64Encode (hmac (signingKey grant.consumerSecret grant.tokenSecret)
    (baseString received.method (cutAt (byte '?') received.target).1 (requestParams received)))

/-- A request names the consumer and the user, and is signed by their secrets at its moment. -/
structure Accepts (hmac : Bytes → Bytes → Bytes) (grant : Grant) (moment : Moment)
    (received : Received) : Prop where
  consumer : parameter (ascii "oauth_consumer_key") received = some grant.consumerKey
  token : parameter (ascii "oauth_token") received = grant.token
  verifier : parameter (ascii "oauth_verifier") received = grant.verifier
  signatureMethod : parameter (ascii "oauth_signature_method") received = some (ascii "HMAC-SHA1")
  version : parameter (ascii "oauth_version") received = some (ascii "1.0")
  nonce : parameter (ascii "oauth_nonce") received = some moment.nonce
  timestamp : parameter (ascii "oauth_timestamp") received = some moment.time
  signature : parameter (ascii "oauth_signature") received = some (expected hmac grant received)

/-- A requester that signs for a grant. -/
structure Signs (grant : Grant) (req : TokenRequester) : Prop where
  consumer : req.params.find? (ascii "oauth_consumer_key") = some grant.consumerKey
  consumerSecret : req.consumerSecret = grant.consumerSecret
  token : req.params.find? (ascii "oauth_token") = grant.token
  tokenSecret : req.tokenSecret = grant.tokenSecret
  verifier : req.params.find? (ascii "oauth_verifier") = grant.verifier
  signatureMethod : req.params.find? (ascii "oauth_signature_method") = some (ascii "HMAC-SHA1")
  version : req.params.find? (ascii "oauth_version") = some (ascii "1.0")

/-! ## The requester -/

section Requester

variable {hmac : Bytes → Bytes → Bytes} {moment : Moment} {grant : Grant} {req : TokenRequester}
  {name : Bytes}

/-- A name that no signing and no request touches. -/
def Lasting (name : Bytes) : Prop :=
  name ≠ ascii "oauth_nonce" ∧ name ≠ ascii "oauth_timestamp" ∧ name ≠ ascii "oauth_signature" ∧
    name ≠ ascii "status"

instance (name : Bytes) : Decidable (Lasting name) :=
  inferInstanceAs (Decidable (_ ∧ _))

theorem find_signed_lasting (h : Lasting name) :
    (req.signedParams moment).find? name = req.params.find? name := by
  rw [TokenRequester.signedParams, OrderedMap.find?_erase_of_ne _ h.2.2.1,
    OrderedMap.find?_assign_of_ne _ h.2.1, OrderedMap.find?_assign_of_ne _ h.1]

theorem find_signed_nonce :
    (req.signedParams moment).find? (ascii "oauth_nonce") = some moment.nonce := by
  rw [TokenRequester.signedParams, OrderedMap.find?_erase_of_ne _ (by decide),
    OrderedMap.find?_assign_of_ne _ (by decide), OrderedMap.find?_assign_self]

theorem find_signed_timestamp :
    (req.signedParams moment).find? (ascii "oauth_timestamp") = some moment.time := by
  rw [TokenRequester.signedParams, OrderedMap.find?_erase_of_ne _ (by decide),
    OrderedMap.find?_assign_self]

/-- A requester that differs from one that signs for a grant in passing parameters only. -/
theorem Signs.of_lasting (h : Signs grant req) {req' : TokenRequester}
    (hconsumer : req'.consumerSecret = req.consumerSecret)
    (htoken : req'.tokenSecret = req.tokenSecret)
    (hparams : ∀ name, Lasting name → req'.params.find? name = req.params.find? name) :
    Signs grant req' where
  consumer := (hparams _ (by decide)).trans h.consumer
  consumerSecret := hconsumer.trans h.consumerSecret
  token := (hparams _ (by decide)).trans h.token
  tokenSecret := htoken.trans h.tokenSecret
  verifier := (hparams _ (by decide)).trans h.verifier
  signatureMethod := (hparams _ (by decide)).trans h.signatureMethod
  version := (hparams _ (by decide)).trans h.version

theorem find_genRequestSignature_lasting (h : Lasting name) (uri method : Bytes) :
    (req.genRequestSignature hmac moment uri method).1.params.find? name = req.params.find? name :=
  (OrderedMap.find?_assign_of_ne _ h.2.2.1 _).trans (find_signed_lasting h)

/-- Signing leaves a requester that signs for the same grant. -/
theorem Signs.genRequestSignature (h : Signs grant req) (uri method : Bytes) :
    Signs grant (req.genRequestSignature hmac moment uri method).1 :=
  h.of_lasting rfl rfl fun _ hname => find_genRequestSignature_lasting hname uri method

/-- A status is added, and taken out again. -/
theorem Signs.assign_status (h : Signs grant req) (status : Bytes) :
    Signs grant { req with params := req.params.assign (ascii "status") status } :=
  h.of_lasting rfl rfl fun _ hname => OrderedMap.find?_assign_of_ne _ hname.2.2.2 _

theorem Signs.erase_status (h : Signs grant req) :
    Signs grant { req with params := req.params.erase (ascii "status") } :=
  h.of_lasting rfl rfl fun _ hname => OrderedMap.find?_erase_of_ne _ hname.2.2.2

theorem Signs.setToken (h : Signs grant req) (token secret : Bytes) :
    Signs { grant with token := some token, tokenSecret := secret }
      (req.setToken token secret) where
  consumer := (OrderedMap.find?_assign_of_ne _ (by decide) _).trans h.consumer
  consumerSecret := h.consumerSecret
  token := OrderedMap.find?_assign_self _ _ _
  tokenSecret := rfl
  verifier := (OrderedMap.find?_assign_of_ne _ (by decide) _).trans h.verifier
  signatureMethod := (OrderedMap.find?_assign_of_ne _ (by decide) _).trans h.signatureMethod
  version := (OrderedMap.find?_assign_of_ne _ (by decide) _).trans h.version

theorem Signs.setPinNumber (h : Signs grant req) (pin : Bytes) :
    Signs { grant with verifier := some pin } (req.setPinNumber pin) where
  consumer := (OrderedMap.find?_assign_of_ne _ (by decide) _).trans h.consumer
  consumerSecret := h.consumerSecret
  token := (OrderedMap.find?_assign_of_ne _ (by decide) _).trans h.token
  tokenSecret := h.tokenSecret
  verifier := OrderedMap.find?_assign_self _ _ _
  signatureMethod := (OrderedMap.find?_assign_of_ne _ (by decide) _).trans h.signatureMethod
  version := (OrderedMap.find?_assign_of_ne _ (by decide) _).trans h.version

end Requester

/-! ## Requests -/

section Requests

variable {hmac : Bytes → Bytes → Bytes} {moment : Moment} {grant : Grant} {req : TokenRequester}
  {c : HttpClient} {received : Received}

theorem find_append_single {name key value : Bytes} (hne : name ≠ key)
    (entries : List (Bytes × Bytes)) :
    find name (entries ++ [(key, value)]) = find name entries := by
  cases hfound : find name entries with
  | none => rw [find_append_of_none hfound, find, if_neg hne, find]
  | some found => exact find_append_of_some hfound

/-- The target of a request, up to its query, is the URI of its client. -/
theorem target_sendRequest (hc : Sendable c) (hmark : byte '?' ∉ c.getUri) {data : Bytes}
    (hdata : LF ∉ data) :
    (cutAt (byte '?') (receive (c.sendRequest data)).target).1 = c.getUri := by
  obtain ⟨more, hreceive⟩ := receive_sendRequest hc hdata
  rw [hreceive]
  by_cases hempty : c.query = []
  · simp [hempty, cutAt_of_notMem hmark]
  · have hquestion : ascii "?" = [byte '?'] := by decide
    simp only [if_neg hempty, hquestion, List.append_assoc, List.singleton_append]
    rw [cutAt_append hmark]

/-- A request is accepted if its parameters are those of a signature and the signature. -/
theorem Signs.accepts (h : Signs grant req) (hplain : grant.PlainSecrets) {uri method : Bytes}
    (hmethod : received.method = method) (htarget : (cutAt (byte '?') received.target).1 = uri)
    (hparams : ∀ name, name ≠ ascii "status" → parameter name received =
      (req.genRequestSignature hmac moment uri method).1.params.find? name)
    (hnormalized : SigningInputs.normalized (requestParams received) =
      (req.genRequestSignature hmac moment uri method).2.parameterString) :
    Accepts hmac grant moment received := by
  have hlasting : ∀ name, Lasting name → parameter name received = req.params.find? name :=
    fun name hname =>
      (hparams name hname.2.2.2).trans (find_genRequestSignature_lasting hname uri method)
  have hsigned : ∀ name, name ≠ ascii "oauth_signature" → name ≠ ascii "status" →
      parameter name received = (req.signedParams moment).find? name :=
    fun name hsignature hstatus =>
      (hparams name hstatus).trans (OrderedMap.find?_assign_of_ne _ hsignature _)
  refine ⟨(hlasting _ (by decide)).trans h.consumer, (hlasting _ (by decide)).trans h.token,
    (hlasting _ (by decide)).trans h.verifier, (hlasting _ (by decide)).trans h.signatureMethod,
    (hlasting _ (by decide)).trans h.version,
    (hsigned _ (by decide) (by decide)).trans find_signed_nonce,
    (hsigned _ (by decide) (by decide)).trans find_signed_timestamp, ?_⟩
  rw [hparams _ (by decide), expected, baseString, hnormalized, hmethod, htarget, signingKey,
    percentEncode_plain hplain.consumerSecret, percentEncode_plain hplain.tokenSecret,
    ← urlEscape_eq_percentEncode, ← urlEscape_eq_percentEncode, ← h.consumerSecret, ← h.tokenSecret]
  exact OrderedMap.find?_assign_self _ _ _

/-- `gen_request_signature` followed by `gen_getquery`. -/
theorem Signs.accepts_get (h : Signs grant req) (hplain : grant.PlainSecrets)
    (hready : Ready req.params)
    (hc : Sendable c)
    (hmark : byte '?' ∉ c.getUri) {text : Bytes} (htext : text = (queried c
      (req.genRequestSignature hmac moment c.getUri (ascii "GET")).1.genGetquery).request) :
    Accepts hmac grant moment (receive text) := by
  have hnames : PlainNames
      (req.genRequestSignature hmac moment c.getUri (ascii "GET")).1.params.entries :=
    (ready_genRequestSignature hready moment _ _).names
  obtain ⟨hmethod, hread⟩ := received_get hc hmark hnames
    (entries_ne_nil (OrderedMap.find?_assign_self _ _ _)) htext
  have hqueried : Sendable (queried c
      (req.genRequestSignature hmac moment c.getUri (ascii "GET")).1.genGetquery) :=
    sendable_queried hc
      ⟨notMem_makeRequest hnames (by decide) (by decide) (by decide) (by decide),
        notMem_makeRequest hnames (by decide) (by decide) (by decide) (by decide)⟩
  refine @Signs.accepts hmac moment grant req _ h hplain c.getUri _ hmethod ?_
    (fun name _ => ?_) ?_
  · rw [htext]
    exact target_sendRequest hqueried hmark List.not_mem_nil
  · rw [parameter, hread]
    rfl
  · rw [hread]
    apply normalized_of_perm (plainNames_signed hready.names)
    exact (filter_assign_signature find_signed_signature _) ▸ List.Perm.refl _

/-- `gen_request_signature` with a status, which is then taken out and sent in the form. -/
theorem Signs.accepts_post (h : Signs grant req) (hplain : grant.PlainSecrets)
    (hready : Ready req.params) (hc : Sendable c)
    (hmark : byte '?' ∉ c.getUri) {signed : TokenRequester} {status : Bytes}
    (hsigned : signed = { req with params := req.params.assign (ascii "status") status })
    {text : Bytes} (htext : text = (authorized c (makeRequest combineAsPostParam
      ((signed.genRequestSignature hmac moment c.getUri (ascii "POST")).1.params.erase
        (ascii "status")))).sendRequest (ascii "status=" ++ urlEscape status)) :
    Accepts hmac grant moment (receive text) := by
  have hposted : PlainNames signed.params.entries := by
    rw [hsigned]
    exact plainNames_assign hready.names (by decide) status
  have hnames : PlainNames
      (signed.genRequestSignature hmac moment c.getUri (ascii "POST")).1.params.entries :=
    plainNames_assign (plainNames_signed hposted) (by decide) _
  have hstatus : (signed.signedParams moment).find? (ascii "status") = some status := by
    rw [find_signed_status, hsigned]
    exact OrderedMap.find?_assign_self _ _ _
  have hform : ascii "status=" ++ urlEscape status =
      combineAsGetParam.combine (ascii "status", status) := by
    have hname : ascii "status=" = ascii "status" ++ ascii "=" := by decide
    simp [Combiner.combine, combineAsGetParam, hname]
  rw [hform] at htext
  obtain ⟨hmethod, hread⟩ := received_post hc (plainNames_erase hnames (ascii "status"))
    (entries_ne_nil ((OrderedMap.find?_erase_of_ne _ (by decide)).trans
      (OrderedMap.find?_assign_self _ (ascii "oauth_signature") _)))
    (by decide : PlainName (ascii "status")) htext
  have hsigns : Signs grant signed := hsigned ▸ h.assign_status status
  refine @Signs.accepts hmac moment grant signed _ hsigns hplain c.getUri _ hmethod ?_
    (fun name hname => ?_) ?_
  · have hpair : PlainNames [(ascii "status", status)] := by
      intro p hmem
      rw [List.mem_singleton.mp hmem]
      exact (by decide : PlainName (ascii "status"))
    rw [htext]
    exact target_sendRequest (sendable_authorized hc (notMem_makeRequest
      (plainNames_erase hnames (ascii "status")) (by decide) (by decide) (by decide) (by decide)))
      hmark (notMem_combine hpair List.mem_cons_self (by decide) (by decide) (by decide))
  · rw [parameter, hread, find_append_single hname]
    exact OrderedMap.find?_erase_of_ne _ hname
  · rw [hread]
    exact normalized_of_perm (plainNames_signed hposted)
      (perm_posted find_signed_signature hstatus _)

end Requests

/-! ## Operations -/

section Operations

variable {hmac : Bytes → Bytes → Bytes} {grant : Grant} {req : TokenRequester} {api : ApiType}
  {operation : Operation}

/-- The moment of a request. -/
def momentOf : Operation → Option Moment
  | .makeUserstream moment => some moment
  | .requestFriendsTimeline moment => some moment
  | .statusesUpdate moment _ => some moment
  | _ => none

/-- A request that is made for a handler is accepted, and leaves a requester for the same grant. -/
theorem Signs.perform (h : Signs grant req) (hplain : grant.PlainSecrets)
    (hready : Ready req.params)
    (hfits : Fits api operation) :
    ∃ exchange moment, (perform hmac operation req).2 = some exchange ∧
      momentOf operation = some moment ∧ Accepts hmac grant moment (receive exchange.text) ∧
      Signs grant (perform hmac operation req).1 := by
  cases operation with
  | setConsumer key secret => cases api <;> exact hfits.elim
  | setToken key secret => cases api <;> exact hfits.elim
  | setPinNumber pin => cases api <;> exact hfits.elim
  | clearPinNumber => cases api <;> exact hfits.elim
  | makeUserstream moment =>
      have hc := @sendable_bare (ascii "userstream.twitter.com") (ascii "/2/user.json") (by decide)
        (by decide)
      have huser := @sendable_assign _ hc (ascii "User-Agent") (ascii "Grimoiretter/0.1")
        (by decide) (by decide)
      exact ⟨_, moment, rfl, rfl, h.accepts_get hplain hready
        (@sendable_assign _ huser (ascii "Accept") (ascii "*/*") (by decide) (by decide))
        (by decide) rfl, h.genRequestSignature _ _⟩
  | requestFriendsTimeline moment =>
      have hc := @sendable_bare (ascii "api.twitter.com")
        (ascii "/1/statuses/friends_timeline.json") (by decide) (by decide)
      exact ⟨_, moment, rfl, rfl, h.accepts_get hplain hready
        (@sendable_assign _ hc (ascii "Connection") (ascii "close") (by decide) (by decide))
        (by decide) rfl, h.genRequestSignature _ _⟩
  | statusesUpdate moment status =>
      have hc := @sendable_bare (ascii "api.twitter.com")
        (ascii "/1/statuses/update.json") (by decide) (by decide)
      exact ⟨_, moment, rfl, rfl, h.accepts_post hplain hready
        (@sendable_assign _ hc (ascii "Connection") (ascii "close") (by decide) (by decide))
        (by decide) rfl rfl, ((h.assign_status status).genRequestSignature _ _).erase_status⟩

/-- Requests that are made one after the other are accepted, each at its moment. -/
theorem Signs.exchanges (operations : List Operation) (h : Signs grant req)
    (hplain : grant.PlainSecrets) (hready : Ready req.params)
    (hfits : ∀ operation ∈ operations, ∃ api, Fits api operation) :
    List.Forall₂ (fun operation made => ∃ moment, momentOf operation = some moment ∧
      Accepts hmac grant moment (receive made.2.text))
      operations (exchanges hmac operations req) := by
  induction operations generalizing req with
  | nil => exact List.Forall₂.nil
  | cons operation operations ih =>
      obtain ⟨api, hfirst⟩ := hfits operation List.mem_cons_self
      obtain ⟨exchange, moment, hexchange, hmoment, haccepts, hnext⟩ :=
        @Signs.perform hmac grant req api operation h hplain hready hfirst
      have hlater := ih hnext (ready_perform operation hready)
        (fun other hmem => hfits other (List.mem_cons_of_mem _ hmem))
      rw [Requests.exchanges]
      dsimp only
      rw [hexchange]
      exact List.Forall₂.cons ⟨moment, hmoment, haccepts⟩ hlater

end Operations

/-! ## All runs -/

/-- What `main` has from its options. -/
def granted (accessToken tokenSecret : Bytes) : Grant :=
  ⟨consumerKey, consumerSecret, some accessToken, tokenSecret, none⟩

theorem plain_consumerSecret : Plain consumerSecret := by decide

end BlackCircle.Twitter.Provider
