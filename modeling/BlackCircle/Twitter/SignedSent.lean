import BlackCircle.Oauth.Receiver
import BlackCircle.Twitter.Requests

/-!
# Signed equals sent

Between two requests the requester holds no `status` and only parameters with
plain names.  Every operation keeps this, and from it follows that a receiver
finds in a request the parameters its signature covers.
-/

namespace BlackCircle.Twitter.SignedSent

open BlackCircle.Foundation
open BlackCircle.Foundation.ByteString
open BlackCircle.Foundation.Delimiter
open BlackCircle.Foundation.EntryList
open BlackCircle.Http.Request
open BlackCircle.Oauth
open BlackCircle.Oauth.Combiner
open BlackCircle.Oauth.Encode
open BlackCircle.Oauth.Receiver
open BlackCircle.Twitter.Requests

/-- What a request's signature covers is what is transmitted. -/
structure Covers (operation : Operation) (exchange : Exchange) : Prop where
  method : (receive exchange.text).method = exchange.signing.method
  parameters : rejoin (requestParams (receive exchange.text)) = exchange.signing.parameterString
  unsigned : exchange.signing.params.find? (ascii "oauth_signature") = none
  status : exchange.signing.params.find? (ascii "status") = operation.status

/-! ## The requester between two requests -/

/-- A name that stands for itself. -/
def PlainName (name : Bytes) : Prop := ∀ b ∈ name, isUnreserved b = true

instance (name : Bytes) : Decidable (PlainName name) :=
  inferInstanceAs (Decidable (∀ b ∈ name, isUnreserved b = true))

structure Ready (params : Params) : Prop where
  names : PlainNames params.entries
  noStatus : params.find? (ascii "status") = none

theorem plainNames_assign {params : Params} (h : PlainNames params.entries) {key : Bytes}
    (hkey : PlainName key) (value : Bytes) : PlainNames (params.assign key value).entries := by
  intro p hmem
  rcases OrderedMap.mem_assign hmem with rfl | hmem
  · exact hkey
  · exact h p hmem

theorem plainNames_erase {params : Params} (h : PlainNames params.entries) (key : Bytes) :
    PlainNames (params.erase key).entries := by
  intro p hmem
  rw [OrderedMap.entries_erase] at hmem
  exact h p (List.mem_filter.mp hmem).1

theorem Ready.assign {params : Params} (h : Ready params) {key : Bytes} (hkey : PlainName key)
    (hne : ascii "status" ≠ key) (value : Bytes) : Ready (params.assign key value) where
  names := plainNames_assign h.names hkey value
  noStatus := by rw [OrderedMap.find?_assign_of_ne params hne, h.noStatus]

theorem Ready.erase {params : Params} (h : Ready params) {key : Bytes}
    (hne : ascii "status" ≠ key) : Ready (params.erase key) where
  names := plainNames_erase h.names key
  noStatus := by rw [OrderedMap.find?_erase_of_ne params hne, h.noStatus]

theorem ready_make : Ready TokenRequester.make.params := by
  have hempty : Ready OrderedMap.empty := ⟨by rintro p ⟨⟩, rfl⟩
  exact (hempty.assign (by decide) (by decide) _).assign (by decide) (by decide) _

/-! ## Signed parameters -/

section Signed

variable {req : TokenRequester} {moment : Moment}

theorem plainNames_signed (h : PlainNames req.params.entries) :
    PlainNames (req.signedParams moment).entries :=
  plainNames_erase (plainNames_assign (plainNames_assign h (by decide) _) (by decide) _) _

theorem find_signed_signature :
    (req.signedParams moment).find? (ascii "oauth_signature") = none :=
  OrderedMap.find?_erase_self _ _

theorem find_signed_status :
    (req.signedParams moment).find? (ascii "status") = req.params.find? (ascii "status") := by
  rw [TokenRequester.signedParams, OrderedMap.find?_erase_of_ne _ (by decide),
    OrderedMap.find?_assign_of_ne _ (by decide), OrderedMap.find?_assign_of_ne _ (by decide)]

theorem ready_signed (h : Ready req.params) : Ready (req.signedParams moment) where
  names := plainNames_signed h.names
  noStatus := find_signed_status.trans h.noStatus

end Signed

theorem entries_ne_nil {params : Params} {key value : Bytes} (h : params.find? key = some value) :
    params.entries ≠ [] := by
  intro hnil
  rw [OrderedMap.find?, hnil] at h
  cases h

/-- A receiver that has found the signed parameters in any order serialises them as signed. -/
theorem rejoin_eq {params : Params} {found : List (Bytes × Bytes)}
    (hperm : (found.filter fun p => p.1 ≠ ascii "oauth_signature").Perm params.entries) :
    rejoin found = makeRequest combineAsGetParam params := by
  have hcombine : ∀ p : Bytes × Bytes,
      p.1 ++ ascii "=" ++ urlEscape p.2 = combineAsGetParam.combine p := by
    intro p
    simp [Combiner.combine, combineAsGetParam]
  rw [rejoin, makeRequest_eq, inKeyOrder_eq_of_perm params.sorted hperm]
  simp only [hcombine]
  rfl

theorem filter_assign_signature {params : Params}
    (h : params.find? (ascii "oauth_signature") = none) (signature : Bytes) :
    (params.assign (ascii "oauth_signature") signature).entries.filter
      (fun p => p.1 ≠ ascii "oauth_signature") = params.entries :=
  (filter_place _ _ _ _).trans (filter_of_find_none params.sorted h)

/-! ## Texts without separators -/

/-- A byte that is not found in serialised parameters. -/
theorem notMem_makeRequest {params : Params} (h : PlainNames params.entries) {cmb : Combiner}
    {b : Byte} (hb : isEscaped b = false) (hopening : b ∉ cmb.opening)
    (hclosing : b ∉ cmb.closing) (hjoiner : b ∉ cmb.joiner) : b ∉ makeRequest cmb params := by
  rw [makeRequest_eq]
  intro hmem
  rcases mem_intercalate hmem with hmem | ⟨item, hitem, hmem⟩
  · exact hjoiner hmem
  · obtain ⟨p, hp, rfl⟩ := List.mem_map.mp hitem
    exact notMem_combine h hp hb hopening hclosing hmem

theorem sendable_assign {c : HttpClient} (h : Sendable c) {key value : Bytes}
    (hkey : LF ∉ key ∧ byte ':' ∉ key) (hvalue : LF ∉ value) :
    Sendable { c with header := c.header.assign key value } where
  uri := h.uri
  query := h.query
  host := h.host
  names := by
    intro field hmem
    rcases OrderedMap.mem_assign hmem with rfl | hmem
    · exact hkey
    · exact h.names field hmem
  values := by
    intro field hmem
    rcases OrderedMap.mem_assign hmem with rfl | hmem
    · exact hvalue
    · exact h.values field hmem

/-! ## Requests -/

section Requests

variable {c : HttpClient}

/-- A client with a query. -/
def queried (c : HttpClient) (query : Bytes) : HttpClient := { c with query := query }

/-- A client with an `Authorization` field. -/
def authorized (c : HttpClient) (credentials : Bytes) : HttpClient :=
  { c with header := c.header.assign (ascii "Authorization") (ascii "OAuth " ++ credentials) }

theorem sendable_queried (h : Sendable c) {query : Bytes} (hquery : LF ∉ query ∧ byte ' ' ∉ query) :
    Sendable (queried c query) :=
  ⟨h.uri, hquery, h.host, h.names, h.values⟩

theorem sendable_authorized (h : Sendable c) {credentials : Bytes} (hfree : LF ∉ credentials) :
    Sendable (authorized c credentials) := by
  refine sendable_assign h (by decide) ?_
  have hscheme : LF ∉ ascii "OAuth " := by decide
  rw [List.mem_append, not_or]
  exact ⟨hscheme, hfree⟩

/-- In a request without data the receiver finds the parameters of the query. -/
theorem received_get (hc : Sendable c) (hmark : byte '?' ∉ c.getUri) {sent : Params}
    (hsent : PlainNames sent.entries) (hnonempty : sent.entries ≠ []) {text : Bytes}
    (htext : text = (queried c (makeRequest combineAsGetParam sent)).request) :
    (receive text).method = ascii "GET" ∧ requestParams (receive text) = sent.entries := by
  have hparams := formParams_makeRequest hsent hnonempty
  have hfree : LF ∉ makeRequest combineAsGetParam sent ∧
      byte ' ' ∉ makeRequest combineAsGetParam sent :=
    ⟨notMem_makeRequest hsent (by decide) (by decide) (by decide) (by decide),
      notMem_makeRequest hsent (by decide) (by decide) (by decide) (by decide)⟩
  generalize makeRequest combineAsGetParam sent = serial at hparams hfree htext
  obtain ⟨more, hreceive⟩ := receive_sendRequest (sendable_queried hc hfree) List.not_mem_nil
  have hquery : query ((queried c serial).getUri ++
      (if (queried c serial).query = [] then [] else ascii "?") ++ (queried c serial).query) =
        serial := by
    have huri : (queried c serial).getUri = c.getUri := rfl
    have hserial : (queried c serial).query = serial := rfl
    have hquestion : ascii "?" ++ serial = byte '?' :: serial := rfl
    rw [huri, hserial]
    by_cases hempty : serial = []
    · have hnone : cutAt (byte '?') c.getUri = (c.getUri, []) := cutAt_of_notMem hmark
      simp [hempty, query, hnone]
    · rw [if_neg hempty, List.append_assoc, hquestion, query, cutAt_append hmark]
  have hmethod : (receive text).method = ascii "GET" := by
    rw [htext, HttpClient.request, hreceive]
    rfl
  refine ⟨hmethod, ?_⟩
  rw [requestParams, if_pos hmethod, htext, HttpClient.request, hreceive]
  exact (congrArg formParams hquery).trans hparams

/-- In a request with a form the receiver finds the credentials and the form. -/
theorem received_post (hc : Sendable c) {sent : Params} (hsent : PlainNames sent.entries)
    (hnonempty : sent.entries ≠ []) {name value : Bytes} (hname : PlainName name) {text : Bytes}
    (htext : text = (authorized c (makeRequest combineAsPostParam sent)).sendRequest
      (combineAsGetParam.combine (name, value))) :
    (receive text).method = ascii "POST" ∧
      requestParams (receive text) = sent.entries ++ [(name, value)] := by
  have hplain : PlainNames [(name, value)] := by
    intro p hmem
    rw [List.mem_singleton] at hmem
    rw [hmem]
    exact hname
  have hcredentials := credentialParams_makeRequest hsent hnonempty
  have hform : formParams (combineAsGetParam.combine (name, value)) = [(name, value)] :=
    @formParams_makeRequest ⟨[(name, value)], List.pairwise_singleton _ _⟩ hplain
      (List.cons_ne_nil _ _)
  have hlf : LF ∉ makeRequest combineAsPostParam sent :=
    notMem_makeRequest hsent (by decide) (by decide) (by decide) (by decide)
  have hdata : LF ∉ combineAsGetParam.combine (name, value) :=
    notMem_combine hplain List.mem_cons_self (by decide) (by decide) (by decide)
  have hlength : (combineAsGetParam.combine (name, value)).length ≠ 0 := by
    have hopening : combineAsGetParam.opening.length = 1 := rfl
    simp only [Combiner.combine, List.length_append, hopening]
    omega
  generalize makeRequest combineAsPostParam sent = serial at hcredentials hlf htext
  generalize combineAsGetParam.combine (name, value) = data at hform hdata hlength htext
  obtain ⟨more, hreceive⟩ := receive_sendRequest (sendable_authorized hc hlf) hdata
  have hfield : find (ascii "Authorization")
      ((ascii "Host", byte ' ' :: (authorized c serial).host) ::
        ((authorized c serial).header.entries ++ more)) = some (ascii "OAuth " ++ serial) := by
    have hhost : ascii "Authorization" ≠ ascii "Host" := by decide
    rw [find, if_neg hhost]
    exact find_append_of_some (OrderedMap.find?_assign_self _ _ _)
  have hget : ascii "POST" ≠ ascii "GET" := by decide
  rw [htext, hreceive, if_pos hlength]
  refine ⟨rfl, ?_⟩
  rw [requestParams, if_neg hget, credentials, hfield, Option.getD_some, List.drop_left,
    hcredentials, hform]

end Requests

/-! ## Signed requests -/

section Signed

variable {hmac : Bytes → Bytes → Bytes} {moment : Moment} {c client : HttpClient} {uri : Bytes}
  {req signed : TokenRequester} {operation : Operation} {text : Bytes}

/-- `gen_request_signature` followed by `gen_getquery`. -/
theorem covers_get (hreq : Ready req.params) (hoperation : operation.status = none)
    (hc : Sendable c) (hmark : byte '?' ∉ c.getUri)
    (htext : text = (queried c
      (req.genRequestSignature hmac moment uri (ascii "GET")).1.genGetquery).request) :
    Covers operation
      ⟨(req.genRequestSignature hmac moment uri (ascii "GET")).2, client, text⟩ := by
  have hsigned : Ready (req.signedParams moment) := ready_signed hreq
  obtain ⟨hmethod, hread⟩ := received_get hc hmark
    (plainNames_assign hsigned.names (by decide : PlainName (ascii "oauth_signature")) _)
    (entries_ne_nil (OrderedMap.find?_assign_self _ _ _)) htext
  refine ⟨hmethod, ?_, find_signed_signature, hsigned.noStatus.trans hoperation.symm⟩
  rw [hread]
  apply rejoin_eq
  rw [filter_assign_signature find_signed_signature]
  exact List.Perm.refl _

/-- The parameters that are left when a signature has been added and the status taken out,
and the status. -/
theorem perm_posted {params : Params} {status : Bytes}
    (hunsigned : params.find? (ascii "oauth_signature") = none)
    (hstatus : params.find? (ascii "status") = some status) (signature : Bytes) :
    ((((params.assign (ascii "oauth_signature") signature).erase (ascii "status")).entries ++
      [(ascii "status", status)]).filter fun p => p.1 ≠ ascii "oauth_signature").Perm
        params.entries := by
  have herase : ((params.assign (ascii "oauth_signature") signature).erase
      (ascii "status")).entries.filter (fun p => p.1 ≠ ascii "oauth_signature") =
        params.entries.filter fun p => p.1 ≠ ascii "status" := by
    rw [OrderedMap.entries_erase, List.filter_comm, filter_assign_signature hunsigned]
  have hkept : [(ascii "status", status)].filter (fun p => p.1 ≠ ascii "oauth_signature") =
      [(ascii "status", status)] := rfl
  rw [List.filter_append, herase, hkept]
  exact (List.perm_append_singleton _ _).trans (perm_of_find params.sorted hstatus).symm

/-- `gen_request_signature` with a status, which is then taken out and sent in the form. -/
theorem covers_post {status : Bytes} (hreq : Ready req.params)
    (hsigned : signed.params = req.params.assign (ascii "status") status)
    (hoperation : operation.status = some status) (hc : Sendable c)
    (htext : text = (authorized c (makeRequest combineAsPostParam
      ((signed.genRequestSignature hmac moment uri (ascii "POST")).1.params.erase
        (ascii "status")))).sendRequest (ascii "status=" ++ urlEscape status)) :
    Covers operation
      ⟨(signed.genRequestSignature hmac moment uri (ascii "POST")).2, client, text⟩ := by
  have hplain : PlainNames signed.params.entries := by
    rw [hsigned]
    exact plainNames_assign hreq.names (by decide) status
  have hstatus : (signed.signedParams moment).find? (ascii "status") = some status := by
    rw [find_signed_status, hsigned]
    exact OrderedMap.find?_assign_self _ _ _
  have hform : ascii "status=" ++ urlEscape status =
      combineAsGetParam.combine (ascii "status", status) := by
    have hname : ascii "status=" = ascii "status" ++ ascii "=" := by decide
    simp [Combiner.combine, combineAsGetParam, hname]
  rw [hform] at htext
  obtain ⟨hmethod, hread⟩ := received_post hc
    (plainNames_erase (plainNames_assign (plainNames_signed hplain)
      (by decide : PlainName (ascii "oauth_signature")) _) (ascii "status"))
    (entries_ne_nil ((OrderedMap.find?_erase_of_ne _ (by decide)).trans
      (OrderedMap.find?_assign_self _ (ascii "oauth_signature") _)))
    (by decide : PlainName (ascii "status")) htext
  refine ⟨hmethod, ?_, find_signed_signature, hstatus.trans hoperation.symm⟩
  rw [hread]
  exact rejoin_eq (perm_posted find_signed_signature hstatus _)

end Signed

/-! ## Operations -/

/-- A client without header fields. -/
theorem sendable_bare {host path : Bytes}
    (huri : LF ∉ HttpClient.getUri ⟨true, host, path, [], .empty⟩ ∧
      byte ' ' ∉ HttpClient.getUri ⟨true, host, path, [], .empty⟩)
    (hhost : LF ∉ host) : Sendable ⟨true, host, path, [], .empty⟩ where
  uri := huri
  query := ⟨List.not_mem_nil, List.not_mem_nil⟩
  host := hhost
  names := by rintro field ⟨⟩
  values := by rintro field ⟨⟩

section Operations

variable {hmac : Bytes → Bytes → Bytes} {req : TokenRequester}

theorem ready_genRequestSignature (hreq : Ready req.params) (moment : Moment)
    (uri method : Bytes) : Ready (req.genRequestSignature hmac moment uri method).1.params :=
  (ready_signed hreq).assign (by decide) (by decide) _

/-- Every operation leaves the requester ready for the next request. -/
theorem ready_perform (operation : Operation) (hreq : Ready req.params) :
    Ready (perform hmac operation req).1.params := by
  cases operation with
  | setConsumer key secret => exact hreq.assign (by decide) (by decide) key
  | setToken key secret => exact hreq.assign (by decide) (by decide) key
  | setPinNumber pin => exact hreq.assign (by decide) (by decide) pin
  | clearPinNumber => exact hreq.erase (by decide)
  | makeUserstream moment => exact ready_genRequestSignature hreq moment _ _
  | requestFriendsTimeline moment => exact ready_genRequestSignature hreq moment _ _
  | statusesUpdate moment status =>
      refine ⟨?_, OrderedMap.find?_erase_self _ _⟩
      have hplain := plainNames_assign hreq.names (by decide : PlainName (ascii "status")) status
      exact plainNames_erase (plainNames_assign
        (@plainNames_signed { req with params := _ } moment hplain) (by decide) _) _

/-- A request that an operation makes is covered by its signature. -/
theorem covers_perform {operation : Operation} {exchange : Exchange} (hreq : Ready req.params)
    (h : (perform hmac operation req).2 = some exchange) : Covers operation exchange := by
  cases operation with
  | setConsumer key secret => cases h
  | setToken key secret => cases h
  | setPinNumber pin => cases h
  | clearPinNumber => cases h
  | makeUserstream moment =>
      cases h
      have hc := @sendable_bare (ascii "userstream.twitter.com") (ascii "/2/user.json") (by decide)
        (by decide)
      have huser := @sendable_assign _ hc (ascii "User-Agent") (ascii "Grimoiretter/0.1")
        (by decide) (by decide)
      exact covers_get hreq rfl (@sendable_assign _ huser (ascii "Accept") (ascii "*/*")
        (by decide) (by decide)) (by decide) rfl
  | requestFriendsTimeline moment =>
      cases h
      have hc := @sendable_bare (ascii "api.twitter.com")
        (ascii "/1/statuses/friends_timeline.json") (by decide) (by decide)
      exact covers_get hreq rfl (@sendable_assign _ hc (ascii "Connection") (ascii "close")
        (by decide) (by decide)) (by decide) rfl
  | statusesUpdate moment status =>
      cases h
      have hc := @sendable_bare (ascii "api.twitter.com") (ascii "/1/statuses/update.json")
        (by decide) (by decide)
      exact covers_post hreq rfl rfl (@sendable_assign _ hc (ascii "Connection") (ascii "close")
        (by decide) (by decide)) rfl

/-- Whatever has happened before, the signature of a request covers what is sent. -/
theorem covers_exchanges (operations : List Operation) (hreq : Ready req.params) :
    ∀ made ∈ exchanges hmac operations req, Covers made.1 made.2 := by
  induction operations generalizing req with
  | nil => rintro made ⟨⟩
  | cons operation operations ih =>
      intro made hmem
      rw [exchanges, List.mem_append, Option.mem_toList,
        Option.map_eq_some_iff] at hmem
      rcases hmem with ⟨exchange, hexchange, rfl⟩ | hlater
      · exact covers_perform hreq hexchange
      · exact ih (ready_perform operation hreq) made hlater

end Operations

/-- In every sequence of operations on a requester, each request's signature covers exactly
what that request transmits. -/
theorem signed_eq_sent (hmac : Bytes → Bytes → Bytes) (operations : List Operation) :
    ∀ made ∈ exchanges hmac operations .make, Covers made.1 made.2 :=
  covers_exchanges operations ready_make

/-- A post between two requests for the user stream. -/
theorem signed_eq_sent_post :
    Covers (.statusesUpdate ⟨ascii "n", ascii "2"⟩ (ascii "a&b"))
      (statusesUpdate (fun _ message => message) ⟨ascii "n", ascii "2"⟩ (ascii "a&b")
        (makeUserstream (fun _ message => message) ⟨ascii "m", ascii "1"⟩ .make).1).2 :=
  signed_eq_sent (fun _ message => message)
    [.makeUserstream ⟨ascii "m", ascii "1"⟩,
      .statusesUpdate ⟨ascii "n", ascii "2"⟩ (ascii "a&b")]
    (_, _) (List.mem_cons_of_mem _ List.mem_cons_self)

end BlackCircle.Twitter.SignedSent
