import BlackCircle.Twitter.SignedSent

/-!
# One request for one operation

Keys, secrets, verifiers, nonces and status texts are arbitrary bytes.  They
reach a request only through `url_escape`, whose output has no separator of a
request in it, so each operation sends one request and nothing behind it.
-/

namespace BlackCircle.Twitter.Sending

open BlackCircle.Foundation
open BlackCircle.Foundation.ByteString
open BlackCircle.Http.Request
open BlackCircle.Http.Wire
open BlackCircle.Oauth
open BlackCircle.Oauth.Combiner
open BlackCircle.Oauth.Encode
open BlackCircle.Oauth.Receiver
open BlackCircle.Twitter.Requests
open BlackCircle.Twitter.SignedSent

/-! ## Clean clients -/

section Clients

variable {c : HttpClient}

theorem clean_assign (h : Clean c) {key value : Bytes}
    (hkey : CR ∉ key ∧ LF ∉ key ∧ byte ':' ∉ key) (hvalue : CR ∉ value ∧ LF ∉ value) :
    Clean { c with header := c.header.assign key value } where
  uri := h.uri
  query := h.query
  host := h.host
  names := by
    intro field hmem
    rcases OrderedMap.mem_assign hmem with rfl | hmem
    · exact hkey
    · exact h.names field hmem
  values := by
    intro field hmem
    rcases OrderedMap.mem_assign hmem with rfl | hmem
    · exact hvalue
    · exact h.values field hmem

/-- A client with serialised parameters for its query. -/
theorem clean_queried (h : Clean c) {params : Params} (hparams : PlainNames params.entries) :
    Clean (queried c (makeRequest combineAsGetParam params)) where
  uri := h.uri
  query := ⟨notMem_makeRequest hparams (by decide) (by decide) (by decide) (by decide),
    notMem_makeRequest hparams (by decide) (by decide) (by decide) (by decide),
    notMem_makeRequest hparams (by decide) (by decide) (by decide) (by decide)⟩
  host := h.host
  names := h.names
  values := h.values

/-- A client with serialised parameters for its credentials. -/
theorem clean_authorized (h : Clean c) {params : Params} (hparams : PlainNames params.entries) :
    Clean (authorized c (makeRequest combineAsPostParam params)) := by
  refine clean_assign h (by decide) ?_
  simp only [List.mem_append, not_or]
  exact ⟨⟨by decide, notMem_makeRequest hparams (by decide) (by decide) (by decide) (by decide)⟩,
    by decide, notMem_makeRequest hparams (by decide) (by decide) (by decide) (by decide)⟩

end Clients

/-! ## Operations -/

/-- The data that an operation sends. -/
def body : Operation → Bytes
  | .statusesUpdate _ status => ascii "status=" ++ urlEscape status
  | _ => []

/-- The host an operation connects to. -/
def host : Operation → Bytes
  | .makeUserstream _ => ascii "userstream.twitter.com"
  | _ => ascii "api.twitter.com"

def path : Operation → Bytes
  | .makeUserstream _ => ascii "/2/user.json"
  | .requestFriendsTimeline _ => ascii "/1/statuses/friends_timeline.json"
  | _ => ascii "/1/statuses/update.json"

/-- The names in the header map of an operation's request. -/
def headerNames : Operation → List Bytes
  | .makeUserstream _ => [ascii "Accept", ascii "User-Agent"]
  | .requestFriendsTimeline _ => [ascii "Connection"]
  | .statusesUpdate _ _ => [ascii "Authorization", ascii "Connection"]
  | _ => []

/-- The text of an exchange is the one request of the client that its operation has built. -/
structure IsRequestOf (operation : Operation) (exchange : Exchange) : Prop where
  host : exchange.client.host = host operation
  path : exchange.client.path = path operation
  names : exchange.client.header.entries.map Prod.fst = headerNames operation
  one : OneRequest exchange.client (body operation) exchange.text

theorem percentDecode_body (moment : Moment) (status : Bytes) :
    percentDecode (body (.statusesUpdate moment status)) = ascii "status=" ++ status := by
  have hname : ∀ s rest : Bytes, byte '%' ∉ s →
      percentDecode (s ++ rest) = s ++ percentDecode rest := by
    intro s rest hfree
    induction s with
    | nil => rfl
    | cons b s ih =>
        rw [List.mem_cons, not_or] at hfree
        rw [List.cons_append, percentDecode_cons_of_ne (Ne.symm hfree.1), ih hfree.2,
          List.cons_append]
  rw [body, hname _ _ (by decide), percentDecode_urlEscape]

/-- A client without header fields. -/
theorem clean_bare {host path : Bytes}
    (huri : CR ∉ HttpClient.getUri ⟨true, host, path, [], .empty⟩ ∧
      LF ∉ HttpClient.getUri ⟨true, host, path, [], .empty⟩ ∧
      byte ' ' ∉ HttpClient.getUri ⟨true, host, path, [], .empty⟩)
    (hhost : CR ∉ host ∧ LF ∉ host) : Clean ⟨true, host, path, [], .empty⟩ where
  uri := huri
  query := ⟨List.not_mem_nil, List.not_mem_nil, List.not_mem_nil⟩
  host := hhost
  names := by rintro field ⟨⟩
  values := by rintro field ⟨⟩

section Perform

variable {hmac : Bytes → Bytes → Bytes} {req : TokenRequester}

/-- A requester with plain names makes one request for an operation. -/
theorem isRequestOf_perform {operation : Operation} {exchange : Exchange}
    (hreq : PlainNames req.params.entries) (hlength : (body operation).length < 2 ^ 32)
    (h : (perform hmac operation req).2 = some exchange) :
    IsRequestOf operation exchange := by
  cases operation with
  | setConsumer key secret => cases h
  | setToken key secret => cases h
  | setPinNumber pin => cases h
  | clearPinNumber => cases h
  | makeUserstream moment =>
      cases h
      have hc := @clean_bare (ascii "userstream.twitter.com") (ascii "/2/user.json") (by decide)
        (by decide)
      have huser := @clean_assign _ hc (ascii "User-Agent") (ascii "Grimoiretter/0.1")
        (by decide) (by decide)
      have haccept := @clean_assign _ huser (ascii "Accept") (ascii "*/*") (by decide) (by decide)
      have hsigned := plainNames_assign (@plainNames_signed _ moment hreq)
        (by decide : PlainName (ascii "oauth_signature"))
      exact ⟨rfl, rfl, rfl, (clean_queried haccept (hsigned _)).oneRequest hlength⟩
  | requestFriendsTimeline moment =>
      cases h
      have hc := @clean_bare (ascii "api.twitter.com")
        (ascii "/1/statuses/friends_timeline.json") (by decide) (by decide)
      have hconnection := @clean_assign _ hc (ascii "Connection") (ascii "close") (by decide)
        (by decide)
      have hsigned := plainNames_assign (@plainNames_signed _ moment hreq)
        (by decide : PlainName (ascii "oauth_signature"))
      exact ⟨rfl, rfl, rfl, (clean_queried hconnection (hsigned _)).oneRequest hlength⟩
  | statusesUpdate moment status =>
      cases h
      have hc := @clean_bare (ascii "api.twitter.com") (ascii "/1/statuses/update.json")
        (by decide) (by decide)
      have hconnection := @clean_assign _ hc (ascii "Connection") (ascii "close") (by decide)
        (by decide)
      have hstatus := plainNames_assign hreq (by decide : PlainName (ascii "status")) status
      have hsigned := plainNames_assign (@plainNames_signed
        { req with params := req.params.assign (ascii "status") status } moment hstatus)
        (by decide : PlainName (ascii "oauth_signature"))
      exact ⟨rfl, rfl, rfl, (clean_authorized hconnection
        (plainNames_erase (hsigned _) (ascii "status"))).oneRequest hlength⟩

/-- Whatever has been set before, every request is the one request of its operation. -/
theorem isRequestOf_exchanges (operations : List Operation) (hreq : Ready req.params) :
    ∀ made ∈ exchanges hmac operations req, (body made.1).length < 2 ^ 32 →
      IsRequestOf made.1 made.2 := by
  induction operations generalizing req with
  | nil => rintro made ⟨⟩
  | cons operation operations ih =>
      intro made hmem hlength
      rw [exchanges, List.mem_append, Option.mem_toList, Option.map_eq_some_iff] at hmem
      rcases hmem with ⟨exchange, hexchange, rfl⟩ | hlater
      · exact isRequestOf_perform hreq.names hlength hexchange
      · exact ih (ready_perform operation hreq) made hlater hlength

end Perform

/-- In every sequence of operations, each request is sent as one request of the client that the
operation has built: its head ends at the first empty line, its request line has three parts, the
method, the target and the version, its header lines are the host, those of the header map and the
length of its data, and its data decodes to the status. -/
theorem one_request_sent (hmac : Bytes → Bytes → Bytes) (operations : List Operation) :
    ∀ made ∈ exchanges hmac operations .make, (body made.1).length < 2 ^ 32 →
      IsRequestOf made.1 made.2 ∧
        ∀ status, made.1.status = some status →
          percentDecode (body made.1) = ascii "status=" ++ status := by
  intro made hmem hlength
  refine ⟨isRequestOf_exchanges operations ready_make made hmem hlength, fun status hstatus => ?_⟩
  obtain ⟨operation, exchange⟩ := made
  cases operation with
  | setConsumer key secret => cases hstatus
  | setToken key secret => cases hstatus
  | setPinNumber pin => cases hstatus
  | clearPinNumber => cases hstatus
  | makeUserstream moment => cases hstatus
  | requestFriendsTimeline moment => cases hstatus
  | statusesUpdate moment _ =>
      cases hstatus
      exact percentDecode_body moment status

/-- A status with a line break in it, behind a token with one. -/
theorem one_request_sent_break :
    IsRequestOf (.statusesUpdate ⟨ascii "n", ascii "1"⟩ (ascii "a\r\n\r\nb"))
        (statusesUpdate (fun _ message => message) ⟨ascii "n", ascii "1"⟩ (ascii "a\r\n\r\nb")
          (TokenRequester.make.setToken (ascii "t\r\n") (ascii "s"))).2 ∧
      percentDecode (body (.statusesUpdate ⟨ascii "n", ascii "1"⟩ (ascii "a\r\n\r\nb"))) =
        ascii "status=" ++ ascii "a\r\n\r\nb" := by
  obtain ⟨hrequest, hstatus⟩ := one_request_sent (fun _ message => message)
    [.setToken (ascii "t\r\n") (ascii "s"),
      .statusesUpdate ⟨ascii "n", ascii "1"⟩ (ascii "a\r\n\r\nb")]
    (_, _) List.mem_cons_self (by decide)
  exact ⟨hrequest, hstatus _ rfl⟩

end BlackCircle.Twitter.Sending
