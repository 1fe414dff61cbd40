import BlackCircle.Foundation.InputStream
import BlackCircle.Http.Params
import BlackCircle.Http.Turns
import BlackCircle.Twitter.Provider

/-!
# The authorization

With the option `auth`, `main` asks for a request token, shows where the user
gets a number for it, reads that number, and asks with both for an access token,
which it shows.  All handlers run in one `io_service::run`; what is thrown out
of a handler leaves it, and the program ends.
-/

namespace BlackCircle.Twitter.Authorization

open BlackCircle.Foundation
open BlackCircle.Foundation.ByteString
open BlackCircle.Foundation.Delimiter
open BlackCircle.Foundation.EventRun
open BlackCircle.Foundation.InputStream
open BlackCircle.Foundation.Numeral
open BlackCircle.Foundation.ReadLoop
open BlackCircle.Console.Commands (isSpace)
open BlackCircle.Http.Client
open BlackCircle.Http.Params
open BlackCircle.Http.Request
open BlackCircle.Http.Response
open BlackCircle.Http.Turns
open BlackCircle.Oauth
open BlackCircle.Oauth.Receiver
open BlackCircle.Twitter.Provider
open BlackCircle.Twitter.Requests (Exchange)
open BlackCircle.Twitter.Service (consumerKey consumerSecret inTurn)
open BlackCircle.Twitter.SignedSent
open StateTransition

/-! ## The program -/

/-- `operator>>` for an `unsigned`, if it does not fail.  A minus sign negates modulo the width. -/
def extractUnsigned (is : Stream Byte) : Option UInt32 × Stream Byte :=
  let is := sentry isSpace is
  if is.good then
    let sign := is.rest.head?.filter isSign
    let text := is.rest.drop sign.toList.length
    let numeral := text.takeWhile (isDigit 10)
    let rest := text.dropWhile (isDigit 10)
    if numeral ≠ [] ∧ value 10 numeral < 2 ^ 32 then
      let n := UInt32.ofNat (value 10 numeral)
      (some (if sign = some (byte '-') then -n else n), .stopped rest)
    else (none, ⟨rest, false⟩)
  else (none, is)

/-- What is outside the program. -/
structure World where
  hmac : Bytes → Bytes → Bytes
  /-- The nonce and the time of each signing. -/
  moment : Nat → Moment
  /-- For each connection, the segments its peer sends, and whether it then ends; or it is
  refused. -/
  peer : Nat → Option (List Bytes × Bool)
  /-- The bits of a `size_t`. -/
  width : Nat
  /-- What is in the n-th `pin_number` if nothing has been read into it. -/
  unset : Nat → UInt32

inductive AuthHandler where
  | authReqHandler
  | authPinHandler
  deriving DecidableEq

/-- An `http_client`: its handler, the one request it has written, and its reader. -/
structure Client where
  handler : AuthHandler
  exchange : Exchange
  session : ClientSession

/-- A call of a handler with response data. -/
structure Call where
  client : Nat
  handler : AuthHandler
  data : HttpResponseData

/-- All clients so far, what is left to read and what has been written, the calls of the handlers
in their order, and whether `io_service::run` has been left by an exception. -/
structure Program where
  req : TokenRequester
  clients : List Client
  cin : Stream Byte
  cout : Bytes
  calls : List Call
  left : Bool

def requestUri : Bytes := ascii "https://twitter.com/oauth/request_token"

def accessUri : Bytes := ascii "https://twitter.com/oauth/access_token"

/-- `par[name]`. -/
def entry (par : OrderedMap Bytes Bytes) (name : Bytes) : Bytes := (par.find? name).getD []

/-- The line that asks for a number. -/
def promptText (token : Bytes) : Bytes :=
  ascii "Access to https://twitter.com/oauth/authorize?oauth_token=" ++ token ++
    ascii " and input PIN number.\n"

/-- The lines that show an access token. -/
def succeedText (token secret : Bytes) : Bytes :=
  ascii "Authorization Succeed. Re-Launch with these parameters:\n" ++
    (ascii " --token=" ++ token ++ ascii " --secret=" ++ secret ++ ascii "\n")

section Members

variable (world : World)

/-- What both requests have in common.  A function returns, or throws, and leaves a program. -/
def requestToken (handler : AuthHandler) (path : Bytes) (p : Program) : Bool × Program :=
  match world.peer p.clients.length with
  | none => (false, p)
  | some (segments, closed) =>
      let c := HttpClient.make (ascii "twitter.com")
      let c := { c with
        header := c.header.assign (ascii "Connection") (ascii "close")
        path := path }
      let (req, signing) := p.req.genRequestSignature world.hmac
        (world.moment (p.clients.length + 1)) c.getUri (ascii "GET")
      let c := { c with query := req.genGetquery }
      (true, { p with
        req := req
        clients := p.clients ++ [⟨handler, ⟨signing, c, c.request⟩, connect segments closed⟩] })

def authPinHandler (data : HttpResponseData) (p : Program) : Bool × Program :=
  if data.status.1 ≠ 200 then (false, p)
  else
    let par := splitParams data.data
    (true, { p with
      cout := p.cout ++
        succeedText (entry par (ascii "oauth_token")) (entry par (ascii "oauth_token_secret")) })

def authReqHandler (data : HttpResponseData) (p : Program) : Bool × Program :=
  if data.status.1 ≠ 200 then (false, p)
  else
    let par := splitParams data.data
    let token := entry par (ascii "oauth_token")
    let (pinNumber, cin) := extractUnsigned p.cin
    let pin := decimal (pinNumber.getD (world.unset p.clients.length)).toNat
    requestToken world .authPinHandler (ascii "/oauth/access_token") { p with
      cout := p.cout ++ promptText token
      cin := cin
      req := (p.req.setToken token (entry par (ascii "oauth_token_secret"))).setPinNumber pin }

/-- A call of the handler of client `i`; without data it does nothing. -/
def call (i : Nat) (handler : AuthHandler) (data : Option HttpResponseData) (p : Program) :
    Bool × Program :=
  match data with
  | none => (true, p)
  | some data =>
      let p := { p with calls := p.calls ++ [⟨i, handler, data⟩] }
      match handler with
      | .authReqHandler => authReqHandler world data p
      | .authPinHandler => authPinHandler data p

/-- `do_initial_auth` up to `io_service::run`; it is left before if the connection is refused.  The
first signing is for a URL that is not used. -/
def doInitialAuth (req : TokenRequester) (typed : Bytes) : Option Program :=
  let (req, _) := req.genRequestSignature world.hmac (world.moment 0) requestUri (ascii "GET")
  match requestToken world .authReqHandler (ascii "/oauth/request_token")
      ⟨req, [], ⟨typed, true⟩, [], [], false⟩ with
  | (true, p) => some p
  | (false, _) => none

/-- `main` with the option `auth`, for what will be typed. -/
def main (typed : Bytes) : Option Program :=
  doInitialAuth world (TokenRequester.make.setConsumer consumerKey consumerSecret) typed

/-! ## Steps -/

/-- An exception has left the reader. -/
def failed (session : ClientSession) : Bool :=
  match session.activity with
  | .failed _ => true
  | _ => false

/-- What is behind a handler of client `i` that leaves the session behind. -/
def answer (i : Nat) (c : Client) (p : Program) (session : ClientSession) : Program :=
  let calls := (session.outputs.drop c.session.outputs.length).map some
  let (returns, p) := inTurn (call world i c.handler) calls
    { p with clients := p.clients.set i { c with session := session } }
  { p with left := !returns || failed session }

/-- A handler of client `i` runs. -/
def step (i : Nat) (p : Program) : Option Program :=
  if p.left then none
  else p.clients[i]?.bind fun c => (clientStep world.width c.session).map (answer world i c p)

end Members

/-! ## What the calls make of the program -/

/-- The request tokens that have come. -/
def answered (calls : List Call) : List HttpResponseData :=
  (calls.filter fun call => call.handler = .authReqHandler ∧ call.data.status.1 = 200).map Call.data

/-- What a call writes. -/
def printed (call : Call) : Bytes :=
  if call.data.status.1 ≠ 200 then []
  else
    let par := splitParams call.data.data
    match call.handler with
    | .authReqHandler => promptText (entry par (ascii "oauth_token"))
    | .authPinHandler =>
        succeedText (entry par (ascii "oauth_token")) (entry par (ascii "oauth_token_secret"))

/-- What is left to read behind `n` numbers. -/
def cinBehind (typed : Bytes) (n : Nat) : Stream Byte :=
  (fun is => (extractUnsigned is).2)^[n] ⟨typed, true⟩

/-- The text of the number that is read behind `n` others. -/
def pinText (world : World) (typed : Bytes) (n : Nat) : Bytes :=
  decimal ((extractUnsigned (cinBehind typed n)).1.getD (world.unset (n + 1))).toNat

/-- What the program has behind these request tokens: the last of them, and the number for it. -/
def grantBehind (world : World) (typed : Bytes) (answers : List HttpResponseData) : Grant :=
  match answers.getLast? with
  | none => ⟨consumerKey, consumerSecret, none, [], none⟩
  | some data =>
      let par := splitParams data.data
      ⟨consumerKey, consumerSecret, some (entry par (ascii "oauth_token")),
        entry par (ascii "oauth_token_secret"), some (pinText world typed (answers.length - 1))⟩

/-- The data of the calls that client `i` has made. -/
def dataOf (i : Nat) (calls : List Call) : List HttpResponseData :=
  (calls.filter fun call => call.client = i).map Call.data

/-- The reader of client `i` is where it would be by itself, and its calls are all that have been
made for it. -/
structure Own (world : World) (calls : List Call) (i : Nat) (c : Client) : Prop where
  reached : ∃ segments closed, world.peer i = some (segments, closed) ∧
    Reaches (clientStep world.width) (connect segments closed) c.session
  called : dataOf i calls = c.session.outputs

/-- The request of client `k` is for a request token if it is the first, and else for an access
token, with the request token before it and the number for that.  It is accepted by who has issued
this token, if the token and its secret stand in the form as they are: they are not decoded. -/
structure Requested (world : World) (typed : Bytes) (answers : List HttpResponseData) (k : Nat)
    (c : Client) : Prop where
  handler : c.handler = if k = 0 then .authReqHandler else .authPinHandler
  endpoint : (cutAt (byte '?') (receive c.exchange.text).target).1 =
    if k = 0 then requestUri else accessUri
  accepted : (grantBehind world typed (answers.take k)).PlainToken →
    Accepts world.hmac (grantBehind world typed (answers.take k)).issued (world.moment (k + 1))
      (receive c.exchange.text)

/-- Why `io_service::run` has been left: a status other than 200, a connection that is refused, or
an exception of a reader. -/
inductive Cause (world : World) (p : Program) : Prop where
  | rejected (call : Call) (mem : call ∈ p.calls) (status : call.data.status.1 ≠ 200)
  | refused (peer : world.peer p.clients.length = none)
      (length : p.clients.length = (answered p.calls).length)
  | unread (c : Client) (mem : c ∈ p.clients) (failed : failed c.session = true)

/-- The clients are served each by itself, the first of them first. -/
structure Served (world : World) (p : Program) : Prop where
  own : ∀ i c, p.clients[i]? = some c → Own world p.calls i c
  known : ∀ call ∈ p.calls, ∃ c, p.clients[call.client]? = some c ∧ c.handler = call.handler
  first : ∀ call ∈ p.calls.head?, call.client = 0

/-- The program is what the calls make of it. -/
structure Follows (world : World) (typed : Bytes) (p : Program) : Prop where
  served : Served world p
  requested : ∀ k c, p.clients[k]? = some c → Requested world typed (answered p.calls) k c
  cout : p.cout = p.calls.flatMap printed
  cin : p.cin = cinBehind typed (answered p.calls).length
  signs : Signs (grantBehind world typed (answered p.calls)) p.req
  ready : Ready p.req.params
  bound : p.clients.length ≤ (answered p.calls).length + 1
  length : p.left = false → p.clients.length = (answered p.calls).length + 1
  cause : p.left = true → Cause world p

section Calls

theorem answered_append (calls : List Call) (call : Call) :
    answered (calls ++ [call]) = answered calls ++
      if call.handler = .authReqHandler ∧ call.data.status.1 = 200 then [call.data] else [] := by
  rw [answered, List.filter_append, List.map_append]
  by_cases h : call.handler = .authReqHandler ∧ call.data.status.1 = 200
  · rw [if_pos h, List.filter_cons_of_pos (by simpa using h)]
    rfl
  · rw [if_neg h, List.filter_cons_of_neg (by simpa using h)]
    rfl

/-- The calls that client `j` adds are none of those of client `i`. -/
theorem dataOf_added (i j : Nat) (calls : List Call) (handler : AuthHandler)
    (added : List HttpResponseData) :
    dataOf i (calls ++ added.map fun data => ⟨j, handler, data⟩) =
      dataOf i calls ++ if j = i then added else [] := by
  rw [dataOf, List.filter_append, List.map_append]
  by_cases hsame : j = i
  · simp [dataOf, hsame, List.filter_map, Function.comp_def]
  · simp [dataOf, hsame, List.filter_map, Function.comp_def]

theorem cinBehind_succ (typed : Bytes) (n : Nat) :
    cinBehind typed (n + 1) = (extractUnsigned (cinBehind typed n)).2 :=
  Function.iterate_succ_apply' _ n _

theorem grantBehind_append (world : World) (typed : Bytes) (answers : List HttpResponseData)
    (data : HttpResponseData) : grantBehind world typed (answers ++ [data]) =
      ⟨consumerKey, consumerSecret, some (entry (splitParams data.data) (ascii "oauth_token")),
        entry (splitParams data.data) (ascii "oauth_token_secret"),
        some (pinText world typed answers.length)⟩ := by
  rw [grantBehind, List.getLast?_concat, List.length_append]
  rfl

theorem grantBehind_consumer (world : World) (typed : Bytes) (answers : List HttpResponseData) :
    (grantBehind world typed answers).consumerKey = consumerKey ∧
      (grantBehind world typed answers).consumerSecret = consumerSecret := by
  rw [grantBehind]
  cases answers.getLast? with
  | none => exact ⟨rfl, rfl⟩
  | some data => exact ⟨rfl, rfl⟩

/-- Later answers do not matter to a request. -/
theorem Requested.mono {world : World} {typed : Bytes} {answers more : List HttpResponseData}
    {k : Nat} {c : Client} (h : Requested world typed answers k c) (hk : k ≤ answers.length) :
    Requested world typed (answers ++ more) k c := by
  refine ⟨h.handler, h.endpoint, ?_⟩
  rw [List.take_append_of_le_length hk]
  exact h.accepted

end Calls

/-! ## Requests -/

section Requests

variable {world : World} {typed : Bytes} {p : Program} {grant : Grant}

theorem signs_consumer : Signs ⟨consumerKey, consumerSecret, none, [], none⟩
    (TokenRequester.make.setConsumer consumerKey consumerSecret) where
  consumer := OrderedMap.find?_assign_self _ _ _
  consumerSecret := rfl
  token := by decide
  tokenSecret := rfl
  verifier := by decide
  signatureMethod := by decide
  version := by decide

theorem ready_consumer :
    Ready (TokenRequester.make.setConsumer consumerKey consumerSecret).params :=
  ready_make.assign (by decide) (by decide) _

/-- A request that is made is accepted, and one that is refused changes nothing. -/
theorem requestToken_cases (handler : AuthHandler) {path uri : Bytes}
    (hsendable : Sendable ⟨true, ascii "twitter.com", path, [], .empty⟩)
    (huri : HttpClient.getUri ⟨true, ascii "twitter.com", path, [], .empty⟩ = uri)
    (hmark : byte '?' ∉ uri) (hsigns : Signs grant p.req)
    (hconsumer : grant.consumerSecret = consumerSecret) (hready : Ready p.req.params) :
    (world.peer p.clients.length = none ∧ requestToken world handler path p = (false, p)) ∨
    ∃ segments closed exchange req, world.peer p.clients.length = some (segments, closed) ∧
      requestToken world handler path p = (true, { p with
        req := req
        clients := p.clients ++ [⟨handler, exchange, connect segments closed⟩] }) ∧
      (cutAt (byte '?') (receive exchange.text).target).1 = uri ∧
      (grant.PlainToken → Accepts world.hmac grant.issued (world.moment (p.clients.length + 1))
        (receive exchange.text)) ∧
      Signs grant req ∧ Ready req.params := by
  rw [requestToken]
  cases hpeer : world.peer p.clients.length with
  | none => exact Or.inl ⟨rfl, rfl⟩
  | some peer =>
      obtain ⟨segments, closed⟩ := peer
      subst huri
      have hconnection := @sendable_assign _ hsendable (ascii "Connection") (ascii "close")
        (by decide) (by decide)
      have hnext := @ready_genRequestSignature world.hmac _ hready
        (world.moment (p.clients.length + 1))
        (HttpClient.getUri ⟨true, ascii "twitter.com", path, [], .empty⟩) (ascii "GET")
      refine Or.inr ⟨segments, closed, _, _, rfl, rfl, ?_, ?_, hsigns.genRequestSignature _ _,
        hnext⟩
      · exact target_sendRequest (sendable_queried hconnection
          ⟨notMem_makeRequest hnext.names (by decide) (by decide) (by decide) (by decide),
            notMem_makeRequest hnext.names (by decide) (by decide) (by decide) (by decide)⟩)
          hmark List.not_mem_nil
      · intro hplain
        rw [Grant.issued_of_plain hplain]
        exact hsigns.accepts_get ⟨hconsumer ▸ plain_consumerSecret, hplain.tokenSecret⟩ hready
          hconnection hmark rfl

end Requests

/-! ## Every handler keeps it -/

section Kept

variable {world : World} {typed : Bytes} {p p' : Program} {i : Nat} {c : Client}
  {session : ClientSession}

/-- The program with the session of client `i` behind a handler, which has made some calls. -/
def moved (p : Program) (i : Nat) (c : Client) (session : ClientSession)
    (new : List HttpResponseData) : Program :=
  { p with
    clients := p.clients.set i { c with session := session }
    calls := p.calls ++ new.map fun data => ⟨i, c.handler, data⟩ }

theorem Served.moved (h : Served world p) (hget : p.clients[i]? = some c)
    (hstep : clientStep world.width c.session = some session) {new : List HttpResponseData}
    (hnew : session.outputs = c.session.outputs ++ new) (hfirst : p.calls = [] → i = 0) :
    Served world (moved p i c session new) where
  own := by
    obtain ⟨hlt, -⟩ := List.getElem?_eq_some_iff.mp hget
    intro j c' hgetj
    change (p.clients.set i _)[j]? = _ at hgetj
    by_cases hsame : i = j
    · subst hsame
      rw [List.getElem?_set_self hlt, Option.some.injEq] at hgetj
      subst hgetj
      have hown := h.own i c hget
      obtain ⟨segments, closed, hpeer, hreach⟩ := hown.reached
      refine ⟨⟨segments, closed, hpeer, hreach.tail hstep⟩, ?_⟩
      rw [Authorization.moved, dataOf_added, if_pos rfl, hown.called, hnew]
    · rw [List.getElem?_set_ne hsame] at hgetj
      have hown := h.own j c' hgetj
      refine ⟨hown.reached, ?_⟩
      rw [Authorization.moved, dataOf_added, if_neg hsame, List.append_nil, hown.called]
  known := by
    obtain ⟨hlt, -⟩ := List.getElem?_eq_some_iff.mp hget
    intro call hmem
    change ∃ c', (p.clients.set i _)[call.client]? = some c' ∧ _
    rcases List.mem_append.mp hmem with hbefore | hadded
    · obtain ⟨c', hgetc, hhandler⟩ := h.known call hbefore
      by_cases hsame : i = call.client
      · rw [← hsame, hget, Option.some.injEq] at hgetc
        rw [← hsame]
        exact ⟨_, List.getElem?_set_self hlt, hgetc ▸ hhandler⟩
      · exact ⟨c', (List.getElem?_set_ne hsame).trans hgetc, hhandler⟩
    · obtain ⟨data, -, rfl⟩ := List.mem_map.mp hadded
      exact ⟨_, List.getElem?_set_self hlt, rfl⟩
  first := by
    intro call hmem
    change call ∈ (p.calls ++ _).head? at hmem
    by_cases hnone : p.calls = []
    · rw [hnone, List.nil_append] at hmem
      obtain ⟨data, -, rfl⟩ := List.mem_map.mp (List.mem_of_mem_head? hmem)
      exact hfirst hnone
    · rw [List.head?_append_of_ne_nil _ hnone] at hmem
      exact h.first call hmem

/-- A connection that has just been made. -/
theorem Served.connected (h : Served world p) {handler : AuthHandler} {exchange : Exchange}
    {segments : List Bytes} {closed : Bool}
    (hpeer : world.peer p.clients.length = some (segments, closed)) {next : Program}
    (hclients : next.clients = p.clients ++ [⟨handler, exchange, connect segments closed⟩])
    (hcalls : next.calls = p.calls) : Served world next where
  own := by
    intro j c' hgetj
    rw [hclients] at hgetj
    rw [hcalls]
    rcases Service.getElem?_concat_cases hgetj with hbefore | ⟨rfl, rfl⟩
    · exact h.own j c' hbefore
    · refine ⟨⟨segments, closed, hpeer, Relation.ReflTransGen.refl⟩, ?_⟩
      have hnone : (p.calls.filter fun call => call.client = p.clients.length) = [] := by
        apply List.filter_eq_nil_iff.mpr
        intro call hmem hclient
        obtain ⟨c', hget, -⟩ := h.known call hmem
        have hlt := (List.getElem?_eq_some_iff.mp hget).1
        simp only [decide_eq_true_eq] at hclient
        omega
      rw [dataOf, hnone]
      rfl
  known := by
    intro call hmem
    rw [hcalls] at hmem
    obtain ⟨c', hget, hhandler⟩ := h.known call hmem
    have hlt := (List.getElem?_eq_some_iff.mp hget).1
    rw [hclients]
    exact ⟨c', (List.getElem?_append_left hlt).trans hget, hhandler⟩
  first := by
    rw [hcalls]
    exact h.first

theorem requested_moved {answers : List HttpResponseData}
    (h : ∀ k c, p.clients[k]? = some c → Requested world typed answers k c)
    (hget : p.clients[i]? = some c) (new : List HttpResponseData) :
    ∀ k c', (moved p i c session new).clients[k]? = some c' →
      Requested world typed answers k c' := by
  intro k c' hgetk
  change (p.clients.set i _)[k]? = _ at hgetk
  by_cases hsame : i = k
  · subst hsame
    rw [List.getElem?_set_self (List.getElem?_eq_some_iff.mp hget).1, Option.some.injEq] at hgetk
    have hbefore := h i c hget
    rw [← hgetk]
    exact ⟨hbefore.handler, hbefore.endpoint, hbefore.accepted⟩
  · rw [List.getElem?_set_ne hsame] at hgetk
    exact h k c' hgetk

/-- A handler of a reader makes no call, or one call of the handler of its client. -/
theorem answer_cases (hstep : clientStep world.width c.session = some session) :
    (session.outputs = c.session.outputs ++ [] ∧
      answer world i c p session = { moved p i c session [] with left := failed session }) ∨
    ∃ data returns next, session.outputs = c.session.outputs ++ [data] ∧
      (match c.handler with
        | .authReqHandler => authReqHandler world data (moved p i c session [data])
        | .authPinHandler => authPinHandler data (moved p i c session [data])) = (returns, next) ∧
      answer world i c p session = { next with left := !returns } := by
  rcases clientStep_calls hstep with hnone | ⟨data, hone, hreturns⟩
  · refine Or.inl ⟨hnone.trans (List.append_nil _).symm, ?_⟩
    rw [answer, hnone, List.drop_length, List.map_nil, inTurn, moved, List.map_nil, List.append_nil]
    rfl
  · have hfailed : failed session = false := by
      rw [failed]
      split
      case h_1 fault hactivity => exact absurd hactivity (hreturns fault)
      case h_2 => rfl
    rw [answer, hone, List.drop_left, List.map_singleton, hfailed]
    cases hcalled : call world i c.handler (some data)
        { p with clients := p.clients.set i { c with session := session } } with
    | mk returns next =>
        refine Or.inr ⟨data, returns, next, rfl, hcalled, ?_⟩
        rw [inTurn, hcalled]
        cases returns <;> simp [inTurn]

/-- The call of an answer that is rejected leaves `io_service::run`. -/
theorem Follows.rejected (h : Follows world typed p) {data : HttpResponseData}
    (hserved : Served world (moved p i c session [data])) (hget : p.clients[i]? = some c)
    (hstatus : data.status.1 ≠ 200) :
    Follows world typed { moved p i c session [data] with left := true } := by
  have hanswered : answered (moved p i c session [data]).calls = answered p.calls := by
    change answered (p.calls ++ [_]) = _
    rw [answered_append, if_neg (fun hboth => hstatus hboth.2), List.append_nil]
  refine ⟨⟨hserved.own, hserved.known, hserved.first⟩, ?_, ?_, ?_, ?_, h.ready, ?_, nofun,
    fun _ => .rejected ⟨i, c.handler, data⟩ (List.mem_append_right _ List.mem_cons_self) hstatus⟩
  · rw [hanswered]
    exact requested_moved h.requested hget [data]
  · change p.cout = (p.calls ++ [_]).flatMap printed
    rw [List.flatMap_append, ← h.cout, List.flatMap_singleton, printed, if_pos hstatus,
      List.append_nil]
  · rw [hanswered]
    exact h.cin
  · rw [hanswered]
    exact h.signs
  · rw [hanswered]
    change (p.clients.set i _).length ≤ _
    rw [List.length_set]
    exact h.bound

/-- The call of an access token shows it. -/
theorem Follows.shown (h : Follows world typed p) (hleft : p.left = false) {data : HttpResponseData}
    (hserved : Served world (moved p i c session [data])) (hget : p.clients[i]? = some c)
    (hhandler : c.handler = .authPinHandler) :
    Follows world typed { moved p i c session [data] with
      cout := p.cout ++ printed ⟨i, c.handler, data⟩
      left := false } := by
  have hanswered : answered (moved p i c session [data]).calls = answered p.calls := by
    change answered (p.calls ++ [_]) = _
    rw [answered_append, if_neg, List.append_nil]
    rw [hhandler]
    exact fun hboth => AuthHandler.noConfusion hboth.1
  refine ⟨⟨hserved.own, hserved.known, hserved.first⟩, ?_, ?_, ?_, ?_, h.ready, ?_, ?_, nofun⟩
  · rw [hanswered]
    exact requested_moved h.requested hget [data]
  · change _ = (p.calls ++ [_]).flatMap printed
    rw [List.flatMap_append, ← h.cout, List.flatMap_singleton]
  · rw [hanswered]
    exact h.cin
  · rw [hanswered]
    exact h.signs
  · rw [hanswered]
    change (p.clients.set i _).length ≤ _
    rw [List.length_set]
    exact h.bound
  · intro _
    rw [hanswered]
    change (p.clients.set i _).length = _
    rw [List.length_set]
    exact h.length hleft

/-- The call of a request token shows it, reads a number, and asks for an access token. -/
theorem Follows.asked (h : Follows world typed p) (hleft : p.left = false) {data : HttpResponseData}
    (hserved : Served world (moved p i c session [data])) (hget : p.clients[i]? = some c)
    (hhandler : c.handler = .authReqHandler) (hstatus : data.status.1 = 200) {returns : Bool}
    {next : Program}
    (hcalled : authReqHandler world data (moved p i c session [data]) = (returns, next)) :
    Follows world typed { next with left := !returns } := by
  have hanswered : answered (moved p i c session [data]).calls = answered p.calls ++ [data] := by
    change answered (p.calls ++ [_]) = _
    rw [answered_append, if_pos ⟨hhandler, hstatus⟩]
  have hlength : (moved p i c session [data]).clients.length =
      (answered p.calls ++ [data]).length := by
    rw [moved, List.length_set, h.length hleft, List.length_append]
    rfl
  have hcount : (moved p i c session [data]).clients.length = (answered p.calls).length + 1 :=
    hlength.trans List.length_append
  -- what has been done before the connection is made
  generalize hasking : ({ moved p i c session [data] with
    cout := p.cout ++ printed ⟨i, c.handler, data⟩
    cin := cinBehind typed ((answered p.calls).length + 1)
    req := (p.req.setToken (entry (splitParams data.data) (ascii "oauth_token"))
      (entry (splitParams data.data) (ascii "oauth_token_secret"))).setPinNumber
        (pinText world typed (answered p.calls).length) } : Program) = asking
  have hasked : authReqHandler world data (moved p i c session [data]) =
      requestToken world .authPinHandler (ascii "/oauth/access_token") asking := by
    rw [← hasking, authReqHandler, if_neg (not_not.mpr hstatus), printed,
      if_neg (not_not.mpr hstatus), hhandler, cinBehind_succ, pinText]
    have hcin : (moved p i c session [data]).cin = cinBehind typed (answered p.calls).length :=
      h.cin
    simp only [hcin, hcount]
    rfl
  have hsigns : Signs (grantBehind world typed (answered p.calls ++ [data])) asking.req := by
    rw [grantBehind_append]
    subst hasking
    obtain ⟨hkey, hsecret⟩ := grantBehind_consumer world typed (answered p.calls)
    have hboth := (h.signs.setToken (entry (splitParams data.data) (ascii "oauth_token"))
      (entry (splitParams data.data) (ascii "oauth_token_secret"))).setPinNumber
        (pinText world typed (answered p.calls).length)
    rw [hkey, hsecret] at hboth
    exact hboth
  have hready : Ready asking.req.params := by
    subst hasking
    exact (h.ready.assign (by decide) (by decide) _).assign (by decide) (by decide) _
  have hcalls : asking.calls = p.calls ++ [⟨i, c.handler, data⟩] := by
    subst hasking
    rfl
  have hclients : asking.clients = (moved p i c session [data]).clients := by
    subst hasking
    rfl
  have hserving : Served world asking := by
    subst hasking
    exact ⟨hserved.own, hserved.known, hserved.first⟩
  have hrequested : ∀ k c', asking.clients[k]? = some c' →
      Requested world typed (answered p.calls ++ [data]) k c' := by
    intro k c' hgetk
    rw [hclients] at hgetk
    have hlt := (List.getElem?_eq_some_iff.mp hgetk).1
    exact (requested_moved h.requested hget [data] k c' hgetk).mono (by omega)
  have hcout : asking.cout = asking.calls.flatMap printed := by
    rw [hcalls, List.flatMap_append, ← h.cout, List.flatMap_singleton]
    subst hasking
    rfl
  have hcin : asking.cin = cinBehind typed (answered p.calls ++ [data]).length := by
    subst hasking
    rw [List.length_append]
    rfl
  have hanswered' : answered asking.calls = answered p.calls ++ [data] := by
    rw [hcalls]
    exact hanswered
  rw [← hanswered'] at hsigns hrequested hcin hlength
  rw [← hclients] at hlength
  rw [hasked] at hcalled
  have huri : HttpClient.getUri
      ⟨true, ascii "twitter.com", ascii "/oauth/access_token", [], .empty⟩ =
      accessUri := by
    decide
  rcases requestToken_cases .authPinHandler
      (@sendable_bare (ascii "twitter.com") (ascii "/oauth/access_token") (by decide) (by decide))
      huri (by decide) hsigns (grantBehind_consumer world typed _).2 hready with
    ⟨hpeer, hrefused⟩ | ⟨segments, closed, exchange, req, hpeer, hmade, hendpoint, haccepts,
      hsigned, hreadied⟩
  · obtain ⟨rfl, rfl⟩ := Prod.mk.inj (hrefused.symm.trans hcalled)
    exact ⟨⟨hserving.own, hserving.known, hserving.first⟩, hrequested, hcout, hcin, hsigns, hready,
      hlength.le.trans (Nat.le_succ _), nofun, fun _ => .refused hpeer hlength⟩
  · obtain ⟨rfl, rfl⟩ := Prod.mk.inj (hmade.symm.trans hcalled)
    have hmore : (asking.clients ++
        [(⟨.authPinHandler, exchange, connect segments closed⟩ : Client)]).length =
        (answered asking.calls).length + 1 := by
      rw [List.length_append, hlength]
      rfl
    refine ⟨hserving.connected hpeer rfl rfl, ?_, hcout, hcin, hsigned, hreadied, hmore.le,
      fun _ => hmore, nofun⟩
    intro k c' hgetk
    rcases Service.getElem?_concat_cases hgetk with hbefore | ⟨rfl, rfl⟩
    · exact hrequested k c' hbefore
    · have hpos : ¬ asking.clients.length = 0 := by
        rw [hlength, hanswered', List.length_append]
        exact Nat.succ_ne_zero _
      refine ⟨(if_neg hpos).symm, hendpoint.trans (if_neg hpos).symm, ?_⟩
      rw [hlength, List.take_length]
      rw [hlength] at haccepts
      exact haccepts

theorem Follows.answer (h : Follows world typed p) (hleft : p.left = false)
    (hget : p.clients[i]? = some c) (hstep : clientStep world.width c.session = some session) :
    Follows world typed (answer world i c p session) := by
  have hfirst : p.calls = [] → i = 0 := by
    intro hnone
    have hlength := h.length hleft
    have hlt := (List.getElem?_eq_some_iff.mp hget).1
    rw [hnone] at hlength
    change p.clients.length = 0 + 1 at hlength
    omega
  rcases @answer_cases world p i c session hstep with
    ⟨hnew, hanswer⟩ | ⟨data, returns, next, hnew, hcalled, hanswer⟩
  · have hserved := h.served.moved hget hstep hnew hfirst
    have hcalls : (moved p i c session []).calls = p.calls := List.append_nil _
    have hclients : (moved p i c session []).clients.length = p.clients.length := List.length_set
    rw [hanswer]
    refine ⟨⟨hserved.own, hserved.known, hserved.first⟩, ?_, ?_, ?_, ?_, h.ready, ?_, ?_, ?_⟩
    · rw [hcalls]
      exact requested_moved h.requested hget []
    · rw [hcalls]
      exact h.cout
    · rw [hcalls]
      exact h.cin
    · rw [hcalls]
      exact h.signs
    · rw [hcalls, hclients]
      exact h.bound
    · rw [hcalls, hclients]
      exact fun _ => h.length hleft
    · intro hfailed
      exact .unread _ (List.mem_set (List.getElem?_eq_some_iff.mp hget).1 _) hfailed
  · have hserved := h.served.moved hget hstep hnew hfirst
    rw [hanswer]
    by_cases hstatus : data.status.1 = 200
    · cases hhandler : c.handler with
      | authReqHandler =>
          rw [hhandler] at hcalled
          exact h.asked hleft hserved hget hhandler hstatus hcalled
      | authPinHandler =>
          have hshown := h.shown hleft hserved hget hhandler
          rw [hhandler] at hcalled
          simp only [authPinHandler, hstatus, ne_eq, not_true_eq_false, if_false,
            Prod.mk.injEq] at hcalled
          obtain ⟨rfl, rfl⟩ := hcalled
          rw [printed, if_neg (not_not.mpr hstatus)] at hshown
          simp only [hhandler] at hshown
          exact hshown
    · have hrejected := h.rejected hserved hget hstatus
      cases hhandler : c.handler with
      | authReqHandler =>
          rw [hhandler] at hcalled
          simp only [authReqHandler, hstatus, ne_eq, not_false_eq_true, if_true,
            Prod.mk.injEq] at hcalled
          obtain ⟨rfl, rfl⟩ := hcalled
          exact hrejected
      | authPinHandler =>
          rw [hhandler] at hcalled
          simp only [authPinHandler, hstatus, ne_eq, not_false_eq_true, if_true,
            Prod.mk.injEq] at hcalled
          obtain ⟨rfl, rfl⟩ := hcalled
          exact hrejected

/-- Everything a step can be. -/
theorem step_cases (h : step world i p = some p') :
    p.left = false ∧ ∃ c session, p.clients[i]? = some c ∧
      clientStep world.width c.session = some session ∧ p' = answer world i c p session := by
  unfold step at h
  cases hleft : p.left with
  | true =>
      rw [hleft, if_pos rfl] at h
      cases h
  | false =>
      rw [hleft, if_neg Bool.false_ne_true] at h
      obtain ⟨c, hget, hsession⟩ := Option.bind_eq_some_iff.mp h
      obtain ⟨session, hnext, rfl⟩ := Option.map_eq_some_iff.mp hsession
      exact ⟨rfl, c, session, hget, hnext, rfl⟩

theorem Follows.step (h : Follows world typed p) (hstep : step world i p = some p') :
    Follows world typed p' := by
  obtain ⟨hleft, c, session, hget, hnext, rfl⟩ := step_cases hstep
  exact h.answer hleft hget hnext

theorem follows_main (hmain : main world typed = some p) :
    Follows world typed p ∧ p.calls = [] := by
  rw [main, doInitialAuth] at hmain
  have hsigns : Signs ⟨consumerKey, consumerSecret, none, [], none⟩
      ((TokenRequester.make.setConsumer consumerKey consumerSecret).genRequestSignature
        world.hmac (world.moment 0) requestUri (ascii "GET")).1 :=
    signs_consumer.genRequestSignature _ _
  have hready := @ready_genRequestSignature world.hmac _ ready_consumer (world.moment 0) requestUri
    (ascii "GET")
  have huri : HttpClient.getUri
      ⟨true, ascii "twitter.com", ascii "/oauth/request_token", [], .empty⟩ = requestUri := by
    decide
  dsimp only at hmain
  generalize ((TokenRequester.make.setConsumer consumerKey consumerSecret).genRequestSignature
    world.hmac (world.moment 0) requestUri (ascii "GET")).1 = req at hmain hsigns hready
  rcases @requestToken_cases world ⟨req, [], ⟨typed, true⟩, [], [], false⟩ _ .authReqHandler _ _
      (@sendable_bare (ascii "twitter.com") (ascii "/oauth/request_token") (by decide) (by decide))
      huri (by decide) hsigns rfl hready with
    ⟨-, hrefused⟩ | ⟨segments, closed, exchange, signed, hpeer, hmade, hendpoint, haccepts,
      hsigned, hreadied⟩
  · rw [hrefused] at hmain
    cases hmain
  · rw [hmade] at hmain
    cases hmain
    have hnone : Served world ⟨req, [], ⟨typed, true⟩, [], [], false⟩ := by
      refine ⟨?_, nofun, nofun⟩
      intro j c hget
      cases hget
    refine ⟨⟨hnone.connected hpeer rfl rfl, ?_, rfl, rfl, hsigned, hreadied, le_rfl,
      fun _ => rfl, nofun⟩, rfl⟩
    intro k c hget
    rcases Service.getElem?_concat_cases hget with hbefore | ⟨rfl, rfl⟩
    · cases hbefore
    · exact ⟨rfl, hendpoint, haccepts⟩

end Kept

/-- A provider that answers both requests; the secret of the access token stands last. -/
def granting : World where
  hmac := fun _ message => message
  moment := fun _ => ⟨ascii "n", ascii "1"⟩
  peer := fun
    | 0 => some ([ascii "HTTP/1.1 200 OK\r\nContent-Length: 38\r\n\r\noauth_token=r",
        ascii "&oauth_token_secret=q&x=1"], true)
    | _ => some ([ascii "HTTP/1.1 200 OK\r\nContent-Length: 34\r\n\r\noauth_token=a",
        ascii "&oauth_token_secret=b"], true)
  width := 64
  unset := fun _ => 0

end BlackCircle.Twitter.Authorization
