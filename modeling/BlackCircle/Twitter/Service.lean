import BlackCircle.Console.Pipeline
import BlackCircle.Http.Client
import BlackCircle.Twitter.Deletion
import BlackCircle.Twitter.Printing
import BlackCircle.Twitter.Requests

/-!
# The program in service

`main` runs a `twitter_client` and a `console_handler` on one `io_service`.  The
client opens the user stream, and a connection of its own for every command that
asks for one.  All handlers, of the connections, of the console and of the
terminal in front of it, run one at a time and in any order.

What is thrown out of a handler is caught around `io_service::run`, which is run
again then; only the chain of handlers that has been left issues no further read.
-/

namespace BlackCircle.Twitter.Service

open BlackCircle.Foundation.ByteString
open BlackCircle.Foundation.EventRun
open BlackCircle.Foundation.ReadLoop
open BlackCircle.Console.Commands (Command)
open BlackCircle.Console.Conversion
open BlackCircle.Console.Pipeline (Piped)
open BlackCircle.Http.Client
open BlackCircle.Http.Response
open BlackCircle.Json (Value)
open BlackCircle.Oauth
open BlackCircle.Twitter
open BlackCircle.Twitter.Deletion (runHandlers)
open BlackCircle.Twitter.Handler
open BlackCircle.Twitter.Processing (newYearText)
open BlackCircle.Twitter.Requests (Exchange Operation)
open StateTransition

/-! ## The program -/

/-- What is outside the program. -/
structure World where
  platform : Platform
  hmac : Bytes → Bytes → Bytes
  /-- The nonce and the time of each signing. -/
  moment : Nat → Moment
  /-- For each connection that is tried, the segments its peer sends, and whether the connection
  then ends; or it is refused. -/
  peer : Nat → Option (List Bytes × Bool)
  /-- The bits of a `size_t`. -/
  width : Nat

/-- An `http_client`: the handler it was made for, the one request it has written, whether its
stream is open, and its reader. -/
structure Client where
  api : ApiType
  attempt : Nat
  operation : Operation
  exchange : Exchange
  isOpen : Bool
  session : ClientSession

/-- A call of `http_handler` with response data. -/
structure Call where
  client : Nat
  api : ApiType
  data : HttpResponseData

/-- The two objects of `main`, all clients so far, and the calls of `http_handler` in their
order. -/
structure Program (σ : Type) where
  req : TokenRequester
  attempts : Nat
  clients : List Client
  ust : Option Nat
  calls : List Call
  record : Record σ
  piped : Piped
  stopPosted : Bool
  stopped : Bool

/-- One call after the other, up to one that throws. -/
def inTurn {β τ : Type} (call : β → τ → Bool × τ) : List β → τ → Bool × τ
  | [], t => (true, t)
  | b :: bs, t =>
      match call b t with
      | (true, t) => inTurn call bs t
      | (false, t) => (false, t)

/-- How what is stored is used: one call of `process_single_entity`, and whether `print` returns
for its arguments. -/
structure Storage (σ ε α : Type) where
  process : Nat → Value → σ → Except ε α × σ
  printReturns : Bytes → σ → Bool

/-- The two stores. -/
def stores {Time : Type} (readTime : Bytes → Time) (dateText : Time → Option Bytes)
    (around : Nat → Nat → Surroundings Time) :
    Storage (Stores Time) Failure (Bool × List (Printed Time)) where
  process := processStored readTime dateText around
  printReturns := Printing.printReturns dateText

section Members

variable {σ ε α : Type} (world : World) (storage : Storage σ ε α)

/-- What the three requests have in common: `make_http_client` throws if the connection is refused;
else the request is signed and written.  A function returns, or throws, and leaves a program. -/
def request (api : ApiType) (operation : Moment → Operation)
    (make : Moment → TokenRequester → TokenRequester × Exchange) (p : Program σ) :
    Bool × Program σ :=
  match world.peer p.attempts with
  | none => (false, { p with attempts := p.attempts + 1 })
  | some (segments, closed) =>
      let moment := world.moment p.clients.length
      let (req, exchange) := make moment p.req
      (true, { p with
        req := req
        attempts := p.attempts + 1
        clients := p.clients ++
          [⟨api, p.attempts, operation moment, exchange, true, connect segments closed⟩] })

def makeUserstream (p : Program σ) : Bool × Program σ :=
  match request world .userStream .makeUserstream (Requests.makeUserstream world.hmac) p with
  | (true, next) => (true, { next with ust := some p.clients.length })
  | (false, next) => (false, next)

def requestFriendsTimeline (p : Program σ) : Bool × Program σ :=
  request world .friendsTimeline .requestFriendsTimeline
    (Requests.requestFriendsTimeline world.hmac) p

def statusesUpdate (status : Bytes) (p : Program σ) : Bool × Program σ :=
  request world .statusesUpdate (fun moment => .statusesUpdate moment status)
    (fun moment => Requests.statusesUpdate world.hmac moment status) p

def shutdown (p : Program σ) : Program σ := { p with ust := none, stopPosted := true }

/-- `connected` of a client. -/
def connected (p : Program σ) (i : Nat) : Bool := p.clients[i]?.any Client.isOpen

/-- `http_handler`, called by client `i`. -/
def httpHandler (api : ApiType) (i : Nat) (data : Option HttpResponseData) (p : Program σ) :
    Bool × Program σ :=
  match data with
  | none => if p.ust = some i then makeUserstream world p else (true, p)
  | some data =>
      let (returns, p) :=
        if p.ust.any fun ust => !connected p ust then makeUserstream world p else (true, p)
      if returns then
        (true, { p with
          calls := p.calls ++ [⟨i, api, data⟩]
          record := Handler.httpHandler storage.process api data p.record })
      else (false, p)

/-- What `readline_handler` does for a command, before it reads on. -/
def act (command : Command) (p : Program σ) : Bool × Program σ :=
  if command.cmd = ascii "get" then requestFriendsTimeline world p
  else if command.cmd = ascii "print" then (storage.printReturns command.args p.record.state, p)
  else if command.cmd = ascii "post" then statusesUpdate world command.args p
  else if command.cmd = ascii "exit" then (true, shutdown p)
  else (true, p)

end Members

def consumerKey : Bytes := ascii "rsMOC9H8ktdcmyipPMO9g"

def consumerSecret : Bytes := ascii "U6EiksBEvtQyZH54LVwEUPNpzvvnf3kJxAWBfKmUo0g"

/-! ## Steps -/

inductive Event where
  | piped (event : Console.Pipeline.Event)
  | client (i : Nat)
  | stop

section Steps

variable {σ ε α : Type} (world : World) (storage : Storage σ ε α)

/-- The chain of handlers of client `i` issues no further read. -/
def leaveClient (i : Nat) (p : Program σ) : Program σ :=
  { p with clients := p.clients.modify i fun c =>
      { c with session := { c.session with activity := .stopped } } }

/-- The chain of `readline_handler` issues no further read. -/
def leaveConsole (p : Program σ) : Program σ :=
  { p with piped := { p.piped with
      console := { p.piped.console with activity := .stopped } } }

/-- What is behind a handler of client `i` that leaves the session behind. -/
def answer (i : Nat) (c : Client) (p : Program σ) (session : ClientSession) : Program σ :=
  let calls := (session.outputs.drop c.session.outputs.length).map some
  let p := { p with clients := p.clients.set i { c with session := session } }
  match inTurn (httpHandler world storage c.api i) calls p with
  | (true, p) => p
  | (false, p) => leaveClient i p

/-- What is behind a handler in front of the commands that leaves this behind. -/
def obey (p : Program σ) (piped : Piped) : Program σ :=
  let commands := piped.console.outputs.drop p.piped.console.outputs.length
  match inTurn (act world storage) commands { p with piped := piped } with
  | (true, p) => p
  | (false, p) => leaveConsole p

def step (event : Event) (p : Program σ) : Option (Program σ) :=
  if p.stopped then none
  else
    match event with
    | .piped event =>
        (Console.Pipeline.step world.platform event p.piped).map (obey world storage p)
    | .client i =>
        p.clients[i]?.bind fun c =>
          (clientStep world.width c.session).map (answer world storage i c p)
    | .stop => if p.stopPosted then some { p with stopped := true } else none

end Steps

/-- What `main` makes of the options. -/
def requester (accessToken tokenSecret : Bytes) : TokenRequester :=
  (TokenRequester.make.setConsumer consumerKey consumerSecret).setToken accessToken tokenSecret

section Main

variable {σ : Type} (world : World) (accessToken tokenSecret : Bytes) (initial : Record σ)
  (segments : List Bytes)

/-- What `main` has made before the client opens the user stream; what is printed arrives in
segments. -/
def unserved : Program σ where
  req := requester accessToken tokenSecret
  attempts := 0
  clients := []
  ust := none
  calls := []
  record := initial
  piped := Console.Pipeline.start segments
  stopPosted := false
  stopped := false

/-- `main` up to the first `io_service::run`, for these options.  It is left before if one of them
is missing or the user stream is refused. -/
def main : Option (Program σ) :=
  if accessToken = [] ∨ tokenSecret = [] then none
  else
    match makeUserstream world (unserved accessToken tokenSecret initial segments) with
    | (true, p) => some p
    | (false, _) => none

end Main

/-! ## What every handler keeps -/

/-- The data of the calls that client `i` has made. -/
def dataOf (i : Nat) (calls : List Call) : List HttpResponseData :=
  (calls.filter fun call => call.client = i).map Call.data

/-- The reader of client `i` is where it would be by itself, and its calls are all that have been
made for it. -/
structure Own (world : World) (calls : List Call) (i : Nat) (c : Client) : Prop where
  reached : ∃ segments closed, world.peer c.attempt = some (segments, closed) ∧
    Reaches (clientStep world.width) (connect segments closed) c.session
  streamOpen : c.isOpen = true
  called : dataOf i calls = c.session.outputs

/-- The clients are served each by itself, and the record is the one behind all calls. -/
structure Serves {σ ε α : Type} (process : Nat → Value → σ → Except ε α × σ) (world : World)
    (initial : Record σ) (p : Program σ) : Prop where
  own : ∀ i c, p.clients[i]? = some c → Own world p.calls i c
  ust : ∀ ust ∈ p.ust, ust < p.clients.length
  typed : ∀ call ∈ p.calls, ∃ c, p.clients[call.client]? = some c ∧ c.api = call.api
  recorded : p.record = runHandlers process (p.calls.map fun call => (call.api, call.data)) initial

theorem getElem?_concat_cases {α : Type} {l : List α} {a b : α} {i : Nat}
    (h : (l ++ [a])[i]? = some b) : l[i]? = some b ∨ (i = l.length ∧ b = a) := by
  rw [List.getElem?_append] at h
  split_ifs at h with hlt
  · exact Or.inl h
  · obtain ⟨hsingle, hb⟩ := List.getElem?_eq_some_iff.mp h
    rw [List.length_singleton] at hsingle
    rw [List.getElem_singleton] at hb
    exact Or.inr ⟨by omega, hb.symm⟩

theorem dataOf_append (i : Nat) (calls more : List Call) :
    dataOf i (calls ++ more) = dataOf i calls ++ dataOf i more := by
  rw [dataOf, List.filter_append, List.map_append]
  rfl

/-- The calls that client `j` adds are none of those of client `i`. -/
theorem dataOf_added (i j : Nat) (api : ApiType) (added : List HttpResponseData) :
    dataOf i (added.map fun data => ⟨j, api, data⟩) = if j = i then added else [] := by
  by_cases hsame : j = i
  · simp [dataOf, hsame, List.filter_map, Function.comp_def]
  · simp [dataOf, hsame, List.filter_map, Function.comp_def]

theorem inTurn_invariant {β τ : Type} {call : β → τ → Bool × τ} {inv : τ → Prop}
    (hcall : ∀ b t, inv t → inv (call b t).2) (bs : List β) {t : τ} (h : inv t) :
    inv (inTurn call bs t).2 := by
  induction bs generalizing t with
  | nil => exact h
  | cons b bs ih =>
      have hfirst := hcall b t h
      rw [inTurn]
      cases hresult : call b t with
      | mk returns next =>
          rw [hresult] at hfirst
          cases returns with
          | false => exact hfirst
          | true => exact ih hfirst

section Kept

variable {σ ε α : Type} {world : World} {storage : Storage σ ε α}
  {initial : Record σ} {p : Program σ}

/-- A request that is made adds a client, and one that is refused adds none. -/
theorem request_cases (api : ApiType) (operation : Moment → Operation)
    (make : Moment → TokenRequester → TokenRequester × Exchange) (p : Program σ) :
    (world.peer p.attempts = none ∧
      request world api operation make p = (false, { p with attempts := p.attempts + 1 })) ∨
    ∃ segments closed, world.peer p.attempts = some (segments, closed) ∧
      request world api operation make p = (true, { p with
        req := (make (world.moment p.clients.length) p.req).1
        attempts := p.attempts + 1
        clients := p.clients ++ [⟨api, p.attempts, operation (world.moment p.clients.length),
          (make (world.moment p.clients.length) p.req).2, true, connect segments closed⟩] }) := by
  rw [request]
  cases hpeer : world.peer p.attempts with
  | none => exact Or.inl ⟨rfl, rfl⟩
  | some peer =>
      obtain ⟨segments, closed⟩ := peer
      exact Or.inr ⟨segments, closed, rfl, rfl⟩

/-- A new client has been connected, and has made no calls. -/
theorem Serves.new (h : Serves storage.process world initial p) {c : Client} {segments : List Bytes}
    {closed : Bool} (hpeer : world.peer c.attempt = some (segments, closed))
    (hsession : c.session = connect segments closed) (hopen : c.isOpen = true)
    (req : TokenRequester) (attempts : Nat) :
    Serves storage.process world initial
      { p with req := req, attempts := attempts, clients := p.clients ++ [c] } where
  own := by
    intro i c' hget
    rcases getElem?_concat_cases hget with hbefore | ⟨rfl, rfl⟩
    · exact h.own i c' hbefore
    · refine ⟨⟨segments, closed, hpeer, hsession ▸ Relation.ReflTransGen.refl⟩, hopen, ?_⟩
      have hnone : (p.calls.filter fun call => call.client = p.clients.length) = [] := by
        apply List.filter_eq_nil_iff.mpr
        intro call hmem hclient
        obtain ⟨c', hget, -⟩ := h.typed call hmem
        have hlt := (List.getElem?_eq_some_iff.mp hget).1
        simp only [decide_eq_true_eq] at hclient
        omega
      rw [hsession, dataOf, hnone]
      rfl
  ust := by
    intro ust hust
    have hbefore := h.ust ust hust
    rw [List.length_append]
    omega
  typed := by
    intro call hmem
    obtain ⟨c', hget, hapi⟩ := h.typed call hmem
    have hlt := (List.getElem?_eq_some_iff.mp hget).1
    exact ⟨c', (List.getElem?_append_left hlt).trans hget, hapi⟩
  recorded := h.recorded

theorem Serves.request (h : Serves storage.process world initial p) (api : ApiType)
    (operation : Moment → Operation)
    (make : Moment → TokenRequester → TokenRequester × Exchange) :
    Serves storage.process world initial (request world api operation make p).2 := by
  rcases @request_cases _ world api operation make p with
    ⟨-, hrefused⟩ | ⟨segments, closed, hpeer, hmade⟩
  · rw [hrefused]
    exact ⟨h.own, h.ust, h.typed, h.recorded⟩
  · rw [hmade]
    exact h.new hpeer rfl rfl _ _

theorem Serves.makeUserstream (h : Serves storage.process world initial p) :
    Serves storage.process world initial (makeUserstream world p).2 := by
  have hrequest := h.request .userStream .makeUserstream (Requests.makeUserstream world.hmac)
  rw [Service.makeUserstream]
  rcases @request_cases _ world .userStream .makeUserstream
      (Requests.makeUserstream world.hmac) p with ⟨-, hrefused⟩ | ⟨segments, closed, -, hmade⟩
  · rw [hrefused] at hrequest ⊢
    exact hrequest
  · rw [hmade] at hrequest ⊢
    refine ⟨hrequest.own, ?_, hrequest.typed, hrequest.recorded⟩
    rintro ust ⟨⟩
    rw [List.length_append, List.length_singleton]
    exact Nat.lt_succ_self _

theorem Serves.act (h : Serves storage.process world initial p) (command : Command) :
    Serves storage.process world initial (act world storage command p).2 := by
  rw [Service.act]
  split_ifs
  · exact h.request _ _ _
  · exact h
  · exact h.request _ _ _
  · exact ⟨h.own, nofun, h.typed, h.recorded⟩
  · exact h

theorem Serves.obey (h : Serves storage.process world initial p) (piped : Piped) :
    Serves storage.process world initial (obey world storage p piped) := by
  have hpiped : Serves storage.process world initial { p with piped := piped } :=
    ⟨h.own, h.ust, h.typed, h.recorded⟩
  have hacted := @inTurn_invariant _ _ (Service.act world storage)
    (Serves storage.process world initial) (fun command _ h => h.act command)
    (piped.console.outputs.drop p.piped.console.outputs.length) _ hpiped
  rw [Service.obey]
  cases hresult : inTurn (Service.act world storage)
      (piped.console.outputs.drop p.piped.console.outputs.length) { p with piped := piped } with
  | mk returns next =>
      rw [hresult] at hacted
      cases returns with
      | true => exact hacted
      | false => exact ⟨hacted.own, hacted.ust, hacted.typed, hacted.recorded⟩

/-! ### Calls -/

/-- The program behind calls of client `i`. -/
def called (process : Nat → Value → σ → Except ε α × σ) (api : ApiType) (i : Nat)
    (calls : List HttpResponseData) (p : Program σ) : Program σ :=
  { p with
    calls := p.calls ++ calls.map fun data => ⟨i, api, data⟩
    record := runHandlers process (calls.map fun data => (api, data)) p.record }

/-- With the user stream open, a call with data does nothing about it. -/
theorem httpHandler_data {p : Program σ} (hopen : ∀ ust ∈ p.ust, connected p ust = true)
    (api : ApiType) (i : Nat) (data : HttpResponseData) :
    httpHandler world storage api i (some data) p =
      (true, called storage.process api i [data] p) := by
  have hany : (p.ust.any fun ust => !connected p ust) = false := by
    cases hust : p.ust with
    | none => rfl
    | some ust => simp [hopen ust hust]
  rw [httpHandler, hany]
  rfl

theorem inTurn_httpHandler {p : Program σ} (hopen : ∀ ust ∈ p.ust, connected p ust = true)
    (api : ApiType) (i : Nat) (calls : List HttpResponseData) :
    inTurn (httpHandler world storage api i) (calls.map some) p =
      (true, called storage.process api i calls p) := by
  induction calls generalizing p with
  | nil => simp [inTurn, called, runHandlers]
  | cons data calls ih =>
      have hnext : ∀ ust ∈ (called storage.process api i [data] p).ust,
          connected (called storage.process api i [data] p) ust = true := hopen
      rw [List.map_cons, inTurn, httpHandler_data hopen]
      simp only
      rw [ih hnext, called, called, called]
      simp [runHandlers]

/-- A handler of a client leaves its session behind, and the calls it has made. -/
theorem Serves.answer_eq (h : Serves storage.process world initial p) {i : Nat} {c : Client}
    (hget : p.clients[i]? = some c) (session : ClientSession) :
    answer world storage i c p session =
      called storage.process c.api i (session.outputs.drop c.session.outputs.length)
        { p with clients := p.clients.set i { c with session := session } } := by
  have hopen : ∀ ust ∈ p.ust,
      connected { p with clients := p.clients.set i { c with session := session } } ust = true := by
    intro ust hust
    have hlt := h.ust ust hust
    by_cases hsame : i = ust
    · subst hsame
      rw [connected, List.getElem?_set_self hlt]
      exact (h.own i c hget).streamOpen
    · rw [connected, List.getElem?_set_ne hsame, List.getElem?_eq_getElem hlt]
      exact (h.own ust _ (List.getElem?_eq_getElem hlt)).streamOpen
  rw [answer, inTurn_httpHandler hopen]

theorem Serves.answer (h : Serves storage.process world initial p) {i : Nat} {c : Client}
    (hget : p.clients[i]? = some c) {session : ClientSession}
    (hstep : clientStep world.width c.session = some session) :
    Serves storage.process world initial (answer world storage i c p session) := by
  obtain ⟨hlt, -⟩ := List.getElem?_eq_some_iff.mp hget
  obtain ⟨new, hnew⟩ := outputs_step hstep
  rw [h.answer_eq hget, ← hnew, List.drop_left]
  refine ⟨?_, ?_, ?_, ?_⟩
  · intro j c' hgetj
    change (p.clients.set i _)[j]? = _ at hgetj
    have hcalls : dataOf j (p.calls ++ new.map fun data => ⟨i, c.api, data⟩) =
        dataOf j p.calls ++ if i = j then new else [] := by
      rw [dataOf_append, dataOf_added]
    by_cases hsame : i = j
    · subst hsame
      rw [List.getElem?_set_self hlt, Option.some.injEq] at hgetj
      subst hgetj
      have hown := h.own i c hget
      obtain ⟨segments, closed, hpeer, hreach⟩ := hown.reached
      refine ⟨⟨segments, closed, hpeer, hreach.tail hstep⟩, hown.streamOpen, ?_⟩
      change dataOf i (p.calls ++ _) = session.outputs
      rw [hcalls, if_pos rfl, hown.called, hnew]
    · rw [List.getElem?_set_ne hsame] at hgetj
      have hown := h.own j c' hgetj
      refine ⟨hown.reached, hown.streamOpen, ?_⟩
      change dataOf j (p.calls ++ _) = c'.session.outputs
      rw [hcalls, if_neg hsame, List.append_nil, hown.called]
  · intro ust hust
    change ust < (p.clients.set i _).length
    rw [List.length_set]
    exact h.ust ust hust
  · intro call hmem
    change ∃ c', (p.clients.set i _)[call.client]? = some c' ∧ _
    rcases List.mem_append.mp hmem with hbefore | hadded
    · obtain ⟨c', hgetc, hapi⟩ := h.typed call hbefore
      by_cases hsame : i = call.client
      · rw [← hsame, hget, Option.some.injEq] at hgetc
        rw [← hsame]
        exact ⟨_, List.getElem?_set_self hlt, hgetc ▸ hapi⟩
      · exact ⟨c', (List.getElem?_set_ne hsame).trans hgetc, hapi⟩
    · obtain ⟨data, -, rfl⟩ := List.mem_map.mp hadded
      exact ⟨_, List.getElem?_set_self hlt, rfl⟩
  · change runHandlers storage.process _ p.record =
      runHandlers storage.process ((p.calls ++ _).map _) initial
    rw [h.recorded, List.map_append, runHandlers, runHandlers, runHandlers, List.foldl_append,
      List.map_map]
    rfl

/-- Everything a step can be. -/
theorem step_cases {event : Event} {p' : Program σ}
    (h : step world storage event p = some p') :
    (∃ front piped, event = .piped front ∧
        Console.Pipeline.step world.platform front p.piped = some piped ∧
        p' = obey world storage p piped) ∨
      (∃ i c session, event = .client i ∧ p.clients[i]? = some c ∧
        clientStep world.width c.session = some session ∧
        p' = answer world storage i c p session) ∨
      (event = .stop ∧ p' = { p with stopped := true }) := by
  unfold step at h
  by_cases hstopped : p.stopped = true
  · rw [if_pos hstopped] at h
    cases h
  · rw [if_neg hstopped] at h
    cases event with
    | piped front =>
        obtain ⟨piped, hpiped, rfl⟩ := Option.map_eq_some_iff.mp h
        exact Or.inl ⟨front, piped, rfl, hpiped, rfl⟩
    | client i =>
        obtain ⟨c, hget, hsession⟩ := Option.bind_eq_some_iff.mp h
        obtain ⟨session, hnext, rfl⟩ := Option.map_eq_some_iff.mp hsession
        exact Or.inr (Or.inl ⟨i, c, session, rfl, hget, hnext, rfl⟩)
    | stop =>
        obtain ⟨-, hstop⟩ := Option.ite_none_right_eq_some.mp h
        exact Or.inr (Or.inr ⟨rfl, (Option.some.inj hstop).symm⟩)

theorem Serves.step (h : Serves storage.process world initial p) {event : Event} {p' : Program σ}
    (hstep : step world storage event p = some p') : Serves storage.process world initial p' := by
  rcases step_cases hstep with
    ⟨front, piped, -, -, rfl⟩ | ⟨i, c, session, -, hget, hnext, rfl⟩ | ⟨-, rfl⟩
  · exact h.obey piped
  · exact h.answer hget hnext
  · exact ⟨h.own, h.ust, h.typed, h.recorded⟩

theorem makeUserstream_of_main {accessToken tokenSecret : Bytes} {segments : List Bytes}
    (h : main world accessToken tokenSecret initial segments = some p) :
    makeUserstream world (unserved accessToken tokenSecret initial segments) = (true, p) := by
  rw [main] at h
  split at h
  · cases h
  · split at h
    case h_1 next hmade =>
      cases h
      exact hmade
    case h_2 => cases h

theorem serves_main {accessToken tokenSecret : Bytes} {segments : List Bytes}
    (hmain : main world accessToken tokenSecret initial segments = some p) :
    Serves storage.process world initial p := by
  have hunserved : Serves storage.process world initial
      (unserved accessToken tokenSecret initial segments) := by
    refine ⟨?_, nofun, nofun, rfl⟩
    intro i c hget
    cases hget
  have hopened := hunserved.makeUserstream
  rwa [makeUserstream_of_main hmain] at hopened

end Kept

/-- In every run, in whatever order the handlers of the connections, the console and the terminal
run: each connection has been read as far as it would be by itself; the handler has been called
once for each of its responses, in their order, with the type of its own request; and what has been
processed is what these calls process one after the other. -/
theorem each_response_once {σ ε α : Type} (world : World) (storage : Storage σ ε α)
    (accessToken tokenSecret : Bytes) (initial : Record σ) (segments : List Bytes)
    (events : List Event) {start p : Program σ}
    (hmain : main world accessToken tokenSecret initial segments = some start)
    (hrun : run (step world storage) events start = some p) :
    (∀ i c, p.clients[i]? = some c →
      (∃ sent closed, world.peer c.attempt = some (sent, closed) ∧
        Reaches (clientStep world.width) (connect sent closed) c.session) ∧
      dataOf i p.calls = c.session.outputs) ∧
    (∀ call ∈ p.calls, ∃ c, p.clients[call.client]? = some c ∧ c.api = call.api) ∧
    p.record =
      runHandlers storage.process (p.calls.map fun call => (call.api, call.data)) initial := by
  have hserves : Serves storage.process world initial p :=
    run_invariant (fun _ _ _ h hstep => h.step hstep) hrun (serves_main hmain)
  exact ⟨fun i c hget => ⟨(hserves.own i c hget).reached, (hserves.own i c hget).called⟩,
    hserves.typed, hserves.recorded⟩

/-- A user stream with one message, and a timeline with one tweet for every other request. -/
def talking : World where
  platform := .posix
  hmac := fun _ message => message
  moment := fun _ => ⟨ascii "n", ascii "1"⟩
  peer := fun
    | 0 => some ([ascii "HTTP/1.1 200 OK\r\nTransfer-Encoding: chunked\r\n\r\n",
        ascii "50\r\n" ++ Deletion.tweetText (ascii "1") ++ ascii "\r\n"], false)
    | _ => some ([ascii "HTTP/1.1 200 OK\r\nContent-Length: 82\r\n\r\n[",
        Deletion.tweetText (ascii "2") ++ ascii "]"], true)
  width := 64

/-- The timeline is asked for, and arrives, while the message is being read. -/
def crossing : List Event :=
  [.client 0, .client 0, .piped (.terminal (.key (.text "get".toList))),
    .piped (.terminal (.key .cr)), .client 0, .piped (.command 9),
    .piped (.command 9), .client 1, .client 1, .client 0, .client 1, .client 1]

theorem each_response_once_crossing :
    ∃ p, (main talking (ascii "t") (ascii "s") ⟨.empty, []⟩ []).bind
        (run (step talking (stores (fun _ => ()) newYearText fun _ _ => default)) crossing) =
          some p ∧
      p.calls.map Call.client = [0, 1] ∧
      p.record = runHandlers (processStored (fun _ => ()) newYearText fun _ _ => default)
        (p.calls.map fun call => (call.api, call.data)) ⟨.empty, []⟩ := by
  have hcalls : ((main talking (ascii "t") (ascii "s") ⟨.empty, []⟩ []).bind
      (run (step talking (stores (fun _ => ()) newYearText fun _ _ => default)) crossing)).any
        (fun p => p.calls.map Call.client = [0, 1]) = true := by
    decide +kernel
  obtain ⟨p, hp, hclients⟩ := (Option.any_eq_true _ _).mp hcalls
  obtain ⟨start, hmain, hrun⟩ := Option.bind_eq_some_iff.mp hp
  have hrecord := (each_response_once talking _ (ascii "t") (ascii "s") _ [] crossing hmain
    hrun).2.2
  exact ⟨p, hp, of_decide_eq_true hclients, hrecord⟩

end BlackCircle.Twitter.Service
