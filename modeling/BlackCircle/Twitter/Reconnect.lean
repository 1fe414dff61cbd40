import BlackCircle.Http.Progress

/-!
# The end of the user stream

`http_handler` opens the user stream anew when it is called without data by the
client in `ust`, or with data while the stream of that client is closed.  Here
its calls are run along with the completion handlers of that client.  No
completion handler makes a call without data and none closes the stream, so a
chain of handlers that stops leaves the user stream as it is.
-/

namespace BlackCircle.Twitter.Reconnect

open BlackCircle.Foundation.ByteString
open BlackCircle.Foundation.ReadLoop
open BlackCircle.Http.Client
open BlackCircle.Http.Progress
open BlackCircle.Http.Response
open StateTransition

/-! ## The client in `ust` -/

/-- The user stream in `twitter_client`: the client held in `ust`, and for each client that
`make_userstream` has made, in turn, whether its stream is open. -/
structure TwitterClient where
  ust : Option Nat
  streams : List Bool
  deriving DecidableEq

namespace TwitterClient

/-- `connected`. -/
def connected (t : TwitterClient) (p : Nat) : Bool := t.streams.getD p false

def makeUserstream (t : TwitterClient) : TwitterClient :=
  ⟨some t.streams.length, t.streams ++ [true]⟩

/-- The constructor. -/
def make : TwitterClient := makeUserstream ⟨none, []⟩

/-- What `http_handler` does about the user stream, before it looks at the status. -/
def httpHandler (t : TwitterClient) (p : Nat) (data : Option HttpResponseData) : TwitterClient :=
  match data with
  | none => if t.ust = some p then t.makeUserstream else t
  | some _ => if t.ust.any fun ust => !t.connected ust then t.makeUserstream else t

end TwitterClient

/-- A call with data leaves an open user stream alone. -/
theorem httpHandler_data {t : TwitterClient} {ust : Nat} (hust : t.ust = some ust)
    (hopen : t.connected ust = true) (p : Nat) (data : HttpResponseData) :
    t.httpHandler p (some data) = t := by
  simp [TwitterClient.httpHandler, hust, hopen]

/-! ## The handlers of one client -/

/-- The client that was made first, the calls of its `http_handler` so far, null pointers
included, and what they have done to the user stream. -/
structure UserStream where
  session : ClientSession
  calls : List (Option HttpResponseData)
  twitter : TwitterClient

/-- The calls that a step adds: each passes the pointer `res` that `start_read` has made. -/
def newCalls (before after : ClientSession) : List (Option HttpResponseData) :=
  (after.outputs.drop before.outputs.length).map some

/-- One step of the client, with the calls it makes. -/
def streamStep (w : Nat) (u : UserStream) : Option UserStream :=
  (clientStep w u.session).map fun session =>
    let calls := newCalls u.session session
    ⟨session, u.calls ++ calls, calls.foldl (fun t data => t.httpHandler 0 data) u.twitter⟩

/-- `make_userstream` has been run once, and the peer sends the segments. -/
def opened (segments : List Bytes) (closed : Bool) : UserStream :=
  ⟨connect segments closed, [], .make⟩

/-- A read is outstanding. -/
def Reading (u : UserStream) : Prop :=
  ∃ op start handler, u.session.activity = .reading op start handler

/-- The last call is the only one without data. -/
def EndReported (u : UserStream) : Prop :=
  ∃ before, u.calls = before ++ [none] ∧ none ∉ before

/-- `make_userstream` has been run again. -/
def Reopened (u : UserStream) : Prop := 1 < u.twitter.streams.length

/-- Nothing has been reported or done about the end of the stream. -/
def Unnoticed (u : UserStream) : Prop := none ∉ u.calls ∧ u.twitter = .make

section Steps

variable {w : Nat} {u u' : UserStream}

theorem httpHandler_calls (calls : List HttpResponseData) :
    (calls.map some).foldl (fun t data => t.httpHandler 0 data) TwitterClient.make = .make := by
  induction calls with
  | nil => rfl
  | cons data calls ih =>
      have hfirst : TwitterClient.make.httpHandler 0 (some data) = .make :=
        httpHandler_data rfl rfl 0 data
      rw [List.map_cons, List.foldl_cons, hfirst, ih]

theorem unnoticed_step (h : Unnoticed u) (hstep : streamStep w u = some u') : Unnoticed u' := by
  obtain ⟨hcalls, htwitter⟩ := h
  obtain ⟨session, -, rfl⟩ := Option.map_eq_some_iff.mp hstep
  constructor
  · intro hmem
    rcases List.mem_append.mp hmem with hbefore | hnew
    · exact hcalls hbefore
    · obtain ⟨data, -, hdata⟩ := List.mem_map.mp hnew
      cases hdata
  · change (newCalls u.session session).foldl _ u.twitter = _
    rw [htwitter]
    exact httpHandler_calls _

theorem unnoticed_reaches {segments : List Bytes} {closed : Bool}
    (hreach : Reaches (streamStep w) (opened segments closed) u) : Unnoticed u :=
  reaches_invariant (fun _ _ => unnoticed_step) hreach ⟨List.not_mem_nil, rfl⟩

/-- The session takes the steps of the client. -/
theorem session_reaches (hreach : Reaches (streamStep w) u u') :
    Reaches (clientStep w) u.session u'.session := by
  induction hreach with
  | refl => exact Relation.ReflTransGen.refl
  | tail _ hstep ih =>
      obtain ⟨session, hsession, rfl⟩ := Option.map_eq_some_iff.mp hstep
      exact ih.tail hsession

theorem reaches_session {s : ClientSession} (hreach : Reaches (clientStep w) u.session s) :
    ∃ u', Reaches (streamStep w) u u' ∧ u'.session = s := by
  induction hreach with
  | refl => exact ⟨u, Relation.ReflTransGen.refl, rfl⟩
  | tail _ hstep ih =>
      obtain ⟨u', hreach', rfl⟩ := ih
      exact ⟨_, hreach'.tail (Option.map_eq_some_iff.mpr ⟨_, hstep, rfl⟩), rfl⟩

end Steps

/-! ## The end is not noticed -/

section Ends

variable {w : Nat} {segments : List Bytes}

theorem not_endReported {u : UserStream} (h : Unnoticed u) : ¬ EndReported u := by
  rintro ⟨before, hcalls, -⟩
  apply h.1
  rw [hcalls]
  exact List.mem_append_right _ List.mem_cons_self

theorem not_reopened {u : UserStream} (h : Unnoticed u) : ¬ Reopened u := by
  rw [Reopened, h.2]
  decide

/-- Where no read is outstanding, the client takes no step. -/
theorem rest_of_not_reading {u : UserStream} (h : ¬ Reading u) : clientStep w u.session = none := by
  cases hact : u.session.activity with
  | reading op start handler => exact absurd ⟨op, start, handler, hact⟩ h
  | stopped => simp only [clientStep, step, hact]
  | failed fault => simp only [clientStep, step, hact]

/-- On a connection that ends, some chain of handlers stops unless the reader spins. -/
theorem exists_stopped_iff :
    (∃ u, Reaches (streamStep w) (opened segments true) u ∧ ¬ Reading u) ↔
      ∀ s, Reaches (clientStep w) (connect segments true) s → ¬ Spinning s := by
  rw [← run_ends_iff]
  constructor
  · rintro ⟨u, hreach, hstopped⟩
    exact Part.dom_iff_mem.mpr
      ⟨u.session, mem_eval.mpr ⟨session_reaches hreach, rest_of_not_reading hstopped⟩⟩
  · intro hdom
    obtain ⟨s, hs⟩ := Part.dom_iff_mem.mp hdom
    obtain ⟨u, hreach, rfl⟩ := @reaches_session w (opened segments true) s (mem_eval.mp hs).1
    refine ⟨u, hreach, ?_⟩
    rintro ⟨op, start, handler, hact⟩
    rcases rests_without_read hs with hstopped | ⟨fault, hfailed⟩
    · rw [hact] at hstopped
      cases hstopped
    · rw [hact] at hfailed
      cases hfailed

end Ends

/-- That the end of a connection is reported, and the stream opened anew, wherever the chain of
handlers stops, is true only where it never stops, because the reader spins. -/
theorem end_reported_iff (w : Nat) (segments : List Bytes) :
    (∀ u, Reaches (streamStep w) (opened segments true) u → ¬ Reading u →
        EndReported u ∧ Reopened u) ↔
      ∃ s, Reaches (clientStep w) (connect segments true) s ∧ Spinning s := by
  constructor
  · intro hreported
    by_contra hnone
    have hnever : ∀ s, Reaches (clientStep w) (connect segments true) s → ¬ Spinning s :=
      fun s hreach hspin => hnone ⟨s, hreach, hspin⟩
    obtain ⟨u, hreach, hstopped⟩ := exists_stopped_iff.mpr hnever
    exact not_endReported (unnoticed_reaches hreach) (hreported u hreach hstopped).1
  · rintro ⟨s, hreach, hspin⟩ u hu hstopped
    exact absurd hspin (exists_stopped_iff.mp ⟨u, hu, hstopped⟩ s hreach)

/-- The connection ends before a byte has arrived. -/
theorem not_end_reported :
    ¬ ∀ u, Reaches (streamStep 64) (opened [] true) u → ¬ Reading u →
      EndReported u ∧ Reopened u := by
  intro hreported
  have hreach := @reaches_stateAfter _ (streamStep 64) 1 (opened [] true)
  have hstopped : ¬ Reading (stateAfter (streamStep 64) 1 (opened [] true)) := by
    rintro ⟨op, start, handler, ⟨⟩⟩
  exact not_reopened (unnoticed_reaches hreach) (hreported _ hreach hstopped).2

end BlackCircle.Twitter.Reconnect
