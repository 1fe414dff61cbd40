import BlackCircle.Console.Printing
import BlackCircle.Twitter.Entered
import BlackCircle.Twitter.Listing

/-!
# What the program shows

In `Service`, what is printed arrives at the terminal's reader from outside.
Here the handlers print it into the pipe in front of this reader, which gets it
in any parts.  A run of this program is one of the other, for the parts that
have arrived in it.
-/

namespace BlackCircle.Twitter.Display

open BlackCircle.Foundation.ByteString
open BlackCircle.Foundation.EntryList (find)
open BlackCircle.Foundation.EventRun
open BlackCircle.Foundation.ReadLoop
open BlackCircle.Foundation.Terminal (Screen)
open BlackCircle.Foundation.Unicode
open BlackCircle.Console.Commands (Command)
open BlackCircle.Console.LineEditor
open BlackCircle.Console.OutputHandler (Font Pictures Printable Typed linesText outStep
  printable_of_all twoColumns)
open BlackCircle.Console.Pipeline (Piped)
open BlackCircle.Console.Printing (Shows)
open BlackCircle.Http.Response
open BlackCircle.Json (Value)
open BlackCircle.Json.Grammar (parseJson)
open BlackCircle.Twitter
open BlackCircle.Twitter.Deletion (runHandlers)
open BlackCircle.Twitter.Handler
open BlackCircle.Twitter.Printing
open BlackCircle.Twitter.Processing
open BlackCircle.Twitter.Requested (console_step)
open BlackCircle.Twitter.Service

/-! ## What is printed -/

section Texts

variable {Time : Type} (readTime : Bytes → Time) (around : Nat → Nat → Surroundings Time)
  (dateText : Time → Option Bytes) (index : List Value → List (TweetObject Time))

/-- What stands in front of a tweet that is printed for an entity. -/
def announced : Value → Bytes
  | .object o => if (find (ascii "text") o).isSome then [] else ascii "DELETE: "
  | _ => []

/-- What `process_single_entity` prints.  A date that cannot be printed throws where the tweet is
announced already; whatever else throws does so before anything is printed. -/
def entityText (t : Value) : Except Failure (Bool × List (Printed Time)) → Bytes
  | .ok (_, printed) => printed.flatMap fun shown => announced t ++ tweetText shown ++ [LF]
  | .error .outOfRange => announced t
  | .error _ => []

def entitiesText : List Value → Record (Stores Time) → Bytes
  | [], _ => []
  | t :: ts, r =>
      let (result, next) := processEntity (processStored readTime dateText around) t r
      entityText t result ++ entitiesText ts next

/-- What `http_handler` prints; what it has to say of an exception does not go to `std::cout`. -/
def handlerText (api : ApiType) (data : HttpResponseData) (r : Record (Stores Time)) : Bytes :=
  if data.status.1 ≠ 200 then
    ascii "request rejected: " ++ data.status.2 ++ [LF] ++ data.data ++ [LF]
  else
    let next := Handler.httpHandler (processStored readTime dateText around) api data r
    entitiesText readTime around dateText (next.entities.drop r.entities.length) r

def callsText : List Call → Record (Stores Time) → Bytes
  | [], _ => []
  | call :: calls, r =>
      handlerText readTime around dateText call.api call.data r ++
        callsText calls
          (Handler.httpHandler (processStored readTime dateText around) call.api call.data r)

/-- What `readline_handler` prints for a command; `index` is the date index behind these
entities. -/
def commandText (command : Command) (r : Record (Stores Time)) : Bytes :=
  if command.cmd = ascii "print" then
    (print dateText r.state (index r.entities) command.args).1
  else []

/-- What is printed in a step of the program. -/
def stepText (p p' : Program (Stores Time)) : Bytes :=
  callsText readTime around dateText (p'.calls.drop p.calls.length) p.record ++
    (p'.piped.console.outputs.drop p.piped.console.outputs.length).flatMap fun command =>
      commandText dateText index command p'.record

end Texts

/-! ## What is caught -/

section Caught

variable {σ ε α : Type} (world : World) (storage : Storage σ ε α)

/-- Whether a call of `for_each` throws. -/
def forEachThrows : List Value → Record σ → Bool
  | [], _ => false
  | t :: ts, r =>
      match processEntity storage.process t r with
      | (.ok _, r) => forEachThrows ts r
      | (.error _, _) => true

/-- Whether `http_handler` catches something. -/
def handlerCatches (type : ApiType) (data : HttpResponseData) (r : Record σ) : Bool :=
  if data.status.1 ≠ 200 then false
  else
    match parseJson data.data with
    | .error _ => true
    | .ok t =>
        match type with
        | .userStream => hasBrace data.data && forEachThrows storage [t] r
        | .friendsTimeline =>
            match t with
            | .array elements => forEachThrows storage elements.reverse r
            | _ => true
        | .statusesUpdate => false

def callsCatch : List Call → Record σ → Bool
  | [], _ => false
  | call :: calls, r =>
      handlerCatches storage call.api call.data r ||
        callsCatch calls (Handler.httpHandler storage.process call.api call.data r)

/-- Whether a completion handler of a connection has been left by an exception. -/
def failed (session : Http.Client.ClientSession) : Bool :=
  match session.activity with
  | .failed _ => true
  | _ => false

/-- Whether a handler is left by an exception, which is caught around `io_service::run`. -/
def leaves (event : Service.Event) (p : Program σ) : Bool :=
  match event with
  | .piped event =>
      (Console.Pipeline.step world.platform event p.piped).any fun piped =>
        !(inTurn (act world storage) (piped.console.outputs.drop p.piped.console.outputs.length)
          { p with piped := piped }).1
  | .client i =>
      p.clients[i]?.any fun c =>
        (Http.Client.clientStep world.width c.session).any fun session =>
          failed session ||
            !(inTurn (Service.httpHandler world storage c.api i)
              ((session.outputs.drop c.session.outputs.length).map some)
              { p with clients := p.clients.set i { c with session := session } }).1
  | .stop => false

/-- Whether a step of the program writes to `std::cerr`. -/
def diagnoses (event : Service.Event) (p p' : Program σ) : Bool :=
  callsCatch storage (p'.calls.drop p.calls.length) p.record || leaves world storage event p

end Caught

/-! ## The system -/

/-- The program, all that it has printed, and what of this is in the pipe.  Only the standard output
is redirected: what is said of an exception appears on the screen beside all this, and no more is
known of the screen then. -/
structure Displayed (Time : Type) where
  program : Program (Stores Time)
  printed : Bytes
  pipe : Bytes
  diagnosed : Bool

/-- What is on the screen, as far as it is known. -/
def screenOf {γ Time : Type} (font : Font γ) (d : Displayed Time) : Option (Screen γ) :=
  if d.diagnosed then none else some (font.screen d.program.piped.front.editor.screen)

theorem eq_of_screenOf {γ Time : Type} {font : Font γ} {d : Displayed Time} {screen : Screen γ}
    (h : screenOf font d = some screen) :
    screen = font.screen d.program.piped.front.editor.screen := by
  rw [screenOf] at h
  split_ifs at h
  exact (Option.some.inj h).symm

/-- Parts of the output are on their way to the terminal's reader. -/
def receive {σ : Type} (segments : List Bytes) (p : Program σ) : Program σ :=
  { p with piped := { p.piped with
      front := Console.Printing.receive segments p.piped.front } }

inductive Event where
  | program (event : Service.Event)
  | arrive (count : Nat)

section System

variable {Time : Type} (world : World) (readTime : Bytes → Time)
  (around : Nat → Nat → Surroundings Time) (dateText : Time → Option Bytes)
  (index : List Value → List (TweetObject Time))

def step (event : Event) (d : Displayed Time) : Option (Displayed Time) :=
  match event with
  | .program event =>
      (Service.step world (stores readTime dateText around) event d.program).map fun p =>
        let text := stepText readTime around dateText index d.program p
        ⟨p, d.printed ++ text, d.pipe ++ text,
          d.diagnosed || diagnoses world (stores readTime dateText around) event d.program p⟩
  | .arrive count =>
      some { d with
        program := receive [d.pipe.take count] d.program
        pipe := d.pipe.drop count }

end System

/-! ## What is still to arrive -/

section Arrival

variable {σ ε α : Type} {world : World} {storage : Storage σ ε α}
  {p p' : Program σ} (segments : List Bytes)

theorem receive_nil (p : Program σ) : receive [] p = p := by
  rw [receive, Console.Printing.receive_nil]

theorem receive_receive (more : List Bytes) (p : Program σ) :
    receive more (receive segments p) = receive (segments ++ more) p := by
  simp only [receive, Console.Printing.receive_receive]

/-- What the members of the client and of the console do has nothing to do with it. -/
theorem request_receive (api : ApiType) (operation : Oauth.Moment → Requests.Operation)
    (make : Oauth.Moment → Oauth.TokenRequester → Oauth.TokenRequester × Requests.Exchange)
    (p : Program σ) :
    Service.request world api operation make (receive segments p) =
      ((Service.request world api operation make p).1,
        receive segments (Service.request world api operation make p).2) := by
  rcases @request_cases _ world api operation make p with
    ⟨hnone, hrefused⟩ | ⟨sent, closed, hsome, hmade⟩
  · rcases @request_cases _ world api operation make (receive segments p) with
      ⟨-, hmore⟩ | ⟨_, _, hsome, -⟩
    · rw [hrefused, hmore]
      rfl
    · have hclash := hnone.symm.trans hsome
      cases hclash
  · rcases @request_cases _ world api operation make (receive segments p) with
      ⟨hnone, -⟩ | ⟨_, _, hsame, hmore⟩
    · have hclash := hsome.symm.trans hnone
      cases hclash
    · have hpeer := hsome.symm.trans hsame
      cases hpeer
      rw [hmade, hmore]
      rfl

theorem makeUserstream_receive (p : Program σ) :
    Service.makeUserstream world (receive segments p) =
      ((Service.makeUserstream world p).1,
        receive segments (Service.makeUserstream world p).2) := by
  rw [Service.makeUserstream, Service.makeUserstream, request_receive]
  cases Service.request world .userStream .makeUserstream
      (Requests.makeUserstream world.hmac) p with
  | mk returns next => cases returns <;> rfl

theorem act_receive (command : Command) (p : Program σ) :
    act world storage command (receive segments p) =
      ((act world storage command p).1, receive segments (act world storage command p).2) := by
  rw [act, act]
  split_ifs
  · exact request_receive segments _ _ _ p
  · rfl
  · exact request_receive segments _ _ _ p
  · rfl
  · rfl

theorem httpHandler_receive (api : ApiType) (i : Nat) (data : Option HttpResponseData)
    (p : Program σ) :
    Service.httpHandler world storage api i data (receive segments p) =
      ((Service.httpHandler world storage api i data p).1,
        receive segments (Service.httpHandler world storage api i data p).2) := by
  have hmake := @makeUserstream_receive σ world segments p
  cases data with
  | none =>
      have hust : (receive segments p).ust = p.ust := rfl
      rw [Service.httpHandler, Service.httpHandler, hust]
      split_ifs
      · exact hmake
      · rfl
  | some data =>
      have hany : ((receive segments p).ust.any fun ust => !connected (receive segments p) ust) =
          p.ust.any fun ust => !connected p ust := rfl
      rw [Service.httpHandler, Service.httpHandler, hany]
      cases p.ust.any fun ust => !connected p ust with
      | false => rfl
      | true =>
          rw [if_pos rfl, if_pos rfl, hmake]
          cases Service.makeUserstream world p with
          | mk returns next => cases returns <;> rfl

theorem inTurn_map {β τ : Type} {call : β → τ → Bool × τ} {f : τ → τ}
    (hcall : ∀ b t, call b (f t) = ((call b t).1, f (call b t).2)) (bs : List β) (t : τ) :
    inTurn call bs (f t) = ((inTurn call bs t).1, f (inTurn call bs t).2) := by
  induction bs generalizing t with
  | nil => rfl
  | cons b bs ih =>
      rw [inTurn, inTurn, hcall]
      cases call b t with
      | mk returns next =>
          cases returns with
          | false => rfl
          | true => exact ih next

theorem obey_receive (p : Program σ) (piped : Piped) :
    obey world storage (receive segments p)
        { piped with front := Console.Printing.receive segments piped.front } =
      receive segments (obey world storage p piped) := by
  have hacted : inTurn (act world storage)
      (piped.console.outputs.drop (receive segments p).piped.console.outputs.length)
      { receive segments p with
        piped := { piped with front := Console.Printing.receive segments piped.front } } = _ :=
    @inTurn_map _ _ (act world storage) (receive segments) (act_receive segments)
      (piped.console.outputs.drop p.piped.console.outputs.length) { p with piped := piped }
  rw [obey, obey]
  dsimp only
  rw [hacted]
  cases inTurn (act world storage) (piped.console.outputs.drop p.piped.console.outputs.length)
      { p with piped := piped } with
  | mk returns next => cases returns <;> rfl

theorem answer_receive (i : Nat) (c : Client) (p : Program σ)
    (session : Http.Client.ClientSession) :
    answer world storage i c (receive segments p) session =
      receive segments (answer world storage i c p session) := by
  have hcalled : inTurn (Service.httpHandler world storage c.api i)
      ((session.outputs.drop c.session.outputs.length).map some)
      { receive segments p with
        clients := (receive segments p).clients.set i { c with session := session } } = _ :=
    @inTurn_map _ _ (Service.httpHandler world storage c.api i) (receive segments)
      (httpHandler_receive segments c.api i)
      ((session.outputs.drop c.session.outputs.length).map some)
      { p with clients := p.clients.set i { c with session := session } }
  rw [answer, answer, hcalled]
  cases inTurn (Service.httpHandler world storage c.api i)
      ((session.outputs.drop c.session.outputs.length).map some)
      { p with clients := p.clients.set i { c with session := session } } with
  | mk returns next => cases returns <;> rfl

/-- The terminal and the reader of commands. -/
theorem piped_receive {platform : Console.Conversion.Platform} {event : Console.Pipeline.Event}
    {piped piped' : Piped} (hopened : piped.front.out.closed = false)
    (h : Console.Pipeline.step platform event piped = some piped') :
    piped' = piped ∨
      Console.Pipeline.step platform event
          { piped with front := Console.Printing.receive segments piped.front } =
        some { piped' with front := Console.Printing.receive segments piped'.front } := by
  cases event with
  | terminal event =>
      obtain ⟨front, hfront, rfl⟩ := Option.map_eq_some_iff.mp h
      rcases Console.Printing.step_receive hopened hfront segments with ⟨rfl, -⟩ | hmore
      · left
        rw [Console.Pipeline.write, List.drop_length, List.append_nil]
      · right
        change (Console.OutputHandler.step platform event
          (Console.Printing.receive segments piped.front)).map _ = _
        rw [hmore]
        rfl
  | command count =>
      cases h
      right
      rw [Console.Pipeline.step, Console.Pipeline.readPipe, Console.Pipeline.readPipe]
      dsimp only
      cases Console.Commands.consoleStep
        { piped.console with unread := [piped.pipe.take count] } <;> rfl

/-- Where nothing happens, nothing is acted on. -/
theorem obey_same (p : Program σ) : obey world storage p p.piped = p := by
  rw [obey, List.drop_length]
  rfl

theorem leaves_same {event : Console.Pipeline.Event}
    (h : Console.Pipeline.step world.platform event p.piped = some p.piped) :
    leaves world storage (.piped event) p = false := by
  rw [leaves, h, Option.any_some, List.drop_length]
  rfl

/-- A step of the program does nothing, or does not depend on what is still to arrive. -/
theorem step_receive {event : Service.Event} (hopened : p.piped.front.out.closed = false)
    (h : Service.step world storage event p = some p') :
    (p' = p ∧ leaves world storage event p = false) ∨
      Service.step world storage event (receive segments p) = some (receive segments p') := by
  have hrunning : (receive segments p).stopped = false := by
    by_contra hstopped
    have hstopped : p.stopped = true := Bool.not_eq_false _ ▸ hstopped
    simp only [Service.step, hstopped, if_true, reduceCtorEq] at h
  rcases Service.step_cases h with
    ⟨front, piped, rfl, hpiped, rfl⟩ | ⟨i, c, session, rfl, hget, hsession, rfl⟩ | ⟨rfl, rfl⟩
  · rcases piped_receive segments hopened hpiped with rfl | hmore
    · exact Or.inl ⟨obey_same p, leaves_same hpiped⟩
    · have hnext : Console.Pipeline.step world.platform front (receive segments p).piped =
          some { piped with front := Console.Printing.receive segments piped.front } := hmore
      right
      simp only [Service.step, hrunning, Bool.false_eq_true, if_false, hnext, Option.map_some]
      exact congrArg some (obey_receive segments p piped)
  · have hclient : (receive segments p).clients[i]? = some c := hget
    right
    simp only [Service.step, hrunning, Bool.false_eq_true, if_false, hclient, hsession,
      Option.bind_some, Option.map_some]
    exact congrArg some (answer_receive segments i c p session)
  · have hposted : (receive segments p).stopPosted = true := by
      change p.stopped = false at hrunning
      simp only [Service.step, hrunning, Bool.false_eq_true, if_false] at h
      by_contra hnot
      have hnot : ¬ p.stopPosted = true := hnot
      rw [if_neg hnot] at h
      cases h
    right
    simp only [Service.step, hrunning, Bool.false_eq_true, if_false]
    rw [if_pos hposted]
    rfl

/-- `main` does not touch what arrives. -/
theorem main_receive {accessToken tokenSecret : Bytes} {initial : Record σ} {start : Program σ}
    (hmain : main world accessToken tokenSecret initial [] = some start) :
    main world accessToken tokenSecret initial segments = some (receive segments start) := by
  have hunserved : unserved accessToken tokenSecret initial segments =
      receive segments (unserved accessToken tokenSecret initial []) := rfl
  rw [main] at hmain ⊢
  split_ifs at hmain ⊢
  rw [hunserved, makeUserstream_receive]
  cases hmade : Service.makeUserstream world (unserved accessToken tokenSecret initial []) with
  | mk returns next =>
      rw [hmade] at hmain
      cases returns with
      | true =>
          cases hmain
          rfl
      | false => cases hmain

end Arrival

/-! ## What a step leaves alone -/

section Kept

variable {σ ε α : Type} {world : World} {storage : Storage σ ε α}
  {p p' : Program σ}

/-- What is in front of the client and its calls. -/
structure Untouched (p p' : Program σ) : Prop where
  piped : p'.piped = p.piped
  calls : p'.calls = p.calls

theorem untouched_request (api : ApiType) (operation : Oauth.Moment → Requests.Operation)
    (make : Oauth.Moment → Oauth.TokenRequester → Oauth.TokenRequester × Requests.Exchange)
    (p : Program σ) : Untouched p (Service.request world api operation make p).2 := by
  rcases @request_cases _ world api operation make p with ⟨-, hrefused⟩ | ⟨_, _, -, hmade⟩
  · rw [hrefused]
    exact ⟨rfl, rfl⟩
  · rw [hmade]
    exact ⟨rfl, rfl⟩

theorem untouched_makeUserstream (p : Program σ) :
    Untouched p (Service.makeUserstream world p).2 := by
  have hrequest := @untouched_request _ world .userStream .makeUserstream
    (Requests.makeUserstream world.hmac) p
  rw [Service.makeUserstream]
  cases hmade : Service.request world .userStream .makeUserstream
      (Requests.makeUserstream world.hmac) p with
  | mk returns next =>
      rw [hmade] at hrequest
      cases returns <;> exact ⟨hrequest.piped, hrequest.calls⟩

theorem untouched_act (command : Command) (p : Program σ) :
    Untouched p (act world storage command p).2 := by
  rw [act]
  split_ifs
  · exact untouched_request _ _ _ p
  · exact ⟨rfl, rfl⟩
  · exact untouched_request _ _ _ p
  · exact ⟨rfl, rfl⟩
  · exact ⟨rfl, rfl⟩

theorem httpHandler_piped (api : ApiType) (i : Nat) (data : Option HttpResponseData)
    (p : Program σ) : (Service.httpHandler world storage api i data p).2.piped = p.piped := by
  have hmake := (@untouched_makeUserstream _ world p).piped
  cases data with
  | none =>
      rw [Service.httpHandler]
      split_ifs
      · exact hmake
      · rfl
  | some data =>
      rw [Service.httpHandler]
      cases p.ust.any fun ust => !connected p ust with
      | false => rfl
      | true =>
          rw [if_pos rfl]
          cases hmade : Service.makeUserstream world p with
          | mk returns next =>
              rw [hmade] at hmake
              cases returns <;> exact hmake

/-- A command that is left only stops the reader of commands. -/
theorem obey_kept (p : Program σ) (piped : Piped) :
    (obey world storage p piped).calls = p.calls ∧
      (obey world storage p piped).piped.front = piped.front ∧
      (obey world storage p piped).piped.console.outputs = piped.console.outputs := by
  have hacted : Untouched { p with piped := piped } (inTurn (act world storage)
      (piped.console.outputs.drop p.piped.console.outputs.length) { p with piped := piped }).2 :=
    @inTurn_invariant _ _ (act world storage) (Untouched { p with piped := piped })
      (fun command q hq =>
        ⟨(untouched_act command q).piped.trans hq.piped,
          (untouched_act command q).calls.trans hq.calls⟩) _ _ ⟨rfl, rfl⟩
  rw [obey]
  cases hresult : inTurn (act world storage)
      (piped.console.outputs.drop p.piped.console.outputs.length)
      { p with piped := piped } with
  | mk returns next =>
      rw [hresult] at hacted
      have hfront : next.piped.front = piped.front := congrArg Piped.front hacted.piped
      have houtputs : next.piped.console.outputs = piped.console.outputs :=
        congrArg (fun piped : Piped => piped.console.outputs) hacted.piped
      cases returns <;> exact ⟨hacted.calls, hfront, houtputs⟩

theorem answer_piped (i : Nat) (c : Client) (p : Program σ) (session : Http.Client.ClientSession) :
    (answer world storage i c p session).piped = p.piped := by
  have hcalled : (inTurn (Service.httpHandler world storage c.api i)
      ((session.outputs.drop c.session.outputs.length).map some)
      { p with clients := p.clients.set i { c with session := session } }).2.piped = p.piped :=
    @inTurn_invariant _ _ (Service.httpHandler world storage c.api i) (fun q => q.piped = p.piped)
      (fun data q hq => (httpHandler_piped c.api i data q).trans hq) _ _ rfl
  rw [answer]
  cases hresult : inTurn (Service.httpHandler world storage c.api i)
      ((session.outputs.drop c.session.outputs.length).map some)
      { p with clients := p.clients.set i { c with session := session } } with
  | mk returns next =>
      rw [hresult] at hcalled
      cases returns <;> exact hcalled

/-- Only the keys and the output of the terminal change what is in front. -/
theorem front_step {event : Service.Event} (h : Service.step world storage event p = some p') :
    (∃ e, event = .piped (.terminal e) ∧
        Console.OutputHandler.step world.platform e p.piped.front = some p'.piped.front) ∨
      ((∀ e, event ≠ .piped (.terminal e)) ∧ p'.piped.front = p.piped.front) := by
  obtain ⟨front, piped, rfl, hpiped, rfl⟩ | ⟨i, c, session, rfl, -, -, rfl⟩ | ⟨rfl, rfl⟩ :=
    Service.step_cases h
  · rw [(obey_kept p piped).2.1]
    cases front with
    | terminal e =>
        obtain ⟨next, hnext, rfl⟩ := Option.map_eq_some_iff.mp hpiped
        exact Or.inl ⟨e, rfl, hnext⟩
    | command count =>
        cases hpiped
        refine Or.inr ⟨fun e hevent => (by cases hevent), ?_⟩
        rw [Console.Pipeline.readPipe]
        split <;> rfl
  · exact Or.inr ⟨fun e hevent => (by cases hevent),
      congrArg Piped.front (answer_piped i c p session)⟩
  · exact Or.inr ⟨fun e hevent => (by cases hevent), rfl⟩

theorem opened_step {event : Service.Event} (hopened : p.piped.front.out.closed = false)
    (h : Service.step world storage event p = some p') : p'.piped.front.out.closed = false := by
  rcases front_step h with ⟨e, -, hfront⟩ | ⟨-, hfront⟩
  · exact Console.Printing.opened_step hopened hfront
  · rw [hfront]
    exact hopened

end Kept

/-! ## Runs -/

section Runs

variable {Time : Type} {world : World} {readTime : Bytes → Time}
  {around : Nat → Nat → Surroundings Time} {dateText : Time → Option Bytes}
  {index : List Value → List (TweetObject Time)} {d d' : Displayed Time} {events : List Event}

theorem stepText_same (p : Program (Stores Time)) :
    stepText readTime around dateText index p p = [] := by
  rw [stepText, List.drop_length, List.drop_length]
  rfl

theorem diagnoses_same {event : Service.Event} {p : Program (Stores Time)}
    (h : leaves world (stores readTime dateText around) event p = false) :
    diagnoses world (stores readTime dateText around) event p p = false := by
  rw [diagnoses, h, List.drop_length]
  rfl

/-- Where the program does nothing, nothing is printed and nothing diagnosed. -/
theorem rests_step {event : Service.Event}
    (h : Service.step world (stores readTime dateText around) event d.program = some d.program)
    (hleaves : leaves world (stores readTime dateText around) event d.program = false) :
    step world readTime around dateText index (.program event) d = some d := by
  rw [step, h, Option.map_some, stepText_same, diagnoses_same hleaves, Bool.or_false]
  simp only [List.append_nil]

/-- In a run from here on, these parts of what is printed arrive, one after the other, and these
are the events of the program, but for some that leave all as it is. -/
inductive Behind (step : Event → Displayed Time → Option (Displayed Time)) :
    List Event → Displayed Time → List Bytes → List Service.Event → Prop where
  | none {d : Displayed Time} : Behind step [] d [] []
  | arrives {count : Nat} {events : List Event} {d d' : Displayed Time} {segments : List Bytes}
      {more : List Service.Event} (hstep : step (.arrive count) d = some d')
      (h : Behind step events d' segments more) :
      Behind step (.arrive count :: events) d (d.pipe.take count :: segments) more
  | moves {event : Service.Event} {events : List Event} {d d' : Displayed Time}
      {segments : List Bytes} {more : List Service.Event}
      (hstep : step (.program event) d = some d') (h : Behind step events d' segments more) :
      Behind step (.program event :: events) d segments (event :: more)
  | rests {event : Service.Event} {events : List Event} {d : Displayed Time}
      {segments : List Bytes} {more : List Service.Event}
      (hstep : step (.program event) d = some d) (h : Behind step events d segments more) :
      Behind step (.program event :: events) d segments more

/-- From here on, the program runs as one to which all that arrives in the run is on its way. -/
theorem runs_ahead (hopened : d.program.piped.front.out.closed = false)
    (hrun : run (step world readTime around dateText index) events d = some d') :
    ∃ segments more text,
      Behind (step world readTime around dateText index) events d segments more ∧
      run (Service.step world (stores readTime dateText around)) more
        (receive segments d.program) = some d'.program ∧
      d'.printed = d.printed ++ text ∧ d.pipe ++ text = segments.flatten ++ d'.pipe := by
  induction events generalizing d with
  | nil =>
      cases hrun
      refine ⟨[], [], [], .none, ?_, (List.append_nil _).symm, List.append_nil _⟩
      rw [receive_nil]
      rfl
  | cons event events ih =>
      obtain ⟨next, hnext, hrest⟩ := run_cons_eq_some hrun
      cases event with
      | arrive count =>
          have harrives := hnext
          cases hnext
          have harrived : (receive [d.pipe.take count] d.program).piped.front.out.closed = false :=
            hopened
          obtain ⟨segments, more, text, hbehind, hmore, hprinted, hpipe⟩ := @ih
            { d with program := receive [d.pipe.take count] d.program, pipe := d.pipe.drop count }
            harrived hrest
          refine ⟨d.pipe.take count :: segments, more, text, .arrives harrives hbehind, ?_,
            hprinted, ?_⟩
          · rw [← hmore]
            exact congrArg _ (receive_receive [d.pipe.take count] segments d.program).symm
          · rw [List.flatten_cons, List.append_assoc, ← hpipe, ← List.append_assoc]
            exact congrArg (· ++ text) (List.take_append_drop count d.pipe).symm
      | program event =>
          obtain ⟨p, hp, hmade⟩ := Option.map_eq_some_iff.mp hnext
          have hnextOpened : next.program.piped.front.out.closed = false := by
            rw [← hmade]
            exact opened_step hopened hp
          obtain ⟨segments, more, text, hbehind, hmore, hprinted, hpipe⟩ := ih hnextOpened hrest
          rcases step_receive segments hopened hp with ⟨rfl, hleaves⟩ | hstep
          · have hrests := @rests_step _ world readTime around dateText index d event hp hleaves
            cases Option.some.inj (hnext.symm.trans hrests)
            exact ⟨segments, more, text, .rests hrests hbehind, hmore, hprinted, hpipe⟩
          · subst hmade
            rw [List.append_assoc] at hprinted hpipe
            exact ⟨segments, event :: more, _, .moves hnext hbehind,
              (run_cons hstep more).trans hmore, hprinted, hpipe⟩

/-- Every run of the program is one of the other, to which the parts that arrive in it are on their
way from the start, up to steps that do nothing; what is printed has arrived, or is in the pipe. -/
theorem runs_open {accessToken tokenSecret : Bytes} {initial : Record (Stores Time)}
    {start : Program (Stores Time)}
    (hmain : main world accessToken tokenSecret initial [] = some start)
    (hrun : run (step world readTime around dateText index) events ⟨start, [], [], false⟩ =
      some d) :
    ∃ segments more start',
      Behind (step world readTime around dateText index) events ⟨start, [], [], false⟩ segments
        more ∧
      main world accessToken tokenSecret initial segments = some start' ∧
      run (Service.step world (stores readTime dateText around)) more start' = some d.program ∧
      d.printed = segments.flatten ++ d.pipe := by
  have hopened : start.piped.front.out.closed = false := by
    rw [(Entered.kept_main hmain).1]
    rfl
  obtain ⟨segments, more, text, hbehind, hmore, hprinted, hpipe⟩ := runs_ahead hopened hrun
  refine ⟨segments, more, receive segments start, hbehind, main_receive segments hmain, hmore, ?_⟩
  rw [hprinted]
  exact hpipe

end Runs

/-- The message of the user stream is printed and arrives while two characters are being typed. -/
def typing : List Event :=
  [.program (.client 0), .program (.client 0), .program (.client 0),
    .program (.piped (.terminal (.key (.text ['h'])))), .program (.client 0), .arrive 4,
    .program (.piped (.terminal .output)), .program (.piped (.terminal (.key (.text ['i'])))),
    .arrive 40, .program (.piped (.terminal .output)), .program (.piped (.terminal .output))]

/-- The line that is printed for the message. -/
def greeting : List Char := "2011-01-01 00:00:00  @: ".toList

/-- The line has arrived, and nothing has been diagnosed. -/
def arrived (line : List Char) (d : Displayed Unit) : Prop :=
  d.printed = linesText [line] ∧ d.pipe = [] ∧ d.diagnosed = false ∧
    (outStep d.program.piped.front.out).isNone = true ∧
    d.program.piped.console.outputs.isEmpty = true

instance (line : List Char) (d : Displayed Unit) : Decidable (arrived line d) :=
  inferInstanceAs (Decidable (_ ∧ _ ∧ _ ∧ _ ∧ _))

theorem exists_typing : ∃ (start : Program (Stores Unit)) (d : Displayed Unit),
    main talking (ascii "t") (ascii "s") ⟨.empty, []⟩ [] = some start ∧
      run (step talking (fun _ => ()) (fun _ _ => default) newYearText fun _ => [])
        typing ⟨start, [], [], false⟩ = some d ∧
      arrived greeting d := by
  have hends : ((main talking (ascii "t") (ascii "s") (⟨.empty, []⟩ : Record (Stores Unit))
      []).bind fun start =>
        run (step talking (fun _ => ()) (fun _ _ => default) newYearText fun _ => [])
          typing ⟨start, [], [], false⟩).any (fun d => arrived greeting d) = true := by
    decide +kernel
  obtain ⟨d, hd, harrived⟩ := (Option.any_eq_true _ _).mp hends
  obtain ⟨start, hmain, hrun⟩ := Option.bind_eq_some_iff.mp hd
  exact ⟨start, d, hmain, hrun, of_decide_eq_true harrived⟩

theorem runs_open_typing :
    ∃ (start d : Displayed Unit) (segments : List Bytes) (more : List Service.Event)
      (start' : Program (Stores Unit)),
      run (step talking (fun _ => ()) (fun _ _ => default) newYearText fun _ => []) typing start =
        some d ∧
      Behind (step talking (fun _ => ()) (fun _ _ => default) newYearText fun _ => []) typing start
        segments more ∧
      main talking (ascii "t") (ascii "s") ⟨.empty, []⟩ segments = some start' ∧
      run (Service.step talking (stores (fun _ => ()) newYearText fun _ _ => default)) more
        start' = some d.program ∧
      linesText [greeting] = segments.flatten := by
  obtain ⟨start, d, hmain, hrun, hprinted, hpipe, -⟩ := exists_typing
  obtain ⟨segments, more, start', hbehind, hmain', hmore, hall⟩ := runs_open hmain hrun
  rw [hprinted, hpipe, List.append_nil] at hall
  exact ⟨_, d, segments, more, start', hrun, hbehind, hmain', hmore, hall⟩

/-! ## What is shown -/

section Keys

variable {Time : Type}

/-- A key is pressed where the terminal allows it; everything else happens at any time. -/
def permits (platform : Console.Conversion.Platform) (event : Event) (d : Displayed Time)
    (t : Typed) : Prop :=
  match event with
  | .program (.piped (.terminal e)) =>
      Console.OutputHandler.permits platform e d.program.piped.front t
  | .program (.piped (.command _)) => True
  | .program (.client _) => True
  | .program .stop => True
  | .arrive _ => True

def apply (world : World) (event : Event) (t : Typed) : Typed :=
  match event with
  | .program event => Entered.apply world event t
  | .arrive _ => t

end Keys

section Shown

variable {γ Time : Type} {font : Font γ} {world : World} {readTime : Bytes → Time}
  {around : Nat → Nat → Surroundings Time} {dateText : Time → Option Bytes}
  {index : List Value → List (TweetObject Time)} {lines : List (List Char)}
  {d d' : Displayed Time} {events : List Event} {t : Typed}

/-- A step of the program, with more to come behind what is in the pipe. -/
theorem shows_step (hlines : ∀ line ∈ lines, ∀ c ∈ line, Printable c) {event : Service.Event}
    {p p' : Program (Stores Time)} {pipe : Bytes}
    (hstep : Service.step world (stores readTime dateText around) event p = some p')
    (hpermits : permits world.platform (.program event) (⟨p, [], [], false⟩ : Displayed Time) t)
    (h : Shows font lines pipe p.piped.front t) :
    Shows font lines pipe p'.piped.front (Entered.apply world event t) := by
  rcases front_step hstep with ⟨e, rfl, hfront⟩ | ⟨hother, hfront⟩
  · obtain ⟨front, hnext, hshows⟩ := h.step hlines hpermits
    rw [hfront] at hnext
    rw [Option.some.inj hnext]
    exact hshows
  · have hsame : Entered.apply world event t = t := by
      cases event with
      | piped front =>
          cases front with
          | terminal e => exact absurd rfl (hother e)
          | command count => rfl
      | client i => rfl
      | stop => rfl
    rw [hsame, hfront]
    exact h

/-- Through a run: what is printed in it is to come where it starts. -/
theorem shows_run (hlines : ∀ line ∈ lines, ∀ c ∈ line, Printable c)
    (hrun : run (step world readTime around dateText index) events d = some d')
    (hpermitted : Permitted (step world readTime around dateText index) (apply world)
      (permits world.platform) events d t) :
    ∃ text, d'.printed = d.printed ++ text ∧
      (Shows font lines (d.pipe ++ text) d.program.piped.front t →
        Shows font lines d'.pipe d'.program.piped.front (applyAll (apply world) events t)) := by
  induction events generalizing d t with
  | nil =>
      cases hrun
      refine ⟨[], (List.append_nil _).symm, fun h => ?_⟩
      rwa [List.append_nil] at h
  | cons event events ih =>
      obtain ⟨next, hnext, hrest⟩ := run_cons_eq_some hrun
      obtain ⟨hpermits, hlater⟩ := hpermitted
      obtain ⟨text, hprinted, hshown⟩ := ih hrest (hlater next hnext)
      cases event with
      | arrive count =>
          cases hnext
          refine ⟨text, hprinted, fun h => hshown ?_⟩
          rw [← List.take_append_drop count d.pipe, List.append_assoc] at h
          exact h.arrive
      | program event =>
          obtain ⟨p, hp, rfl⟩ := Option.map_eq_some_iff.mp hnext
          refine ⟨stepText readTime around dateText index d.program p ++ text, ?_, fun h =>
            hshown ?_⟩
          · rw [hprinted, List.append_assoc]
          · rw [List.append_assoc]
            exact shows_step hlines hp hpermits h

end Shown

/-! ## What has been printed -/

section Told

variable {Time : Type} {world : World} {readTime : Bytes → Time}
  {around : Nat → Nat → Surroundings Time} {dateText : Time → Option Bytes}
  {index : List Value → List (TweetObject Time)} {initial : Record (Stores Time)}
  {p p' : Program (Stores Time)}

theorem callsText_append (calls more : List Call) (r : Record (Stores Time)) :
    callsText readTime around dateText (calls ++ more) r =
      callsText readTime around dateText calls r ++
        callsText readTime around dateText more
          (runHandlers (processStored readTime dateText around)
            (calls.map fun call => (call.api, call.data)) r) := by
  induction calls generalizing r with
  | nil => rfl
  | cons call calls ih =>
      rw [List.cons_append, callsText, callsText, ih, List.append_assoc]
      rfl

/-- Nothing has been entered that prints. -/
def Silent (p : Program (Stores Time)) : Prop :=
  ∀ command ∈ p.piped.console.outputs, command.cmd ≠ ascii "print"

/-- Where nothing has been entered that prints, a step prints what its calls print. -/
theorem stepText_silent (hserves : Serves (stores readTime dateText around).process world initial p)
    {event : Service.Event}
    (h : Service.step world (stores readTime dateText around) event p = some p')
    (hsilent : Silent p') :
    Silent p ∧ callsText readTime around dateText p'.calls initial =
      callsText readTime around dateText p.calls initial ++
        stepText readTime around dateText index p p' := by
  obtain ⟨front, piped, -, hpiped, rfl⟩ | ⟨i, c, session, -, hget, hsession, rfl⟩ | ⟨-, rfl⟩ :=
    Service.step_cases h
  · obtain ⟨hcalls, -, houtputs⟩ := @obey_kept _ _ _ world (stores readTime dateText around) p piped
    have hextends : ∃ new, p.piped.console.outputs ++ new = piped.console.outputs := by
      rcases console_step hpiped with hsame | ⟨segment, console, hstep, hconsole⟩
      · rw [hsame]
        exact ⟨[], List.append_nil _⟩
      · rw [hconsole]
        obtain ⟨new, hnew⟩ := outputs_step hstep
        exact ⟨new, hnew⟩
    obtain ⟨new, hnew⟩ := hextends
    rw [Silent, houtputs, ← hnew] at hsilent
    refine ⟨fun command hmem => hsilent command (List.mem_append_left new hmem), ?_⟩
    have hnone : (new.flatMap fun command =>
        commandText dateText index command
          (obey world (stores readTime dateText around) p piped).record) = [] := by
      apply List.flatMap_eq_nil_iff.mpr
      intro command hmem
      rw [commandText, if_neg (hsilent command (List.mem_append_right _ hmem))]
    rw [stepText, hcalls, houtputs, ← hnew, List.drop_left, hnone, List.drop_length]
    exact (List.append_nil _).symm
  · have hpiped := @answer_piped _ _ _ world (stores readTime dateText around) i c p session
    have hadded := hserves.answer_eq hget session
    have hrecorded : p.record = runHandlers (processStored readTime dateText around)
      (p.calls.map fun call => (call.api, call.data)) initial := hserves.recorded
    refine ⟨fun command hmem => hsilent command (by rw [hpiped]; exact hmem), ?_⟩
    rw [stepText, hpiped, List.drop_length, List.flatMap_nil, List.append_nil, hadded]
    change callsText readTime around dateText (p.calls ++ _) initial =
      _ ++ callsText readTime around dateText ((p.calls ++ _).drop p.calls.length) p.record
    rw [List.drop_left, callsText_append, hrecorded]
  · refine ⟨hsilent, ?_⟩
    rw [stepText, List.drop_length, List.drop_length]
    exact (List.append_nil _).symm

/-- The calls have printed everything, unless something else has been entered that prints. -/
structure Tells (world : World) (readTime : Bytes → Time) (around : Nat → Nat → Surroundings Time)
    (dateText : Time → Option Bytes) (initial : Record (Stores Time)) (d : Displayed Time) :
    Prop where
  serves : Serves (stores readTime dateText around).process world initial d.program
  told : Silent d.program →
    d.printed = callsText readTime around dateText d.program.calls initial

theorem Tells.step {d d' : Displayed Time} (h : Tells world readTime around dateText initial d)
    {event : Event} (hstep : step world readTime around dateText index event d = some d') :
    Tells world readTime around dateText initial d' := by
  cases event with
  | arrive count =>
      cases hstep
      exact ⟨⟨h.serves.own, h.serves.ust, h.serves.typed, h.serves.recorded⟩, h.told⟩
  | program event =>
      obtain ⟨p, hp, rfl⟩ := Option.map_eq_some_iff.mp hstep
      refine ⟨h.serves.step hp, fun hsilent => ?_⟩
      obtain ⟨hbefore, htext⟩ :=
        @stepText_silent _ world readTime around dateText index _ _ _ h.serves event hp hsilent
      rw [htext, ← h.told hbefore]

end Told

/-- In every run, with keys that are permitted and everything else at any time, where the handlers
print lines of printable characters: as long as nothing has been said of an exception, the terminal
shows the first of these lines, all of them once they have arrived and its reader is at rest, and
below them the line that is being typed.  Unless `print` is entered, they are what the handler of
responses prints in its calls, one after the other. -/
theorem shows_printed {γ Time : Type} (font : Font γ) (world : World) (readTime : Bytes → Time)
    (around : Nat → Nat → Surroundings Time) (dateText : Time → Option Bytes)
    (index : List Value → List (TweetObject Time)) (accessToken tokenSecret : Bytes)
    (initial : Record (Stores Time)) {start : Program (Stores Time)}
    (hmain : main world accessToken tokenSecret initial [] = some start) {events : List Event}
    {d : Displayed Time}
    (hrun : run (step world readTime around dateText index) events ⟨start, [], [], false⟩ = some d)
    (hpermitted : Permitted (step world readTime around dateText index) (apply world)
      (permits world.platform) events ⟨start, [], [], false⟩ ⟨[], []⟩)
    {lines : List (List Char)} (hlines : ∀ line ∈ lines, ∀ c ∈ line, Printable c)
    (hprinted : d.printed = linesText lines) :
    (∀ screen ∈ screenOf font d, ∃ shown, shown <+: lines ∧
      (d.pipe = [] → outStep d.program.piped.front.out = none → shown = lines) ∧
      Pictures font shown (applyAll (apply world) events ⟨[], []⟩).line screen) ∧
    (Silent d.program →
      linesText lines = callsText readTime around dateText d.program.calls initial) := by
  obtain ⟨text, hall, hshown⟩ := @shows_run γ _ font _ _ _ _ _ lines _ _ _ _ hlines hrun hpermitted
  have htext : text = linesText lines := hall.symm.trans hprinted
  have hstart : Shows font lines ([] ++ text) start.piped.front ⟨[], []⟩ := by
    rw [(Entered.kept_main hmain).1, htext]
    exact Console.OutputHandler.follows_start (List.append_nil _)
  have hcalls : start.calls = [] := by
    have hkept := (@untouched_makeUserstream _ world
      (unserved accessToken tokenSecret initial [])).calls
    rw [makeUserstream_of_main hmain] at hkept
    exact hkept
  have hfirst : Tells world readTime around dateText initial ⟨start, [], [], false⟩ := by
    refine ⟨serves_main hmain, fun _ => ?_⟩
    rw [hcalls]
    rfl
  have htells : Tells world readTime around dateText initial d :=
    run_invariant (fun _ _ _ h hstep => h.step hstep) hrun hfirst
  refine ⟨fun screen hscreen => ?_, fun hsilent => hprinted.symm.trans (htells.told hsilent)⟩
  rw [eq_of_screenOf hscreen]
  exact (hshown hstart).pictures

theorem shows_printed_typing :
    ∃ (start d : Displayed Unit) (screen : Screen Char),
      run (step talking (fun _ => ()) (fun _ _ => default) newYearText fun _ => []) typing start =
        some d ∧
      screenOf twoColumns d = some screen ∧
      Pictures twoColumns [greeting] ['h', 'i'] screen ∧
      linesText [greeting] =
        callsText (fun _ => ()) (fun _ _ => default) newYearText d.program.calls ⟨.empty, []⟩ := by
  obtain ⟨start, d, hmain, hrun, hprinted, hpipe, hquiet, hrests, hnone⟩ := exists_typing
  have hline : ∀ line ∈ [greeting], ∀ c ∈ line, Printable c := by
    intro line hmem
    rw [List.mem_singleton.mp hmem]
    exact printable_of_all (by decide)
  have hfirst : ∀ c ∈ ['h'], Printable c := printable_of_all (by decide)
  have hsecond : ∀ c ∈ ['i'], Printable c := printable_of_all (by decide)
  obtain ⟨hscreen, htold⟩ := shows_printed twoColumns talking (fun _ => ())
    (fun _ _ => default) newYearText (fun _ => []) (ascii "t") (ascii "s") _ hmain hrun
    ⟨trivial, fun _ _ => ⟨trivial, fun _ _ => ⟨trivial, fun _ _ => ⟨hfirst, fun _ _ => ⟨trivial,
      fun _ _ => ⟨trivial, fun _ _ => ⟨trivial, fun _ _ => ⟨hsecond, fun _ _ => ⟨trivial,
        fun _ _ => ⟨trivial, fun _ _ => ⟨trivial, fun _ _ => trivial⟩⟩⟩⟩⟩⟩⟩⟩⟩⟩⟩
    hline hprinted
  have hknown : screenOf twoColumns d =
      some (twoColumns.screen d.program.piped.front.editor.screen) := by
    rw [screenOf, hquiet]
    rfl
  obtain ⟨shown, -, hall, hpictures⟩ := hscreen _ hknown
  rw [hall hpipe (Option.isNone_iff_eq_none.mp hrests)] at hpictures
  refine ⟨_, d, _, hrun, hknown, hpictures, htold fun command hmem => ?_⟩
  rw [List.isEmpty_iff.mp hnone] at hmem
  cases hmem

end BlackCircle.Twitter.Display
