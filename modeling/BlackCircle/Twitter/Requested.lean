import BlackCircle.Twitter.Sending
import BlackCircle.Twitter.Service

/-!
# The requests of a run

A connection is tried for the user stream, and then for every command that asks
for one, in their order.  Each connection gets one request, and what the peers
send has no part in any of them.  Behind an `exit`, a command whose connection is
refused, or a `print` that throws, no command is read.
-/

namespace BlackCircle.Twitter.Requested

open BlackCircle.Foundation
open BlackCircle.Foundation.ByteString
open BlackCircle.Foundation.EventRun
open BlackCircle.Foundation.ReadLoop
open BlackCircle.Console.Commands
open BlackCircle.Console.Pipeline (Piped)
open BlackCircle.Json (Value)
open BlackCircle.Oauth
open BlackCircle.Twitter
open BlackCircle.Twitter.Deletion (runHandlers)
open BlackCircle.Twitter.Handler (ApiType Record)
open BlackCircle.Twitter.Processing (newYearText)
open BlackCircle.Twitter.Requests
open BlackCircle.Twitter.Sending
open BlackCircle.Twitter.Service
open BlackCircle.Twitter.SignedSent

/-! ## The reader of commands -/

/-- The reader of commands waits for a line. -/
def Listening (console : ConsoleSession) : Prop :=
  ∃ begun, console.activity = .reading (.readUntil [LF]) begun .readlineHandler

section Console

variable {platform : Console.Conversion.Platform} {front : Console.Pipeline.Event} {p p' : Piped}

/-- What a handler in front of the commands does to the reader of commands. -/
theorem console_step (h : Console.Pipeline.step platform front p = some p') :
    p'.console = p.console ∨ ∃ segment console,
      consoleStep { p.console with unread := [segment] } = some console ∧
        p'.console = { console with unread := [] } := by
  cases front with
  | terminal event =>
      obtain ⟨front, -, rfl⟩ := Option.map_eq_some_iff.mp h
      exact Or.inl rfl
  | command count =>
      cases h
      rw [Console.Pipeline.readPipe]
      cases hstep : consoleStep { p.console with unread := [p.pipe.take count] } with
      | none => exact Or.inl rfl
      | some console => exact Or.inr ⟨_, console, hstep, rfl⟩

/-- A call of the handler acts on one command at most, and reads on unless that is an `exit`. -/
theorem readlineHandler_cases (sb : Bytes) :
    ((readlineHandler false sb).outputs = [] ∧
      (readlineHandler false sb).next = .issue (.readUntil [LF]) .readlineHandler) ∨
    ∃ command, (readlineHandler false sb).outputs = [command] ∧
      (command.cmd ≠ ascii "exit" ∧
          (readlineHandler false sb).next = .issue (.readUntil [LF]) .readlineHandler ∨
        command.cmd = ascii "exit" ∧ (readlineHandler false sb).next = .done) := by
  rw [readlineHandler, if_neg (by decide)]
  dsimp only
  by_cases hexit : (readCommand sb).1.cmd = ascii "exit"
  · have hword : (readCommand sb).1.cmd ≠ [] := by
      rw [hexit]
      decide
    rw [if_pos hexit, if_neg hword]
    exact Or.inr ⟨_, rfl, Or.inr ⟨hexit, rfl⟩⟩
  · rw [if_neg hexit]
    by_cases hword : (readCommand sb).1.cmd = []
    · rw [if_pos hword]
      exact Or.inl ⟨rfl, rfl⟩
    · rw [if_neg hword]
      exact Or.inr ⟨_, rfl, Or.inl ⟨hexit, rfl⟩⟩

/-- The reader goes on waiting, acts on one command and waits again, or stops at an `exit`. -/
theorem listening_cases {s s' : ConsoleSession} (h : consoleStep s = some s')
    (hlistening : Listening s) (hopened : s.closed = false) :
    (Listening s' ∧ s'.outputs = s.outputs) ∨
      ∃ command, s'.outputs = s.outputs ++ [command] ∧
        (command.cmd ≠ ascii "exit" ∧ Listening s' ∨
          command.cmd = ascii "exit" ∧ s'.activity = .stopped) := by
  obtain ⟨begun, hact⟩ := hlistening
  obtain ⟨op, begun', handler, hact', hcase⟩ := ReadLoop.step_cases h
  rw [hact, Activity.reading.injEq] at hact'
  obtain ⟨rfl, rfl, rfl⟩ := hact'
  rcases hcase with ⟨-, rfl⟩ | ⟨-, segment, later, -, rfl⟩ | ⟨-, -, hclosed, -⟩
  · rcases readlineHandler_cases s.buffer with ⟨hnone, hnext⟩ | ⟨command, houtput, hcommand⟩
    · refine Or.inl ⟨⟨_, congrArg (Next.activity _) hnext⟩, ?_⟩
      exact (congrArg (s.outputs ++ ·) hnone).trans (List.append_nil _)
    · refine Or.inr ⟨command, congrArg (s.outputs ++ ·) houtput, hcommand.imp ?_ ?_⟩
      · exact And.imp_right fun hnext => ⟨_, congrArg (Next.activity _) hnext⟩
      · exact And.imp_right fun hnext => congrArg (Next.activity _) hnext
  · exact Or.inl ⟨⟨begun, hact⟩, rfl⟩
  · rw [hopened] at hclosed
    cases hclosed

theorem listening_step (h : Console.Pipeline.step platform front p = some p')
    (hlistening : Listening p.console) (hopened : p.console.closed = false) :
    p'.console.closed = false ∧
      ((Listening p'.console ∧ p'.console.outputs = p.console.outputs) ∨
        ∃ command, p'.console.outputs = p.console.outputs ++ [command] ∧
          (command.cmd ≠ ascii "exit" ∧ Listening p'.console ∨
            command.cmd = ascii "exit" ∧ p'.console.activity = .stopped)) := by
  rcases console_step h with hsame | ⟨segment, console, hstep, hconsole⟩
  · rw [hsame]
    exact ⟨hopened, Or.inl ⟨hlistening, rfl⟩⟩
  · rw [hconsole]
    have hcases := @listening_cases { p.console with unread := [segment] } console hstep
      hlistening hopened
    exact ⟨(closed_step hstep).trans hopened, hcases⟩

/-- Once it has stopped, it does nothing. -/
theorem stopped_step (h : Console.Pipeline.step platform front p = some p')
    (hstopped : p.console.activity = .stopped) : p'.console = p.console := by
  rcases console_step h with hsame | ⟨segment, console, hstep, -⟩
  · exact hsame
  · obtain ⟨op, begun, handler, hact, -⟩ := ReadLoop.step_cases hstep
    have hclash := hact.symm.trans hstopped
    cases hclash

end Console

/-! ## Operations -/

/-- What a command asks for. -/
def operationOf (command : Command) : Option (Moment → Operation) :=
  if command.cmd = ascii "get" then some .requestFriendsTimeline
  else if command.cmd = ascii "post" then
    some fun moment => .statusesUpdate moment command.args
  else none

/-- What has been asked for up to some commands. -/
def asked (commands : List Command) : List (Moment → Operation) :=
  .makeUserstream :: commands.filterMap operationOf

/-- Operations, each at its moment. -/
def timed (world : World) (operations : List (Moment → Operation)) : List Operation :=
  operations.mapIdx fun n operation => operation (world.moment n)

/-- The requester behind operations. -/
def performAll (hmac : Bytes → Bytes → Bytes) (operations : List Operation)
    (req : TokenRequester) : TokenRequester :=
  operations.foldl (fun req operation => (perform hmac operation req).1) req

theorem exchanges_append (hmac : Bytes → Bytes → Bytes) (operations more : List Operation)
    (req : TokenRequester) : exchanges hmac (operations ++ more) req =
      exchanges hmac operations req ++
        exchanges hmac more (performAll hmac operations req) := by
  induction operations generalizing req with
  | nil => rfl
  | cons operation operations ih =>
      rw [List.cons_append, exchanges, exchanges]
      dsimp only
      rw [ih, List.append_assoc]
      rfl

/-- The handler that the responses to a request are for. -/
def Fits : ApiType → Operation → Prop
  | .userStream, .makeUserstream _ => True
  | .friendsTimeline, .requestFriendsTimeline _ => True
  | .statusesUpdate, .statusesUpdate _ _ => True
  | _, _ => False

/-- Each client has sent the request of its operation. -/
structure Made {σ : Type} (world : World) (req : TokenRequester)
    (operations : List (Moment → Operation)) (p : Program σ) : Prop where
  sent : p.clients.map (fun c => (c.operation, c.exchange)) =
    exchanges world.hmac (timed world operations) req
  numbered : p.clients.map Client.attempt = List.range operations.length
  typed : ∀ c ∈ p.clients, Fits c.api c.operation
  req : p.req = performAll world.hmac (timed world operations) req

/-- The command is a `print` that does not return, with what is stored behind the first of some
calls. -/
def Throws {σ ε α : Type} (storage : Storage σ ε α) (initial : Record σ) (calls : List Call)
    (command : Command) : Prop :=
  command.cmd = ascii "print" ∧ ∃ before, before <+: calls ∧
    storage.printReturns command.args
      (runHandlers storage.process (before.map fun call => (call.api, call.data))
        initial).state = false

/-- What the console has come to: it goes on, has been left at an `exit`, at a command whose
connection has been refused, or at a `print` that has thrown. -/
inductive Sends {σ ε α : Type} (world : World) (storage : Storage σ ε α) (initial : Record σ)
    (req : TokenRequester) (p : Program σ) : Prop where
  | going (made : Made world req (asked p.piped.console.outputs) p)
      (attempts : p.attempts = p.clients.length) (ust : p.ust = some 0)
      (listening : Listening p.piped.console) (opened : p.piped.console.closed = false)
      (noExit : ∀ command ∈ p.piped.console.outputs, command.cmd ≠ ascii "exit")
  | exited {before : List Command} {command : Command}
      (made : Made world req (asked before) p) (ust : p.ust = none)
      (stopped : p.piped.console.activity = .stopped)
      (outputs : p.piped.console.outputs = before ++ [command])
      (exit : command.cmd = ascii "exit")
      (noExit : ∀ command ∈ before, command.cmd ≠ ascii "exit")
  | refused {before : List Command} {command : Command}
      (made : Made world req (asked before) p) (ust : p.ust = some 0)
      (stopped : p.piped.console.activity = .stopped)
      (outputs : p.piped.console.outputs = before ++ [command])
      (refused : (operationOf command).isSome = true ∧ world.peer p.clients.length = none)
      (noExit : ∀ command ∈ p.piped.console.outputs, command.cmd ≠ ascii "exit")
  | thrown {before : List Command} {command : Command}
      (made : Made world req (asked before) p) (ust : p.ust = some 0)
      (stopped : p.piped.console.activity = .stopped)
      (outputs : p.piped.console.outputs = before ++ [command])
      (throws : Throws storage initial p.calls command)
      (noExit : ∀ command ∈ p.piped.console.outputs, command.cmd ≠ ascii "exit")

theorem Throws.mono {σ ε α : Type} {storage : Storage σ ε α} {initial : Record σ}
    {calls more : List Call} {command : Command} (h : Throws storage initial calls command)
    (hcalls : calls <+: more) : Throws storage initial more command :=
  ⟨h.1, h.2.imp fun _ hbefore => ⟨hbefore.1.trans hcalls, hbefore.2⟩⟩

section Steps

variable {σ ε α : Type} {world : World} {storage : Storage σ ε α}
  {initial : Record σ} {p : Program σ} {req : TokenRequester}
  {operations : List (Moment → Operation)}

/-- Only the clients and the requester count. -/
theorem Made.same (h : Made world req operations p) {p' : Program σ}
    (hclients : p'.clients = p.clients) (hreq : p'.req = p.req) : Made world req operations p' where
  sent := by rw [hclients, h.sent]
  numbered := by rw [hclients, h.numbered]
  typed := by
    rw [hclients]
    exact h.typed
  req := hreq.trans h.req

theorem Made.length (h : Made world req operations p) : p.clients.length = operations.length := by
  have hlength := congrArg List.length h.numbered
  rwa [List.length_map, List.length_range] at hlength

/-- A request is made for one more operation. -/
theorem Made.request (h : Made world req operations p) (hattempts : p.attempts = p.clients.length)
    {api : ApiType} {operation : Moment → Operation}
    {make : Moment → TokenRequester → TokenRequester × Exchange}
    (hfits : ∀ moment, Fits api (operation moment))
    (hperform : ∀ moment req, perform world.hmac (operation moment) req =
      ((make moment req).1, some (make moment req).2)) :
    (world.peer p.clients.length = none ∧
      Service.request world api operation make p = (false, { p with attempts := p.attempts + 1 })) ∨
    ∃ p', Service.request world api operation make p = (true, p') ∧
      Made world req (operations ++ [operation]) p' ∧ p'.attempts = p'.clients.length ∧
      p'.piped = p.piped ∧ p'.ust = p.ust := by
  have htimed : timed world (operations ++ [operation]) =
      timed world operations ++ [operation (world.moment p.clients.length)] := by
    rw [timed, List.mapIdx_concat, ← h.length]
    rfl
  rcases @request_cases _ world api operation make p with
    ⟨hpeer, hrefused⟩ | ⟨segments, closed, -, hmade⟩
  · exact Or.inl ⟨hattempts ▸ hpeer, hrefused⟩
  · refine Or.inr ⟨_, hmade, ⟨?_, ?_, ?_, ?_⟩, ?_, rfl, rfl⟩
    · rw [htimed, exchanges_append, ← h.req, ← h.sent, List.map_append, exchanges, hperform]
      rfl
    · rw [List.map_append, h.numbered, List.length_append, List.length_singleton,
        List.range_succ, ← h.length]
      exact congrArg (fun n => List.range p.clients.length ++ [n]) hattempts
    · intro c hmem
      rcases List.mem_append.mp hmem with hbefore | hnew
      · exact h.typed c hbefore
      · rw [List.mem_singleton.mp hnew]
        exact hfits _
    · rw [htimed, performAll, List.foldl_append]
      change _ = (perform world.hmac _ (performAll world.hmac (timed world operations) req)).1
      rw [← h.req, hperform]
    · rw [List.length_append, List.length_singleton, hattempts]

theorem obey_none {piped : Piped} (h : piped.console.outputs = p.piped.console.outputs) :
    obey world storage p piped = { p with piped := piped } := by
  rw [obey, h, List.drop_length]
  rfl

theorem obey_one {piped : Piped} {command : Command}
    (h : piped.console.outputs = p.piped.console.outputs ++ [command]) :
    obey world storage p piped =
      match act world storage command { p with piped := piped } with
      | (true, p) => p
      | (false, p) => leaveConsole p := by
  rw [obey, h, List.drop_left]
  simp only [inTurn]
  cases act world storage command { p with piped := piped } with
  | mk returns next => cases returns <;> rfl

theorem asked_append (commands : List Command) (command : Command) :
    asked (commands ++ [command]) = asked commands ++ (operationOf command).toList := by
  rw [asked, List.filterMap_append, ← List.cons_append]
  cases hoperation : operationOf command <;> simp [asked, hoperation]

/-- A command that is no `exit` asks for nothing, is a `print` that does not return, or asks for a
request of its operation. -/
theorem act_cases {command : Command} (hexit : command.cmd ≠ ascii "exit") (p : Program σ) :
    (operationOf command = none ∧ act world storage command p = (true, p)) ∨
      (command.cmd = ascii "print" ∧ operationOf command = none ∧
        storage.printReturns command.args p.record.state = false ∧
        act world storage command p = (false, p)) ∨
      ∃ api operation make, operationOf command = some operation ∧
        act world storage command p = Service.request world api operation make p ∧
        (∀ moment, Fits api (operation moment)) ∧
        ∀ moment req, perform world.hmac (operation moment) req =
          ((make moment req).1, some (make moment req).2) := by
  rw [act, operationOf]
  by_cases hget : command.cmd = ascii "get"
  · rw [if_pos hget, if_pos hget]
    exact Or.inr (Or.inr ⟨_, _, _, rfl, rfl, fun _ => trivial, fun _ _ => rfl⟩)
  · rw [if_neg hget, if_neg hget]
    by_cases hprint : command.cmd = ascii "print"
    · have hpost : ascii "print" ≠ ascii "post" := by decide
      rw [if_pos hprint, if_neg (hprint ▸ hpost)]
      cases hreturns : storage.printReturns command.args p.record.state with
      | true => exact Or.inl ⟨rfl, rfl⟩
      | false => exact Or.inr (Or.inl ⟨hprint, rfl, rfl, rfl⟩)
    · rw [if_neg hprint]
      by_cases hpost : command.cmd = ascii "post"
      · rw [if_pos hpost, if_pos hpost]
        exact Or.inr (Or.inr ⟨_, _, _, rfl, rfl, fun _ => trivial, fun _ _ => rfl⟩)
      · rw [if_neg hpost, if_neg hpost, if_neg hexit]
        exact Or.inl ⟨rfl, rfl⟩

theorem operationOf_print {command : Command} (h : command.cmd = ascii "print") :
    operationOf command = none := by
  rw [operationOf, h]
  rfl

theorem act_exit {command : Command} (h : command.cmd = ascii "exit") (p : Program σ) :
    operationOf command = none ∧ act world storage command p = (true, shutdown p) := by
  have hget : ascii "exit" ≠ ascii "get" := by decide
  have hprint : ascii "exit" ≠ ascii "print" := by decide
  have hpost : ascii "exit" ≠ ascii "post" := by decide
  rw [act, operationOf, h, if_neg hget, if_neg hprint, if_neg hpost, if_neg hget, if_neg hpost,
    if_pos rfl]
  exact ⟨rfl, rfl⟩

/-- Once the console has been left, nothing in front of it makes a request. -/
theorem obey_stopped {front : Console.Pipeline.Event} {piped : Piped}
    (hstep : Console.Pipeline.step world.platform front p.piped = some piped)
    (hstopped : p.piped.console.activity = .stopped) :
    obey world storage p piped = { p with piped := piped } ∧ piped.console = p.piped.console := by
  have hsame := stopped_step hstep hstopped
  exact ⟨obey_none (congrArg Session.outputs hsame), hsame⟩

theorem Sends.obey (h : Sends world storage initial req p)
    (hserves : Serves storage.process world initial p) {front : Console.Pipeline.Event}
    {piped : Piped}
    (hstep : Console.Pipeline.step world.platform front p.piped = some piped) :
    Sends world storage initial req (obey world storage p piped) := by
  cases h with
  | exited made ust stopped outputs exit noExit =>
      obtain ⟨hobey, hsame⟩ := obey_stopped hstep stopped
      rw [hobey]
      exact .exited (made.same rfl rfl) ust
        ((congrArg Session.activity hsame).trans stopped)
        ((congrArg Session.outputs hsame).trans outputs) exit noExit
  | refused made ust stopped outputs refused noExit =>
      obtain ⟨hobey, hsame⟩ := obey_stopped hstep stopped
      have houtputs := congrArg Session.outputs hsame
      rw [hobey]
      exact .refused (made.same rfl rfl) ust
        ((congrArg Session.activity hsame).trans stopped) (houtputs.trans outputs) refused
        (fun command hmem => noExit command (houtputs ▸ hmem))
  | thrown made ust stopped outputs throws noExit =>
      obtain ⟨hobey, hsame⟩ := obey_stopped hstep stopped
      have houtputs := congrArg Session.outputs hsame
      rw [hobey]
      exact .thrown (made.same rfl rfl) ust
        ((congrArg Session.activity hsame).trans stopped) (houtputs.trans outputs) throws
        (fun command hmem => noExit command (houtputs ▸ hmem))
  | going made attempts ust listening opened noExit =>
      obtain ⟨hopened, ⟨hlistening, hsame⟩ | ⟨command, houtputs, hcommand⟩⟩ :=
        listening_step hstep listening opened
      · rw [obey_none hsame]
        have hmade : Made world req (asked piped.console.outputs) { p with piped := piped } := by
          rw [hsame]
          exact made.same rfl rfl
        exact .going hmade attempts ust hlistening hopened
          (fun command hmem => noExit command (hsame ▸ hmem))
      · have hmade : Made world req (asked p.piped.console.outputs) { p with piped := piped } :=
          (made.same rfl rfl)
        rw [obey_one houtputs]
        rcases hcommand with ⟨hexit, hlistening⟩ | ⟨hexit, hstopped⟩
        · have hnoExit : ∀ other ∈ piped.console.outputs, other.cmd ≠ ascii "exit" := by
            rw [houtputs]
            intro other hmem
            rcases List.mem_append.mp hmem with hbefore | hnew
            · exact noExit other hbefore
            · rwa [List.mem_singleton.mp hnew]
          rcases @act_cases _ _ _ world storage command hexit { p with piped := piped } with
            ⟨hnone, hact⟩ | ⟨hprint, -, hthrows, hact⟩ |
            ⟨api, operation, make, hsome, hact, hfits, hperform⟩
          · rw [hact]
            refine .going ?_ attempts ust hlistening hopened hnoExit
            change Made world req (asked piped.console.outputs) _
            rw [houtputs, asked_append, hnone, Option.toList_none, List.append_nil]
            exact hmade
          · have hrecorded : Throws storage initial p.calls command := by
              refine ⟨hprint, p.calls, List.prefix_refl _, ?_⟩
              rw [← hserves.recorded]
              exact hthrows
            rw [hact]
            exact @Sends.thrown _ _ _ world storage initial req _ p.piped.console.outputs command
              (hmade.same rfl rfl) ust rfl houtputs hrecorded hnoExit
          · rw [hact]
            rcases hmade.request attempts hfits hperform with
              ⟨hpeer, hrefused⟩ | ⟨p', hrequest, hmade', hattempts, hpiped, hust⟩
            · rw [hrefused]
              refine @Sends.refused _ _ _ world storage initial req _ p.piped.console.outputs
                command
                (hmade.same rfl rfl) ust rfl houtputs ⟨?_, hpeer⟩ hnoExit
              rw [hsome]
              rfl
            · rw [hrequest]
              dsimp only
              refine .going ?_ hattempts (hust.trans ust) ?_ ?_ ?_
              · rw [hpiped, houtputs, asked_append, hsome, Option.toList_some]
                exact hmade'
              · rw [hpiped]
                exact hlistening
              · rw [hpiped]
                exact hopened
              · rw [hpiped]
                exact hnoExit
        · obtain ⟨hnone, hact⟩ :=
            @act_exit _ _ _ world storage command hexit { p with piped := piped }
          rw [hact]
          exact .exited (hmade.same rfl rfl) rfl hstopped houtputs hexit noExit

theorem Sends.answer (h : Sends world storage initial req p)
    (hserves : Serves storage.process world initial p) {i : Nat}
    {c : Client} (hget : p.clients[i]? = some c) (session : Http.Client.ClientSession) :
    Sends world storage initial req (answer world storage i c p session) := by
  rw [hserves.answer_eq hget]
  have hsame : ∀ {β : Type} (f : Client → β), f { c with session := session } = f c →
      (p.clients.set i { c with session := session }).map f = p.clients.map f := by
    intro β f hf
    obtain ⟨hlt, hc⟩ := List.getElem?_eq_some_iff.mp hget
    rw [List.map_set, hf, ← hc]
    apply List.ext_getElem (by simp)
    intro n hn hn'
    rw [List.getElem_set]
    split
    case isTrue heq => simp [← heq]
    case isFalse => rfl
  have hmade : ∀ {operations : List (Moment → Operation)} {p' : Program σ},
      Made world req operations p → p'.req = p.req →
      p'.clients = p.clients.set i { c with session := session } →
      Made world req operations p' := by
    intro operations p' made hreq hclients
    refine ⟨?_, ?_, ?_, hreq.trans made.req⟩
    · rw [hclients, hsame _ rfl, made.sent]
    · rw [hclients, hsame _ rfl, made.numbered]
    · rw [hclients]
      intro c' hmem
      rcases List.mem_or_eq_of_mem_set hmem with hbefore | rfl
      · exact made.typed c' hbefore
      · exact made.typed c (List.mem_of_getElem? hget)
  have hlength : (p.clients.set i { c with session := session }).length = p.clients.length :=
    List.length_set
  cases h with
  | going made attempts ust listening opened noExit =>
      exact .going (hmade made rfl rfl) (attempts.trans hlength.symm) ust listening opened noExit
  | exited made ust stopped outputs exit noExit =>
      exact .exited (hmade made rfl rfl) ust stopped outputs exit noExit
  | refused made ust stopped outputs refused noExit =>
      exact .refused (hmade made rfl rfl) ust stopped outputs
        (refused.imp_right fun hpeer => (congrArg world.peer hlength).trans hpeer) noExit
  | thrown made ust stopped outputs throws noExit =>
      exact .thrown (hmade made rfl rfl) ust stopped outputs
        (throws.mono (List.prefix_append _ _)) noExit

theorem Sends.step (h : Sends world storage initial req p)
    (hserves : Serves storage.process world initial p)
    {event : Event} {p' : Program σ} (hstep : step world storage event p = some p') :
    Sends world storage initial req p' := by
  rcases Service.step_cases hstep with
    ⟨front, piped, -, hfront, rfl⟩ | ⟨i, c, session, -, hget, -, rfl⟩ | ⟨-, rfl⟩
  · exact h.obey hserves hfront
  · exact h.answer hserves hget session
  · cases h with
    | going made attempts ust listening opened noExit =>
        exact .going (made.same rfl rfl) attempts ust listening opened noExit
    | exited made ust stopped outputs exit noExit =>
        exact .exited (made.same rfl rfl) ust stopped outputs exit noExit
    | refused made ust stopped outputs refused noExit =>
        exact .refused (made.same rfl rfl) ust stopped outputs refused noExit
    | thrown made ust stopped outputs throws noExit =>
        exact .thrown (made.same rfl rfl) ust stopped outputs throws noExit

theorem made_none (hclients : p.clients = []) : Made world p.req [] p where
  sent := by
    rw [hclients]
    rfl
  numbered := by
    rw [hclients]
    rfl
  typed := by
    intro c hmem
    rw [hclients] at hmem
    cases hmem
  req := rfl

theorem sends_main {accessToken tokenSecret : Bytes} {segments : List Bytes}
    (hmain : main world accessToken tokenSecret initial segments = some p) :
    Sends world storage initial (requester accessToken tokenSecret) p := by
  change Sends world storage initial (unserved accessToken tokenSecret initial segments).req p
  have hopen := makeUserstream_of_main hmain
  generalize hunserved : unserved accessToken tokenSecret initial segments = u at hopen
  have hmade : Made world u.req [] u := by
    apply made_none
    subst hunserved
    rfl
  have hattempts : u.attempts = u.clients.length := by
    subst hunserved
    rfl
  have hfirst : u.clients.length = 0 ∧ u.piped = Console.Pipeline.start segments := by
    subst hunserved
    exact ⟨rfl, rfl⟩
  rw [Service.makeUserstream] at hopen
  rcases @Made.request _ _ _ _ _ hmade hattempts .userStream .makeUserstream
      (Requests.makeUserstream world.hmac) (fun _ => trivial) (fun _ _ => rfl) with
    ⟨-, hrefused⟩ | ⟨p', hrequest, hmade', hattempts', hpiped, -⟩
  · rw [hrefused] at hopen
    cases hopen
  · rw [hrequest] at hopen
    cases hopen
    have hconsole : p'.piped.console = started [] false := by
      rw [hpiped, hfirst.2]
      rfl
    refine .going ?_ hattempts' (congrArg some hfirst.1) ?_ ?_ ?_
    · change Made world u.req (asked p'.piped.console.outputs) _
      rw [hconsole]
      exact hmade'.same rfl rfl
    · change Listening p'.piped.console
      rw [hconsole]
      exact ⟨0, rfl⟩
    · change p'.piped.console.closed = false
      rw [hconsole]
      rfl
    · change ∀ command ∈ p'.piped.console.outputs, _
      rw [hconsole]
      exact fun _ hmem => absurd hmem List.not_mem_nil

end Steps

/-! ## All runs -/

section Runs

variable {σ ε α : Type} {world : World} {storage : Storage σ ε α}
  {accessToken tokenSecret : Bytes} {initial : Record σ} {segments : List Bytes}
  {start p : Program σ}

theorem ready_requester (accessToken tokenSecret : Bytes) :
    Ready (requester accessToken tokenSecret).params := by
  have hconsumer := @ready_perform (fun _ message => message) _
    (.setConsumer consumerKey consumerSecret) ready_make
  exact @ready_perform (fun _ message => message) _ (.setToken accessToken tokenSecret) hconsumer

theorem sends_run {events : List Event}
    (hmain : main world accessToken tokenSecret initial segments = some start)
    (hrun : run (step world storage) events start = some p) :
    Sends world storage initial (requester accessToken tokenSecret) p := by
  have hboth : Serves storage.process world initial p ∧
      Sends world storage initial (requester accessToken tokenSecret) p :=
    @run_invariant _ _ _ _ _ _
      (fun p => Serves storage.process world initial p ∧
        Sends world storage initial (requester accessToken tokenSecret) p)
      (fun _ _ _ h hstep => ⟨h.1.step hstep, h.2.step h.1 hstep⟩) hrun
      ⟨serves_main hmain, sends_main hmain⟩
  exact hboth.2

/-- The requests that have been made for the commands that have been acted on. -/
def requestsFor (world : World) (accessToken tokenSecret : Bytes) (commands : List Command) :
    List (Operation × Exchange) :=
  exchanges world.hmac (timed world (asked commands)) (requester accessToken tokenSecret)

end Runs

/-- In every run, in whatever order the handlers run and whatever the peers send: one connection has
been made for the user stream and one for each `get` and `post` that has been read, in their order,
with the request that the sequence of these operations makes of the requester; its signature covers
what it transmits, and it is one request.  The console reads on, unless the last command that it has
read is an `exit`, and then the user stream has been let go, one whose connection was refused, or a
`print` that did not return. -/
theorem requests_of_commands {σ ε α : Type} (world : World) (storage : Storage σ ε α)
    (accessToken tokenSecret : Bytes)
    (initial : Record σ) (segments : List Bytes) (events : List Event) {start p : Program σ}
    (hmain : main world accessToken tokenSecret initial segments = some start)
    (hrun : run (step world storage) events start = some p) :
    ∃ commands,
      p.clients.map (fun c => (c.operation, c.exchange)) =
        requestsFor world accessToken tokenSecret commands ∧
      p.clients.map Client.attempt = List.range (asked commands).length ∧
      (∀ c ∈ p.clients, Covers c.operation c.exchange ∧
        ((body c.operation).length < 2 ^ 32 → IsRequestOf c.operation c.exchange)) ∧
      (∀ command ∈ commands, command.cmd ≠ ascii "exit") ∧
      ((p.piped.console.outputs = commands ∧ Listening p.piped.console ∧ p.ust = some 0) ∨
        ∃ last, p.piped.console.outputs = commands ++ [last] ∧
          p.piped.console.activity = .stopped ∧
          (last.cmd = ascii "exit" ∧ p.ust = none ∨
            last.cmd ≠ ascii "exit" ∧ (operationOf last).isSome = true ∧
              world.peer p.clients.length = none ∧ p.ust = some 0 ∨
            Throws storage initial p.calls last ∧ p.ust = some 0)) := by
  have hsent : ∀ {commands : List Command},
      Made world (requester accessToken tokenSecret) (asked commands) p →
      ∀ c ∈ p.clients, Covers c.operation c.exchange ∧
        ((body c.operation).length < 2 ^ 32 → IsRequestOf c.operation c.exchange) := by
    intro commands made c hmem
    have hexchange : (c.operation, c.exchange) ∈
        requestsFor world accessToken tokenSecret commands := by
      rw [requestsFor, ← made.sent]
      exact List.mem_map_of_mem hmem
    have hready := ready_requester accessToken tokenSecret
    exact ⟨covers_exchanges _ hready _ hexchange, isRequestOf_exchanges _ hready _ hexchange⟩
  cases sends_run hmain hrun with
  | going made attempts ust listening opened noExit =>
      exact ⟨_, made.sent, made.numbered, hsent made, noExit, Or.inl ⟨rfl, listening, ust⟩⟩
  | @exited before last made ust stopped outputs exit noExit =>
      exact ⟨before, made.sent, made.numbered, hsent made, noExit,
        Or.inr ⟨last, outputs, stopped, Or.inl ⟨exit, ust⟩⟩⟩
  | @refused before last made ust stopped outputs refused noExit =>
      refine ⟨before, made.sent, made.numbered, hsent made, ?_,
        Or.inr ⟨last, outputs, stopped, Or.inr (Or.inl ⟨?_, refused.1, refused.2, ust⟩)⟩⟩
      · intro command hmem
        exact noExit command (outputs ▸ List.mem_append_left [last] hmem)
      · exact noExit last (outputs ▸ List.mem_append_right before List.mem_cons_self)
  | @thrown before last made ust stopped outputs throws noExit =>
      refine ⟨before, made.sent, made.numbered, hsent made, ?_,
        Or.inr ⟨last, outputs, stopped, Or.inr (Or.inr ⟨throws, ust⟩)⟩⟩
      intro command hmem
      exact noExit command (outputs ▸ List.mem_append_left [last] hmem)

/-- Only the user stream is not refused. -/
def refusing : World :=
  { talking with
    peer := fun
      | 0 => some ([], false)
      | _ => none }

def getEntered : List Event :=
  [.piped (.terminal (.key (.text "get".toList))),
    .piped (.terminal (.key .cr)), .piped (.command 9), .piped (.command 9)]

/-- The console has been left at the `get`. -/
def leftAtGet {σ : Type} (p : Program σ) : Bool :=
  p.piped.console.outputs = [⟨ascii "get", []⟩] ∧ p.clients.length = 1

theorem requests_of_commands_refused :
    ∃ p, (main refusing (ascii "t") (ascii "s") ⟨Stores.empty, []⟩ []).bind
        (run (step refusing (stores (fun _ => ()) newYearText fun _ _ => default)) getEntered) =
          some p ∧
      p.clients.map (fun c => (c.operation, c.exchange)) =
        requestsFor refusing (ascii "t") (ascii "s") [] ∧
      p.clients.map Client.attempt = [0] ∧
      (∀ c ∈ p.clients, Covers c.operation c.exchange ∧
        ((body c.operation).length < 2 ^ 32 → IsRequestOf c.operation c.exchange)) ∧
      p.piped.console.activity = .stopped ∧ p.ust = some 0 := by
  have hleft : ((main refusing (ascii "t") (ascii "s") ⟨Stores.empty, []⟩ []).bind
      (run (step refusing (stores (fun _ => ()) newYearText fun _ _ => default))
        getEntered)).any leftAtGet = true := by
    decide +kernel
  obtain ⟨p, hp, hget⟩ := (Option.any_eq_true _ _).mp hleft
  obtain ⟨houtputs, hlength⟩ := of_decide_eq_true hget
  obtain ⟨start, hmain, hrun⟩ := Option.bind_eq_some_iff.mp hp
  obtain ⟨commands, hsent, hnumbered, hone, -, hend⟩ :=
    requests_of_commands refusing _ (ascii "t") (ascii "s") _ [] getEntered hmain hrun
  have hasked := congrArg List.length hnumbered
  rw [List.length_map, List.length_range, hlength] at hasked
  rcases hend with ⟨hall, -, -⟩ | ⟨last, hlast, hstopped, hcases⟩
  · rw [← hall, houtputs] at hasked
    cases hasked
  · rw [houtputs] at hlast
    obtain ⟨rfl, hgot⟩ := @List.append_inj' _ [] _ _ _ hlast rfl
    cases hgot
    have hexit : ascii "get" ≠ ascii "exit" := by decide
    have hprint : ascii "get" ≠ ascii "print" := by decide
    rcases hcases with ⟨hexited, -⟩ | ⟨-, -, -, hust⟩ | ⟨hthrown, -⟩
    · exact absurd hexited hexit
    · exact ⟨p, hp, hsent, hnumbered, hone, hstopped, hust⟩
    · exact absurd hthrown.1 hprint

end BlackCircle.Twitter.Requested
