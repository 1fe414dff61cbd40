import BlackCircle.Twitter.Requested

/-!
# From the keyboard to the connections

The lines that are typed reach the commands through a pipe, and the commands
reach the peers through requests.  Both are here put together: as long as no
connection is refused and no `print` throws, the requests are those that the lines
ask for, one after the other, whatever else goes on in between.
-/

namespace BlackCircle.Twitter.Entered

open BlackCircle.Foundation
open BlackCircle.Foundation.ByteString
open BlackCircle.Foundation.EventRun
open BlackCircle.Foundation.InputStream
open BlackCircle.Foundation.Unicode
open BlackCircle.Console.Commands
open BlackCircle.Console.OutputHandler (Font Printable Typed linesText notMem_encode
  printable_of_all twoColumns)
open BlackCircle.Console.Pipeline (HasArgs Piped acted commandOf)
open BlackCircle.Json (Value)
open BlackCircle.Oauth
open BlackCircle.Oauth.Encode
open BlackCircle.Twitter
open BlackCircle.Twitter.Handler (Record)
open BlackCircle.Twitter.Printing (printReturns_empty)
open BlackCircle.Twitter.Processing (newYearText)
open BlackCircle.Twitter.Requested
open BlackCircle.Twitter.Requests
open BlackCircle.Twitter.Sending
open BlackCircle.Twitter.Service

/-! ## Events -/

section Events

variable {σ ε α : Type} (world : World) (storage : Storage σ ε α)

/-- No `print` among the commands that have been read throws. -/
def PrintsReturn (p : Program σ) (piped : Piped) : Prop :=
  ∀ command ∈ piped.console.outputs.drop p.piped.console.outputs.length,
    command.cmd = ascii "print" → storage.printReturns command.args p.record.state = true

/-- What is in front of the commands goes by its own rules, as long as the program runs, and reads
no `print` that throws; the other steps are taken where there are any. -/
def permits (event : Event) (p : Program σ) (t : Typed) : Prop :=
  match event with
  | .piped front =>
      p.stopped = false ∧ Console.Pipeline.permits world.platform front p.piped t ∧
        ∀ piped, Console.Pipeline.step world.platform front p.piped = some piped →
          PrintsReturn storage p piped
  | .client i => (step world storage (.client i) p).isSome = true
  | .stop => (step world storage .stop p).isSome = true

def apply (event : Event) (t : Typed) : Typed :=
  match event with
  | .piped front => Console.Pipeline.apply world.platform front t
  | .client _ => t
  | .stop => t

end Events

section Steps

variable {σ ε α : Type} {world : World} {storage : Storage σ ε α}
  {initial : Record σ} {p p' : Program σ}

theorem inTurn_returns {β τ γ : Type} {call : β → τ → Bool × τ} {view : τ → γ} {bs : List β} {t : τ}
    (hcall : ∀ b ∈ bs, ∀ t', view t' = view t →
      (call b t').1 = true ∧ view (call b t').2 = view t) :
    (inTurn call bs t).1 = true ∧ view (inTurn call bs t).2 = view t := by
  induction bs generalizing t with
  | nil => exact ⟨rfl, rfl⟩
  | cons b bs ih =>
      have hfirst := hcall b List.mem_cons_self t rfl
      rw [inTurn]
      cases hresult : call b t with
      | mk returns next =>
          rw [hresult] at hfirst
          obtain ⟨rfl, hview⟩ := hfirst
          have hview : view next = view t := hview
          have hrest := @ih next fun b' hmem t' ht' =>
            hview ▸ hcall b' (List.mem_cons_of_mem b hmem) t' (ht'.trans hview)
          exact ⟨hrest.1, hrest.2.trans hview⟩

/-- Where no connection is refused, a command that is no `print` that throws returns. -/
theorem act_returns (haccepts : ∀ n, world.peer n ≠ none) {command : Command} {p : Program σ}
    (hprint : command.cmd = ascii "print" →
      storage.printReturns command.args p.record.state = true) :
    (act world storage command p).1 = true ∧
      ((act world storage command p).2.piped, (act world storage command p).2.stopped,
        (act world storage command p).2.record) = (p.piped, p.stopped, p.record) := by
  have hrequest : ∀ api operation make,
      (Service.request world api operation make p).1 = true ∧
        ((Service.request world api operation make p).2.piped,
          (Service.request world api operation make p).2.stopped,
          (Service.request world api operation make p).2.record) =
            (p.piped, p.stopped, p.record) := by
    intro api operation make
    rcases @request_cases _ world api operation make p with ⟨hnone, -⟩ | ⟨_, _, -, hmade⟩
    · exact absurd hnone (haccepts _)
    · rw [hmade]
      exact ⟨rfl, rfl⟩
  rw [act]
  split_ifs with hget hcommand
  · exact hrequest _ _ _
  · exact ⟨hprint hcommand, rfl⟩
  · exact hrequest _ _ _
  · exact ⟨rfl, rfl⟩
  · exact ⟨rfl, rfl⟩

theorem obey_kept (haccepts : ∀ n, world.peer n ≠ none) {p : Program σ} {piped : Piped}
    (hprints : PrintsReturn storage p piped) :
    (obey world storage p piped).piped = piped ∧
      (obey world storage p piped).stopped = p.stopped ∧
      (obey world storage p piped).record = p.record := by
  obtain ⟨hreturns, hsame⟩ := @inTurn_returns _ _ _ (act world storage)
    (fun p : Program σ => (p.piped, p.stopped, p.record))
    (piped.console.outputs.drop p.piped.console.outputs.length) { p with piped := piped } (by
      intro command hmem p' hsame
      obtain ⟨-, hview⟩ := Prod.mk.inj hsame
      obtain ⟨-, hrecord⟩ := Prod.mk.inj hview
      have hacted := @act_returns _ _ _ world storage haccepts command p' (by
        rw [hrecord]
        exact hprints command hmem)
      exact ⟨hacted.1, hacted.2.trans hsame⟩)
  rw [obey]
  cases hresult : inTurn (act world storage)
      (piped.console.outputs.drop p.piped.console.outputs.length) { p with piped := piped } with
  | mk returns next =>
      rw [hresult] at hreturns hsame
      cases hreturns
      obtain ⟨hpiped, hview⟩ := Prod.mk.inj hsame
      exact ⟨hpiped, Prod.mk.inj hview⟩

/-- What is in front of the commands follows what is typed, and the requests the commands. -/
structure Follows (storage : Storage σ ε α) (world : World)
    (initial : Record σ) (req : TokenRequester) (lines : List (List Char)) (p : Program σ)
    (t : Typed) : Prop where
  front : Console.Pipeline.Follows twoColumns lines p.piped t
  serves : Serves storage.process world initial p
  sends : Sends world storage initial req p

theorem follows_step (haccepts : ∀ n, world.peer n ≠ none) {req : TokenRequester}
    {lines : List (List Char)} (hlines : ∀ line ∈ lines, ∀ c ∈ line, Printable c) (event : Event)
    (p : Program σ) (t : Typed) (h : Follows storage world initial req lines p t)
    (hpermits : permits world storage event p t) :
    ∃ p', step world storage event p = some p' ∧
      Follows storage world initial req lines p' (apply world event t) := by
  have hkept : ∀ {p' : Program σ}, step world storage event p = some p' →
      Console.Pipeline.Follows twoColumns lines p'.piped (apply world event t) →
      Follows storage world initial req lines p' (apply world event t) :=
    fun hstep hfront => ⟨hfront, h.serves.step hstep, h.sends.step h.serves hstep⟩
  cases event with
  | piped front =>
      obtain ⟨hrunning, hfront, hprints⟩ := hpermits
      obtain ⟨piped, hstep, hfollows⟩ :=
        Console.Pipeline.follows_step hlines front p.piped t h.front hfront
      have hnext : step world storage (.piped front) p = some (obey world storage p piped) := by
        simp only [step, hrunning, Bool.false_eq_true, if_false, hstep, Option.map_some]
      obtain ⟨hpiped, -⟩ := obey_kept haccepts (hprints piped hstep)
      exact ⟨_, hnext, hkept hnext (by rw [hpiped]; exact hfollows)⟩
  | client i =>
      obtain ⟨p', hnext⟩ := Option.isSome_iff_exists.mp hpermits
      refine ⟨p', hnext, hkept hnext ?_⟩
      obtain ⟨_, _, hevent, -⟩ | ⟨j, c, session, -, hget, -, rfl⟩ | ⟨hevent, -⟩ :=
        Service.step_cases hnext
      · cases hevent
      · rw [h.serves.answer_eq hget]
        exact h.front
      · cases hevent
  | stop =>
      obtain ⟨p', hnext⟩ := Option.isSome_iff_exists.mp hpermits
      refine ⟨p', hnext, hkept hnext ?_⟩
      obtain ⟨_, _, hevent, -⟩ | ⟨_, _, _, hevent, -⟩ | ⟨-, rfl⟩ := Service.step_cases hnext
      · cases hevent
      · cases hevent
      · exact h.front

theorem kept_main {accessToken tokenSecret : Bytes} {segments : List Bytes} {start : Program σ}
    (hmain : main world accessToken tokenSecret initial segments = some start) :
    start.piped = Console.Pipeline.start segments ∧ start.stopped = false ∧
      start.record = initial := by
  have hopen := makeUserstream_of_main hmain
  rw [Service.makeUserstream] at hopen
  rcases @request_cases _ world .userStream .makeUserstream (Requests.makeUserstream world.hmac)
      (unserved accessToken tokenSecret initial segments) with
    ⟨-, hrefused⟩ | ⟨_, _, -, hmade⟩
  · rw [hrefused] at hopen
    cases hopen
  · rw [hmade] at hopen
    cases hopen
    exact ⟨rfl, rfl, rfl⟩

theorem follows_main {accessToken tokenSecret : Bytes} {lines : List (List Char)}
    {segments : List Bytes} {start : Program σ} (hstream : segments.flatten = linesText lines)
    (hmain : main world accessToken tokenSecret initial segments = some start) :
    Follows storage world initial (requester accessToken tokenSecret) lines start ⟨[], []⟩ := by
  refine ⟨?_, serves_main hmain, sends_main hmain⟩
  rw [(kept_main hmain).1]
  exact Console.Pipeline.follows_start hstream

end Steps

/-! ## Requests for commands -/

section Commands

variable {σ ε α : Type} {world : World} {storage : Storage σ ε α} {initial : Record σ}
  {accessToken tokenSecret : Bytes} {p : Program σ}

/-- Where no connection is refused, all commands have got their requests. -/
theorem requests_of_sends (haccepts : ∀ n, world.peer n ≠ none)
    (h : Sends world storage initial (requester accessToken tokenSecret) p) :
    p.clients.map (fun c => (c.operation, c.exchange)) =
      requestsFor world accessToken tokenSecret p.piped.console.outputs := by
  cases h with
  | going made attempts ust listening opened noExit => exact made.sent
  | exited made ust stopped outputs exit noExit =>
      have hnone := (@act_exit _ _ _ world storage _ exit p).1
      rw [outputs, requestsFor, asked_append, hnone, Option.toList_none, List.append_nil]
      exact made.sent
  | refused made ust stopped outputs refused noExit => exact absurd refused.2 (haccepts _)
  | thrown made ust stopped outputs throws noExit =>
      have hnone := operationOf_print throws.1
      rw [outputs, requestsFor, asked_append, hnone, Option.toList_none, List.append_nil]
      exact made.sent

/-- More commands only add requests. -/
theorem requestsFor_prefix {commands more : List Command} (h : commands <+: more) :
    requestsFor world accessToken tokenSecret commands <+:
      requestsFor world accessToken tokenSecret more := by
  obtain ⟨later, rfl⟩ := h
  have hasked : asked (commands ++ later) = asked commands ++ later.filterMap operationOf := by
    rw [asked, List.filterMap_append]
    rfl
  rw [requestsFor, requestsFor, hasked, timed, timed, List.mapIdx_append, exchanges_append]
  exact List.prefix_append _ _

/-- The operation of a command makes a request, of any requester. -/
theorem perform_asked {commands : List Command} {operation : Moment → Operation}
    (h : operation ∈ asked commands) (hmac : Bytes → Bytes → Bytes) (moment : Moment)
    (req : TokenRequester) : (perform hmac (operation moment) req).2.isSome = true := by
  rcases List.mem_cons.mp h with rfl | hmem
  · rfl
  · obtain ⟨command, -, hoperation⟩ := List.mem_filterMap.mp hmem
    rw [operationOf] at hoperation
    split_ifs at hoperation
    · cases hoperation
      rfl
    · cases hoperation
      rfl

theorem operations_of_exchanges {hmac : Bytes → Bytes → Bytes} {operations : List Operation}
    (h : ∀ operation ∈ operations, ∀ req, (perform hmac operation req).2.isSome = true)
    (req : TokenRequester) : (exchanges hmac operations req).map Prod.fst = operations := by
  induction operations generalizing req with
  | nil => rfl
  | cons operation operations ih =>
      obtain ⟨exchange, hexchange⟩ :=
        Option.isSome_iff_exists.mp (h operation List.mem_cons_self req)
      rw [exchanges]
      dsimp only
      rw [hexchange, List.map_append, ih fun other hmem => h other (List.mem_cons_of_mem _ hmem)]
      rfl

theorem operations_requestsFor (commands : List Command) :
    (requestsFor world accessToken tokenSecret commands).map Prod.fst =
      timed world (asked commands) := by
  apply operations_of_exchanges
  intro operation hmem req
  obtain ⟨n, hn, rfl⟩ := List.mem_mapIdx.mp hmem
  exact perform_asked (List.getElem_mem hn) world.hmac _ req

end Commands

/-- The run exists, and follows what is typed. -/
theorem exists_run {σ ε α : Type} {world : World} (haccepts : ∀ n, world.peer n ≠ none)
    {storage : Storage σ ε α} {accessToken tokenSecret : Bytes}
    {initial : Record σ} {lines : List (List Char)}
    (hlines : ∀ line ∈ lines, ∀ c ∈ line, Printable c) {segments : List Bytes}
    (hstream : segments.flatten = linesText lines) {start : Program σ}
    (hmain : main world accessToken tokenSecret initial segments = some start)
    {events : List Event}
    (hpermitted : Permitted (step world storage) (apply world) (permits world storage) events
      start ⟨[], []⟩) :
    ∃ p, run (step world storage) events start = some p ∧
      Follows storage world initial (requester accessToken tokenSecret) lines p
        (applyAll (apply world) events ⟨[], []⟩) :=
  run_follows (follows_step haccepts hlines) hpermitted (follows_main hstream hmain)

/-- In every run, with keys that are permitted, everything else at any time, no connection refused
and no `print` read that throws: the requests that have been sent are the first of those that the
entered lines ask for, and all of them once the pipe is empty and the reader of commands at
rest. -/
theorem requests_of_entered {σ ε α : Type} (world : World) (haccepts : ∀ n, world.peer n ≠ none)
    (storage : Storage σ ε α) (accessToken tokenSecret : Bytes)
    (initial : Record σ) {lines : List (List Char)}
    (hlines : ∀ line ∈ lines, ∀ c ∈ line, Printable c) {segments : List Bytes}
    (hstream : segments.flatten = linesText lines) {start : Program σ}
    (hmain : main world accessToken tokenSecret initial segments = some start)
    {events : List Event}
    (hpermitted : Permitted (step world storage) (apply world) (permits world storage) events
      start ⟨[], []⟩) :
    ∃ p, run (step world storage) events start = some p ∧
      p.clients.map (fun c => (c.operation, c.exchange)) <+:
        requestsFor world accessToken tokenSecret
          (acted (applyAll (apply world) events ⟨[], []⟩).entered) ∧
      (p.piped.pipe = [] → consoleStep p.piped.console = none →
        p.clients.map (fun c => (c.operation, c.exchange)) =
          requestsFor world accessToken tokenSecret
            (acted (applyAll (apply world) events ⟨[], []⟩).entered)) := by
  obtain ⟨p, hrun, hfollows⟩ := exists_run haccepts hlines hstream hmain hpermitted
  have hsent := requests_of_sends haccepts hfollows.sends
  have htyped := hfollows.front.serves
  refine ⟨p, hrun, ?_, ?_⟩
  · rw [hsent]
    exact requestsFor_prefix htyped.outputs_first
  · intro hpipe hrests
    rw [hsent, htyped.all hpipe hrests]

/-! ## Posts -/

/-- The line in which a text is posted. -/
def postLine (text : List Char) : List Char := "post ".toList ++ text

/-- Nothing in front of a text is taken for white space. -/
def Solid (text : List Char) : Prop := ∃ c rest, text = c :: rest ∧ c ≠ ' '

/-- Of the printable characters, only the blank is white space. -/
theorem isSpace_of_printable {c : Char} (hc : Printable c) (hblank : c ≠ ' ') {b : Byte}
    (hmem : b ∈ encode [c]) : isSpace b = false := by
  rw [Bool.eq_false_iff]
  intro hspace
  have hsmall : b.toNat ≤ 0x20 := by
    simp only [isSpace, Bool.or_eq_true, beq_iff_eq, Bool.and_eq_true, decide_eq_true_eq,
      UInt8.le_iff_toNat_le] at hspace
    rcases hspace with rfl | ⟨-, hle⟩
    · exact Nat.le_refl _
    · exact Nat.le_trans hle (by decide)
  have hascii : b < 0x80 := UInt8.lt_iff_toNat_lt.mpr (Nat.lt_of_le_of_lt hsmall (by decide))
  obtain ⟨c', hc', hcode⟩ := mem_of_mem_encode hascii hmem
  rw [List.mem_singleton.mp hc'] at hcode
  have hlarge := hc.1
  have hsame : c.toNat = ' '.toNat := Nat.le_antisymm (hcode ▸ hsmall) hlarge
  exact hblank (Char.toNat_inj.mp hsame)

/-- A printable text that is posted is the argument of its line. -/
theorem commandOf_postLine {text : List Char} (htext : ∀ c ∈ text, Printable c)
    (hsolid : Solid text) : commandOf (postLine text) = ⟨ascii "post", encode text⟩ := by
  obtain ⟨c, rest, rfl, hc⟩ := hsolid
  have hLF : LF ∉ encode (c :: rest) := notMem_encode htext (by decide)
  have hgap : ascii " " ≠ [] := by decide
  have hstarts : Starts (fun b => !isSpace b) (encode (c :: rest) ++ [LF]) := by
    intro b hhead
    rw [encode_cons, ← encode_singleton, List.append_assoc] at hhead
    have hne : encode [c] ≠ [] := by
      rw [encode_singleton]
      exact List.ne_nil_of_length_pos (String.length_utf8EncodeChar c ▸ c.utf8Size_pos)
    rw [List.head?_append_of_ne_nil _ hne] at hhead
    simpa using isSpace_of_printable (htext c List.mem_cons_self) hc (List.mem_of_head? hhead)
  have hread := @readCommand_solid [] (ascii "post") (ascii " ") (encode (c :: rest) ++ [LF])
    (by decide) (by decide) (by decide) (by decide) hstarts fun hnone => absurd hnone hgap
  have hline : encode (postLine (c :: rest)) ++ [LF] =
      [] ++ (ascii "post" ++ (ascii " " ++ (encode (c :: rest) ++ [LF]))) := by
    have hpost : encode "post ".toList = ascii "post" ++ ascii " " := by decide
    rw [postLine, encode_append, hpost]
    simp only [List.nil_append, List.append_assoc]
  rw [commandOf, hline, hread, takeWhile_append_stop (ne_of_notMem hLF) (starts_self LF [])]

/-- Lines that post texts are acted on one after the other. -/
theorem acted_postLines {texts : List (List Char)}
    (htexts : ∀ text ∈ texts, (∀ c ∈ text, Printable c) ∧ Solid text) :
    acted (texts.map postLine) = texts.map fun text => ⟨ascii "post", encode text⟩ := by
  have hcommands : (texts.map postLine).map commandOf =
      texts.map fun text => ⟨ascii "post", encode text⟩ := by
    rw [List.map_map]
    exact List.map_congr_left fun text hmem =>
      commandOf_postLine (htexts text hmem).1 (htexts text hmem).2
  have hword : ascii "post" ≠ [] ∧ ascii "post" ≠ ascii "exit" := by decide
  have hnamed : Console.Pipeline.named (texts.map postLine) =
      texts.map fun text => ⟨ascii "post", encode text⟩ := by
    rw [Console.Pipeline.named, hcommands, List.filter_eq_self]
    intro command hmem
    obtain ⟨text, -, rfl⟩ := List.mem_map.mp hmem
    exact decide_eq_true hword.1
  have hthrough := @Console.Pipeline.throughExit_append
    (texts.map fun text => ⟨ascii "post", encode text⟩) [] (by
      intro command hmem
      obtain ⟨text, -, rfl⟩ := List.mem_map.mp hmem
      exact hword.2)
  rw [List.append_nil] at hthrough
  rw [acted, hnamed, hthrough]
  exact List.append_nil _

/-- The operations behind the user stream that posts ask for. -/
theorem tail_timed_posts (world : World) (texts : List (List Char)) :
    (timed world (asked (texts.map fun text => ⟨ascii "post", encode text⟩))).tail.map
        (fun operation => (operation.status, percentDecode (body operation))) =
      texts.map fun text => (some (encode text), ascii "status=" ++ encode text) := by
  have hasked : asked (texts.map fun text => ⟨ascii "post", encode text⟩) = .makeUserstream ::
      texts.map fun text => fun moment => .statusesUpdate moment (encode text) := by
    have hpost : ∀ text, operationOf ⟨ascii "post", encode text⟩ =
        some fun moment => .statusesUpdate moment (encode text) := by
      intro text
      have hget : ascii "post" ≠ ascii "get" := by decide
      rw [operationOf, if_neg hget, if_pos rfl]
    rw [asked, List.filterMap_map]
    simp only [Function.comp_def, hpost, List.filterMap_eq_map']
  rw [hasked, timed, List.mapIdx_cons, List.tail_cons]
  apply List.ext_getElem
  · simp
  · intro n hn hn'
    simp only [List.getElem_map, List.getElem_mapIdx, percentDecode_body]
    rfl

/-- Enter `post` lines one after the other, each at any time after the one before: behind the
request for the user stream, one request has been sent for each of them once all have been read, and
its data decodes to the text that was typed. -/
theorem posts_of_entered {σ ε α : Type} (world : World) (haccepts : ∀ n, world.peer n ≠ none)
    (storage : Storage σ ε α) (accessToken tokenSecret : Bytes)
    (initial : Record σ) {lines : List (List Char)}
    (hlines : ∀ line ∈ lines, ∀ c ∈ line, Printable c) {segments : List Bytes}
    (hstream : segments.flatten = linesText lines) {start : Program σ}
    (hmain : main world accessToken tokenSecret initial segments = some start)
    {events : List Event}
    (hpermitted : Permitted (step world storage) (apply world) (permits world storage) events
      start ⟨[], []⟩)
    {texts : List (List Char)} (hsolid : ∀ text ∈ texts, Solid text)
    (hentered : (applyAll (apply world) events ⟨[], []⟩).entered = texts.map postLine) :
    ∃ p, run (step world storage) events start = some p ∧
      (p.piped.pipe = [] → consoleStep p.piped.console = none →
        p.clients.tail.map
            (fun c => (c.operation.status, percentDecode (body c.operation))) =
          texts.map fun text => (some (encode text), ascii "status=" ++ encode text)) ∧
      ∀ c ∈ p.clients, (body c.operation).length < 2 ^ 32 →
        IsRequestOf c.operation c.exchange := by
  obtain ⟨p, hrun, hfollows⟩ := exists_run haccepts hlines hstream hmain hpermitted
  have hsent := requests_of_sends haccepts hfollows.sends
  refine ⟨p, hrun, ?_, ?_⟩
  · intro hpipe hrests
    have htexts : ∀ text ∈ texts, (∀ c ∈ text, Printable c) ∧ Solid text := by
      intro text hmem
      refine ⟨fun c hc => ?_, hsolid text hmem⟩
      have hline : postLine text ∈ (applyAll (apply world) events ⟨[], []⟩).entered :=
        hentered ▸ List.mem_map_of_mem hmem
      exact hfollows.front.printable _ hline c (List.mem_append_right _ hc)
    rw [hfollows.front.serves.all hpipe hrests, hentered, acted_postLines htexts] at hsent
    have hoperations := congrArg (List.map Prod.fst) hsent
    rw [operations_requestsFor, List.map_map] at hoperations
    have htail := tail_timed_posts world texts
    rw [← hoperations, ← List.map_tail, List.map_map] at htail
    exact htail
  · intro c hmem hlength
    have hin : (c.operation, c.exchange) ∈
        requestsFor world accessToken tokenSecret p.piped.console.outputs :=
      hsent ▸ List.mem_map_of_mem hmem
    exact isRequestOf_exchanges _ (ready_requester accessToken tokenSecret) _ hin hlength

/-! ### Two posts -/

/-- Keys, and reads of the pipe, in an order that is permitted in front of the commands, where every
`print` returns. -/
theorem permitted_piped {σ ε α : Type} {world : World} (haccepts : ∀ n, world.peer n ≠ none)
    {storage : Storage σ ε α} {fronts : List Console.Pipeline.Event} {p : Program σ} {t : Typed}
    (hprints : ∀ args, storage.printReturns args p.record.state = true)
    (hrunning : p.stopped = false)
    (h : Permitted (Console.Pipeline.step world.platform) (Console.Pipeline.apply world.platform)
      (Console.Pipeline.permits world.platform) fronts p.piped t) :
    Permitted (step world storage) (apply world) (permits world storage) (fronts.map .piped) p
      t := by
  induction fronts generalizing p t with
  | nil => trivial
  | cons front fronts ih =>
      have hreturn : ∀ piped, PrintsReturn storage p piped := fun _ command _ _ => hprints _
      refine ⟨⟨hrunning, h.1, fun piped _ => hreturn piped⟩, fun p' hstep => ?_⟩
      obtain ⟨_, piped, hevent, hfront, rfl⟩ | ⟨_, _, _, hevent, -⟩ | ⟨hevent, -⟩ :=
        Service.step_cases hstep
      · cases hevent
        obtain ⟨hpiped, hstopped, hrecord⟩ := obey_kept haccepts (hreturn piped)
        refine ih (by rw [hrecord]; exact hprints) (hstopped.trans hrunning) ?_
        rw [hpiped]
        exact h.2 piped hfront
      · cases hevent
      · cases hevent

/-- Two posts; the second one is typed before the first one has been read. -/
def twoPosts : List Console.Pipeline.Event :=
  [.terminal (.key (.text "post a".toList)), .terminal (.key .cr),
    .terminal (.key (.text "post b".toList)), .command 3, .terminal (.key .cr),
    .command 20, .command 0, .command 0]

theorem permitted_twoPosts : Permitted (Console.Pipeline.step .posix)
    (Console.Pipeline.apply .posix) (Console.Pipeline.permits .posix) twoPosts
    (Console.Pipeline.start []) ⟨[], []⟩ := by
  have hfirst : ∀ c ∈ "post a".toList, Printable c := printable_of_all (by decide)
  have hsecond : ∀ c ∈ "post b".toList, Printable c := printable_of_all (by decide)
  have hargs : HasArgs "post a".toList := by
    change (commandOf "post a".toList).args ≠ []
    decide +kernel
  refine ⟨hfirst, fun _ _ => ⟨Or.inr ?_, fun _ _ => ⟨hsecond, fun _ _ => ⟨trivial, fun _ _ =>
    ⟨Or.inr ?_, fun _ _ => ⟨trivial, fun _ _ => ⟨trivial, fun _ _ => ⟨trivial, fun _ _ =>
      trivial⟩⟩⟩⟩⟩⟩⟩⟩
  · rintro line ⟨⟩
  · rintro line ⟨⟩
    exact hargs

theorem accepts_talking (n : Nat) : talking.peer n ≠ none := by
  cases n <;> nofun

/-- At the end of the run with two posts, nothing is left to be read. -/
def atRest {σ : Type} (p : Program σ) : Bool :=
  p.piped.pipe = [] ∧ (consoleStep p.piped.console).isNone = true

/-- In a run with two posts. -/
theorem exists_talking : ∃ start p : Program (Stores Unit),
    main talking (ascii "t") (ascii "s") ⟨.empty, []⟩ [] = some start ∧
      Permitted (step talking (stores (fun _ => ()) newYearText fun _ _ => default))
        (apply talking) (permits talking (stores (fun _ => ()) newYearText fun _ _ => default))
        (twoPosts.map .piped) start ⟨[], []⟩ ∧
      run (step talking (stores (fun _ => ()) newYearText fun _ _ => default))
        (twoPosts.map .piped) start = some p ∧
      p.piped.pipe = [] ∧ consoleStep p.piped.console = none := by
  have hends : ((main talking (ascii "t") (ascii "s") (⟨.empty, []⟩ : Record (Stores Unit))
      []).bind (run (step talking (stores (fun _ => ()) newYearText fun _ _ => default))
        (twoPosts.map .piped))).any atRest = true := by
    decide +kernel
  obtain ⟨p, hp, hrests⟩ := (Option.any_eq_true _ _).mp hends
  obtain ⟨hpipe, hconsole⟩ := of_decide_eq_true hrests
  obtain ⟨start, hmain, hrun⟩ := Option.bind_eq_some_iff.mp hp
  obtain ⟨hpiped, hstopped, hrecord⟩ := kept_main hmain
  refine ⟨start, p, hmain, permitted_piped accepts_talking (fun args => ?_) hstopped ?_, hrun,
    hpipe, Option.isNone_iff_eq_none.mp hconsole⟩
  · rw [hrecord]
    exact printReturns_empty args
  · rw [hpiped]
    exact permitted_twoPosts

theorem requests_of_entered_two : ∃ start p : Program (Stores Unit),
    main talking (ascii "t") (ascii "s") ⟨.empty, []⟩ [] = some start ∧
      run (step talking (stores (fun _ => ()) newYearText fun _ _ => default))
        (twoPosts.map .piped) start = some p ∧
      p.clients.map (fun c => (c.operation, c.exchange)) <+:
        requestsFor talking (ascii "t") (ascii "s")
          (acted (["a".toList, "b".toList].map postLine)) ∧
      p.clients.map (fun c => (c.operation, c.exchange)) =
        requestsFor talking (ascii "t") (ascii "s")
          (acted (["a".toList, "b".toList].map postLine)) := by
  obtain ⟨start, q, hmain, hpermitted, hend, hpipe, hrests⟩ := exists_talking
  obtain ⟨p, hrun, hfirst, hall⟩ := requests_of_entered talking accepts_talking _ (ascii "t")
    (ascii "s") _ (fun _ hmem => absurd hmem List.not_mem_nil) rfl hmain hpermitted
  obtain rfl := Option.some.inj (hrun.symm.trans hend)
  exact ⟨start, p, hmain, hrun, hfirst, hall hpipe hrests⟩

theorem posts_of_entered_two : ∃ start p : Program (Stores Unit),
    main talking (ascii "t") (ascii "s") ⟨.empty, []⟩ [] = some start ∧
      run (step talking (stores (fun _ => ()) newYearText fun _ _ => default))
        (twoPosts.map .piped) start = some p ∧
      p.clients.tail.map (fun c => (c.operation.status, percentDecode (body c.operation))) =
        [(some (ascii "a"), ascii "status=a"), (some (ascii "b"), ascii "status=b")] ∧
      ∀ c ∈ p.clients, (body c.operation).length < 2 ^ 32 →
        IsRequestOf c.operation c.exchange := by
  obtain ⟨start, q, hmain, hpermitted, hend, hpipe, hrests⟩ := exists_talking
  have hsolid : ∀ text ∈ ["a".toList, "b".toList], Solid text := by
    intro text hmem
    rcases List.mem_pair.mp hmem with rfl | rfl
    · exact ⟨'a', [], rfl, by decide⟩
    · exact ⟨'b', [], rfl, by decide⟩
  obtain ⟨p, hrun, hposts, hone⟩ := posts_of_entered talking accepts_talking _ (ascii "t")
    (ascii "s") _ (fun _ hmem => absurd hmem List.not_mem_nil) rfl hmain hpermitted hsolid
    (by decide)
  obtain rfl := Option.some.inj (hrun.symm.trans hend)
  exact ⟨start, p, hmain, hrun, hposts hpipe hrests, hone⟩

end BlackCircle.Twitter.Entered
