import BlackCircle.Console.Commands
import BlackCircle.Console.OutputHandler

/-!
# From the keyboard to the commands

`output_handler` stands between the terminal and the program.  Its `in_handler`
writes the lines that are entered to a pipe, and the other end of that pipe is
the standard input that `console_handler` reads.  All handlers run in any order,
and a read of the pipe takes any part of what has been written.

A command without arguments takes whatever it finds behind it for its arguments,
so such a line has to be acted on before the next one is entered.
-/

namespace BlackCircle.Console.Pipeline

open BlackCircle.Foundation.ByteString
open BlackCircle.Foundation.EventRun
open BlackCircle.Foundation.InputStream
open BlackCircle.Foundation.ReadLoop
open BlackCircle.Foundation.Unicode
open BlackCircle.Console.Commands
open BlackCircle.Console.Conversion
open BlackCircle.Console.OutputHandler

/-! ## The system -/

/-- What the terminal is connected to, the bytes in the pipe, and the reader of commands, whose
segments are taken from the pipe. -/
structure Piped where
  front : OutputHandlerImpl
  pipe : Bytes
  console : ConsoleSession

def start (segments : List Bytes) : Piped :=
  ⟨OutputHandler.start segments, [], started [] false⟩

/-- What `in_handler` has forwarded goes into the pipe. -/
def write (p : Piped) (front : OutputHandlerImpl) : Piped :=
  { p with
    front := front
    pipe := p.pipe ++ front.editor.stdin.drop p.front.editor.stdin.length }

/-- The reader of commands takes a step, with so many bytes from the pipe at most. -/
def readPipe (count : Nat) (p : Piped) : Piped :=
  match consoleStep { p.console with unread := [p.pipe.take count] } with
  | none => p
  | some console =>
      { p with
        pipe := console.unread.flatten ++ p.pipe.drop count
        console := { console with unread := [] } }

inductive Event where
  | terminal (event : OutputHandler.Event)
  | command (count : Nat)

def step (platform : Platform) (event : Event) (p : Piped) : Option Piped :=
  match event with
  | .terminal event => (OutputHandler.step platform event p.front).map (write p)
  | .command count => some (readPipe count p)

/-! ## Lines by themselves -/

/-- What a line is taken for when it comes alone. -/
def commandOf (line : List Char) : Command := (readCommand (encode line ++ [LF])).1

def HasArgs (line : List Char) : Prop := (commandOf line).args ≠ []

/-- The commands of lines, each by itself. -/
def named (lines : List (List Char)) : List Command :=
  (lines.map commandOf).filter fun command => command.cmd ≠ []

/-- What is to be acted on. -/
def acted (lines : List (List Char)) : List Command := throughExit (named lines)

/-- Nothing is left to be read, or the last line that has been entered has arguments. -/
def Paced (p : Piped) (t : Typed) : Prop :=
  (p.console.buffer = [] ∧ p.pipe = []) ∨ ∀ line ∈ t.entered.getLast?, HasArgs line

def apply (platform : Platform) (event : Event) (t : Typed) : Typed :=
  match event with
  | .terminal event => OutputHandler.apply platform event t
  | .command _ => t

def permits (platform : Platform) (event : Event) (p : Piped) (t : Typed) : Prop :=
  match event with
  | .terminal (.key (.enter _ _)) => Paced p t
  | .terminal event => OutputHandler.permits platform event p.front t
  | .command _ => True

section Lines

variable {line behind : Bytes}

/-- A line with arguments is read as if it were alone, and what is behind it is left. -/
theorem readCommand_line (hLF : LF ∉ line) (hargs : (readCommand (line ++ [LF])).1.args ≠ [])
    (behind : Bytes) :
    readCommand (line ++ LF :: behind) = ((readCommand (line ++ [LF])).1, behind) := by
  have hblank : skip (line ++ [LF]) ≠ [] := by
    intro hnone
    rw [readCommand_blank hnone] at hargs
    exact hargs rfl
  obtain ⟨lead, word, gap, tail, hparts⟩ := exists_parts hblank
  rw [hparts.readCommand] at hargs ⊢
  have htail : tail ≠ [] := by
    rintro rfl
    exact hargs rfl
  obtain ⟨args, last, rfl⟩ := (List.eq_nil_or_concat' tail).resolve_left htail
  have hwhole : line ++ [LF] = (lead ++ (word ++ (gap ++ args))) ++ [last] := by
    rw [hparts.whole]
    simp only [List.append_assoc]
  obtain ⟨hline, hlast⟩ := List.append_inj' hwhole rfl
  obtain rfl : LF = last := by simpa using hlast
  have hfree : LF ∉ args := by
    intro hmem
    apply hLF
    rw [hline]
    simp [hmem]
  have hne : args ≠ [] := by
    rintro rfl
    exact hargs rfl
  have hsolid : Starts (fun b => !isSpace b) (args ++ LF :: behind) := by
    obtain ⟨b, args, rfl⟩ := List.exists_cons_of_ne_nil hne
    rintro _ ⟨⟩
    exact hparts.tail_solid b rfl
  have hapart : gap = [] → args ++ LF :: behind = [] := fun hgap =>
    absurd (hparts.apart hgap) htail
  have hread := readCommand_solid hparts.lead_space hparts.word_solid hparts.word_ne
    hparts.gap_space hsolid hapart
  rw [hline]
  simp only [List.append_assoc]
  rw [hread, takeWhile_append_stop (ne_of_notMem hfree) (starts_self LF behind),
    dropWhile_append_stop (ne_of_notMem hfree) (starts_self LF behind),
    takeWhile_append_stop (ne_of_notMem hfree) (starts_self LF [])]
  rfl

/-- Behind a line without arguments, nothing is left. -/
theorem readCommand_bare (hargs : (readCommand (line ++ [LF])).1.args = []) :
    (readCommand (line ++ [LF])).2 = [] := by
  by_cases hblank : skip (line ++ [LF]) = []
  · rw [readCommand_blank hblank]
  · obtain ⟨lead, word, gap, tail, hparts⟩ := exists_parts hblank
    rw [hparts.readCommand] at hargs ⊢
    cases tail with
    | nil => rfl
    | cons b tail =>
        have hb : isSpace b = false := by simpa using hparts.tail_solid b rfl
        have hne : b ≠ LF := by
          rintro rfl
          cases hb
        rw [List.takeWhile_cons_of_pos (by simpa using hne)] at hargs
        cases hargs

end Lines

/-! ## Lines in the pipe -/

section Acted

variable {lines more : List (List Char)}

theorem named_append (lines more : List (List Char)) :
    named (lines ++ more) = named lines ++ named more := by
  rw [named, List.map_append, List.filter_append]
  rfl

theorem named_singleton (line : List Char) :
    named [line] = if (commandOf line).cmd = [] then [] else [commandOf line] := by
  by_cases hblank : (commandOf line).cmd = [] <;> simp [named, hblank]

theorem throughExit_append {commands : List Command} (later : List Command)
    (h : ∀ command ∈ commands, command.cmd ≠ ascii "exit") :
    throughExit (commands ++ later) = commands ++ throughExit later := by
  induction commands with
  | nil => rfl
  | cons command commands ih =>
      rw [List.cons_append, throughExit, if_neg (h command List.mem_cons_self),
        ih fun other hmem => h other (List.mem_cons_of_mem command hmem)]
      rfl

/-- Without an `exit` in front, the commands of the lines in front come first. -/
theorem acted_append (more : List (List Char))
    (h : ∀ command ∈ named lines, command.cmd ≠ ascii "exit") :
    acted (lines ++ more) = named lines ++ acted more := by
  rw [acted, named_append, throughExit_append _ h]
  rfl

/-- Behind an `exit`, nothing is acted on. -/
theorem acted_exit {line : List Char} (more : List (List Char))
    (h : ∀ command ∈ named lines, command.cmd ≠ ascii "exit")
    (hexit : (commandOf line).cmd = ascii "exit") :
    acted (lines ++ [line] ++ more) = named lines ++ [commandOf line] := by
  have hword : (commandOf line).cmd ≠ [] := by
    rw [hexit]
    decide
  rw [List.append_assoc, acted_append _ h, acted, named_append, named_singleton, if_neg hword,
    List.singleton_append, throughExit, if_pos hexit]

theorem linesText_append (lines more : List (List Char)) :
    linesText (lines ++ more) = linesText lines ++ linesText more :=
  List.flatMap_append

theorem eq_nil_of_linesText (h : LF ∉ linesText lines) : lines = [] := by
  cases lines with
  | nil => rfl
  | cons line lines => exact absurd (by simp [linesText]) h

end Acted

/-- The reader of commands has acted on the first lines that have been entered; the others are in
its buffer or in the pipe, and all but the last of these have arguments. -/
inductive Serves (p : Piped) (t : Typed) : Prop where
  | waiting {begun : Nat} {done rest : List (List Char)}
      (act : p.console.activity = .reading (.readUntil [LF]) begun .readlineHandler)
      (entered : t.entered = done ++ rest)
      (outputs : p.console.outputs = named done)
      (going : ∀ command ∈ named done, command.cmd ≠ ascii "exit")
      (unread : p.console.buffer ++ p.pipe = linesText rest)
      (args : ∀ line ∈ rest.dropLast, HasArgs line)
  | ended (act : p.console.activity = .stopped)
      (outputs : ∀ more, acted (t.entered ++ more) = p.console.outputs)

section Steps

variable {platform : Platform} {p p' : Piped} {t t' : Typed}

/-- A line that is entered waits behind the others. -/
theorem Serves.enter {line : List Char} (h : Serves p t) (hpaced : Paced p t)
    (hentered : t'.entered = t.entered ++ [line]) (hconsole : p'.console = p.console)
    (hpipe : p'.pipe = p.pipe ++ (encode line ++ [LF])) : Serves p' t' := by
  cases h with
  | @waiting begun done rest act entered outputs going unread args =>
      refine @Serves.waiting p' t' begun done (rest ++ [line]) ?_ ?_ ?_ going ?_ ?_
      · rw [hconsole, act]
      · rw [hentered, entered, List.append_assoc]
      · rw [hconsole, outputs]
      · rw [hconsole, hpipe, ← List.append_assoc, unread, linesText_append]
        simp [linesText]
      · rw [List.dropLast_concat]
        rcases hpaced with ⟨hbuffer, hnone⟩ | hlast
        · rw [hbuffer, hnone] at unread
          have hrest : rest = [] := eq_nil_of_linesText (by rw [← unread]; exact List.not_mem_nil)
          rw [hrest]
          exact fun _ hmem => absurd hmem List.not_mem_nil
        · rcases List.eq_nil_or_concat' rest with rfl | ⟨before, last, rfl⟩
          · exact fun _ hmem => absurd hmem List.not_mem_nil
          · rw [List.dropLast_concat] at args
            have hargs : HasArgs last := hlast last (by rw [entered, ← List.append_assoc]; simp)
            intro other hmem
            rcases List.mem_append.mp hmem with hbefore | hin
            · exact args other hbefore
            · rw [List.mem_singleton.mp hin]
              exact hargs
  | ended act outputs =>
      refine .ended (hconsole ▸ act) fun more => ?_
      rw [hentered, hconsole, List.append_assoc]
      exact outputs _

/-- The next line is acted on as if it were alone. -/
theorem readCommand_next {line : List Char} {more : List (List Char)} {behind pipe : Bytes}
    (hline : ∀ c ∈ line, Printable c) (hargs : ∀ l ∈ (line :: more).dropLast, HasArgs l)
    (hbehind : behind ++ pipe = linesText more) :
    readCommand (encode line ++ LF :: behind) = (commandOf line, behind) := by
  have hfree : LF ∉ encode line := notMem_encode hline (by decide)
  by_cases hhas : HasArgs line
  · exact readCommand_line hfree hhas behind
  · -- a line without arguments is the last one
    cases more with
    | cons next more => exact absurd (hargs line List.mem_cons_self) hhas
    | nil =>
        obtain rfl : behind = [] := (List.append_eq_nil_iff.mp hbehind).1
        exact Prod.ext rfl (readCommand_bare (not_not.mp hhas))

/-- A step of the reader of commands. -/
theorem Serves.read (h : Serves p t) (hopened : p.console.closed = false)
    (hprintable : ∀ line ∈ t.entered, ∀ c ∈ line, Printable c) (count : Nat) :
    Serves (readPipe count p) t ∧ (readPipe count p).console.closed = false := by
  rw [readPipe]
  cases hstep : consoleStep { p.console with unread := [p.pipe.take count] } with
  | none => exact ⟨h, hopened⟩
  | some console =>
      have hclosed := closed_step hstep
      refine ⟨?_, hclosed.trans hopened⟩
      obtain ⟨op, begun, handler, hact, hcase⟩ := step_cases hstep
      cases h with
      | ended act outputs =>
          have hstopped := hact.symm.trans act
          cases hstopped
      | @waiting begun' done rest act entered outputs going unread args =>
          have hsame := hact.symm.trans act
          rw [Activity.reading.injEq] at hsame
          obtain ⟨rfl, rfl, rfl⟩ := hsame
          rcases hcase with ⟨hsat, rfl⟩ | ⟨-, segment, later, hunread, rfl⟩ | ⟨-, hnone, -⟩
          · have hrest : ∀ line ∈ rest, ∀ c ∈ line, Printable c :=
              fun line hmem => hprintable line (entered ▸ List.mem_append_right done hmem)
            obtain ⟨line, more, behind, rfl, hbuffer, hbehind⟩ :=
              exists_line hrest unread (ReadOp.satisfied_token.mp hsat)
            have hread := readCommand_next (hrest line List.mem_cons_self) args hbehind
            have hturn : Commands.complete .readlineHandler false p.console.buffer =
                { buffer := behind
                  outputs := named [line]
                  next :=
                    if (commandOf line).cmd = ascii "exit" then .done
                    else .issue (.readUntil [LF]) .readlineHandler } := by
              rw [Commands.complete, hbuffer, readlineHandler, if_neg (by decide), hread,
                named_singleton]
            dsimp only at hturn ⊢
            rw [hturn]
            have hpipe : ([p.pipe.take count] : List Bytes).flatten ++ p.pipe.drop count =
                p.pipe := by
              rw [List.flatten_singleton, List.take_append_drop]
            by_cases hexit : (commandOf line).cmd = ascii "exit"
            · rw [if_pos hexit]
              refine .ended rfl fun later => ?_
              have hword : (commandOf line).cmd ≠ [] := by
                rw [hexit]
                decide
              change _ = p.console.outputs ++ named [line]
              rw [entered, outputs, named_singleton, if_neg hword, List.append_assoc,
                List.cons_append, ← List.singleton_append, ← List.append_assoc,
                acted_exit _ going hexit]
            · rw [if_neg hexit]
              refine @Serves.waiting _ t _ (done ++ [line]) more rfl ?_ ?_ ?_ ?_ ?_
              · rw [entered, List.append_assoc, List.singleton_append]
              · rw [named_append, ← outputs]
                rfl
              · intro command hmem
                rw [named_append] at hmem
                rcases List.mem_append.mp hmem with hbefore | hnew
                · exact going command hbefore
                · rw [named_singleton] at hnew
                  split at hnew
                  · cases hnew
                  · rw [List.mem_singleton.mp hnew]
                    exact hexit
              · change behind ++ (([p.pipe.take count] : List Bytes).flatten ++ _) = _
                rw [hpipe, hbehind]
              · cases more with
                | nil => exact fun _ hmem => absurd hmem List.not_mem_nil
                | cons next more =>
                    exact fun other hmem => args other (List.mem_cons_of_mem line hmem)
          · dsimp only at hunread
            rw [List.cons.injEq] at hunread
            obtain ⟨rfl, rfl⟩ := hunread
            refine @Serves.waiting _ t _ done rest act entered outputs going ?_ args
            change (p.console.buffer ++ p.pipe.take count) ++ ([] ++ p.pipe.drop count) = _
            rw [List.nil_append, List.append_assoc, List.take_append_drop, unread]
          · cases hnone

/-- With nothing in the pipe and nothing to do, all lines have been acted on. -/
theorem Serves.all (h : Serves p t)
    (hpipe : p.pipe = []) (hrests : consoleStep p.console = none) :
    p.console.outputs = acted t.entered := by
  cases h with
  | ended act outputs =>
      rw [← outputs [], List.append_nil]
  | @waiting begun done rest act entered outputs going unread args =>
      have hfree : LF ∉ p.console.buffer := by
        intro hmem
        rw [consoleStep, step_satisfied act (ReadOp.satisfied_token.mpr hmem)] at hrests
        cases hrests
      rw [hpipe, List.append_nil] at unread
      have hrest : rest = [] := eq_nil_of_linesText (unread ▸ hfree)
      rw [entered, hrest, acted_append _ going, outputs]
      exact (List.append_nil _).symm

theorem Serves.outputs_first (h : Serves p t) : p.console.outputs <+: acted t.entered := by
  cases h with
  | ended act outputs =>
      rw [← outputs [], List.append_nil]
  | @waiting begun done rest act entered outputs going unread args =>
      rw [entered, acted_append _ going, outputs]
      exact List.prefix_append _ _

end Steps

/-! ## All runs -/

section Runs

variable {γ : Type} {font : Font γ} {platform : Platform} {lines : List (List Char)}

structure Follows (font : Font γ) (lines : List (List Char)) (p : Piped) (t : Typed) : Prop where
  front : OutputHandler.Follows font lines p.front t
  printable : ∀ line ∈ t.entered, ∀ c ∈ line, Printable c
  opened : p.console.closed = false
  serves : Serves p t

theorem follows_start {segments : List Bytes} (hstream : segments.flatten = linesText lines) :
    Follows font lines (start segments) ⟨[], []⟩ where
  front := OutputHandler.follows_start hstream
  printable := fun _ hmem => absurd hmem List.not_mem_nil
  opened := rfl
  serves :=
    @Serves.waiting _ _ 0 [] [] rfl rfl rfl (fun _ hmem => absurd hmem List.not_mem_nil) rfl
      (fun _ hmem => absurd hmem List.not_mem_nil)

/-- A key enters the line, or leaves the lines that have been entered. -/
theorem entered_apply (platform : Platform) (event : OutputHandler.Event) (t : Typed) :
    (OutputHandler.apply platform event t).entered = t.entered ∨
      (∃ b hend, event = .key (.enter b hend)) ∧
        (OutputHandler.apply platform event t).entered = t.entered ++ [t.line] := by
  cases event with
  | output => exact Or.inl rfl
  | key key =>
      cases key with
      | text more => exact Or.inl rfl
      | backspace => exact Or.inl rfl
      | enter b hend => exact Or.inr ⟨⟨b, hend, rfl⟩, rfl⟩

/-- The rules for pace only restrict what the terminal's handlers permit. -/
theorem permits_front {event : OutputHandler.Event} {p : Piped} {t : Typed}
    (h : permits platform (.terminal event) p t) :
    OutputHandler.permits platform event p.front t := by
  cases event with
  | output => exact trivial
  | key key =>
      cases key with
      | text more => exact h
      | backspace => exact h
      | enter b hend => exact trivial

theorem follows_terminal {p : Piped} {t : Typed} (h : Follows font lines p t)
    (hlines : ∀ line ∈ lines, ∀ c ∈ line, Printable c) {event : OutputHandler.Event}
    (hpermits : permits platform (.terminal event) p t) :
    ∃ p', step platform (.terminal event) p = some p' ∧
      Follows font lines p' (apply platform (.terminal event) t) := by
  obtain ⟨front, hstep, hfollows⟩ :=
    OutputHandler.follows_step hlines event p.front t h.front (permits_front hpermits)
  obtain ⟨shown, hedits, -⟩ := h.front
  have hafter : front.editor.stdin =
      linesText (OutputHandler.apply platform event t).entered := by
    obtain ⟨_, hedits', -⟩ := hfollows
    exact hedits'.stdin
  have hstep' : step platform (.terminal event) p = some (write p front) := by
    rw [step, hstep]
    rfl
  refine ⟨write p front, hstep', hfollows, ?_, h.opened, ?_⟩
  · intro line hmem
    rcases entered_apply platform event t with hsame | ⟨-, hentered⟩
    · exact h.printable line (hsame ▸ hmem)
    · change line ∈ (OutputHandler.apply platform event t).entered at hmem
      rw [hentered] at hmem
      rcases List.mem_append.mp hmem with hbefore | hnew
      · exact h.printable line hbefore
      · rw [List.mem_singleton.mp hnew]
        exact hedits.printable
  · rcases entered_apply platform event t with hsame | ⟨⟨b, hend, rfl⟩, hentered⟩
    · have hnothing : write p front = { p with front := front } := by
        rw [write, hafter, hsame, ← hedits.stdin, List.drop_length, List.append_nil]
      rw [hnothing]
      have hserves := h.serves
      cases hserves with
      | waiting act entered outputs going unread args =>
          exact .waiting act (hsame.trans entered) outputs going unread args
      | ended act outputs =>
          refine .ended act fun more => ?_
          change acted ((OutputHandler.apply platform event t).entered ++ more) = _
          rw [hsame]
          exact outputs more
    · refine h.serves.enter hpermits hentered rfl ?_
      change p.pipe ++ front.editor.stdin.drop p.front.editor.stdin.length = _
      rw [hafter, hentered, linesText_append, hedits.stdin, List.drop_left]
      simp [linesText]

theorem follows_step (hlines : ∀ line ∈ lines, ∀ c ∈ line, Printable c) (event : Event)
    (p : Piped) (t : Typed) (h : Follows font lines p t) (hpermits : permits platform event p t) :
    ∃ p', step platform event p = some p' ∧ Follows font lines p' (apply platform event t) := by
  cases event with
  | terminal event => exact follows_terminal h hlines hpermits
  | command count =>
      obtain ⟨hserves, hopened⟩ := h.serves.read h.opened h.printable count
      refine ⟨readPipe count p, rfl, ?_, h.printable, hopened, hserves⟩
      have hfront : (readPipe count p).front = p.front := by
        rw [readPipe]
        split <;> rfl
      rw [hfront]
      exact h.front

end Runs

/-- In every order of keys, output and reads of the pipe, in whatever parts it is read, the commands
acted on are the first of those that the entered lines are by themselves, and all of them once the
pipe is empty and the reader at rest; as long as no line is entered behind one without arguments
that has not been acted on. -/
theorem acts_on_entered (platform : Platform) {lines : List (List Char)}
    (hlines : ∀ line ∈ lines, ∀ c ∈ line, Printable c) {segments : List Bytes}
    (hstream : segments.flatten = linesText lines) {events : List Event}
    (hpermitted : Permitted (step platform) (apply platform) (permits platform) events
      (start segments) ⟨[], []⟩) :
    ∃ p, run (step platform) events (start segments) = some p ∧
      p.console.outputs <+: acted (applyAll (apply platform) events ⟨[], []⟩).entered ∧
      (p.pipe = [] → consoleStep p.console = none →
        p.console.outputs = acted (applyAll (apply platform) events ⟨[], []⟩).entered) := by
  obtain ⟨p, hrun, hfollows⟩ := run_follows (@follows_step Char twoColumns platform lines hlines)
    hpermitted (follows_start hstream)
  exact ⟨p, hrun, hfollows.serves.outputs_first, hfollows.serves.all⟩

/-- A post and, before it has been read, `get`. -/
def postThenGet : List Event :=
  [.terminal (.key (.text "post a".toList)), .terminal (.key .cr),
    .terminal (.key (.text "get".toList)), .command 3, .terminal (.key .lf),
    .command 20, .command 0]

theorem acts_on_entered_get :
    ∃ p, run (step .posix) postThenGet (start []) = some p ∧
      p.console.outputs <+:
        acted (applyAll (apply .posix) postThenGet ⟨[], []⟩).entered ∧
      (p.pipe = [] → consoleStep p.console = none →
        p.console.outputs = acted (applyAll (apply .posix) postThenGet ⟨[], []⟩).entered) := by
  have hpost : ∀ c ∈ "post a".toList, Printable c := printable_of_all (by decide)
  have hget : ∀ c ∈ "get".toList, Printable c := printable_of_all (by decide)
  have hargs : HasArgs "post a".toList := by
    change (commandOf "post a".toList).args ≠ []
    decide +kernel
  refine @acts_on_entered .posix [] (by decide) [] rfl postThenGet ?_
  refine ⟨hpost, fun _ _ => ⟨Or.inr ?_, fun _ _ => ⟨hget, fun _ _ => ⟨trivial, fun _ _ =>
    ⟨Or.inr ?_, fun _ _ => ⟨trivial, fun _ _ => ⟨trivial, fun _ _ => trivial⟩⟩⟩⟩⟩⟩⟩
  · rintro line ⟨⟩
  · rintro line ⟨⟩
    exact hargs

end BlackCircle.Console.Pipeline
