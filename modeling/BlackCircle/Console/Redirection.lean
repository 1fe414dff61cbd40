import BlackCircle.Foundation.Descriptors
import BlackCircle.Foundation.EventRun

/-!
# Standard input and output in pipes

While an `output_handler` exists, standard output is one end of a pipe and
standard input one end of another; their other ends, and the files that were
there before, have descriptors of their own.  It also puts the terminal into raw
mode.  What its destructors leave behind depends on whether a `stream_descriptor`
closes its descriptor, as the one of `asio` does.

The calls that the constructors make are taken to succeed.  Standard error keeps its
file, and what is written to it is not among the events.
-/

namespace BlackCircle.Console.Redirection

open BlackCircle.Foundation.ByteString
open BlackCircle.Foundation.Descriptors
open BlackCircle.Foundation.EventRun

/-! ## The terminal -/

/-- The flags of a terminal. -/
structure Termios where
  iflag : UInt32
  oflag : UInt32
  cflag : UInt32
  lflag : UInt32
  deriving DecidableEq

/-- The process and its terminal. -/
structure System (α : Type) where
  process : Process α
  mode : Termios

/-- The masks that `raw_termios` uses, with the values they have on Linux: `IGNBRK`, `BRKINT`,
`PARMRK`, `ISTRIP` and `IXON`; `OPOST`; `ECHO`, `ICANON` and `IEXTEN`; `CSIZE` and `PARENB`. -/
def inputMask : UInt32 := 0x1 ||| 0x2 ||| 0x8 ||| 0x20 ||| 0x400

def outputMask : UInt32 := 0x1

def localMask : UInt32 := 0x8 ||| 0x2 ||| 0x8000

def controlMask : UInt32 := 0x30 ||| 0x100

def CS8 : UInt32 := 0x30

def rawMode (t : Termios) : Termios where
  iflag := t.iflag &&& ~~~inputMask
  oflag := t.oflag &&& ~~~outputMask
  cflag := (t.cflag &&& ~~~controlMask) ||| CS8
  lflag := t.lflag &&& ~~~localMask

/-- `raw_termios`. -/
structure RawTermios where
  ot : Termios
  no : Nat

section Members

variable {α : Type}

def RawTermios.make (tty : α) (s : System α) : Option (RawTermios × System α) :=
  (s.process.allocate (.other tty)).map fun (no, process) =>
    (⟨s.mode, no⟩, ⟨process, rawMode s.mode⟩)

/-- The destructor; the attributes are set if the descriptor is open. -/
def RawTermios.destroy (ti : RawTermios) (s : System α) : System α where
  process := s.process.close ti.no
  mode := if (s.process.file ti.no).isSome then ti.ot else s.mode

/-! ## The pipes -/

def stdin : Nat := 0

def stdout : Nat := 1

/-- `piped_stdio`. -/
structure PipedStdio where
  pipedStdout : Nat
  trueStdout : Nat
  pipedStdin : Nat
  trueStdin : Nat

/-- The constructor, as long as no call in it fails. -/
def PipedStdio.make (p : Process α) : Option (PipedStdio × Process α) := do
  let ((pipedStdout, writeEnd), p) ← p.pipe
  let (trueStdout, p) ← p.dup stdout
  let p ← p.dup2 writeEnd stdout
  let p := p.close writeEnd
  let ((readEnd, pipedStdin), p) ← p.pipe
  let (trueStdin, p) ← p.dup stdin
  let p ← p.dup2 readEnd stdin
  let p := p.close readEnd
  return (⟨pipedStdout, trueStdout, pipedStdin, trueStdin⟩, p)

/-- The destructor; a call that fails does nothing. -/
def PipedStdio.destroy (ps : PipedStdio) (p : Process α) : Process α :=
  let p := (p.dup2 ps.trueStdout stdout).getD p
  let p := p.close ps.trueStdout
  let p := p.close ps.pipedStdout
  let p := (p.dup2 ps.trueStdin stdin).getD p
  let p := p.close ps.trueStdin
  p.close ps.pipedStdin

/-- The descriptors that are in use while it exists, from standard input on. -/
def PipedStdio.own (ps : PipedStdio) : List Nat :=
  [stdin, stdout, ps.pipedStdout, ps.trueStdout, ps.pipedStdin, ps.trueStdin]

end Members

/-! ## The descriptors behind the constructor -/

section Construction

variable {α : Type} {before p : Process α} {ps : PipedStdio}

/-- A standard descriptor stands for one end of a new pipe; the other end and a copy of what it
stood for have descriptors that were free. -/
structure Redirected (before : Process α) (standard kept copy : Nat) (given other : File α)
    (p : Process α) : Prop where
  keptFree : before.file kept = none
  copyFree : before.file copy = none
  distinct : kept ≠ copy
  inRange : standard < before.limit
  redirects : p.file standard = some given
  keeps : p.file kept = some other
  copies : p.file copy = before.file standard
  others : ∀ fd, fd ≠ standard → fd ≠ kept → fd ≠ copy → p.file fd = before.file fd
  same : p = { before with file := p.file, pipes := before.pipes ++ [[]] }

/-- The four calls for one of the two: a pipe, a copy of what is there, one end in its place, and
that end closed. -/
theorem redirected {standard kept end_ copy : Nat} {given other : File α} {p₁ p₂ p₃ : Process α}
    (hopen : before.file standard ≠ none) (hkept : before.file kept = none)
    (hend : before.file end_ = none) (hne : kept ≠ end_)
    (hpipe : p₁ = ({ before with pipes := before.pipes ++ [[]] }.set kept (some other)).set end_
      (some given))
    (hdup : p₁.dup standard = some (copy, p₂)) (hdup2 : p₂.dup2 end_ standard = some p₃) :
    Redirected before standard kept copy given other (p₃.close end_) := by
  obtain ⟨f, hf, hfree, -, rfl⟩ := Process.dup_eq_some hdup
  obtain ⟨g, hg, hlt, rfl⟩ := Process.dup2_eq_some hdup2
  have hstandard : standard ≠ kept ∧ standard ≠ end_ :=
    ⟨fun heq => hopen (heq ▸ hkept), fun heq => hopen (heq ▸ hend)⟩
  clear hdup hdup2
  subst hpipe
  simp only [Process.set, Process.close, Function.update_apply] at *
  refine ⟨hkept, ?_, ?_, hlt, ?_, ?_, ?_, ?_, rfl⟩
  all_goals grind

theorem pipe_set {readEnd writeEnd : Nat} (h : before.pipe = some ((readEnd, writeEnd), p)) :
    p = ({ before with pipes := before.pipes ++ [[]] }.set writeEnd
      (some (.writeEnd before.pipes.length))).set readEnd
        (some (.readEnd before.pipes.length)) := by
  obtain ⟨-, -, hne, rfl⟩ := Process.pipe_eq_some h
  simp only [Process.set, Function.update_comm hne]

/-- Both have been redirected, standard output first. -/
theorem redirected_make (h : PipedStdio.make before = some (ps, p))
    (hinput : before.file stdin ≠ none) (houtput : before.file stdout ≠ none) :
    ∃ between, Redirected before stdout ps.pipedStdout ps.trueStdout
        (.writeEnd before.pipes.length) (.readEnd before.pipes.length) between ∧
      Redirected between stdin ps.pipedStdin ps.trueStdin
        (.readEnd (before.pipes.length + 1)) (.writeEnd (before.pipes.length + 1)) p := by
  obtain ⟨⟨⟨pipedStdout, writeEnd⟩, p₁⟩, hpipe, h⟩ := Option.bind_eq_some_iff.mp h
  obtain ⟨⟨trueStdout, p₂⟩, hdup, h⟩ := Option.bind_eq_some_iff.mp h
  obtain ⟨p₃, hdup2, h⟩ := Option.bind_eq_some_iff.mp h
  obtain ⟨⟨⟨readEnd, pipedStdin⟩, p₅⟩, hpipe', h⟩ := Option.bind_eq_some_iff.mp h
  obtain ⟨⟨trueStdin, p₆⟩, hdup', h⟩ := Option.bind_eq_some_iff.mp h
  obtain ⟨p₇, hdup2', h⟩ := Option.bind_eq_some_iff.mp h
  obtain ⟨rfl, rfl⟩ := Prod.mk.inj (Option.some.inj h)
  obtain ⟨hr, hw, hne, hset⟩ := Process.pipe_eq_some hpipe
  have hfirst := redirected houtput hr hw hne.symm hset hdup hdup2
  obtain ⟨hr', hw', hne', -⟩ := Process.pipe_eq_some hpipe'
  have hset' := pipe_set hpipe'
  have hlength : (p₃.close writeEnd).pipes.length = before.pipes.length + 1 := by
    rw [hfirst.same]
    simp
  rw [hlength] at hset'
  have hinput' : (p₃.close writeEnd).file stdin ≠ none := by
    rwa [hfirst.others stdin (by decide) (fun heq => hinput (heq ▸ hfirst.keptFree))
      (fun heq => hinput (heq ▸ hfirst.copyFree))]
  exact ⟨_, hfirst, redirected hinput' hw' hr' hne' hset' hdup' hdup2'⟩

/-- The descriptors while it exists; some others are held by connections. -/
structure Plumbed (before : Process α) (ps : PipedStdio) (held : List Nat) (limit : Nat)
    (file : Nat → Option (File α)) : Prop where
  distinct : ps.own.Nodup
  inRange : stdin < limit ∧ stdout < limit
  free : before.file ps.pipedStdout = none ∧ before.file ps.trueStdout = none ∧
    before.file ps.pipedStdin = none ∧ before.file ps.trueStdin = none
  input : file stdin = some (.readEnd (before.pipes.length + 1))
  output : file stdout = some (.writeEnd before.pipes.length)
  pipedStdout : file ps.pipedStdout = some (.readEnd before.pipes.length)
  trueStdout : file ps.trueStdout = before.file stdout
  pipedStdin : file ps.pipedStdin = some (.writeEnd (before.pipes.length + 1))
  trueStdin : file ps.trueStdin = before.file stdin
  others : ∀ fd ∉ ps.own, fd ∉ held → file fd = before.file fd
  heldFree : ∀ fd ∈ held, before.file fd = none
  heldApart : ∀ fd ∈ held, fd ∉ ps.own
  heldOpen : ∀ fd ∈ held, ∃ a, file fd = some (.other a)

theorem plumbed_make (h : PipedStdio.make before = some (ps, p))
    (hinput : before.file stdin ≠ none) (houtput : before.file stdout ≠ none) :
    Plumbed before ps [] p.limit p.file ∧
      p = { before with file := p.file, pipes := before.pipes ++ [[], []] } := by
  obtain ⟨between, hfirst, hsecond⟩ := redirected_make h hinput houtput
  obtain ⟨hkeptFree, hcopyFree, hdistinct, hlt, hredirects, hkeeps, hcopies, hothers, hsame⟩ :=
    hfirst
  obtain ⟨hkeptFree', hcopyFree', hdistinct', hlt', hredirects', hkeeps', hcopies', hothers',
    hsame'⟩ := hsecond
  have hstdin : stdin ≠ stdout := by decide
  have hbefore : ∀ fd, before.file fd ≠ none → fd ≠ ps.pipedStdout ∧ fd ≠ ps.trueStdout := by
    rintro fd hfd
    exact ⟨fun heq => hfd (heq ▸ hkeptFree), fun heq => hfd (heq ▸ hcopyFree)⟩
  have hbetween : ∀ fd, between.file fd ≠ none → fd ≠ ps.pipedStdin ∧ fd ≠ ps.trueStdin := by
    rintro fd hfd
    exact ⟨fun heq => hfd (heq ▸ hkeptFree'), fun heq => hfd (heq ▸ hcopyFree')⟩
  obtain ⟨hstdinKept, hstdinCopy⟩ := hbefore stdin hinput
  obtain ⟨hstdoutKept, hstdoutCopy⟩ := hbefore stdout houtput
  have hinput' : between.file stdin = before.file stdin := hothers _ hstdin hstdinKept hstdinCopy
  obtain ⟨hstdinKept', hstdinCopy'⟩ := hbetween stdin (hinput' ▸ hinput)
  obtain ⟨hstdoutKept', hstdoutCopy'⟩ := hbetween stdout (by simp [hredirects])
  obtain ⟨hkeptKept, hkeptCopy⟩ := hbetween ps.pipedStdout (by simp [hkeeps])
  obtain ⟨hcopyKept, hcopyCopy⟩ := hbetween ps.trueStdout (by rwa [hcopies])
  refine ⟨⟨?_, ?_, ⟨hkeptFree, hcopyFree, ?_, ?_⟩, hredirects', ?_, ?_, ?_, hkeeps', ?_,
    ?_, by simp, by simp, by simp⟩, ?_⟩
  · simp only [PipedStdio.own, List.nodup_cons, List.mem_cons, List.not_mem_nil, or_false,
      not_or, List.nodup_nil, not_false_eq_true, and_true]
    exact ⟨⟨hstdin, hstdinKept, hstdinCopy, hstdinKept', hstdinCopy'⟩,
      ⟨hstdoutKept, hstdoutCopy, hstdoutKept', hstdoutCopy'⟩,
      ⟨hdistinct, hkeptKept, hkeptCopy⟩, ⟨hcopyKept, hcopyCopy⟩, hdistinct'⟩
  · rw [hsame', hsame]
    rw [hsame] at hlt'
    exact ⟨hlt', hlt⟩
  · rwa [← hothers _ hstdoutKept'.symm hkeptKept.symm hcopyKept.symm]
  · rwa [← hothers _ hstdoutCopy'.symm hkeptCopy.symm hcopyCopy.symm]
  · rw [hothers' _ hstdin.symm hstdoutKept' hstdoutCopy', hredirects]
  · rw [hothers' _ hstdinKept.symm hkeptKept hkeptCopy, hkeeps]
  · rw [hothers' _ hstdinCopy.symm hcopyKept hcopyCopy, hcopies]
  · rw [hcopies', hinput']
  · intro fd hfd _
    simp only [PipedStdio.own, List.mem_cons, List.not_mem_nil, or_false, not_or] at hfd
    obtain ⟨h₀, h₁, hkept, hcopy, hkept', hcopy'⟩ := hfd
    rw [hothers' fd h₀ hkept' hcopy', hothers fd h₁ hkept hcopy]
  · rw [hsame', hsame, List.append_assoc]
    rfl

end Construction

/-! ## While it exists -/

/-- The process and its terminal, the two members, what has been read of standard output and of
standard input, and the descriptors of connections. -/
structure Session (α : Type) where
  system : System α
  ti : RawTermios
  ps : PipedStdio
  fromOutput : Bytes
  fromInput : Bytes
  held : List Nat

inductive Event (α : Type) where
  /-- `std::cout` is flushed. -/
  | print (bytes : Bytes)
  /-- `out_handler` is given what has been printed. -/
  | takeOutput (count : Nat)
  /-- A handler writes to the terminal. -/
  | show (bytes : Bytes)
  /-- `in_handler` forwards a line. -/
  | forward (bytes : Bytes)
  /-- `readline_handler` is given what has been forwarded. -/
  | takeInput (count : Nat)
  | connect (file : α)
  | disconnect (fd : Nat)

section Sessions

variable {α : Type}

/-- The members of an `output_handler` in the order of their construction. -/
def enter (tty : α) (s : System α) : Option (Session α) := do
  let (ti, s) ← RawTermios.make tty s
  let (ps, process) ← PipedStdio.make s.process
  return ⟨{ s with process := process }, ti, ps, [], [], []⟩

def Session.behind (s : Session α) (process : Process α) : Session α :=
  { s with system := { s.system with process := process } }

def step (event : Event α) (s : Session α) : Option (Session α) :=
  let process := s.system.process
  match event with
  | .print bytes => (process.write stdout bytes).map s.behind
  | .takeOutput count =>
      (process.read s.ps.pipedStdout count).map fun (bytes, process) =>
        { s.behind process with fromOutput := s.fromOutput ++ bytes }
  | .show bytes => (process.write s.ps.trueStdout bytes).map s.behind
  | .forward bytes => (process.write s.ps.pipedStdin bytes).map s.behind
  | .takeInput count =>
      (process.read stdin count).map fun (bytes, process) =>
        { s.behind process with fromInput := s.fromInput ++ bytes }
  | .connect file =>
      (process.allocate (.other file)).map fun (fd, process) =>
        { s.behind process with held := fd :: s.held }
  | .disconnect fd =>
      if fd ∈ s.held then
        some { s.behind (process.close fd) with held := s.held.filter (· != fd) }
      else none

/-- What the streams of `console_handler` and `output_handler` leave behind, the last one first. -/
def letGo (closes : Bool) (s : Session α) : Process α :=
  let process := s.system.process
  if closes then ((process.close stdin).close s.ps.trueStdin).close s.ps.pipedStdout else process

/-- What all destructors leave behind. -/
def leave (closes : Bool) (s : Session α) : System α :=
  s.ti.destroy ⟨s.ps.destroy (letGo closes s), s.system.mode⟩

/-- What goes to standard output, to standard input and to the terminal, by the events. -/
def printed (events : List (Event α)) : Bytes :=
  events.flatMap fun
    | .print bytes => bytes
    | _ => []

def forwarded (events : List (Event α)) : Bytes :=
  events.flatMap fun
    | .forward bytes => bytes
    | _ => []

def shown (events : List (Event α)) : List Bytes :=
  events.flatMap fun
    | .show bytes => [bytes]
    | _ => []

/-- What the pipes and the terminal have been given; `opened` is the process behind the construction
of `raw_termios`. -/
structure Carries (opened : Process α) (terminal : α) (events : List (Event α)) (s : Session α)
    (output input : Bytes) : Prop where
  capacity : s.system.process.capacity = opened.capacity
  pipes : s.system.process.pipes = opened.pipes ++ [output, input]
  room : output.length ≤ opened.capacity
  output : s.fromOutput ++ output = printed events
  input : s.fromInput ++ input = forwarded events
  written : s.system.process.written =
    opened.written ++ (shown events).map fun bytes => (terminal, bytes)

/-- What every event keeps. -/
structure Stands (opened : Process α) (terminal : α) (events : List (Event α)) (s : Session α) :
    Prop where
  plumbed : Plumbed opened s.ps s.held s.system.process.limit s.system.process.file
  carries : ∃ output input, Carries opened terminal events s output input

variable {opened : Process α} {terminal : α} {events : List (Event α)} {s s' : Session α}
  {output input : Bytes}

theorem printed_append (event : Event α) :
    printed (events ++ [event]) = printed events ++ printed [event] :=
  List.flatMap_append

theorem forwarded_append (event : Event α) :
    forwarded (events ++ [event]) = forwarded events ++ forwarded [event] :=
  List.flatMap_append

theorem shown_append (event : Event α) :
    shown (events ++ [event]) = shown events ++ shown [event] :=
  List.flatMap_append

/-- The pipe of standard output. -/
theorem pipes_output {pipes made : List Bytes} (h : made = pipes ++ [output, input]) :
    made[pipes.length]? = some output ∧
      ∀ output', made.set pipes.length output' = pipes ++ [output', input] := by
  subst h
  constructor
  · simp
  · intro output'
    simp

/-- The pipe of standard input. -/
theorem pipes_input {pipes made : List Bytes} (h : made = pipes ++ [output, input]) :
    made[pipes.length + 1]? = some input ∧
      ∀ input', made.set (pipes.length + 1) input' = pipes ++ [output, input'] := by
  subst h
  constructor
  · simp
  · intro input'
    simp

/-- An event about other descriptors. -/
theorem Carries.connection (h : Carries opened terminal events s output input) {event : Event α}
    (hprinted : printed [event] = []) (hforwarded : forwarded [event] = [])
    (hshown : shown [event] = []) (file : Nat → Option (File α)) (held : List Nat) :
    Carries opened terminal (events ++ [event])
      { s.behind { s.system.process with file := file } with held := held } output input where
  capacity := h.capacity
  pipes := h.pipes
  room := h.room
  output := by rw [printed_append, hprinted, List.append_nil]; exact h.output
  input := by rw [forwarded_append, hforwarded, List.append_nil]; exact h.input
  written := by rw [shown_append, hshown, List.append_nil]; exact h.written

section Descriptors

variable {ps : PipedStdio} {held : List Nat} {limit fd : Nat} {file : Nat → Option (File α)}

/-- A change elsewhere leaves the descriptors of the output handler as they are. -/
theorem Plumbed.update (h : Plumbed opened ps held limit file) (hfd : fd ∉ ps.own)
    (now : Option (File α)) {held' : List Nat}
    (hothers : ∀ fd' ∉ ps.own, fd' ∉ held' → Function.update file fd now fd' = opened.file fd')
    (hfree : ∀ fd' ∈ held', opened.file fd' = none) (hapart : ∀ fd' ∈ held', fd' ∉ ps.own)
    (hopen : ∀ fd' ∈ held', ∃ a, Function.update file fd now fd' = some (.other a)) :
    Plumbed opened ps held' limit (Function.update file fd now) := by
  have hsame : ∀ fd' ∈ ps.own, Function.update file fd now fd' = file fd' := by
    intro fd' hmem
    exact Function.update_of_ne (fun heq : fd' = fd => hfd (heq ▸ hmem)) _ _
  constructor
  case input => rw [hsame _ (by simp [PipedStdio.own]), h.input]
  case output => rw [hsame _ (by simp [PipedStdio.own]), h.output]
  case pipedStdout => rw [hsame _ (by simp [PipedStdio.own]), h.pipedStdout]
  case trueStdout => rw [hsame _ (by simp [PipedStdio.own]), h.trueStdout]
  case pipedStdin => rw [hsame _ (by simp [PipedStdio.own]), h.pipedStdin]
  case trueStdin => rw [hsame _ (by simp [PipedStdio.own]), h.trueStdin]
  case distinct => exact h.distinct
  case inRange => exact h.inRange
  case free => exact h.free
  case others => exact hothers
  case heldFree => exact hfree
  case heldApart => exact hapart
  case heldOpen => exact hopen

/-- The descriptors of the output handler are open. -/
theorem Plumbed.own_open (h : Plumbed opened ps held limit file) (hinput : opened.file stdin ≠ none)
    (houtput : opened.file stdout ≠ none) : ∀ fd ∈ ps.own, file fd ≠ none := by
  simp only [PipedStdio.own, List.forall_mem_cons, h.input, h.output, h.pipedStdout, h.trueStdout,
    h.pipedStdin, h.trueStdin]
  simp [hinput, houtput]

theorem Plumbed.connect (h : Plumbed opened ps held limit file) (hinput : opened.file stdin ≠ none)
    (houtput : opened.file stdout ≠ none) (hfree : file fd = none) (a : α) :
    Plumbed opened ps (fd :: held) limit (Function.update file fd (some (.other a))) := by
  have hfd : fd ∉ ps.own := fun hmem => h.own_open hinput houtput fd hmem hfree
  have hheld : fd ∉ held := by
    intro hmem
    obtain ⟨b, hb⟩ := h.heldOpen fd hmem
    rw [hfree] at hb
    cases hb
  refine h.update hfd _ ?_ ?_ ?_ ?_
  · intro fd' hown hnew
    rw [List.mem_cons, not_or] at hnew
    rw [Function.update_of_ne hnew.1, h.others fd' hown hnew.2]
  · refine List.forall_mem_cons.mpr ⟨?_, h.heldFree⟩
    rw [← h.others fd hfd hheld, hfree]
  · exact List.forall_mem_cons.mpr ⟨hfd, h.heldApart⟩
  · refine List.forall_mem_cons.mpr ⟨⟨a, Function.update_self _ _ _⟩, fun fd' hmem => ?_⟩
    rw [Function.update_of_ne fun heq : fd' = fd => hheld (heq ▸ hmem)]
    exact h.heldOpen fd' hmem

theorem Plumbed.disconnect (h : Plumbed opened ps held limit file) (hmem : fd ∈ held) :
    Plumbed opened ps (held.filter (· != fd)) limit (Function.update file fd none) := by
  have hleft : ∀ fd' ∈ held.filter (· != fd), fd' ∈ held ∧ fd' ≠ fd := by
    intro fd' hleft
    simpa using hleft
  refine h.update (h.heldApart fd hmem) _ ?_ ?_ ?_ ?_
  · intro fd' hown hnot
    by_cases heq : fd' = fd
    · rw [heq, Function.update_self, h.heldFree fd hmem]
    · rw [Function.update_of_ne heq]
      refine h.others fd' hown fun hheld => hnot ?_
      simpa using ⟨hheld, heq⟩
  · exact fun fd' hmem' => h.heldFree fd' (hleft fd' hmem').1
  · exact fun fd' hmem' => h.heldApart fd' (hleft fd' hmem').1
  · intro fd' hmem'
    rw [Function.update_of_ne (hleft fd' hmem').2]
    exact h.heldOpen fd' (hleft fd' hmem').1

end Descriptors

theorem Stands.step (h : Stands opened terminal events s) (hstdin : opened.file stdin ≠ none)
    (hterminal : opened.file stdout = some (.other terminal)) {event : Event α}
    (hstep : step event s = some s') : Stands opened terminal (events ++ [event]) s' := by
  obtain ⟨hplumbed, output, input, hcarries⟩ := h
  obtain ⟨hcapacity, hpipes, hroom, houtput, hinput, hwritten⟩ := hcarries
  obtain ⟨houtputPipe, hsetOutput⟩ := pipes_output hpipes
  obtain ⟨hinputPipe, hsetInput⟩ := pipes_input hpipes
  cases event with
  | print bytes =>
      rw [Redirection.step, Process.write_pipe hplumbed.output houtputPipe] at hstep
      split at hstep
      case isFalse => cases hstep
      case isTrue hfits =>
        cases hstep
        refine ⟨hplumbed, output ++ bytes, input, hcapacity, hsetOutput _, ?_, ?_, ?_, ?_⟩
        · rwa [List.length_append, ← hcapacity]
        · rw [printed_append, ← houtput, List.append_assoc]
          simp [printed, Session.behind]
        · rw [forwarded_append, ← hinput]
          simp [forwarded, Session.behind]
        · rw [shown_append]
          simpa [shown, Session.behind] using hwritten
  | takeOutput count =>
      rw [Redirection.step, Process.read_pipe hplumbed.pipedStdout houtputPipe] at hstep
      cases hstep
      refine ⟨hplumbed, output.drop count, input, hcapacity, hsetOutput _, ?_, ?_, ?_, ?_⟩
      · exact (List.drop_sublist count output).length_le.trans hroom
      · rw [printed_append, ← houtput, List.append_assoc, List.take_append_drop]
        simp [printed]
      · rw [forwarded_append, ← hinput]
        simp [forwarded, Session.behind]
      · rw [shown_append]
        simpa [shown, Session.behind] using hwritten
  | «show» bytes =>
      rw [Redirection.step, Process.write_other (hplumbed.trueStdout.trans hterminal)] at hstep
      cases hstep
      refine ⟨hplumbed, output, input, hcapacity, hpipes, hroom, ?_, ?_, ?_⟩
      · rw [printed_append, ← houtput]
        simp [printed, Session.behind]
      · rw [forwarded_append, ← hinput]
        simp [forwarded, Session.behind]
      · rw [shown_append, List.map_append, ← List.append_assoc, ← hwritten]
        rfl
  | forward bytes =>
      rw [Redirection.step, Process.write_pipe hplumbed.pipedStdin hinputPipe] at hstep
      split at hstep
      case isFalse => cases hstep
      case isTrue =>
        cases hstep
        refine ⟨hplumbed, output, input ++ bytes, hcapacity, hsetInput _, hroom, ?_, ?_, ?_⟩
        · rw [printed_append, ← houtput]
          simp [printed, Session.behind]
        · rw [forwarded_append, ← hinput, List.append_assoc]
          simp [forwarded, Session.behind]
        · rw [shown_append]
          simpa [shown, Session.behind] using hwritten
  | takeInput count =>
      rw [Redirection.step, Process.read_pipe hplumbed.input hinputPipe] at hstep
      cases hstep
      refine ⟨hplumbed, output, input.drop count, hcapacity, hsetInput _, hroom, ?_, ?_, ?_⟩
      · rw [printed_append, ← houtput]
        simp [printed, Session.behind]
      · rw [forwarded_append, ← hinput, List.append_assoc, List.take_append_drop]
        simp [forwarded]
      · rw [shown_append]
        simpa [shown, Session.behind] using hwritten
  | connect file =>
      obtain ⟨⟨fd, process⟩, halloc, hmade⟩ := Option.map_eq_some_iff.mp hstep
      cases hmade
      obtain ⟨hfree, -, rfl⟩ := Process.allocate_eq_some halloc
      refine ⟨hplumbed.connect hstdin (by simp [hterminal]) hfree file, output, input, ?_⟩
      exact Carries.connection ⟨hcapacity, hpipes, hroom, houtput, hinput, hwritten⟩ rfl rfl rfl _ _
  | disconnect fd =>
      rw [Redirection.step] at hstep
      split at hstep
      case isFalse => cases hstep
      case isTrue hmem =>
        cases hstep
        refine ⟨hplumbed.disconnect hmem, output, input, ?_⟩
        exact Carries.connection ⟨hcapacity, hpipes, hroom, houtput, hinput, hwritten⟩
          rfl rfl rfl _ _

/-- Behind the constructors. -/
theorem enter_eq_some {tty : α} {before : System α} (h : enter tty before = some s)
    (hstdin : before.process.file stdin ≠ none)
    (hterminal : before.process.file stdout = some (.other terminal)) :
    ∃ no, before.process.file no = none ∧ s.ti = ⟨before.mode, no⟩ ∧
      s.system.mode = rawMode before.mode ∧
      Stands (before.process.set no (some (.other tty))) terminal [] s := by
  obtain ⟨⟨ti, opened⟩, hti, h⟩ := Option.bind_eq_some_iff.mp h
  obtain ⟨⟨ps, process⟩, hps, h⟩ := Option.bind_eq_some_iff.mp h
  obtain rfl := Option.some.inj h
  obtain ⟨⟨no, process'⟩, halloc, hmade⟩ := Option.map_eq_some_iff.mp hti
  obtain ⟨rfl, rfl⟩ := Prod.mk.inj hmade
  obtain ⟨hfree, -, rfl⟩ := Process.allocate_eq_some halloc
  have hne : ∀ fd, before.process.file fd ≠ none → fd ≠ no :=
    fun fd hopen heq => hopen (heq ▸ hfree)
  have hstdin' : (before.process.set no (some (.other tty))).file stdin ≠ none := by
    rwa [Process.file_set_of_ne (hne _ hstdin)]
  have hstdout' : (before.process.set no (some (.other tty))).file stdout ≠ none := by
    rw [Process.file_set_of_ne (hne _ (by simp [hterminal])), hterminal]
    simp
  obtain ⟨hplumbed, hsame⟩ := plumbed_make hps hstdin' hstdout'
  refine ⟨no, hfree, rfl, rfl, hplumbed, [], [], ?_, ?_, Nat.zero_le _, rfl, rfl, ?_⟩
  · rw [hsame]
  · rw [hsame]
  · rw [hsame]
    exact (List.append_nil _).symm

/-- The members stay as they have been constructed, and the terminal in its mode. -/
theorem step_same {event : Event α} (h : step event s = some s') :
    s'.ti = s.ti ∧ s'.ps = s.ps ∧ s'.system.mode = s.system.mode := by
  cases event with
  | disconnect fd =>
      rw [Redirection.step] at h
      split at h
      · cases h
        exact ⟨rfl, rfl, rfl⟩
      · cases h
  | _ =>
      obtain ⟨made, -, rfl⟩ := Option.map_eq_some_iff.mp h
      exact ⟨rfl, rfl, rfl⟩

theorem run_same (h : run step events s = some s') :
    s'.ti = s.ti ∧ s'.ps = s.ps ∧ s'.system.mode = s.system.mode := by
  have hkept : ∀ (event : Event α) (now next : Session α),
      (now.ti = s.ti ∧ now.ps = s.ps ∧ now.system.mode = s.system.mode) →
      step event now = some next →
      next.ti = s.ti ∧ next.ps = s.ps ∧ next.system.mode = s.system.mode := by
    rintro event now next ⟨hti, hps, hmode⟩ hstep
    obtain ⟨hti', hps', hmode'⟩ := step_same hstep
    exact ⟨hti'.trans hti, hps'.trans hps, hmode'.trans hmode⟩
  exact @run_invariant _ _ step events s s'
    (fun now => now.ti = s.ti ∧ now.ps = s.ps ∧ now.system.mode = s.system.mode) hkept h
    ⟨rfl, rfl, rfl⟩

/-- A handler that prints, in whatever parts it is flushed, returns if the pipe has room for all of
it: nothing is read of the pipe before it returns. -/
theorem run_prints_iff {n : Nat} (hfile : s.system.process.file stdout = some (.writeEnd n))
    (hpipe : s.system.process.pipes[n]? = some output)
    (hroom : output.length ≤ s.system.process.capacity) (parts : List Bytes) :
    (run step (parts.map Event.print) s).isSome ↔
      output.length + parts.flatten.length ≤ s.system.process.capacity := by
  induction parts generalizing s output with
  | nil => simpa [run] using hroom
  | cons bytes parts ih =>
      rw [List.map_cons, List.flatten_cons, List.length_append, run, Redirection.step,
        Process.write_pipe hfile hpipe]
      by_cases hfits : output.length + bytes.length ≤ s.system.process.capacity
      · rw [if_pos hfits]
        have hlt := (List.getElem?_eq_some_iff.mp hpipe).1
        have hnext : (s.system.process.pipes.set n (output ++ bytes))[n]? =
            some (output ++ bytes) := List.getElem?_set_self hlt
        rw [← Nat.add_assoc, ← List.length_append]
        exact @ih (s.behind { s.system.process with
          pipes := s.system.process.pipes.set n (output ++ bytes) }) (output ++ bytes) hfile hnext
            (by rwa [List.length_append])
      · rw [if_neg hfits]
        refine iff_of_false (by simp) fun hall => hfits ?_
        omega

/-! ## Behind the destructors -/

/-- A copy of what is there is what is behind it; if nothing is, all stays. -/
theorem getD_dup2 (p : Process α) {fd copy : Nat} (hlt : copy < p.limit) :
    (p.dup2 fd copy).getD p = p.set copy ((p.file fd).or (p.file copy)) := by
  rw [Process.dup2]
  cases hfile : p.file fd with
  | none =>
      rw [Option.bind_none, Option.getD_none, Option.none_or, Process.set, Function.update_eq_self]
  | some file =>
      rw [Option.bind_some, if_pos hlt]
      rfl

theorem file_destroy {ps : PipedStdio} {p : Process α} (hdistinct : ps.own.Nodup)
    (hrange : stdin < p.limit ∧ stdout < p.limit) (fd : Nat) :
    (ps.destroy p).file fd =
      if fd = ps.pipedStdout ∨ fd = ps.trueStdout ∨ fd = ps.pipedStdin ∨ fd = ps.trueStdin then none
      else if fd = stdout then (p.file ps.trueStdout).or (p.file stdout)
      else if fd = stdin then (p.file ps.trueStdin).or (p.file stdin)
      else p.file fd := by
  simp only [PipedStdio.own, List.nodup_cons, List.mem_cons, List.not_mem_nil, or_false,
    not_or, List.nodup_nil, not_false_eq_true, and_true] at hdistinct
  obtain ⟨⟨h₁, h₂, h₃, h₄, h₅⟩, ⟨h₆, h₇, h₈, h₉⟩, ⟨h₁₀, h₁₁, h₁₂⟩, ⟨h₁₃, h₁₄⟩, h₁₅⟩ := hdistinct
  have hlt : stdin < (((p.set stdout ((p.file ps.trueStdout).or (p.file stdout))).close
      ps.trueStdout).close ps.pipedStdout).limit := hrange.1
  unfold PipedStdio.destroy
  simp only [getD_dup2 p hrange.2, getD_dup2 _ hlt]
  simp only [Process.close, Process.set, Function.update_apply]
  split_ifs <;> simp_all

/-- The streams close no descriptor of another. -/
theorem file_letGo (closes : Bool) (s : Session α) :
    (letGo closes s).limit = s.system.process.limit ∧
      (∀ fd, (closes ∧ (fd = stdin ∨ fd = s.ps.trueStdin)) → (letGo closes s).file fd = none) ∧
      ∀ fd, ¬(closes ∧ (fd = stdin ∨ fd = s.ps.trueStdin ∨ fd = s.ps.pipedStdout)) →
        (letGo closes s).file fd = s.system.process.file fd := by
  cases closes with
  | false => exact ⟨rfl, by simp, fun fd _ => rfl⟩
  | true =>
      refine ⟨rfl, fun fd hfd => ?_, fun fd hfd => ?_⟩
      · simp only [letGo, if_pos, Process.close, Process.set, Function.update_apply]
        split_ifs <;> simp_all
      · simp only [not_and, not_or, true_implies] at hfd
        obtain ⟨hstdin, htrue, hpiped⟩ := hfd
        simp only [letGo, if_pos, Process.close]
        rw [Process.file_set_of_ne hpiped, Process.file_set_of_ne htrue,
          Process.file_set_of_ne hstdin]

/-- All descriptors but that of standard input are as they were, besides those held by others. -/
theorem file_destroyed (h : Plumbed opened s.ps s.held s.system.process.limit s.system.process.file)
    (hstdin : opened.file stdin ≠ none) (hstdout : opened.file stdout ≠ none) (closes : Bool)
    (fd : Nat) :
    (s.ps.destroy (letGo closes s)).file fd =
      if closes ∧ fd = stdin then none
      else if fd ∈ s.held then s.system.process.file fd
      else opened.file fd := by
  obtain ⟨hlimit, hgone, hleft⟩ := file_letGo closes s
  have hrange := h.inRange
  rw [← hlimit] at hrange
  rw [file_destroy h.distinct hrange]
  have hdistinct := h.distinct
  simp only [PipedStdio.own, List.nodup_cons, List.mem_cons, List.not_mem_nil, or_false,
    not_or, List.nodup_nil, not_false_eq_true, and_true] at hdistinct
  obtain ⟨⟨h₁, h₂, h₃, h₄, h₅⟩, ⟨h₆, h₇, h₈, h₉⟩, ⟨h₁₀, h₁₁, h₁₂⟩, ⟨h₁₃, h₁₄⟩, h₁₅⟩ := hdistinct
  by_cases hown : fd ∈ s.ps.own
  · have hheld : fd ∉ s.held := fun hmem => h.heldApart fd hmem hown
    obtain ⟨hpipedStdout, htrueStdout, hpipedStdin, htrueStdin⟩ := h.free
    rw [if_neg hheld]
    simp only [PipedStdio.own, List.mem_cons, List.not_mem_nil, or_false] at hown
    rcases hown with rfl | rfl | rfl | rfl | rfl | rfl
    · rw [if_neg (by simp [h₂, h₃, h₄, h₅]), if_neg h₁, if_pos rfl]
      cases closes with
      | true => simp [hgone]
      | false =>
          obtain ⟨file, hfile⟩ := Option.ne_none_iff_exists'.mp hstdin
          rw [hleft _ (by simp), h.trueStdin, if_neg (by simp), hfile]
          rfl
    · obtain ⟨file, hfile⟩ := Option.ne_none_iff_exists'.mp hstdout
      rw [if_neg (by simp [h₆, h₇, h₈, h₉]), if_pos rfl,
        hleft _ (by simp [Ne.symm h₃, h₁₄, Ne.symm h₁₀]), h.trueStdout,
          if_neg (by simp [Ne.symm h₁]),
        hfile]
      rfl
    · rw [if_pos (Or.inl rfl), if_neg (by simp [Ne.symm h₂]), hpipedStdout]
    · rw [if_pos (Or.inr (Or.inl rfl)), if_neg (by simp [Ne.symm h₃]), htrueStdout]
    · rw [if_pos (Or.inr (Or.inr (Or.inl rfl))), if_neg (by simp [Ne.symm h₄]), hpipedStdin]
    · rw [if_pos (Or.inr (Or.inr (Or.inr rfl))), if_neg (by simp [Ne.symm h₅]), htrueStdin]
  · have hothers := h.others fd hown
    simp only [PipedStdio.own, List.mem_cons, List.not_mem_nil, or_false, not_or] at hown
    obtain ⟨hin, hout, hpipedOut, htrueOut, hpipedIn, htrueIn⟩ := hown
    rw [if_neg (by simp [hpipedOut, htrueOut, hpipedIn, htrueIn]), if_neg hout, if_neg hin,
      hleft _ (by simp [hin, htrueIn, hpipedOut]), if_neg (by simp [hin])]
    split_ifs with hheld
    · rfl
    · exact hothers hheld

/-- However the events interleave, what has been read of standard output is what has been printed,
up to what is still in its pipe, and what has been read of standard input is what has been
forwarded; only what the handlers show has been written to the terminal.  A handler that prints, in
whatever parts, returns just if the pipe has room for all of it, and likewise one that forwards a
line.  When the destructors have run, the terminal is back in its mode and the descriptors are those
from before and the ones held by connections; but if a `stream_descriptor` closes its descriptor,
standard input is closed. -/
theorem carried_and_undone (tty terminal keyboard : α) (before : System α)
    (hstdin : before.process.file stdin = some (.other keyboard))
    (hstdout : before.process.file stdout = some (.other terminal)) {start : Session α}
    (henter : enter tty before = some start) (events : List (Event α))
    (hrun : run step events start = some s) :
    (∃ output input, s.fromOutput ++ output = printed events ∧
      s.fromInput ++ input = forwarded events ∧
      (∀ parts : List Bytes, (run step (parts.map Event.print) s).isSome ↔
        output.length + parts.flatten.length ≤ before.process.capacity) ∧
      ∀ bytes, (step (.forward bytes) s).isSome ↔
        input.length + bytes.length ≤ before.process.capacity) ∧
    s.system.process.written = before.process.written ++
      (shown events).map (fun bytes => (terminal, bytes)) ∧
    s.system.process.file s.ps.trueStdin = some (.other keyboard) ∧
    s.system.mode = rawMode before.mode ∧
    ∀ closes, (leave closes s).mode = before.mode ∧
      ∀ fd, (leave closes s).process.file fd =
        if closes ∧ fd = stdin then none
        else if fd ∈ s.held then s.system.process.file fd
        else before.process.file fd := by
  obtain ⟨no, hfree, hti, hmode, hstart⟩ := enter_eq_some henter (by simp [hstdin]) hstdout
  have hne : ∀ fd, before.process.file fd ≠ none → fd ≠ no :=
    fun fd hopen heq => hopen (heq ▸ hfree)
  have hstdin' : (before.process.set no (some (.other tty))).file stdin =
      some (.other keyboard) := by
    rw [Process.file_set_of_ne (hne _ (by simp [hstdin])), hstdin]
  have hstdout' : (before.process.set no (some (.other tty))).file stdout =
      some (.other terminal) := by
    rw [Process.file_set_of_ne (hne _ (by simp [hstdout])), hstdout]
  have hstands : Stands (before.process.set no (some (.other tty))) terminal events s :=
    run_history (fun _ _ _ _ h hstep => h.step (by simp [hstdin']) hstdout' hstep) hrun hstart
  obtain ⟨hti', hps', hmode'⟩ := run_same hrun
  obtain ⟨hplumbed, output, input, hcapacity, hpipes, hroom, houtput, hinput, hwritten⟩ := hstands
  rw [hti] at hti'
  have htty : (before.process.set no (some (.other tty))).file no = some (.other tty) :=
    Process.file_set_self _ _ _
  have hnot : no ∉ s.held := by
    intro hmem
    have hheld := hplumbed.heldFree no hmem
    rw [htty] at hheld
    cases hheld
  have hdestroyed := file_destroyed hplumbed (by simp [hstdin']) (by simp [hstdout'])
  refine ⟨⟨output, input, houtput, hinput, fun parts => ?_, fun bytes => ?_⟩, hwritten,
    hplumbed.trueStdin.trans hstdin', hmode'.trans hmode, fun closes => ⟨?_, fun fd => ?_⟩⟩
  · rw [← hcapacity] at hroom
    rw [run_prints_iff hplumbed.output (pipes_output hpipes).1 hroom, hcapacity]
    rfl
  · rw [Redirection.step, Option.isSome_map,
      Process.write_pipe hplumbed.pipedStdin (pipes_input hpipes).1, hcapacity]
    exact Option.isSome_ite
  · have hopen : (s.ps.destroy (letGo closes s)).file no = some (.other tty) := by
      have hnoin : no ≠ stdin := (hne stdin (by simp [hstdin])).symm
      rw [hdestroyed, if_neg (by simp [hnoin]), if_neg hnot, htty]
    change (if ((s.ps.destroy (letGo closes s)).file s.ti.no).isSome then s.ti.ot else _) = _
    rw [hti', if_pos (by simp [hopen])]
  · change ((s.ps.destroy (letGo closes s)).close s.ti.no).file fd = _
    rw [hti', Process.close]
    by_cases heq : fd = no
    · rw [heq, Process.file_set_self, if_neg hnot, hfree]
      split_ifs <;> rfl
    · rw [Process.file_set_of_ne heq, hdestroyed, Process.file_set_of_ne heq]

end Sessions

/-- A process with the three standard descriptors, on a terminal that echoes and waits for whole
lines. -/
def console : System Nat where
  process := ⟨16, fun fd => if fd < 3 then some (.other fd) else none, 64, [], []⟩
  mode := ⟨0x500, 0x5, 0xbf, 0x8a3b⟩

/-- A line is printed and shown in two parts while a command is forwarded and a connection
opened. -/
def talk : List (Event Nat) :=
  [.print (ascii "one\n"), .takeOutput 2, .forward (ascii "get\n"), .show (ascii "on"), .connect 80,
    .takeOutput 9, .takeInput 3, .show (ascii "e")]

theorem carried_and_undone_talk : ∃ start s, enter 2 console = some start ∧
    run step talk start = some s ∧ s.fromOutput = printed talk ∧
    s.system.process.written = [(1, ascii "on"), (1, ascii "e")] ∧
    (leave true s).mode = console.mode ∧
    (leave true s).process.file stdin = none ∧ (leave false s).process.file stdin =
      some (.other 0) := by
  have hends : ((enter 2 console).bind (run step talk)).any
      (fun s => s.fromOutput = printed talk ∧ stdin ∉ s.held) = true := by
    decide +kernel
  obtain ⟨s, hs, hread⟩ := (Option.any_eq_true _ _).mp hends
  obtain ⟨hread, hheld⟩ := of_decide_eq_true hread
  obtain ⟨start, henter, hrun⟩ := Option.bind_eq_some_iff.mp hs
  obtain ⟨-, hwritten, -, -, hleave⟩ :=
    carried_and_undone 2 1 0 console (by decide) (by decide) henter talk hrun
  refine ⟨start, s, henter, hrun, hread, hwritten, (hleave true).1, (hleave true).2 stdin, ?_⟩
  rw [(hleave false).2 stdin, if_neg (by simp), if_neg hheld]
  rfl

end BlackCircle.Console.Redirection
