import BlackCircle.Foundation.ByteString
import BlackCircle.Foundation.InputStream
import BlackCircle.Foundation.ReadLoop
import Mathlib.Data.List.Infix

/-!
# Console commands

`console_handler` waits for a line end in the buffer of standard input, and then
takes a word, the white space behind it and the rest of the line out of the
buffer.  White space includes line ends, so the arguments of a word without
arguments are looked for on the next line, as far as that has arrived already.

A command line is a word and its arguments.  Whether a call of the handler keeps
to the lines is decided by how much of the next command line, and of what is
behind it, the buffer holds.
-/

namespace BlackCircle.Console.Commands

open BlackCircle.Foundation.ByteString
open BlackCircle.Foundation.InputStream
open BlackCircle.Foundation.ReadLoop
open StateTransition

/-! ## The handler -/

/-- White space of the stream. -/
def isSpace (b : Byte) : Bool := b == 32 || (9 ≤ b && b ≤ 13)

def skip (text : Bytes) : Bytes := text.dropWhile isSpace

structure Command where
  cmd : Bytes
  args : Bytes
  deriving DecidableEq, Repr

/-- The three extractions of `readline_handler`, and what they leave in the buffer. -/
def readCommand (sb : Bytes) : Command × Bytes :=
  let (cmd, is) := extractWord isSpace ⟨sb, true⟩
  let is := sentry isSpace is
  let (args, is) := getline LF is
  (⟨cmd, args⟩, is.rest)

inductive Handler where
  | readlineHandler
  deriving DecidableEq, Repr

inductive Failure where
  | systemError
  deriving DecidableEq, Repr

/-- The outputs are the commands acted on; without a word there is nothing to act on. -/
def readlineHandler (ec : Bool) (sb : Bytes) : Turn Byte Handler Command Failure :=
  if ec then ⟨sb, [], .throw .systemError⟩
  else
    let (command, rest) := readCommand sb
    { buffer := rest
      outputs := if command.cmd = [] then [] else [command]
      next :=
        if command.cmd = ascii "exit" then .done
        else .issue (.readUntil [LF]) .readlineHandler }

abbrev ConsoleSession : Type := Session Byte Handler Command Failure

def complete : Handler → Bool → Bytes → Turn Byte Handler Command Failure
  | .readlineHandler => readlineHandler

abbrev consoleStep : ConsoleSession → Option ConsoleSession := step complete

/-- The constructor has issued the first read. -/
def started (segments : List Bytes) (closed : Bool) : ConsoleSession where
  buffer := []
  activity := .reading (.readUntil [LF]) 0 .readlineHandler
  unread := segments
  closed := closed
  outputs := []

/-! ## Lines of commands -/

/-- White space within a line. -/
def isBlank (b : Byte) : Bool := isSpace b && b != LF

/-- A command word, blanks, and arguments that do not start with a blank. -/
@[ext]
structure CommandLine where
  word : Bytes
  gap : Bytes
  args : Bytes
  word_ne : word ≠ []
  word_solid : ∀ b ∈ word, isSpace b = false
  gap_blank : ∀ b ∈ gap, isBlank b = true
  args_line : LF ∉ args
  args_solid : Starts (fun b => !isSpace b) args
  args_apart : gap = [] → args = []

/-- A word alone. -/
def bareLine (word : Bytes) (hne : word ≠ []) (hsolid : ∀ b ∈ word, isSpace b = false) :
    CommandLine where
  word := word
  gap := []
  args := []
  word_ne := hne
  word_solid := hsolid
  gap_blank := by simp
  args_line := List.not_mem_nil
  args_solid := by rintro _ ⟨⟩
  args_apart := fun _ => rfl

inductive Line where
  | blank (gap : Bytes) (hgap : ∀ b ∈ gap, isBlank b = true)
  | command (line : CommandLine)

def CommandLine.text (line : CommandLine) : Bytes :=
  line.word ++ (line.gap ++ (line.args ++ [LF]))

def CommandLine.command (line : CommandLine) : Command := ⟨line.word, line.args⟩

def Line.text : Line → Bytes
  | .blank gap _ => gap ++ [LF]
  | .command line => line.text

def text (lines : List Line) : Bytes := lines.flatMap Line.text

def commandLines (lines : List Line) : List CommandLine :=
  lines.filterMap fun line =>
    match line with
    | .blank _ _ => none
    | .command line => some line

/-- Up to and including the first `exit`. -/
def throughExit : List Command → List Command
  | [] => []
  | command :: commands =>
      if command.cmd = ascii "exit" then [command] else command :: throughExit commands

def commands (lines : List Line) : List Command :=
  throughExit ((commandLines lines).map CommandLine.command)

/-- The line is in the buffer as far as its arguments, or its word is, and nothing else. -/
def HoldsLine (line : CommandLine) (buffer : Bytes) : Prop :=
  (line.args = [] ∧
    ∃ behind, skip buffer = line.word ++ behind ∧ ∀ b ∈ behind, isSpace b = true) ∨
  (line.args ≠ [] ∧ line.word ++ (line.gap ++ line.args) <+: skip buffer)

/-- Of what is to be read, the buffer holds white space only, or the next command line in the
sense of `HoldsLine`. -/
def Clean (buffer pending : Bytes) : Prop :=
  skip buffer = [] ∨
    ∃ line later, skip pending = line.text ++ later ∧ HoldsLine line buffer

/-- The next step is a call of the handler. -/
def HandlerRuns (s : ConsoleSession) : Prop :=
  ∃ start, s.activity = .reading (.readUntil [LF]) start .readlineHandler ∧ LF ∈ s.buffer

/-! ## What is read from a buffer -/

section Reading

variable {lead word gap tail : Bytes}

theorem isSpace_of_isBlank {b : Byte} (h : isBlank b = true) : isSpace b = true := by
  rw [isBlank, Bool.and_eq_true] at h
  exact h.1

/-- A blank line is white space to its end. -/
theorem isSpace_blank_line (hgap : ∀ b ∈ gap, isBlank b = true) :
    ∀ b ∈ gap ++ [LF], isSpace b = true := by
  intro b hb
  rcases List.mem_append.mp hb with hin | hend
  · exact isSpace_of_isBlank (hgap b hin)
  · rw [List.mem_singleton.mp hend]
    rfl

theorem skip_space (hlead : ∀ b ∈ lead, isSpace b = true) (tail : Bytes) :
    skip (lead ++ tail) = skip tail :=
  List.dropWhile_append_of_pos hlead

theorem skip_solid (hword : ∀ b ∈ word, isSpace b = false) (hne : word ≠ []) :
    skip (word ++ tail) = word ++ tail := by
  obtain ⟨b, word, rfl⟩ := List.exists_cons_of_ne_nil hne
  exact List.dropWhile_cons_of_neg (by simp [hword b List.mem_cons_self])

theorem skip_append {buffer later : Bytes} (h : skip buffer ≠ []) :
    skip (buffer ++ later) = skip buffer ++ later :=
  dropWhile_append_of_ne_nil h

theorem skip_append_of_blank {buffer later : Bytes} (h : skip buffer = []) :
    skip (buffer ++ later) = skip later :=
  skip_space (List.dropWhile_eq_nil_iff.mp h) later

/-- White space only: nothing is read, and all of it is taken. -/
theorem readCommand_blank {buffer : Bytes} (h : skip buffer = []) :
    readCommand buffer = (⟨[], []⟩, []) := by
  rw [readCommand, extractWord_blank (List.dropWhile_eq_nil_iff.mp h)]
  rfl

/-- The word, and then what is left of the line on which the next word starts. -/
theorem readCommand_solid (hlead : ∀ b ∈ lead, isSpace b = true)
    (hword : ∀ b ∈ word, isSpace b = false) (hne : word ≠ [])
    (hgap : ∀ b ∈ gap, isSpace b = true) (htail : Starts (fun b => !isSpace b) tail)
    (hapart : gap = [] → tail = []) :
    readCommand (lead ++ (word ++ (gap ++ tail))) =
      (⟨word, tail.takeWhile (· ≠ LF)⟩, (tail.dropWhile (· ≠ LF)).tail) := by
  have hstop : Starts isSpace (gap ++ tail) := by
    cases gap with
    | nil =>
        rw [hapart rfl]
        rintro _ ⟨⟩
    | cons b gap =>
        rintro _ ⟨⟩
        exact hgap b List.mem_cons_self
  rw [readCommand, extractWord_solid hlead hword hne hstop]
  dsimp only
  cases gap with
  | nil =>
      rw [hapart rfl]
      rfl
  | cons b gap =>
      cases tail with
      | nil =>
          rw [List.append_nil]
          change (Command.mk word (getline LF (sentry isSpace ⟨b :: gap, true⟩)).1,
            (getline LF (sentry isSpace ⟨b :: gap, true⟩)).2.rest) = _
          rw [sentry_blank hgap]
          rfl
      | cons c tail =>
          have hc : isSpace c = false := by simpa using htail c rfl
          change (Command.mk word (getline LF (sentry isSpace ⟨b :: gap ++ c :: tail, true⟩)).1,
            (getline LF (sentry isSpace ⟨b :: gap ++ c :: tail, true⟩)).2.rest) = _
          rw [sentry_solid hgap hc, getline, if_pos rfl]
          cases (c :: tail).dropWhile (· ≠ LF) with
          | nil => rfl
          | cons d tail => rfl

/-- What `readCommand_solid` is about, for any buffer that is not blank. -/
structure Parts (buffer lead word gap tail : Bytes) : Prop where
  whole : buffer = lead ++ (word ++ (gap ++ tail))
  rest : skip buffer = word ++ (gap ++ tail)
  lead_space : ∀ b ∈ lead, isSpace b = true
  word_solid : ∀ b ∈ word, isSpace b = false
  word_ne : word ≠ []
  gap_space : ∀ b ∈ gap, isSpace b = true
  tail_solid : Starts (fun b => !isSpace b) tail
  apart : gap = [] → tail = []

theorem Parts.readCommand {buffer : Bytes} (h : Parts buffer lead word gap tail) :
    readCommand buffer = (⟨word, tail.takeWhile (· ≠ LF)⟩, (tail.dropWhile (· ≠ LF)).tail) := by
  rw [h.whole]
  exact readCommand_solid h.lead_space h.word_solid h.word_ne h.gap_space h.tail_solid h.apart

theorem exists_parts {buffer : Bytes} (h : skip buffer ≠ []) :
    ∃ lead word gap tail, Parts buffer lead word gap tail := by
  let solid := fun b => !isSpace b
  let behind := (skip buffer).dropWhile solid
  have hrest : skip buffer =
      (skip buffer).takeWhile solid ++ (behind.takeWhile isSpace ++ behind.dropWhile isSpace) := by
    rw [List.takeWhile_append_dropWhile, List.takeWhile_append_dropWhile]
  refine ⟨buffer.takeWhile isSpace, (skip buffer).takeWhile solid, behind.takeWhile isSpace,
    behind.dropWhile isSpace, ?_⟩
  constructor
  case whole =>
    rw [← hrest]
    exact List.takeWhile_append_dropWhile.symm
  case rest => exact hrest
  case lead_space => exact fun b hb => List.mem_takeWhile_imp hb
  case word_solid => exact fun b hb => by simpa [solid] using List.mem_takeWhile_imp hb
  case word_ne =>
    obtain ⟨b, more, hcons⟩ := List.exists_cons_of_ne_nil h
    have hb : solid b = true := starts_dropWhile isSpace buffer b (by
      change b ∈ (skip buffer).head?
      rw [hcons]
      rfl)
    rw [hcons, List.takeWhile_cons_of_pos hb]
    exact List.cons_ne_nil _ _
  case gap_space => exact fun b hb => List.mem_takeWhile_imp hb
  case tail_solid => exact starts_dropWhile isSpace behind
  case apart =>
    intro hgap
    have hstarts : Starts isSpace behind := by
      simpa [solid] using starts_dropWhile solid (skip buffer)
    cases hbehind : behind with
    | nil => rfl
    | cons b more =>
        have hb : isSpace b = true := hstarts b (by rw [hbehind]; rfl)
        rw [hbehind, List.takeWhile_cons_of_pos hb] at hgap
        cases hgap

/-- A call of the handler takes at least a byte. -/
theorem readCommand_length {buffer : Bytes} (h : buffer ≠ []) :
    (readCommand buffer).2.length < buffer.length := by
  by_cases hblank : skip buffer = []
  · rw [readCommand_blank hblank]
    exact List.length_pos_iff.mpr h
  · obtain ⟨lead, word, gap, tail, hparts⟩ := exists_parts hblank
    have hword : 0 < word.length := List.length_pos_iff.mpr hparts.word_ne
    have hle : (tail.dropWhile (· ≠ LF)).length ≤ tail.length :=
      (List.dropWhile_sublist _).length_le
    rw [hparts.readCommand, hparts.whole]
    simp only [List.length_append, List.length_tail]
    omega

end Reading

/-! ## The next command line -/

section Lines

variable {line : CommandLine} {lines : List Line} {buffer later : Bytes}

theorem isSpace_gap {b : Byte} (hb : b ∈ line.gap) : isSpace b = true :=
  isSpace_of_isBlank (line.gap_blank b hb)

theorem starts_gap : Starts isSpace (line.gap ++ (line.args ++ LF :: later)) := by
  cases hgap : line.gap with
  | nil =>
      rw [line.args_apart hgap]
      rintro _ ⟨⟩
      rfl
  | cons b gap =>
      rintro _ ⟨⟩
      exact isSpace_gap (hgap ▸ List.mem_cons_self)

theorem starts_args : Starts (fun b => !isBlank b) (line.args ++ LF :: later) := by
  cases hargs : line.args with
  | nil =>
      rintro _ ⟨⟩
      rfl
  | cons b args =>
      rintro _ ⟨⟩
      have hb : isSpace b = false := by simpa using line.args_solid b (by rw [hargs]; rfl)
      simp [isBlank, hb]

theorem text_append :
    line.text ++ later = line.word ++ (line.gap ++ (line.args ++ LF :: later)) := by
  simp [CommandLine.text]

/-- A text starts with one command line at most. -/
theorem line_unique {line' : CommandLine} {later' : Bytes}
    (h : line.text ++ later = line'.text ++ later') : line = line' ∧ later = later' := by
  have hsolid : ∀ l : CommandLine, ∀ b ∈ l.word, (!isSpace b) = true := by
    intro l b hb
    simp [l.word_solid b hb]
  have hstop : ∀ (l : CommandLine) (more : Bytes),
      Starts (fun b => !!isSpace b) (l.gap ++ (l.args ++ LF :: more)) := by
    intro l more
    simpa only [Bool.not_not] using starts_gap
  rw [text_append, text_append] at h
  obtain ⟨hword, h⟩ := word_unique (hsolid line) (hstop line later) (hsolid line')
    (hstop line' later') h
  obtain ⟨hgap, h⟩ := word_unique line.gap_blank starts_args line'.gap_blank starts_args h
  obtain ⟨hargs, h⟩ := word_unique (ne_of_notMem line.args_line) (starts_self LF later)
    (ne_of_notMem line'.args_line) (starts_self LF later') h
  exact ⟨CommandLine.ext hword hgap hargs, (List.cons.inj h).2⟩

/-- Behind blank lines there is a command line, or nothing. -/
theorem skip_text (lines : List Line) :
    (commandLines lines = [] ∧ skip (text lines) = []) ∨
      ∃ line rest, commandLines lines = line :: commandLines rest ∧
        skip (text lines) = line.text ++ text rest := by
  induction lines with
  | nil => exact Or.inl ⟨rfl, rfl⟩
  | cons first lines ih =>
      cases first with
      | blank gap hgap =>
          have hskip : skip (text (.blank gap hgap :: lines)) = skip (text lines) :=
            skip_space (isSpace_blank_line hgap) (text lines)
          rw [hskip]
          exact ih
      | command line =>
          refine Or.inr ⟨line, lines, rfl, ?_⟩
          change skip (line.text ++ text lines) = _
          rw [text_append]
          exact skip_solid line.word_solid line.word_ne

/-- Where no line end is left, no command is left. -/
theorem commands_of_no_LF {pending : Bytes} (hskip : skip pending = skip (text lines))
    (hLF : LF ∉ pending) : commandLines lines = [] := by
  rcases skip_text lines with ⟨hnone, -⟩ | ⟨line, rest, -, htext⟩
  · exact hnone
  · exfalso
    apply hLF
    apply (List.dropWhile_sublist isSpace).subset
    change LF ∈ skip pending
    rw [hskip, htext]
    simp [CommandLine.text]

/-- A buffer that is not blank starts with the next command line, or a part of it. -/
theorem skip_buffer {pending : Bytes} (hpending : buffer ++ later = pending)
    (hblank : skip buffer ≠ []) (hskip : skip pending = skip (text lines)) :
    ∃ line rest, commandLines lines = line :: commandLines rest ∧
      skip pending = line.text ++ text rest ∧ skip buffer ++ later = line.text ++ text rest := by
  have hbuffer : skip pending = skip buffer ++ later := by
    rw [← hpending, skip_append hblank]
  rcases skip_text lines with ⟨-, hnone⟩ | ⟨line, rest, hlines, htext⟩
  · rw [hskip, hnone] at hbuffer
    exact absurd (List.append_eq_nil_iff.mp hbuffer.symm).1 hblank
  · exact ⟨line, rest, hlines, hskip.trans htext, by rw [← hbuffer, hskip, htext]⟩

theorem lead_space (buffer : Bytes) : ∀ b ∈ buffer.takeWhile isSpace, isSpace b = true :=
  fun _ hb => List.mem_takeWhile_imp hb

theorem lead_skip (buffer : Bytes) : buffer.takeWhile isSpace ++ skip buffer = buffer :=
  List.takeWhile_append_dropWhile

/-- Of a word with white space behind it, all is taken. -/
theorem readCommand_bare {behind : Bytes} (hskip : skip buffer = line.word ++ behind)
    (hbehind : ∀ b ∈ behind, isSpace b = true) : readCommand buffer = (⟨line.word, []⟩, []) := by
  have hsolid := @readCommand_solid _ line.word behind [] (lead_space buffer) line.word_solid
    line.word_ne hbehind (by rintro _ ⟨⟩) fun _ => rfl
  rwa [List.append_nil, ← hskip, lead_skip] at hsolid

/-- Of a word with arguments, the line is taken. -/
theorem readCommand_args {behind : Bytes}
    (hskip : skip buffer = line.word ++ (line.gap ++ (line.args ++ behind)))
    (hargs : line.args ≠ []) (hbehind : Starts (fun b => !decide (b ≠ LF)) behind) :
    readCommand buffer = (line.command, behind.tail) := by
  have hsolid := readCommand_solid (lead_space buffer) line.word_solid line.word_ne
    (fun _ hb => isSpace_gap hb) (line.args_solid.append hargs behind)
    fun hgap => absurd (line.args_apart hgap) hargs
  rwa [← hskip, lead_skip, takeWhile_append_stop (ne_of_notMem line.args_line) hbehind,
    dropWhile_append_stop (ne_of_notMem line.args_line) hbehind] at hsolid

/-- A buffer that holds the line gives its command, and leaves what is behind the line, white
space aside. -/
theorem readCommand_of_holds {tail : Bytes} (hbuffer : skip buffer ++ later = line.text ++ tail)
    (h : HoldsLine line buffer) :
    (readCommand buffer).1 = line.command ∧ skip ((readCommand buffer).2 ++ later) = skip tail := by
  rw [text_append] at hbuffer
  rcases h with ⟨hargs, behind, hskip, hbehind⟩ | ⟨hargs, behind, hskip⟩
  · rw [readCommand_bare hskip hbehind]
    rw [hskip, List.append_assoc, hargs] at hbuffer
    have hrest : behind ++ later = (line.gap ++ [LF]) ++ tail := by
      rw [List.append_cancel_left hbuffer, List.append_assoc]
      rfl
    constructor
    · rw [CommandLine.command, hargs]
    · rw [List.nil_append, ← skip_space hbehind, hrest,
        skip_space (isSpace_blank_line line.gap_blank)]
  · rw [← hskip] at hbuffer
    simp only [List.append_assoc, List.append_cancel_left_eq] at hbuffer hskip
    have hstop : Starts (fun b => !decide (b ≠ LF)) behind := by
      cases behind with
      | nil => rintro _ ⟨⟩
      | cons b behind =>
          rw [(List.cons.inj hbuffer).1]
          exact starts_self LF behind
    rw [readCommand_args hskip.symm hargs hstop]
    refine ⟨rfl, ?_⟩
    cases behind with
    | nil =>
        rw [List.nil_append] at hbuffer
        rw [List.tail_nil, List.nil_append, hbuffer]
        rfl
    | cons b behind => exact congrArg skip (List.cons.inj hbuffer).2

/-- Only a buffer that holds the line gives its command. -/
theorem holds_of_readCommand {tail : Bytes} (hbuffer : skip buffer ++ later = line.text ++ tail)
    (hblank : skip buffer ≠ []) (h : (readCommand buffer).1 = line.command) :
    HoldsLine line buffer := by
  obtain ⟨lead, word, gap, rest, hparts⟩ := exists_parts hblank
  rw [hparts.readCommand, CommandLine.command, Command.mk.injEq] at h
  obtain ⟨rfl, hargs⟩ := h
  rw [hparts.rest, text_append] at hbuffer
  simp only [List.append_assoc, List.append_cancel_left_eq] at hbuffer
  by_cases hnone : line.args = []
  · refine Or.inl ⟨hnone, gap, ?_, hparts.gap_space⟩
    have hrest : rest = [] := by
      cases hcons : rest with
      | nil => rfl
      | cons b more =>
          have hb : isSpace b = false := by
            simpa using hparts.tail_solid b (by rw [hcons]; rfl)
          have hne : decide (b ≠ LF) = true := by
            refine decide_eq_true ?_
            rintro rfl
            cases hb
          rw [hcons, @List.takeWhile_cons_of_pos _ (fun x => decide (x ≠ LF)) b more hne,
            hnone] at hargs
          cases hargs
    rw [hparts.rest, hrest, List.append_nil]
  · refine Or.inr ⟨hnone, ?_⟩
    have hrest : rest ≠ [] := by
      rintro rfl
      exact hnone hargs.symm
    obtain ⟨hgap, -⟩ := word_unique hparts.gap_space (hparts.tail_solid.append hrest later)
      (fun b hb => isSpace_gap hb) (line.args_solid.append hnone (LF :: tail)) hbuffer
    rw [hparts.rest, hgap, ← hargs, List.prefix_append_right_inj, List.prefix_append_right_inj]
    exact List.takeWhile_prefix _

end Lines

end BlackCircle.Console.Commands
