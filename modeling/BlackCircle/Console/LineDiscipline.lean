import BlackCircle.Console.Commands
import Mathlib.Data.Prod.Lex

/-!
# One command per line

Whole runs of the console over lines of commands.  As long as every call of the
handler finds a clean buffer, the reader follows the lines: it has acted on the
commands of the lines it has passed.  The first call that finds another buffer
acts on a command that is not the next one, and as the commands acted on are
never taken back, the reader stays astray.
-/

namespace BlackCircle.Console.LineDiscipline

open BlackCircle.Foundation.ByteString
open BlackCircle.Foundation.ReadLoop
open BlackCircle.Console.Commands
open StateTransition

/-- A read that is outstanding is for a line. -/
def ReadsLine (s : ConsoleSession) : Prop :=
  ∀ op start handler, s.activity = .reading op start handler → op = .readUntil [LF]

/-- The reader has acted on the commands of the lines in front of `rest`. -/
structure At (lines rest : List Line) (s : ConsoleSession) : Prop where
  pending : skip s.pending = skip (text rest)
  outputs : s.outputs ++ commands rest = commands lines

/-- In step with the lines, or at their end. -/
inductive Follows (lines : List Line) (s : ConsoleSession) : Prop where
  | reading {start : Nat} {rest : List Line}
      (act : s.activity = .reading (.readUntil [LF]) start .readlineHandler)
      (place : At lines rest s)
  | ended (rests : ∀ op start handler, s.activity ≠ .reading op start handler)
      (outputs : s.outputs = commands lines)

/-- The commands acted on are not the first commands of the lines. -/
def Astray (lines : List Line) (s : ConsoleSession) : Prop := ¬ s.outputs <+: commands lines

section Handler

variable {lines rest : List Line} {s s' : ConsoleSession}

theorem readlineHandler_eq (sb : Bytes) :
    readlineHandler false sb =
      { buffer := (readCommand sb).2
        outputs := if (readCommand sb).1.cmd = [] then [] else [(readCommand sb).1]
        next :=
          if (readCommand sb).1.cmd = ascii "exit" then .done
          else .issue (.readUntil [LF]) .readlineHandler } := rfl

theorem commands_eq {line : CommandLine} {later : List Line}
    (h : commandLines rest = line :: commandLines later) :
    commands rest =
      if line.command.cmd = ascii "exit" then [line.command]
      else line.command :: commands later := by
  rw [commands, h, List.map_cons, throughExit]
  rfl

theorem commands_nil (h : commandLines rest = []) : commands rest = [] := by
  rw [commands, h]
  rfl

theorem satisfied_iff {start : Nat} {buffer : Bytes} :
    (ReadOp.readUntil [LF]).satisfied start buffer = true ↔ LF ∈ buffer := by
  rw [ReadOp.satisfied_readUntil, decide_eq_true_eq, List.singleton_infix_iff]

theorem unsatisfied_iff {start : Nat} {buffer : Bytes} :
    (ReadOp.readUntil [LF]).satisfied start buffer = false ↔ LF ∉ buffer := by
  rw [← satisfied_iff, Bool.not_eq_true]

/-- White space is read and left behind, nothing else happens. -/
theorem follows_blank (hat : At lines rest s) (hblank : skip s.buffer = []) :
    Follows lines (s.resume (readlineHandler false s.buffer)) := by
  have hturn : readlineHandler false s.buffer =
      ⟨[], [], .issue (.readUntil [LF]) .readlineHandler⟩ := by
    rw [readlineHandler_eq, readCommand_blank hblank]
    rfl
  rw [hturn]
  have hplace : At lines rest (s.resume ⟨[], [], .issue (.readUntil [LF]) .readlineHandler⟩) := by
    constructor
    · change skip s.unread.flatten = _
      rw [← hat.pending, Session.pending, skip_append_of_blank hblank]
    · rw [Session.resume_outputs, List.append_nil, hat.outputs]
  exact .reading rfl hplace

/-- Where the buffer holds the next line, its command is acted on. -/
theorem follows_line {line : CommandLine} {later : List Line} (hat : At lines rest s)
    (hlines : commandLines rest = line :: commandLines later)
    (hbuffer : skip s.buffer ++ s.unread.flatten = line.text ++ text later)
    (hholds : HoldsLine line s.buffer) :
    Follows lines (s.resume (readlineHandler false s.buffer)) := by
  obtain ⟨hread, hskip⟩ := readCommand_of_holds hbuffer hholds
  have houtputs := hat.outputs
  rw [commands_eq hlines] at houtputs
  have hword : line.command.cmd ≠ [] := line.word_ne
  rw [readlineHandler_eq, hread, if_neg hword]
  by_cases hexit : line.command.cmd = ascii "exit"
  · rw [if_pos hexit] at houtputs ⊢
    refine .ended ?_ houtputs
    rintro op start handler ⟨⟩
  · rw [if_neg hexit] at houtputs ⊢
    refine .reading rfl ⟨hskip, ?_⟩
    rw [Session.resume_outputs, List.append_assoc]
    exact houtputs

/-- Where it does not, another command is acted on. -/
theorem astray_line {line : CommandLine} {later : List Line} (hat : At lines rest s)
    (hlines : commandLines rest = line :: commandLines later)
    (hbuffer : skip s.buffer ++ s.unread.flatten = line.text ++ text later)
    (hblank : skip s.buffer ≠ []) (hholds : ¬ HoldsLine line s.buffer) :
    Astray lines (s.resume (readlineHandler false s.buffer)) := by
  have hne : (readCommand s.buffer).1 ≠ line.command :=
    fun hread => hholds (holds_of_readCommand hbuffer hblank hread)
  have hword : (readCommand s.buffer).1.cmd ≠ [] := by
    obtain ⟨lead, word, gap, tail, hparts⟩ := exists_parts hblank
    rw [hparts.readCommand]
    exact hparts.word_ne
  have hfirst : ∃ more, commands rest = line.command :: more := by
    rw [commands_eq hlines]
    split
    · exact ⟨[], rfl⟩
    · exact ⟨commands later, rfl⟩
  obtain ⟨more, hmore⟩ := hfirst
  intro hprefix
  rw [Session.resume_outputs, readlineHandler_eq, if_neg hword, ← hat.outputs,
    List.prefix_append_right_inj, hmore, List.cons_prefix_cons] at hprefix
  exact hne hprefix.1

/-- The line that a clean buffer holds is the next one. -/
theorem clean_iff_holds {line : CommandLine} {later : Bytes}
    (hpending : skip s.pending = line.text ++ later) (hblank : skip s.buffer ≠ []) :
    Clean s.buffer s.pending ↔ HoldsLine line s.buffer := by
  constructor
  · rintro (hnone | ⟨line', later', hpending', hholds⟩)
    · exact absurd hnone hblank
    · obtain ⟨rfl, -⟩ := line_unique (hpending.symm.trans hpending')
      exact hholds
  · exact fun hholds => Or.inr ⟨line, later, hpending, hholds⟩

/-- A call of the handler on a clean buffer follows the lines, any other goes astray. -/
theorem follows_or_astray (hat : At lines rest s) :
    (Clean s.buffer s.pending ∧ Follows lines (s.resume (readlineHandler false s.buffer))) ∨
      (¬ Clean s.buffer s.pending ∧
        Astray lines (s.resume (readlineHandler false s.buffer))) := by
  by_cases hblank : skip s.buffer = []
  · exact Or.inl ⟨Or.inl hblank, follows_blank hat hblank⟩
  · obtain ⟨line, later, hlines, hpending, hbuffer⟩ := skip_buffer rfl hblank hat.pending
    by_cases hholds : HoldsLine line s.buffer
    · exact Or.inl ⟨(clean_iff_holds hpending hblank).mpr hholds,
        follows_line hat hlines hbuffer hholds⟩
    · exact Or.inr ⟨fun hclean => hholds ((clean_iff_holds hpending hblank).mp hclean),
        astray_line hat hlines hbuffer hblank hholds⟩

/-- Without a line end in what is left, all commands have been acted on. -/
theorem outputs_of_no_LF (hat : At lines rest s) (hLF : LF ∉ s.pending) :
    s.outputs = commands lines := by
  have hnone := commands_nil (commands_of_no_LF hat.pending hLF)
  rw [← hat.outputs, hnone, List.append_nil]

end Handler

/-! ## One step -/

section Steps

variable {lines : List Line} {s s' : ConsoleSession}

theorem readsLine_step (hstep : consoleStep s = some s') (h : ReadsLine s) : ReadsLine s' := by
  obtain ⟨op, start, handler, hact, hcase⟩ := step_cases hstep
  have hresume : ∀ ec, ReadsLine (s.resume (complete handler ec s.buffer)) := by
    intro ec op' start' handler' hact'
    cases handler
    cases ec with
    | true => cases hact'
    | false =>
        change Next.activity _ (if (readCommand s.buffer).1.cmd = ascii "exit" then Next.done
          else Next.issue (.readUntil [LF]) Handler.readlineHandler) = _ at hact'
        split at hact'
        · cases hact'
        · cases hact'
          rfl
  rcases hcase with ⟨-, rfl⟩ | ⟨-, segment, unread, -, rfl⟩ | ⟨-, -, -, rfl⟩
  · exact hresume false
  · exact h
  · exact hresume true

theorem outputs_step (hstep : consoleStep s = some s') : s.outputs <+: s'.outputs := by
  obtain ⟨op, start, handler, -, hcase⟩ := step_cases hstep
  rcases hcase with ⟨-, rfl⟩ | ⟨-, segment, unread, -, rfl⟩ | ⟨-, -, -, rfl⟩
  · exact List.prefix_append _ _
  · exact List.prefix_rfl
  · exact List.prefix_append _ _

theorem astray_step (hstep : consoleStep s = some s') (h : Astray lines s) : Astray lines s' :=
  fun hprefix => h ((outputs_step hstep).trans hprefix)

/-- A step from a state that follows the lines. -/
theorem follows_step (hstep : consoleStep s = some s') (h : Follows lines s) :
    (Follows lines s' ∧ (HandlerRuns s → Clean s.buffer s.pending)) ∨
      (Astray lines s' ∧ HandlerRuns s ∧ ¬ Clean s.buffer s.pending) := by
  obtain ⟨op, start, handler, hact, hcase⟩ := step_cases hstep
  cases h with
  | ended hrests => exact absurd hact (hrests op start handler)
  | reading act place =>
      rw [act, Activity.reading.injEq] at hact
      obtain ⟨rfl, rfl, rfl⟩ := hact
      rcases hcase with ⟨hsat, rfl⟩ | ⟨hunsat, segment, unread, hunread, rfl⟩ |
        ⟨hunsat, hunread, -, rfl⟩
      · rcases follows_or_astray place with ⟨hclean, hfollows⟩ | ⟨hunclean, hastray⟩
        · exact Or.inl ⟨hfollows, fun _ => hclean⟩
        · exact Or.inr ⟨hastray, ⟨_, act, satisfied_iff.mp hsat⟩, hunclean⟩
      · refine Or.inl ⟨.reading act ⟨?_, place.outputs⟩, ?_⟩
        · rw [← place.pending, Session.pending, Session.pending, hunread, List.flatten_cons,
            List.append_assoc]
        · rintro ⟨_, -, hmem⟩
          exact absurd hmem (unsatisfied_iff.mp hunsat)
      · have hLF : LF ∉ s.buffer := unsatisfied_iff.mp hunsat
        have hpending : LF ∉ s.pending := by
          rwa [Session.pending, hunread, List.flatten_nil, List.append_nil]
        refine Or.inl ⟨.ended ?_ ?_, ?_⟩
        · rintro op start handler ⟨⟩
        · rw [Session.resume_outputs]
          exact (List.append_nil _).trans (outputs_of_no_LF place hpending)
        · rintro ⟨_, -, hmem⟩
          exact absurd hmem hLF

/-- Where the reader comes to rest without having left the lines, all commands have been
acted on. -/
theorem outputs_of_rest (h : Follows lines s) (hrest : consoleStep s = none) :
    s.outputs = commands lines := by
  cases h with
  | ended _ houtputs => exact houtputs
  | reading act place =>
      refine outputs_of_no_LF place ?_
      cases hsat : (ReadOp.readUntil [LF]).satisfied _ s.buffer with
      | true =>
          rw [consoleStep, step_satisfied act hsat] at hrest
          cases hrest
      | false =>
          cases hunread : s.unread with
          | cons segment unread =>
              rw [consoleStep, step_receive act hsat hunread] at hrest
              cases hrest
          | nil =>
              rw [Session.pending, hunread, List.flatten_nil, List.append_nil]
              exact unsatisfied_iff.mp hsat

end Steps

/-! ## Whole runs -/

section Runs

variable {lines : List Line} {s s' : ConsoleSession}

theorem readsLine_started (segments : List Bytes) (closed : Bool) :
    ReadsLine (started segments closed) := by
  rintro op start handler ⟨⟩
  rfl

theorem follows_started {segments : List Bytes} (closed : Bool)
    (hstream : segments.flatten = text lines) : Follows lines (started segments closed) := by
  refine .reading rfl ⟨?_, List.nil_append _⟩
  change skip segments.flatten = _
  rw [hstream]

/-- Segments to come, bytes buffered, a read outstanding. -/
def weight (s : ConsoleSession) : ℕ ×ₗ ℕ ×ₗ ℕ :=
  toLex (s.unread.length, toLex (s.buffer.length,
    match s.activity with
    | .reading _ _ _ => 1
    | .stopped => 0
    | .failed _ => 0))

theorem weight_step (h : ReadsLine s) (hstep : consoleStep s = some s') :
    weight s' < weight s := by
  obtain ⟨op, start, handler, hact, hcase⟩ := step_cases hstep
  cases handler
  obtain rfl := h op start _ hact
  rcases hcase with ⟨hsat, rfl⟩ | ⟨-, segment, unread, hunread, rfl⟩ | ⟨-, -, -, rfl⟩
  · rw [weight, weight, Prod.Lex.toLex_lt_toLex]
    refine Or.inr ⟨rfl, ?_⟩
    rw [Prod.Lex.toLex_lt_toLex]
    exact Or.inl (readCommand_length (List.ne_nil_of_mem (satisfied_iff.mp hsat)))
  · rw [weight, weight, Prod.Lex.toLex_lt_toLex, hunread]
    exact Or.inl (Nat.lt_succ_self _)
  · rw [weight, weight, Prod.Lex.toLex_lt_toLex, hact]
    refine Or.inr ⟨rfl, ?_⟩
    rw [Prod.Lex.toLex_lt_toLex]
    exact Or.inr ⟨rfl, Nat.zero_lt_one⟩

/-- The console always comes to rest. -/
theorem run_ends (segments : List Bytes) (closed : Bool) :
    (eval consoleStep (started segments closed)).Dom :=
  eval_dom_of_descent (InvImage.wf weight wellFounded_lt)
    (fun _ _ hline hstep => ⟨readsLine_step hstep hline, weight_step hline hstep⟩)
    (readsLine_started segments closed)

theorem astray_reaches (hreach : Reaches consoleStep s s') (h : Astray lines s) :
    Astray lines s' :=
  reaches_invariant (fun _ _ h hstep => astray_step hstep h) hreach h

/-- Over calls on clean buffers only, the reader follows the lines. -/
theorem follows_reaches (hreach : Reaches consoleStep s s') (h : Follows lines s)
    (hclean : ∀ u, Reaches consoleStep s u → HandlerRuns u → Clean u.buffer u.pending) :
    Follows lines s' := by
  induction hreach with
  | refl => exact h
  | tail hreach hstep ih =>
      rcases follows_step hstep ih with ⟨hfollows, -⟩ | ⟨-, hruns, hunclean⟩
      · exact hfollows
      · exact absurd (hclean _ hreach hruns) hunclean

/-- Before the first call on another buffer it follows them, behind it is astray. -/
theorem follows_or_astray_reaches (hreach : Reaches consoleStep s s') (h : Follows lines s) :
    Follows lines s' ∨ Astray lines s' := by
  induction hreach with
  | refl => exact Or.inl h
  | tail _ hstep ih =>
      rcases ih with hfollows | hastray
      · rcases follows_step hstep hfollows with ⟨hfollows, -⟩ | ⟨hastray, -⟩
        · exact Or.inl hfollows
        · exact Or.inr hastray
      · exact Or.inr (astray_step hstep hastray)

/-- A call on another buffer cannot be made up for. -/
theorem astray_of_unclean (h : Follows lines s) (hruns : HandlerRuns s)
    (hunclean : ¬ Clean s.buffer s.pending) (hreach : Reaches consoleStep s s')
    (hrest : consoleStep s' = none) : Astray lines s' := by
  obtain ⟨start, hact, hmem⟩ := hruns
  have hstep : consoleStep s = some (s.resume (complete .readlineHandler false s.buffer)) :=
    step_satisfied hact (satisfied_iff.mpr hmem)
  rcases Relation.ReflTransGen.cases_head hreach with rfl | ⟨next, hnext, hreach⟩
  · rw [hstep] at hrest
    cases hrest
  · rcases follows_step hnext h with ⟨-, hclean⟩ | ⟨hastray, -⟩
    · exact absurd (hclean ⟨start, hact, hmem⟩) hunclean
    · exact astray_reaches hreach hastray

end Runs

/-- Over any lines, however they arrive, the console comes to rest, and it has acted on one
command per line exactly if every call of the handler found a clean buffer. -/
theorem commands_iff (lines : List Line) (segments : List Bytes) (closed : Bool)
    (hstream : segments.flatten = text lines) :
    ∃ s ∈ eval consoleStep (started segments closed),
      (s.outputs = commands lines ↔
        ∀ u, Reaches consoleStep (started segments closed) u → HandlerRuns u →
          Clean u.buffer u.pending) := by
  obtain ⟨s, hs⟩ := Part.dom_iff_mem.mp (run_ends segments closed)
  obtain ⟨hreach, hrest⟩ := mem_eval.mp hs
  have hstart : Follows lines (started segments closed) := follows_started closed hstream
  refine ⟨s, hs, ?_, ?_⟩
  · intro houtputs u hu hruns
    by_contra hunclean
    have hus : Reaches consoleStep u s := by
      rw [reaches_eval hu] at hs
      exact (mem_eval.mp hs).1
    have hastray : Astray lines s := by
      rcases follows_or_astray_reaches hu hstart with hfollows | hastray
      · exact astray_of_unclean hfollows hruns hunclean hus hrest
      · exact astray_reaches hus hastray
    exact hastray (houtputs ▸ List.prefix_rfl)
  · intro hclean
    exact outputs_of_rest (follows_reaches hreach hstart hclean) hrest

/-- The lines `print` and `get`. -/
def printGet : List Line :=
  [.command (bareLine (ascii "print") (by decide) (by decide)),
    .command (bareLine (ascii "get") (by decide) (by decide))]

/-- When the lines arrive one by one, both are acted on, and the handler finds a clean buffer in
every call. -/
theorem commands_iff_lines :
    ∃ s ∈ eval consoleStep (started [ascii "print\n", ascii "get\n"] false),
      s.outputs = commands printGet ∧
        ∀ u, Reaches consoleStep (started [ascii "print\n", ascii "get\n"] false) u →
          HandlerRuns u → Clean u.buffer u.pending := by
  obtain ⟨s, hs, hiff⟩ := commands_iff printGet [ascii "print\n", ascii "get\n"] false rfl
  have hreach :=
    @reaches_stateAfter _ consoleStep 4 (started [ascii "print\n", ascii "get\n"] false)
  have hrest : consoleStep (stateAfter consoleStep 4
      (started [ascii "print\n", ascii "get\n"] false)) = none := by decide +kernel
  obtain rfl := Part.mem_unique hs (mem_eval.mpr ⟨hreach, hrest⟩)
  have houtputs : (stateAfter consoleStep 4
      (started [ascii "print\n", ascii "get\n"] false)).outputs = commands printGet := by
    decide +kernel
  exact ⟨_, hs, houtputs, hiff.mp houtputs⟩

/-- When both lines arrive at once, `get` is taken as the argument of `print`. -/
theorem not_commands_batch :
    ¬ ∃ s ∈ eval consoleStep (started [ascii "print\nget\n"] false),
      s.outputs = commands printGet := by
  rintro ⟨s, hs, houtputs⟩
  have hreach := @reaches_stateAfter _ consoleStep 2 (started [ascii "print\nget\n"] false)
  have hrest : consoleStep (stateAfter consoleStep 2 (started [ascii "print\nget\n"] false)) =
      none := by decide +kernel
  obtain rfl := Part.mem_unique hs (mem_eval.mpr ⟨hreach, hrest⟩)
  revert houtputs
  decide +kernel

end BlackCircle.Console.LineDiscipline
