import BlackCircle.Console.OutputHandler

/-!
# Printing while the terminal is in use

In `OutputHandler` all that is printed is on its way from the start.  Here the
reader has got some segments of it, and more is to come behind them.
-/

namespace BlackCircle.Console.Printing

open BlackCircle.Foundation.ByteString
open BlackCircle.Foundation.ReadLoop
open BlackCircle.Console.Conversion
open BlackCircle.Console.LineEditor
open BlackCircle.Console.OutputHandler

/-- More segments are on their way to the reader. -/
def receive (segments : List Bytes) (c : OutputHandlerImpl) : OutputHandlerImpl :=
  { c with out := { c.out with unread := c.out.unread ++ segments } }

theorem receive_nil (c : OutputHandlerImpl) : receive [] c = c := by
  rw [receive, List.append_nil]

theorem receive_receive (segments more : List Bytes) (c : OutputHandlerImpl) :
    receive more (receive segments c) = receive (segments ++ more) c := by
  simp only [receive, List.append_assoc]

section Steps

variable {platform : Platform} {event : OutputHandler.Event} {c c' : OutputHandlerImpl}

/-- A reader that has nothing to do leaves everything as it is; another one does not see what is
still to arrive. -/
theorem takeOutput_receive (hopened : c.out.closed = false) (segments : List Bytes) :
    takeOutput c = c ∨ takeOutput (receive segments c) = receive segments (takeOutput c) := by
  cases hstep : outStep c.out with
  | none =>
      left
      rw [takeOutput, hstep]
  | some out =>
      right
      have hmore : outStep (receive segments c).out =
          some { out with unread := out.unread ++ segments } := step_more hopened hstep segments
      rw [takeOutput, takeOutput, hstep, hmore]
      rfl

/-- Keys and output do not depend on what is still to arrive. -/
theorem step_receive (hopened : c.out.closed = false)
    (h : OutputHandler.step platform event c = some c') (segments : List Bytes) :
    (c' = c ∧ event = .output) ∨
      OutputHandler.step platform event (receive segments c) = some (receive segments c') := by
  cases event with
  | key key =>
      obtain ⟨editor, heditor, rfl⟩ := Option.map_eq_some_iff.mp h
      right
      change (inHandler platform c.editor key.bytes).map _ = _
      rw [heditor]
      rfl
  | output =>
      cases h
      rcases takeOutput_receive hopened segments with hsame | hmore
      · exact Or.inl ⟨hsame, rfl⟩
      · exact Or.inr (congrArg some hmore)

theorem opened_step (hopened : c.out.closed = false)
    (h : OutputHandler.step platform event c = some c') : c'.out.closed = false := by
  cases event with
  | key key =>
      obtain ⟨editor, -, rfl⟩ := Option.map_eq_some_iff.mp h
      exact hopened
  | output =>
      cases h
      rw [takeOutput]
      cases hstep : outStep c.out with
      | none => exact hopened
      | some out => exact (closed_step hstep).trans hopened

end Steps

/-! ## The screen -/

section Screen

variable {γ : Type} {font : Font γ} {platform : Platform} {lines shown : List (List Char)}
  {c : OutputHandlerImpl} {t : Typed} {pipe : Bytes}

/-- How the reader stands is read off what it has taken and what is pending. -/
theorem reads_congr {s s' : OutSession} (h : Reads lines shown s)
    (hactivity : s'.activity = s.activity) (hclosed : s'.closed = s.closed)
    (houtputs : s'.outputs = s.outputs) (hpending : s'.pending = s.pending) :
    Reads lines shown s' where
  reading := by rw [hactivity]; exact h.reading
  opened := hclosed.trans h.opened
  outputs := houtputs.trans h.outputs
  pending := by rw [hpending]; exact h.pending

/-- The terminal shows the first of these lines, where this is to come behind the segments of the
reader. -/
def Shows (font : Font γ) (lines : List (List Char)) (pipe : Bytes) (c : OutputHandlerImpl)
    (t : Typed) : Prop :=
  OutputHandler.Follows font lines (receive [pipe] c) t

theorem Shows.opened (h : Shows font lines pipe c t) : c.out.closed = false := by
  obtain ⟨_, -, hreads⟩ := h
  exact hreads.opened

/-- Some of what is to come goes to the reader. -/
theorem Shows.arrive {segment : Bytes} (h : Shows font lines (segment ++ pipe) c t) :
    Shows font lines pipe (receive [segment] c) t := by
  obtain ⟨shown, hedits, hreads⟩ := h
  refine ⟨shown, hedits, reads_congr hreads rfl rfl rfl ?_⟩
  simp [receive, Session.pending]

/-- A step of the terminal. -/
theorem Shows.step (h : Shows font lines pipe c t)
    (hlines : ∀ line ∈ lines, ∀ ch ∈ line, Printable ch) {event : OutputHandler.Event}
    (hpermits : OutputHandler.permits platform event c t) :
    ∃ c', OutputHandler.step platform event c = some c' ∧
      Shows font lines pipe c' (OutputHandler.apply platform event t) := by
  obtain ⟨next, hnext, hfollows⟩ :=
    OutputHandler.follows_step hlines event (receive [pipe] c) t h hpermits
  cases event with
  | key key =>
      obtain ⟨editor, heditor, rfl⟩ := Option.map_eq_some_iff.mp hnext
      refine ⟨{ c with editor := editor }, ?_, hfollows⟩
      rw [OutputHandler.step]
      exact congrArg (Option.map _) heditor
  | output =>
      refine ⟨takeOutput c, rfl, ?_⟩
      rcases takeOutput_receive h.opened [pipe] with hsame | hmore
      · rw [hsame]
        exact h
      · cases hnext
        rw [hmore] at hfollows
        exact hfollows

/-- The terminal shows the first of the lines, all of them once nothing is to come and the reader is
at rest, and below them the line that is being typed. -/
theorem Shows.pictures (h : Shows font lines pipe c t) :
    ∃ shown, shown <+: lines ∧ (pipe = [] → outStep c.out = none → shown = lines) ∧
      Pictures font shown t.line (font.screen c.editor.screen) := by
  obtain ⟨shown, hedits, hreads⟩ := h
  obtain ⟨rest, hrest, -⟩ := hreads.pending
  refine ⟨shown, ⟨rest, hrest.symm⟩, fun hempty hrests => ?_, hedits.screen.pictures⟩
  have hown : Reads lines shown c.out := by
    refine reads_congr hreads rfl rfl rfl ?_
    simp [receive, Session.pending, hempty]
  exact hown.all hrests

end Screen

end BlackCircle.Console.Printing
