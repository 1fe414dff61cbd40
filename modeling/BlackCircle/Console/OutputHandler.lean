import BlackCircle.Console.LineEditor
import BlackCircle.Foundation.EventRun
import BlackCircle.Foundation.ReadLoop
import BlackCircle.Foundation.Terminal

/-!
# What the terminal shows

`output_handler_impl` writes to the terminal from two handlers.  `in_handler`
shows the line that is being typed again after every key, with two blanks behind
it; `out_handler` takes the line off the screen, writes a line of output in its
place, and puts it back below.  Neither knows when the other one runs.

The terminal shows, in any order of keys and output, the lines of output and
below them the line that is being typed.  A character takes two columns at most,
and no more than it has bytes.
-/

namespace BlackCircle.Console.OutputHandler

open BlackCircle.Foundation.ByteString
open BlackCircle.Foundation.EventRun
open BlackCircle.Foundation.InputStream
open BlackCircle.Foundation.ReadLoop
open BlackCircle.Foundation.Terminal
open BlackCircle.Foundation.Unicode
open BlackCircle.Console.Conversion
open BlackCircle.Console.LineEditor

/-! ## The handlers -/

/-- What is written for a line of output, over the kept line.  In UTF-8, `utf8_to_extern` leaves
the line as it is. -/
def shownLine (lastline s : Bytes) : Bytes :=
  [CR] ++ List.replicate lastline.length (byte ' ') ++ [CR] ++ expandNewlines s ++ [CR, LF] ++
    lastline

inductive Handler where
  | outHandler
  deriving DecidableEq, Repr

/-- `out_handler` up to the line it reads; it does not look at the error code. -/
def outHandler (osb : Bytes) : Turn Byte Handler Bytes Empty :=
  let (s, is) := getline LF ⟨osb, true⟩
  ⟨is.rest, [s], .issue (.readUntil [LF]) .outHandler⟩

def complete : Handler → Bool → Bytes → Turn Byte Handler Bytes Empty
  | .outHandler, _ => outHandler

abbrev OutSession : Type := Session Byte Handler Bytes Empty

abbrev outStep : OutSession → Option OutSession :=
  Foundation.ReadLoop.step complete

/-- The editor with the line that is being typed, and the reader of what is printed. -/
structure OutputHandlerImpl where
  editor : Editor
  out : OutSession

/-- The constructor; what is printed arrives in segments. -/
def start (segments : List Bytes) : OutputHandlerImpl where
  editor := LineEditor.start
  out :=
    { buffer := []
      activity := .reading (.readUntil [LF]) 0 .outHandler
      unread := segments
      closed := false
      outputs := [] }

/-- What the reader does next, if there is anything to do. -/
def takeOutput (c : OutputHandlerImpl) : OutputHandlerImpl :=
  match outStep c.out with
  | none => c
  | some out =>
      let taken := out.outputs.drop c.out.outputs.length
      { editor := { c.editor with
          screen := c.editor.screen ++ taken.flatMap (shownLine c.editor.lastline) }
        out := out }

/-! ## Keys -/

/-- A character that is shown. -/
def Printable (c : Char) : Prop := 0x20 ≤ c.toNat ∧ ¬ (0x7F ≤ c.toNat ∧ c.toNat < 0xA0)

instance : DecidablePred Printable := fun c =>
  inferInstanceAs (Decidable (0x20 ≤ c.toNat ∧ ¬ (0x7F ≤ c.toNat ∧ c.toNat < 0xA0)))

/-- Checked character by character. -/
theorem printable_of_all {text : List Char} (h : text.all (fun c => Printable c) = true) :
    ∀ c ∈ text, Printable c :=
  fun c hmem => of_decide_eq_true (List.all_eq_true.mp h c hmem)

/-- A read of a key, or of a text that is pasted into the line. -/
inductive Key where
  | text (more : List Char)
  | backspace
  | enter (b : Byte) (hend : isLineEnd b = true)

/-- The key at the end of a line. -/
def Key.cr : Key := .enter CR rfl

def Key.lf : Key := .enter LF rfl

def Key.bytes : Key → Bytes
  | .text more => encode more
  | .backspace => [BS]
  | .enter b _ => [b]

/-- The line that is being typed, and those that have been entered. -/
structure Typed where
  line : List Char
  entered : List (List Char)

def press (platform : Platform) (key : Key) (t : Typed) : Typed :=
  match key with
  | .text more => { t with line := t.line ++ more }
  | .backspace =>
      { t with line := t.line.dropLast ++ t.line.getLast?.toList.flatMap platform.remnant }
  | .enter _ _ => ⟨[], t.entered ++ [t.line]⟩

/-- A backspace has something to erase, in a line that is converted without loss. -/
def Allows (platform : Platform) (key : Key) (t : Typed) : Prop :=
  match key with
  | .text more => ∀ c ∈ more, Printable c
  | .backspace => t.line ≠ [] ∧ platform.fits t.line.length
  | .enter _ _ => True

inductive Event where
  | key (key : Key)
  | output

def step (platform : Platform) (event : Event) (c : OutputHandlerImpl) :
    Option OutputHandlerImpl :=
  match event with
  | .key key =>
      (inHandler platform c.editor key.bytes).map fun editor => { c with editor := editor }
  | .output => some (takeOutput c)

def apply (platform : Platform) (event : Event) (t : Typed) : Typed :=
  match event with
  | .key key => press platform key t
  | .output => t

def permits (platform : Platform) (event : Event) (_c : OutputHandlerImpl) (t : Typed) : Prop :=
  match event with
  | .key key => Allows platform key t
  | .output => True

/-! ## The screen -/

/-- The cells of characters: a blank for a blank, two at most, and no more than there are bytes. -/
structure Font (γ : Type) where
  blank : γ
  cells : Char → List γ
  cells_space : cells ' ' = [blank]
  cells_le_two : ∀ c, (cells c).length ≤ 2
  cells_le_bytes : ∀ c, (cells c).length ≤ (String.utf8EncodeChar c).length

section Rows

variable {γ : Type} (font : Font γ)

def Font.text (text : List Char) : List γ := text.flatMap font.cells

def Font.display : Display Char γ where
  carriageReturn := '\r'
  lineFeed := '\n'
  blank := font.blank
  cells := font.cells
  apart := by decide

/-- The screen behind everything that has been written. -/
def Font.screen (written : Bytes) : Screen γ := print font.display fresh (decode written)

/-- Lines of output, and below them a line. -/
structure Pictures (shown : List (List Char)) (line : List Char) (t : Screen γ) : Prop where
  above : List.Forall₂ (fun text row => Shows font.blank (font.text text) row) shown t.above
  row : Shows font.blank (font.text line) t.row

end Rows

/-- Lines, each with its line end. -/
def linesText (lines : List (List Char)) : Bytes := lines.flatMap fun line => encode line ++ [LF]

/-! ## Printable texts -/

section Texts

variable {text : List Char} {b : Byte}

/-- Printable characters are encoded without a control character. -/
theorem notMem_encode (h : ∀ c ∈ text, Printable c) (hb : b < 0x20) : b ∉ encode text := by
  intro hmem
  obtain ⟨c, hc, hcode⟩ := mem_of_mem_encode (UInt8.lt_trans hb (by decide)) hmem
  have hsmall : b.toNat < 0x20 := UInt8.lt_iff_toNat_lt.mp hb
  have hlarge := (h c hc).1
  omega

theorem inline_text {γ : Type} {font : Font γ} (h : ∀ c ∈ text, Printable c) :
    Inline font.display text := by
  have hcontrol : ¬ Printable '\r' ∧ ¬ Printable '\n' := by decide
  exact ⟨fun hmem => hcontrol.1 (h _ hmem), fun hmem => hcontrol.2 (h _ hmem)⟩

theorem printable_remnant {platform : Platform} {c c' : Char} (h : c' ∈ platform.remnant c) :
    Printable c' := by
  cases platform with
  | win32 =>
      rw [Platform.remnant] at h
      split at h
      · cases h
      · rw [List.mem_singleton.mp h]
        decide
  | posix => cases h

/-- A text without a line feed has no line end to be expanded. -/
theorem expandNewlines_of_notMem {s : Bytes} (h : LF ∉ s) : expandNewlines s = s := by
  induction s using expandNewlines.induct with
  | case1 => rfl
  | case2 => exact absurd List.mem_cons_self h
  | case3 b hb => rw [expandNewlines, if_neg hb]
  | case4 => exact absurd List.mem_cons_self h
  | case5 c rest hb ih =>
      simp only [List.mem_cons, not_or] at h
      rw [expandNewlines, if_neg hb, if_pos rfl, ih h.2.2]
  | case6 b c rest hb hcr ih =>
      rw [expandNewlines, if_neg hb, if_neg hcr, ih fun hmem => h (List.mem_cons_of_mem b hmem)]

end Texts

/-! ## Pictures -/

section Pictures

variable {γ : Type} {font : Font γ} {shown : List (List Char)} {line line' : List Char}
  {t : Screen γ}

theorem text_spaces (count : Nat) :
    font.text (List.replicate count ' ') = List.replicate count font.blank := by
  induction count with
  | zero => rfl
  | succ count ih =>
      rw [List.replicate_succ, List.replicate_succ, ← ih]
      change font.cells ' ' ++ _ = _
      rw [font.cells_space]
      rfl

theorem text_append (text more : List Char) :
    font.text (text ++ more) = font.text text ++ font.text more :=
  List.flatMap_append

theorem length_text_le (text : List Char) : (font.text text).length ≤ (encode text).length := by
  induction text with
  | nil => exact Nat.le_refl 0
  | cons c text ih =>
      have hc := font.cells_le_bytes c
      change (font.cells c ++ font.text text).length ≤ _
      rw [encode_cons, List.length_append, List.length_append]
      exact Nat.add_le_add hc ih

theorem printable_spaces (count : Nat) : ∀ c ∈ List.replicate count ' ', Printable c := by
  intro c hc
  rw [List.eq_of_mem_replicate hc]
  decide

theorem printable_append {text more : List Char} (h : ∀ c ∈ text, Printable c)
    (hmore : ∀ c ∈ more, Printable c) : ∀ c ∈ text ++ more, Printable c := by
  intro c hc
  rcases List.mem_append.mp hc with hleft | hright
  · exact h c hleft
  · exact hmore c hright

/-- A line and blanks behind it, from the first column on, hide a line that is as wide. -/
theorem Pictures.over {spaces : Nat} (h : Pictures font shown line t)
    (hline : ∀ c ∈ line', Printable c)
    (hwidth : (font.text line).length ≤ (font.text line').length + spaces) :
    Pictures font shown line'
      (print font.display t ('\r' :: (line' ++ List.replicate spaces ' '))) := by
  have hinline : Inline font.display (line' ++ List.replicate spaces ' ') :=
    inline_text (printable_append hline (printable_spaces spaces))
  have hprint := print_over hinline t
  have hcells : (line' ++ List.replicate spaces ' ').flatMap font.display.cells =
      font.text line' ++ List.replicate spaces font.blank := by
    rw [← text_spaces, ← text_append]
    rfl
  rw [hcells] at hprint
  change Pictures font shown line' (print font.display t (font.display.carriageReturn :: _))
  rw [hprint]
  exact ⟨h.above, h.row.overwrite hwidth⟩

/-- The line is shown again, with two blanks behind it. -/
theorem Pictures.again (h : Pictures font shown line t) (hline : ∀ c ∈ line', Printable c)
    (hwidth : (font.text line).length ≤ (font.text line').length + 2) :
    Pictures font shown line'
      (print font.display t ('\r' :: (line' ++ [' ', ' ']) ++ '\r' :: line')) := by
  have hfirst := @Pictures.over γ font shown line line' t 2 h hline hwidth
  have hsecond := @Pictures.over γ font shown line' line' _ 0 hfirst hline (Nat.le_refl _)
  rw [List.replicate_zero, List.append_nil] at hsecond
  rw [print_append]
  exact hsecond

/-- As many blanks as the line has bytes take it off the screen. -/
theorem Pictures.clear {count : Nat} (h : Pictures font shown line t)
    (hcount : (encode line).length ≤ count) :
    Pictures font shown [] (print font.display t ('\r' :: List.replicate count ' ')) := by
  have hwidth := @length_text_le γ font line
  have hcleared := @Pictures.over γ font shown line [] t count h
    (fun _ hc => absurd hc List.not_mem_nil) (by change _ ≤ 0 + count; omega)
  rwa [List.nil_append] at hcleared

/-- A line of output in the place of the line, and the line below it. -/
theorem Pictures.output {text : List Char} (h : Pictures font shown line t)
    (hline : ∀ c ∈ line, Printable c) (htext : ∀ c ∈ text, Printable c) :
    Pictures font (shown ++ [text]) line
      (print font.display t ('\r' :: List.replicate (encode line).length ' ' ++
        '\r' :: (text ++ ['\r', '\n']) ++ line)) := by
  have hcleared := h.clear (Nat.le_refl _)
  rw [print_append, print_append]
  generalize print font.display t ('\r' :: List.replicate (encode line).length ' ') = t' at hcleared
  have hplaced : Shows font.blank (font.text text)
      (overwrite font.blank t'.row 0 (text.flatMap font.display.cells)) := by
    have hover := @Shows.overwrite γ font.blank _ _ (font.text text) 0 hcleared.row (Nat.zero_le _)
    rwa [List.replicate_zero, List.append_nil] at hover
  change Pictures font _ line (print font.display (print font.display t'
    (font.display.carriageReturn :: (text ++ [font.display.carriageReturn,
      font.display.lineFeed]))) line)
  rw [print_line (inline_text htext), print_empty (inline_text hline)]
  exact ⟨List.rel_append hcleared.above (List.Forall₂.cons hplaced List.Forall₂.nil),
    shows_self _⟩

end Pictures

/-! ## What is written -/

section Written

variable {γ : Type} {font : Font γ} {shown shown' : List (List Char)} {line line' more : List Char}
  {written : Bytes}

/-- What has been written is a text, and its picture is on the screen. -/
def Displayed (font : Font γ) (shown : List (List Char)) (line : List Char) (written : Bytes) :
    Prop :=
  ∃ text, written = encode text ∧ Pictures font shown line (print font.display fresh text)

theorem Displayed.write (h : Displayed font shown line written)
    (hmore : ∀ t, Pictures font shown line t →
      Pictures font shown' line' (print font.display t more)) :
    Displayed font shown' line' (written ++ encode more) := by
  obtain ⟨text, rfl, hpictures⟩ := h
  refine ⟨text ++ more, (encode_append text more).symm, ?_⟩
  rw [print_append]
  exact hmore _ hpictures

theorem Displayed.pictures (h : Displayed font shown line written) :
    Pictures font shown line (font.screen written) := by
  obtain ⟨text, rfl, hpictures⟩ := h
  rwa [Font.screen, decode_encode]

theorem encode_spaces (count : Nat) :
    encode (List.replicate count ' ') = List.replicate count (byte ' ') := by
  induction count with
  | zero => rfl
  | succ count ih =>
      have hspace : String.utf8EncodeChar ' ' = [byte ' '] := by decide
      rw [List.replicate_succ, encode_cons, ih, hspace]
      rfl

end Written

/-! ## Keys -/

section Keys

variable {platform : Platform} {e : Editor} {line more : List Char} {front behind : Bytes}

theorem forward_screen_open (e : Editor) (h : LF ∉ front) :
    (forward e front).screen = e.screen ++ ([CR] ++ front ++ ascii "  \r" ++ front) := by
  have hall : front.dropWhile (· ≠ LF) = [] := List.dropWhile_eq_nil_iff.mpr (ne_of_notMem h)
  have hnone : LF ∉ [CR] ++ front ++ ascii "  \r" ++ front := by
    simp only [List.mem_append, not_or]
    exact ⟨⟨⟨by decide, h⟩, by decide⟩, h⟩
  rw [forward, hall]
  dsimp only
  rw [expandNewlines_of_notMem hnone]

/-- The last return of the text that is put together is not written. -/
theorem forward_screen_line (e : Editor) (h : LF ∉ front) :
    (forward e (front ++ LF :: behind)).screen =
      e.screen ++ (CR :: List.replicate (front ++ LF :: behind).length (byte ' ')) := by
  rw [forward, dropWhile_append_stop (ne_of_notMem h) (starts_self LF behind)]
  dsimp only
  rw [List.append_assoc, List.singleton_append, List.take_succ_cons, List.take_left']
  exact List.length_replicate

theorem map_newline (h : CR ∉ front) : front.map newline = front := by
  refine (List.map_congr_left fun b hb => newline_of_ne ?_).trans (List.map_id front)
  rintro rfl
  exact h hb

/-- A call without a backspace. -/
theorem inHandler_plain {read : Bytes} (hlast : BS ∉ e.lastline) (hread : BS ∉ read) :
    inHandler platform e read = some (forward e (e.lastline ++ read.map newline)) := by
  have hnone : BS ∉ e.lastline ++ read.map newline := by
    rw [List.mem_append, not_or]
    refine ⟨hlast, ?_⟩
    rw [← List.count_eq_zero, count_newline, List.count_eq_zero]
    exact hread
  rw [inHandler, eraseAll_none hnone]
  rfl

/-- What the editor keeps, has forwarded and has shown of what has been typed. -/
structure Edits {γ : Type} (font : Font γ) (shown : List (List Char)) (e : Editor) (t : Typed) :
    Prop where
  lastline : e.lastline = encode t.line
  stdin : e.stdin = linesText t.entered
  printable : ∀ c ∈ t.line, Printable c
  screen : Displayed font shown t.line e.screen

variable {γ : Type} {font : Font γ} {shown : List (List Char)} {t : Typed}

theorem Edits.notMem (h : Edits font shown e t) {b : Byte} (hb : b < 0x20) : b ∉ e.lastline := by
  rw [h.lastline]
  exact notMem_encode h.printable hb

/-- The line is shown again. -/
theorem Edits.again (h : Edits font shown e t) (hline : ∀ c ∈ line, Printable c)
    (hwidth : (font.text t.line).length ≤ (font.text line).length + 2) :
    Edits font shown (forward e (encode line)) { t with line := line } := by
  have hfree : LF ∉ encode line := notMem_encode hline (by decide)
  obtain ⟨hlastline, hstdin⟩ := forward_open e hfree
  have hwritten : [CR] ++ encode line ++ ascii "  \r" ++ encode line =
      encode ('\r' :: (line ++ [' ', ' ']) ++ '\r' :: line) := by
    have hreturn : String.utf8EncodeChar '\r' = [CR] := by decide
    have hblanks : ascii "  \r" = encode [' ', ' '] ++ [CR] := by decide
    rw [encode_append, encode_cons, encode_cons, encode_append, hreturn, hblanks]
    simp only [List.append_assoc]
  constructor
  · exact hlastline
  · rw [hstdin]
    exact h.stdin
  · exact hline
  · rw [forward_screen_open e hfree, hwritten]
    exact h.screen.write fun screen hpictures => hpictures.again hline hwidth

theorem Edits.text (h : Edits font shown e t) (hmore : ∀ c ∈ more, Printable c) :
    ∃ e', inHandler platform e (encode more) = some e' ∧
      Edits font shown e' (press platform (.text more) t) := by
  have hcall : inHandler platform e (encode more) = some (forward e (encode (t.line ++ more))) := by
    rw [inHandler_plain (h.notMem (by decide)) (notMem_encode hmore (by decide)),
      map_newline (notMem_encode hmore (by decide)), h.lastline, encode_append]
  refine ⟨_, hcall, h.again (printable_append h.printable hmore) ?_⟩
  rw [text_append, List.length_append]
  omega

theorem Edits.backspace (h : Edits font shown e t) (hline : t.line ≠ [])
    (hfits : platform.fits t.line.length) :
    ∃ e', inHandler platform e [BS] = some e' ∧
      Edits font shown e' (press platform .backspace t) := by
  obtain ⟨text, c, hsplit⟩ := List.eq_nil_or_concat' t.line |>.resolve_left hline
  have hpress : press platform .backspace t = { t with line := text ++ platform.remnant c } := by
    simp [press, hsplit]
  have hprintable : ∀ c' ∈ text ++ platform.remnant c, Printable c' := by
    refine printable_append (fun c' hc' => h.printable c' ?_) fun c' => printable_remnant
    rw [hsplit]
    exact List.mem_append_left _ hc'
  rw [hsplit, List.length_append] at hfits
  have hnone := h.notMem (show BS < 0x20 by decide)
  have hcall : inHandler platform e [BS] =
      some (forward e (encode (text ++ platform.remnant c))) := by
    have hlast : eraseLast platform e.lastline = some (encode (text ++ platform.remnant c)) := by
      rw [h.lastline, hsplit]
      exact eraseLast_encode hfits
    have hcount : (e.lastline ++ [BS].map newline).count BS = 0 + 1 := by
      rw [List.count_append, List.count_eq_zero.mpr hnone]
      rfl
    rw [inHandler, hcount]
    change (eraseAll platform (0 + 1) (e.lastline ++ BS :: [])).map _ = _
    rw [eraseAll_step hnone hlast, List.append_nil,
      eraseAll_none (notMem_encode hprintable (by decide))]
    rfl
  refine ⟨_, hcall, ?_⟩
  rw [hpress]
  refine h.again hprintable ?_
  have hc := font.cells_le_two c
  rw [hsplit, text_append, text_append, List.length_append, List.length_append]
  change _ + (font.cells c ++ []).length ≤ _
  rw [List.append_nil]
  omega

theorem Edits.enter (h : Edits font shown e t) {b : Byte} (hend : isLineEnd b = true) :
    ∃ e', inHandler platform e [b] = some e' ∧
      Edits font shown e' (press platform (.enter b hend) t) := by
  have hLF := h.notMem (show LF < 0x20 by decide)
  have hBS : BS ∉ [b] := by
    rcases isLineEnd_iff.mp hend with rfl | rfl <;> decide
  have hcall : inHandler platform e [b] = some (forward e (e.lastline ++ LF :: [])) := by
    rw [inHandler_plain (h.notMem (by decide)) hBS, List.map_singleton, newline_of_lineEnd hend]
  obtain ⟨hlastline, hstdin⟩ := @forward_line e.lastline [] e hLF
  refine ⟨_, hcall, ?_⟩
  constructor
  · exact hlastline
  · rw [hstdin, h.stdin, h.lastline]
    simp [press, linesText]
  · exact fun c hc => absurd hc List.not_mem_nil
  · have hwritten : CR :: List.replicate (e.lastline ++ LF :: []).length (byte ' ') =
        encode ('\r' :: List.replicate (e.lastline ++ LF :: []).length ' ') := by
      have hreturn : String.utf8EncodeChar '\r' = [CR] := by decide
      rw [encode_cons, hreturn, encode_spaces]
      rfl
    rw [forward_screen_line e hLF, hwritten]
    refine h.screen.write fun screen hpictures => hpictures.clear ?_
    rw [h.lastline, List.length_append]
    omega

/-- A key that is allowed. -/
theorem Edits.key (h : Edits font shown e t) {key : Key} (hallows : Allows platform key t) :
    ∃ e', inHandler platform e key.bytes = some e' ∧
      Edits font shown e' (press platform key t) := by
  cases key with
  | text more => exact h.text hallows
  | backspace => exact h.backspace hallows.1 hallows.2
  | enter b hend => exact h.enter hend

end Keys

/-! ## Output -/

section Output

variable {lines shown : List (List Char)} {s s' : OutSession}

/-- The reader waits for the next line of the output, behind the lines it has taken. -/
structure Reads (lines shown : List (List Char)) (s : OutSession) : Prop where
  reading : ∃ start, s.activity = .reading (.readUntil [LF]) start .outHandler
  opened : s.closed = false
  outputs : s.outputs = shown.map encode
  pending : ∃ rest, lines = shown ++ rest ∧ s.pending = linesText rest

/-- A buffer with a line feed in it holds the next line. -/
theorem exists_line {rest : List (List Char)} {buffer later : Bytes}
    (hrest : ∀ line ∈ rest, ∀ c ∈ line, Printable c) (hstream : buffer ++ later = linesText rest)
    (hmem : LF ∈ buffer) :
    ∃ line more behind, rest = line :: more ∧ buffer = encode line ++ LF :: behind ∧
      behind ++ later = linesText more := by
  cases rest with
  | nil =>
      rw [(List.append_eq_nil_iff.mp hstream).1] at hmem
      cases hmem
  | cons line more =>
      have hfree : LF ∉ encode line :=
        notMem_encode (hrest line List.mem_cons_self) (by decide)
      have hsplit : buffer ++ later = encode line ++ LF :: linesText more := by
        rw [hstream]
        simp [linesText]
      rcases List.append_eq_append_iff.mp hsplit with ⟨word, hline, -⟩ | ⟨behind, hbuffer, hlater⟩
      · rw [hline, List.mem_append, not_or] at hfree
        exact absurd hmem hfree.1
      · cases behind with
        | nil =>
            rw [hbuffer, List.append_nil] at hmem
            exact absurd hmem hfree
        | cons b behind =>
            rw [List.cons_append, List.cons.injEq] at hlater
            obtain ⟨rfl, hlater⟩ := hlater
            exact ⟨line, more, behind, rfl, hbuffer, hlater.symm⟩

theorem outHandler_line {line behind : Bytes} (h : LF ∉ line) :
    outHandler (line ++ LF :: behind) =
      ⟨behind, [line], .issue (.readUntil [LF]) .outHandler⟩ := by
  rw [outHandler, getline, if_pos rfl,
    takeWhile_append_stop (ne_of_notMem h) (starts_self LF behind),
    dropWhile_append_stop (ne_of_notMem h) (starts_self LF behind)]

/-- A step of the reader takes a line of the output, or only receives some of it. -/
theorem Reads.step (h : Reads lines shown s) (hlines : ∀ line ∈ lines, ∀ c ∈ line, Printable c)
    (hstep : outStep s = some s') :
    (Reads lines shown s' ∧ s'.outputs = s.outputs) ∨
      ∃ line ∈ lines, Reads lines (shown ++ [line]) s' ∧
        s'.outputs = s.outputs ++ [encode line] := by
  obtain ⟨⟨start, hreading⟩, hopened, houtputs, rest, hrest, hpending⟩ := h
  obtain ⟨op, start', handler, hact, hcase⟩ := step_cases hstep
  rw [hreading, Activity.reading.injEq] at hact
  obtain ⟨rfl, rfl, rfl⟩ := hact
  have hprintable : ∀ line ∈ rest, ∀ c ∈ line, Printable c :=
    fun line hmem => hlines line (hrest ▸ List.mem_append_right shown hmem)
  rcases hcase with ⟨hsat, rfl⟩ | ⟨-, segment, unread, hunread, rfl⟩ | ⟨-, -, hclosed, -⟩
  · right
    obtain ⟨line, more, behind, rfl, hbuffer, hbehind⟩ :=
      exists_line hprintable hpending (ReadOp.satisfied_token.mp hsat)
    have hfree : LF ∉ encode line := notMem_encode (hprintable line List.mem_cons_self) (by decide)
    have hturn : complete .outHandler false s.buffer =
        ⟨behind, [encode line], .issue (.readUntil [LF]) .outHandler⟩ := by
      rw [hbuffer]
      exact outHandler_line hfree
    rw [hturn]
    refine ⟨line, hrest ▸ List.mem_append_right shown List.mem_cons_self, ?_, rfl⟩
    refine ⟨⟨_, rfl⟩, hopened, ?_, more, ?_, hbehind⟩
    · rw [Session.resume_outputs, houtputs, List.map_append, List.map_singleton]
    · rw [hrest, List.append_assoc, List.singleton_append]
  · left
    refine ⟨⟨⟨_, hreading⟩, hopened, houtputs, rest, hrest, ?_⟩, rfl⟩
    rw [← hpending, Session.pending, Session.pending, hunread, List.flatten_cons, List.append_assoc]
  · rw [hopened] at hclosed
    cases hclosed

/-- A reader with nothing to do has taken all lines. -/
theorem Reads.all (h : Reads lines shown s) (hrests : outStep s = none) : shown = lines := by
  obtain ⟨⟨start, hreading⟩, -, -, rest, hrest, hpending⟩ := h
  have hfree : LF ∉ s.pending := by
    cases hsat : (ReadOp.readUntil [LF]).satisfied start s.buffer with
    | true =>
        rw [outStep, step_satisfied hreading hsat] at hrests
        cases hrests
    | false =>
        cases hunread : s.unread with
        | cons segment unread =>
            rw [outStep, step_receive hreading hsat hunread] at hrests
            cases hrests
        | nil =>
            rw [Session.pending, hunread, List.flatten_nil, List.append_nil]
            intro hmem
            rw [ReadOp.satisfied_token.mpr hmem] at hsat
            cases hsat
  cases rest with
  | nil => rw [hrest, List.append_nil]
  | cons line more =>
      rw [hpending] at hfree
      exact absurd (by simp [linesText]) hfree

end Output

/-! ## All runs -/

section Runs

variable {γ : Type} {font : Font γ} {platform : Platform} {lines : List (List Char)}

/-- The lines that have been taken are shown above the line that is being typed. -/
def Follows (font : Font γ) (lines : List (List Char)) (c : OutputHandlerImpl) (t : Typed) : Prop :=
  ∃ shown, Edits font shown c.editor t ∧ Reads lines shown c.out

theorem follows_start {segments : List Bytes} (hstream : segments.flatten = linesText lines) :
    Follows font lines (start segments) ⟨[], []⟩ := by
  refine ⟨[], ⟨rfl, rfl, fun c hc => absurd hc List.not_mem_nil, [], rfl, ?_⟩,
    ⟨⟨0, rfl⟩, rfl, rfl, lines, rfl, hstream⟩⟩
  exact ⟨List.Forall₂.nil, shows_self []⟩

/-- The reader's part of a step. -/
theorem follows_takeOutput {c : OutputHandlerImpl} {t : Typed} (h : Follows font lines c t)
    (hlines : ∀ line ∈ lines, ∀ ch ∈ line, Printable ch) : Follows font lines (takeOutput c) t := by
  obtain ⟨shown, hedits, hreads⟩ := h
  rw [takeOutput]
  cases hstep : outStep c.out with
  | none => exact ⟨shown, hedits, hreads⟩
  | some out =>
      dsimp only
      rcases hreads.step hlines hstep with ⟨hreads', houtputs⟩ |
        ⟨line, hmem, hreads', houtputs⟩
      · rw [houtputs, List.drop_length, List.flatMap_nil, List.append_nil]
        exact ⟨shown, hedits, hreads'⟩
      · rw [houtputs, List.drop_left, List.flatMap_singleton]
        refine ⟨shown ++ [line], ⟨hedits.lastline, hedits.stdin, hedits.printable, ?_⟩, hreads'⟩
        have hwritten : shownLine c.editor.lastline (encode line) =
            encode ('\r' :: List.replicate (encode t.line).length ' ' ++
              '\r' :: (line ++ ['\r', '\n']) ++ t.line) := by
          have hreturn : String.utf8EncodeChar '\r' = [CR] := by decide
          have hends : encode ['\r', '\n'] = [CR, LF] := by decide
          rw [shownLine, expandNewlines_of_notMem (notMem_encode (hlines line hmem) (by decide)),
            encode_append, encode_append, encode_cons, encode_cons, encode_append, encode_spaces,
            hreturn, hends, hedits.lastline]
          simp only [List.append_assoc]
        rw [hwritten]
        exact hedits.screen.write fun screen hpictures =>
          hpictures.output hedits.printable (hlines line hmem)

theorem follows_step (hlines : ∀ line ∈ lines, ∀ ch ∈ line, Printable ch) (event : Event)
    (c : OutputHandlerImpl) (t : Typed) (h : Follows font lines c t)
    (hpermits : permits platform event c t) :
    ∃ c', step platform event c = some c' ∧ Follows font lines c' (apply platform event t) := by
  cases event with
  | key key =>
      obtain ⟨shown, hedits, hreads⟩ := h
      obtain ⟨e', hcall, hedits'⟩ := hedits.key hpermits
      refine ⟨{ c with editor := e' }, ?_, shown, hedits', hreads⟩
      rw [step, hcall]
      rfl
  | output => exact ⟨takeOutput c, rfl, follows_takeOutput h hlines⟩

end Runs

/-- In every order of keys and output, however the output arrives, the terminal shows the lines
that have been taken, all of them once the reader is at rest, and below them the line that is being
typed; the lines that have been entered have been forwarded. -/
theorem shows_lines {γ : Type} (font : Font γ) (platform : Platform) {lines : List (List Char)}
    (hlines : ∀ line ∈ lines, ∀ c ∈ line, Printable c) {segments : List Bytes}
    (hstream : segments.flatten = linesText lines) {events : List Event}
    (hpermitted : Permitted (step platform) (apply platform) (permits platform) events
      (start segments) ⟨[], []⟩) :
    ∃ c shown, run (step platform) events (start segments) = some c ∧ shown <+: lines ∧
      (outStep c.out = none → shown = lines) ∧ c.out.outputs = shown.map encode ∧
      c.editor.stdin = linesText (applyAll (apply platform) events ⟨[], []⟩).entered ∧
      Pictures font shown (applyAll (apply platform) events ⟨[], []⟩).line
        (font.screen c.editor.screen) := by
  obtain ⟨c, hrun, shown, hedits, hreads⟩ :=
    run_follows (@follows_step γ font platform lines hlines) hpermitted (follows_start hstream)
  obtain ⟨rest, hrest, -⟩ := hreads.pending
  exact ⟨c, shown, hrun, ⟨rest, hrest.symm⟩, hreads.all, hreads.outputs, hedits.stdin,
    hedits.screen.pictures⟩

/-- One column for a letter, two for a character of an East Asian script. -/
def twoColumns : Font Char where
  blank := ' '
  cells := fun c => if c.toNat < 0x1100 then [c] else [c, c]
  cells_space := rfl
  cells_le_two := by
    intro c
    split_ifs
    · exact Nat.le_succ 1
    · exact Nat.le_refl 2
  cells_le_bytes := by
    intro c
    rw [String.length_utf8EncodeChar]
    have hpos := c.utf8Size_pos
    split_ifs with hsmall
    · exact hpos
    · have hmany : c.utf8Size ≠ 1 := by
        intro hone
        have hle : c.val.toNat ≤ 127 := UInt32.le_iff_toNat_le.mp (Char.utf8Size_eq_one_iff.mp hone)
        exact hsmall (Nat.lt_of_le_of_lt hle (by decide))
      change 2 ≤ c.utf8Size
      omega

/-- While a line of output arrives, a character of two columns is typed and erased. -/
theorem shows_lines_kana :
    ∃ c shown,
      run (step .posix) [.key (.text ['か']), .output, .output, .key .backspace, .output]
          (start [ascii "o", ascii "k\n"]) = some c ∧
        shown <+: [['o', 'k']] ∧ (outStep c.out = none → shown = [['o', 'k']]) ∧
        c.out.outputs = shown.map encode ∧ c.editor.stdin = linesText [] ∧
        Pictures twoColumns shown [] (twoColumns.screen c.editor.screen) := by
  have hkana : ∀ c ∈ ['か'], Printable c := printable_of_all (by decide)
  have hok : ∀ c ∈ ['o', 'k'], Printable c := printable_of_all (by decide)
  have hlines : ∀ line ∈ [['o', 'k']], ∀ c ∈ line, Printable c := by
    intro line hmem
    rw [List.mem_singleton.mp hmem]
    exact hok
  have hfits : Platform.posix.fits 1 := by change 1 ≤ 256; decide
  refine @shows_lines Char twoColumns .posix [['o', 'k']] hlines [ascii "o", ascii "k\n"]
    (by decide) [.key (.text ['か']), .output, .output, .key .backspace, .output] ?_
  exact ⟨hkana, fun _ _ => ⟨trivial, fun _ _ => ⟨trivial, fun _ _ =>
    ⟨⟨List.cons_ne_nil _ _, hfits⟩, fun _ _ => ⟨trivial, fun _ _ => trivial⟩⟩⟩⟩⟩

end BlackCircle.Console.OutputHandler
