import BlackCircle.Console.Conversion
import BlackCircle.Foundation.InputStream
import Mathlib.Data.List.Induction

/-!
# The line editor

`in_handler` takes what has been typed, or pasted, since its last call.  It resolves
the backspaces of the line kept so far and of everything new before it looks for a
line end, and then forwards one line at most.

The reference is the same handler called for every key of its own.  Over a read the
handler builds up the lines that the keys complete, and behind them the line that
they leave; a call forwards the first of these lines only.
-/

namespace BlackCircle.Console.LineEditor

open BlackCircle.Foundation.ByteString
open BlackCircle.Foundation.InputStream
open BlackCircle.Foundation.Unicode
open BlackCircle.Console.Conversion

/-! ## The handler -/

/-- Backspace. -/
def BS : Byte := 8

/-- The kept line, and what has been written to `piped_stdin` and to `true_stdout`. -/
structure Editor where
  lastline : Bytes
  stdin : Bytes
  screen : Bytes
  deriving DecidableEq, Repr

def start : Editor := ⟨[], [], []⟩

/-- `std::replace`. -/
def newline (b : Byte) : Byte := if b = CR then LF else b

/-- The loop that puts a CR in front of each LF; it passes over the byte behind a CR. -/
def expandNewlines : Bytes → Bytes
  | [] => []
  | [b] => if b = LF then [CR, LF] else [b]
  | b :: c :: rest =>
      if b = LF then CR :: LF :: expandNewlines (c :: rest)
      else if b = CR then CR :: c :: expandNewlines rest
      else b :: expandNewlines (c :: rest)

/-- The text in front of a backspace without its last wide character; `pop_back` of an empty
vector is undefined. -/
def eraseLast (platform : Platform) (front : Bytes) : Option Bytes :=
  let ws := externToWide platform front
  if ws = [] then none else some (wideToExtern platform ws.dropLast)

/-- The loop over the backspaces, with so many rounds at most. -/
def eraseAll (platform : Platform) : Nat → Bytes → Option Bytes
  | 0, lastline => if lastline.contains BS then none else some lastline
  | rounds + 1, lastline =>
      match lastline.dropWhile (· ≠ BS) with
      | [] => some lastline
      | _ :: behind =>
          (eraseLast platform (lastline.takeWhile (· ≠ BS))).bind fun front =>
            eraseAll platform rounds (front ++ behind)

/-- What follows the loop: the first line is forwarded, or the line is shown again.  In UTF-8,
`extern_to_utf8` leaves the line as it is. -/
def forward (e : Editor) (lastline : Bytes) : Editor :=
  match lastline.dropWhile (· ≠ LF) with
  | [] =>
      { lastline := lastline
        stdin := e.stdin
        screen := e.screen ++ expandNewlines ([CR] ++ lastline ++ ascii "  \r" ++ lastline) }
  | _ :: rest =>
      { lastline := rest
        stdin := e.stdin ++ (lastline.takeWhile (· ≠ LF) ++ [LF])
        screen := e.screen ++
          ([CR] ++ List.replicate lastline.length (byte ' ') ++ [CR]).take (lastline.length + 1) }

/-- One round for each backspace there is. -/
def inHandler (platform : Platform) (e : Editor) (isb : Bytes) : Option Editor :=
  let lastline := e.lastline ++ isb.map newline
  (eraseAll platform (lastline.count BS) lastline).map (forward e)

/-- A sequence of calls. -/
def handle (platform : Platform) (reads : List Bytes) : Option Editor :=
  reads.foldlM (inHandler platform) start

def oneByOne (keys : Bytes) : List Bytes := keys.map fun b => [b]

/-! ## Reads and keys -/

def isLineEnd (b : Byte) : Bool := b == CR || b == LF

def lineEnds (read : Bytes) : Nat := read.countP isLineEnd

/-- Typed one by one, no backspace comes while the line is empty. -/
def BackspacesHaveText (platform : Platform) (keys : Bytes) : Prop :=
  ∀ front behind, keys = front ++ BS :: behind →
    ∀ e, handle platform (oneByOne front) = some e → e.lastline ≠ []

/-- What is in front of each backspace of a read is converted without loss, where the kept line
has `count` characters. -/
def Converts (platform : Platform) : Nat → Bytes → Prop
  | _, [] => True
  | count, b :: read =>
      if b = BS then platform.fits count ∧ Converts platform (count - 1) read
      else Converts platform (if isContinuation b then count else count + 1) read

/-- In every call, the text in front of each backspace is converted without loss. -/
def Fits (platform : Platform) (reads : List Bytes) : Prop :=
  ∀ before read after, reads = before ++ read :: after →
    ∀ e, handle platform before = some e → Converts platform (characters e.lastline) read

/-- After every call, the same has been forwarded as when the keys are typed one by one, and the
same line is kept, without a line end. -/
def SameAsTyped (platform : Platform) (reads : List Bytes) : Prop :=
  ∀ calls, calls <+: reads →
    ∃ e typed, handle platform calls = some e ∧
      handle platform (oneByOne calls.flatten) = some typed ∧
      e.stdin = typed.stdin ∧ e.lastline = typed.lastline ∧ LF ∉ e.lastline

theorem converts_win32 (count : Nat) (read : Bytes) : Converts .win32 count read := by
  induction read generalizing count with
  | nil => exact trivial
  | cons b read ih =>
      rw [Converts]
      split
      · exact ⟨trivial, ih _⟩
      · exact ih _

/-- Where strings are converted as a whole, every text fits. -/
theorem fits_win32 (reads : List Bytes) : Fits .win32 reads :=
  fun _ read _ _ e _ => converts_win32 (characters e.lastline) read

/-! ## Pieces of the handler -/

section Pieces

variable {platform : Platform} {lastline line rest : Bytes}

theorem newline_of_ne {b : Byte} (h : b ≠ CR) : newline b = b := if_neg h

theorem isLineEnd_iff {b : Byte} : isLineEnd b = true ↔ b = CR ∨ b = LF := by
  rw [isLineEnd, Bool.or_eq_true, beq_iff_eq, beq_iff_eq]

theorem newline_of_lineEnd {b : Byte} (h : isLineEnd b = true) : newline b = LF := by
  rcases isLineEnd_iff.mp h with rfl | rfl
  · rfl
  · rfl

/-- No backspace is replaced, and none is put in. -/
theorem count_newline (read : Bytes) : (read.map newline).count BS = read.count BS := by
  rw [List.count_eq_countP, List.countP_map, List.count_eq_countP]
  refine List.countP_congr ?_
  intro b _
  by_cases hb : b = CR
  · subst hb
    decide
  · rw [Function.comp_apply, newline_of_ne hb]

theorem eraseAll_none (h : BS ∉ lastline) (rounds : Nat) :
    eraseAll platform rounds lastline = some lastline := by
  cases rounds with
  | zero => exact if_neg (mt List.contains_iff_mem.mp h)
  | succ rounds =>
      have hall : lastline.dropWhile (· ≠ BS) = [] := by
        rw [List.dropWhile_eq_nil_iff]
        intro b hb
        exact decide_eq_true fun heq => h (heq ▸ hb)
      rw [eraseAll, hall]

theorem eraseAll_step {front front' behind : Bytes} (h : BS ∉ front)
    (herase : eraseLast platform front = some front') (rounds : Nat) :
    eraseAll platform (rounds + 1) (front ++ BS :: behind) =
      eraseAll platform rounds (front' ++ behind) := by
  rw [eraseAll, dropWhile_append_stop (ne_of_notMem h) (starts_self BS behind),
    takeWhile_append_stop (ne_of_notMem h) (starts_self BS behind), herase]
  rfl

theorem forward_open (e : Editor) (h : LF ∉ lastline) :
    (forward e lastline).lastline = lastline ∧ (forward e lastline).stdin = e.stdin := by
  have hall : lastline.dropWhile (· ≠ LF) = [] :=
    List.dropWhile_eq_nil_iff.mpr (ne_of_notMem h)
  rw [forward, hall]
  exact ⟨rfl, rfl⟩

theorem forward_line (e : Editor) (h : LF ∉ line) :
    (forward e (line ++ LF :: rest)).lastline = rest ∧
      (forward e (line ++ LF :: rest)).stdin = e.stdin ++ (line ++ [LF]) := by
  rw [forward, dropWhile_append_stop (ne_of_notMem h) (starts_self LF rest),
    takeWhile_append_stop (ne_of_notMem h) (starts_self LF rest)]
  exact ⟨rfl, rfl⟩

theorem notMem_concat {a b : Byte} {text : Bytes} (h : a ∉ text) (hne : a ≠ b) :
    a ∉ text ++ [b] := by
  rw [List.mem_append, List.mem_singleton, not_or]
  exact ⟨h, hne⟩

theorem BS_lt : BS < 0x80 := by decide

theorem LF_lt : LF < 0x80 := by decide

theorem lineEnd_lt {b : Byte} (h : isLineEnd b = true) : b < 0x80 := by
  rcases isLineEnd_iff.mp h with rfl | rfl
  · decide
  · decide

theorem valid_LF : Valid [LF] := ⟨[Char.ofNat 10], by decide⟩

theorem notMem_encode_left {text more : List Char} {b : Byte}
    (h : b ∉ encode (text ++ more)) : b ∉ encode text := by
  rw [encode_append, List.mem_append, not_or] at h
  exact h.1

/-- What is left of an erased character is no backspace and no line end. -/
theorem notMem_remnant {b : Byte} (hb : b < 0x80) (c : Char) :
    b ∉ encode (platform.remnant c) := by
  have hreplacement : b ∉ encode [replacement] := by
    intro hmem
    rw [encode_singleton] at hmem
    have hone := congrArg List.length (utf8EncodeChar_of_mem hb hmem)
    have hthree : replacement.utf8Size = 3 := by decide
    rw [String.length_utf8EncodeChar, hthree] at hone
    exact absurd hone (by simp)
  cases platform with
  | win32 =>
      rw [Platform.remnant]
      split
      · exact List.not_mem_nil
      · exact hreplacement
  | posix => exact List.not_mem_nil

theorem eraseLast_encode {text : List Char} {c : Char}
    (hfits : platform.fits (text.length + 1)) :
    eraseLast platform (encode (text ++ [c])) = some (encode (text ++ platform.remnant c)) := by
  rw [eraseLast, if_neg (externToWide_ne_nil hfits), wideToExtern_dropLast hfits]

end Pieces

/-! ## Typing -/

/-- Typed one by one, the keys `front` have forwarded `stdin` and left the line `cur`.  Whatever
completes the keys to a text completes the line to one. -/
structure Typing (platform : Platform) (front stdin cur : Bytes) : Prop where
  run : ∃ screen, handle platform (oneByOne front) = some ⟨cur, stdin, screen⟩
  no_LF : LF ∉ cur
  no_BS : BS ∉ cur
  completes : ∀ more, Valid (front ++ more) → Valid (cur ++ more)

section Keys

variable {platform : Platform} {front stdin cur later : Bytes} {b : Byte}

theorem handle_concat {reads : List Bytes} {e : Editor} (h : handle platform reads = some e)
    (read : Bytes) : handle platform (reads ++ [read]) = inHandler platform e read := by
  rw [handle, List.foldlM_append]
  change (handle platform reads).bind _ = _
  rw [h]
  exact Option.bind_fun_some _

theorem typing_nil : Typing platform [] [] [] where
  run := ⟨[], rfl⟩
  no_LF := List.not_mem_nil
  no_BS := List.not_mem_nil
  completes := fun _ h => h

theorem Typing.valid (h : Typing platform front stdin cur) (hfront : Valid front) : Valid cur := by
  have hcur := h.completes [] (by rwa [List.append_nil])
  rwa [List.append_nil] at hcur

/-- The call for the next key, up to what is done behind the loop. -/
theorem Typing.next (h : Typing platform front stdin cur) {line : Bytes}
    (hline : eraseAll platform ((cur ++ [newline b]).count BS) (cur ++ [newline b]) = some line)
    {stdin' cur' : Bytes}
    (hforward : ∀ e : Editor, e.stdin = stdin →
      (forward e line).lastline = cur' ∧ (forward e line).stdin = stdin') :
    ∃ screen, handle platform (oneByOne (front ++ [b])) = some ⟨cur', stdin', screen⟩ := by
  obtain ⟨screen, hrun⟩ := h.run
  obtain ⟨rfl, rfl⟩ := hforward ⟨cur, stdin, screen⟩ rfl
  refine ⟨(forward ⟨cur, stdin, screen⟩ line).screen, ?_⟩
  have hcalls : oneByOne (front ++ [b]) = oneByOne front ++ [[b]] := List.map_append
  rw [hcalls, handle_concat hrun, inHandler]
  change (eraseAll platform ((cur ++ [newline b]).count BS) (cur ++ [newline b])).map _ = _
  rw [hline]
  rfl

theorem Typing.char (h : Typing platform front stdin cur) (hend : isLineEnd b = false)
    (hBS : b ≠ BS) : Typing platform (front ++ [b]) stdin (cur ++ [b]) := by
  rw [← Bool.not_eq_true, isLineEnd_iff, not_or] at hend
  have hnewline : newline b = b := newline_of_ne hend.1
  have hLF : LF ∉ cur ++ [b] := notMem_concat h.no_LF (Ne.symm hend.2)
  have hnone : BS ∉ cur ++ [b] := notMem_concat h.no_BS (Ne.symm hBS)
  constructor
  · refine h.next (by rw [hnewline]; exact eraseAll_none hnone _) ?_
    intro e he
    obtain ⟨hlastline, hstdin⟩ := forward_open e hLF
    exact ⟨hlastline, hstdin.trans he⟩
  · exact hLF
  · exact hnone
  · intro more hmore
    rw [List.append_assoc] at hmore ⊢
    exact h.completes _ hmore

theorem Typing.lineEnd (h : Typing platform front stdin cur) (hend : isLineEnd b = true) :
    Typing platform (front ++ [b]) (stdin ++ (cur ++ [LF])) [] := by
  have hnewline : newline b = LF := newline_of_lineEnd hend
  have hnone : BS ∉ cur ++ [LF] := notMem_concat h.no_BS (by decide)
  constructor
  · refine h.next (by rw [hnewline]; exact eraseAll_none hnone _) ?_
    rintro e rfl
    exact forward_line e h.no_LF
  · exact List.not_mem_nil
  · exact List.not_mem_nil
  · intro more hmore
    rw [List.append_assoc] at hmore
    exact (hmore.split (lineEnd_lt hend)).2.2

/-- What is left behind a backspace is the same when other lines stand in front. -/
theorem eraseLast_behind {done : Bytes} {text : List Char} {c : Char} (hdone : Valid done)
    (hfits : platform.fits (characters (done ++ encode (text ++ [c])))) :
    eraseLast platform (done ++ encode (text ++ [c])) =
      some (done ++ encode (text ++ platform.remnant c)) := by
  obtain ⟨first, rfl⟩ := hdone
  rw [← encode_append, ← List.append_assoc] at hfits ⊢
  rw [← encode_append, ← List.append_assoc]
  refine eraseLast_encode ?_
  rwa [characters_encode, List.length_append] at hfits

/-- What is to come is converted without loss behind it, if it is with a character less. -/
theorem converts_behind {done read : Bytes} {text : List Char} {c : Char}
    (h : Converts platform (characters (done ++ encode (text ++ [c])) - 1) read) :
    Converts platform (characters (done ++ encode (text ++ platform.remnant c))) read := by
  cases platform with
  | win32 => exact converts_win32 _ read
  | posix =>
      rw [characters_append, characters_encode] at h ⊢
      rw [List.length_append, List.length_singleton, ← Nat.add_assoc, Nat.add_sub_cancel] at h
      rwa [Platform.remnant, List.append_nil]

/-- A backspace. -/
theorem Typing.erase {text : List Char} {c : Char}
    (h : Typing platform front stdin (encode (text ++ [c])))
    (hfits : platform.fits (characters (encode (text ++ [c])))) :
    Typing platform (front ++ [BS]) stdin (encode (text ++ platform.remnant c)) := by
  have hrest : ∀ {b : Byte}, b < 0x80 → b ∉ encode (text ++ [c]) →
      b ∉ encode (text ++ platform.remnant c) := by
    intro b hb hmem
    rw [encode_append, List.mem_append, not_or]
    exact ⟨notMem_encode_left hmem, notMem_remnant hb c⟩
  have hnone := hrest BS_lt h.no_BS
  constructor
  · have hcount : (encode (text ++ [c]) ++ [newline BS]).count BS = 1 := by
      rw [List.count_append, List.count_eq_zero.mpr h.no_BS]
      rfl
    have hone : eraseLast platform (encode (text ++ [c])) =
        some (encode (text ++ platform.remnant c)) := by
      simpa using @eraseLast_behind platform [] text c valid_nil hfits
    have herased : eraseAll platform ((encode (text ++ [c]) ++ [newline BS]).count BS)
        (encode (text ++ [c]) ++ [newline BS]) = some (encode (text ++ platform.remnant c)) := by
      rw [hcount]
      change eraseAll platform (0 + 1) (encode (text ++ [c]) ++ [BS]) = _
      rw [eraseAll_step h.no_BS hone, List.append_nil, eraseAll_none hnone]
    refine h.next herased ?_
    intro e he
    obtain ⟨hlastline, hstdin⟩ := forward_open e (hrest LF_lt h.no_LF)
    exact ⟨hlastline, hstdin.trans he⟩
  · exact hrest LF_lt h.no_LF
  · exact hnone
  · intro more hmore
    rw [List.append_assoc] at hmore
    exact Valid.append ⟨_, rfl⟩ (hmore.split BS_lt).2.2

end Keys

/-! ## One read -/

/-- Completed lines with their line ends. -/
def linesText (done : List Bytes) : Bytes := done.flatMap fun line => line ++ [LF]

/-- A line without backspaces and line ends in valid UTF-8. -/
structure Plain (line : Bytes) : Prop where
  no_LF : LF ∉ line
  no_BS : BS ∉ line
  valid : Valid line

section Reads

variable {platform : Platform} {front stdin cur : Bytes} {done : List Bytes}

theorem linesText_concat (done : List Bytes) (line : Bytes) :
    linesText (done ++ [line]) = linesText done ++ (line ++ [LF]) := by
  rw [linesText, List.flatMap_append, List.flatMap_singleton]
  rfl

theorem valid_linesText (hdone : ∀ line ∈ done, Plain line) : Valid (linesText done) := by
  induction done with
  | nil => exact valid_nil
  | cons line done ih =>
      obtain ⟨hline, hmore⟩ := List.forall_mem_cons.mp hdone
      exact (hline.valid.append valid_LF).append (ih hmore)

theorem no_BS_linesText (hdone : ∀ line ∈ done, Plain line) : BS ∉ linesText done := by
  rw [linesText, List.mem_flatMap]
  rintro ⟨line, hline, hmem⟩
  rcases List.mem_append.mp hmem with hin | hend
  · exact (hdone line hline).no_BS hin
  · exact absurd (List.mem_singleton.mp hend) (by decide)

/-- The keys so far, with the lines they have completed since the read began. -/
structure Building (platform : Platform) (front stdin : Bytes) (done : List Bytes)
    (cur : Bytes) : Prop where
  typing : Typing platform front (stdin ++ linesText done) cur
  plain : ∀ line ∈ done, Plain line

/-- What a key of the read does to the lines being built. -/
structure Builds (platform : Platform) (done : List Bytes) (cur : Bytes) (b : Byte)
    (done' : List Bytes) (cur' : Bytes) : Prop where
  count : done'.length = done.length + lineEnds [b]
  converts : ∀ read, Converts platform (characters (linesText done ++ cur)) (b :: read) →
    Converts platform (characters (linesText done' ++ cur')) read
  loop : ∀ rounds behind,
    eraseAll platform (rounds + [b].count BS) ((linesText done ++ cur) ++ newline b :: behind) =
      eraseAll platform rounds ((linesText done' ++ cur') ++ behind)

theorem Building.no_BS (h : Building platform front stdin done cur) :
    BS ∉ linesText done ++ cur := by
  rw [List.mem_append, not_or]
  exact ⟨no_BS_linesText h.plain, h.typing.no_BS⟩

theorem Building.erase (h : Building platform front stdin done cur) (hfront : Valid front)
    (hcur : cur ≠ []) (hfits : platform.fits (characters (linesText done ++ cur))) :
    ∃ cur', Building platform (front ++ [BS]) stdin done cur' ∧
      Builds platform done cur BS done cur' := by
  have hfew : platform.fits (characters cur) := by
    refine Platform.fits_mono ?_ hfits
    rw [characters_append]
    exact Nat.le_add_left _ _
  have hnone := h.no_BS
  obtain ⟨typing, plain⟩ := h
  obtain ⟨text, rfl⟩ := typing.valid hfront
  rcases List.eq_nil_or_concat' text with rfl | ⟨text, c, rfl⟩
  · exact absurd rfl hcur
  refine ⟨encode (text ++ platform.remnant c), ⟨typing.erase hfew, plain⟩, ?_⟩
  constructor
  · rfl
  · intro read hread
    rw [Converts, if_pos rfl] at hread
    exact converts_behind hread.2
  · intro rounds behind
    exact eraseAll_step hnone (eraseLast_behind (valid_linesText plain) hfits) rounds

theorem Building.lineEnd {b : Byte} (h : Building platform front stdin done cur)
    (hfront : Valid front) (hend : isLineEnd b = true) :
    Building platform (front ++ [b]) stdin (done ++ [cur]) [] ∧
      Builds platform done cur b (done ++ [cur]) [] := by
  have hBS : b ≠ BS := by
    rintro rfl
    cases hend
  constructor
  · constructor
    · rw [linesText_concat, ← List.append_assoc]
      exact h.typing.lineEnd hend
    · intro line hmem
      rcases List.mem_append.mp hmem with hold | hnew
      · exact h.plain line hold
      · rw [List.mem_singleton.mp hnew]
        exact ⟨h.typing.no_LF, h.typing.no_BS, h.typing.valid hfront⟩
  · constructor
    · rw [List.length_append, lineEnds, List.countP_singleton, if_pos hend]
      rfl
    · intro read hread
      rw [Converts, if_neg hBS, not_isContinuation_of_lt (lineEnd_lt hend), if_neg (by decide)]
        at hread
      rw [linesText_concat, List.append_nil, ← List.append_assoc, characters_append]
      exact hread
    · intro rounds behind
      rw [List.count_singleton, if_neg (by simpa using hBS), newline_of_lineEnd hend,
        linesText_concat]
      simp

theorem Building.char {b : Byte} (h : Building platform front stdin done cur)
    (hend : isLineEnd b = false) (hBS : b ≠ BS) :
    Building platform (front ++ [b]) stdin done (cur ++ [b]) ∧
      Builds platform done cur b done (cur ++ [b]) := by
  constructor
  · exact ⟨h.typing.char hend hBS, h.plain⟩
  · constructor
    · rw [lineEnds, List.countP_singleton, if_neg (by simp [hend])]
      rfl
    · intro read hread
      rw [Converts, if_neg hBS] at hread
      rw [← List.append_assoc, characters_append]
      cases hcont : isContinuation b with
      | true =>
          rw [hcont, if_pos rfl] at hread
          rwa [characters, characters, List.countP_singleton, hcont]
      | false =>
          rw [hcont, if_neg (by decide)] at hread
          rwa [characters, characters, List.countP_singleton, hcont]
    · intro rounds behind
      have hnewline : newline b = b := by
        refine newline_of_ne ?_
        rintro rfl
        cases hend
      rw [List.count_singleton, if_neg (by simpa using hBS), hnewline]
      simp

/-- One key of a read. -/
theorem Building.key {b : Byte} {read later keys : Bytes}
    (h : Building platform front stdin done cur) (hkeys : keys = front ++ b :: later)
    (hvalid : Valid keys) (htext : BackspacesHaveText platform keys)
    (hconverts : Converts platform (characters (linesText done ++ cur)) (b :: read)) :
    ∃ done' cur', Building platform (front ++ [b]) stdin done' cur' ∧
      Builds platform done cur b done' cur' := by
  by_cases hBS : b = BS
  · subst hBS
    have hcur : cur ≠ [] := by
      obtain ⟨screen, hrun⟩ := h.typing.run
      exact htext front later hkeys _ hrun
    have hfront : Valid front := by
      rw [hkeys] at hvalid
      exact (hvalid.split BS_lt).1
    rw [Converts, if_pos rfl] at hconverts
    obtain ⟨cur', hbuilds⟩ := h.erase hfront hcur hconverts.1
    exact ⟨done, cur', hbuilds⟩
  · cases hend : isLineEnd b with
    | true =>
        have hfront : Valid front := by
          rw [hkeys] at hvalid
          exact (hvalid.split (lineEnd_lt hend)).1
        exact ⟨_, _, h.lineEnd hfront hend⟩
    | false => exact ⟨_, _, h.char hend hBS⟩

/-- The loop over a read, along with the keys of the read typed one by one: it builds up the
lines that they complete, and the line that they leave. -/
theorem Building.read {read later keys : Bytes} (h : Building platform front stdin done cur)
    (hkeys : keys = front ++ (read ++ later)) (hvalid : Valid keys)
    (htext : BackspacesHaveText platform keys)
    (hconverts : Converts platform (characters (linesText done ++ cur)) read) :
    ∃ done' cur', Building platform (front ++ read) stdin done' cur' ∧
      done'.length = done.length + lineEnds read ∧
      eraseAll platform (read.count BS) ((linesText done ++ cur) ++ read.map newline) =
        some (linesText done' ++ cur') := by
  induction read generalizing front done cur with
  | nil =>
      refine ⟨done, cur, ?_, rfl, ?_⟩
      · rwa [List.append_nil]
      · rw [List.map_nil, List.append_nil, eraseAll_none h.no_BS]
  | cons b read ih =>
      obtain ⟨done₁, cur₁, hbuilding, hbuilds⟩ := h.key hkeys hvalid htext hconverts
      have hsplit : keys = (front ++ [b]) ++ (read ++ later) := by simp [hkeys]
      obtain ⟨done', cur', hbuilding', hcount, hloop⟩ :=
        ih hbuilding hsplit (hbuilds.converts read hconverts)
      refine ⟨done', cur', ?_, ?_, ?_⟩
      · rwa [List.append_assoc] at hbuilding'
      · have hcons : lineEnds (b :: read) = lineEnds [b] + lineEnds read :=
          @List.countP_append _ isLineEnd [b] read
        rw [hcount, hbuilds.count, hcons, Nat.add_assoc]
      · have hcons : (b :: read).count BS = read.count BS + [b].count BS := by
          rw [← List.singleton_append, List.count_append, Nat.add_comm]
        rw [hcons, List.map_cons, hbuilds.loop, hloop]

/-- One call. -/
theorem inHandler_read {e : Editor} {read later keys : Bytes}
    (h : Typing platform front e.stdin e.lastline) (hkeys : keys = front ++ (read ++ later))
    (hvalid : Valid keys) (htext : BackspacesHaveText platform keys)
    (hconverts : Converts platform (characters e.lastline) read) :
    ∃ done cur, Building platform (front ++ read) e.stdin done cur ∧
      done.length = lineEnds read ∧
      inHandler platform e read = some (forward e (linesText done ++ cur)) := by
  have hstart : Building platform front e.stdin [] e.lastline := by
    constructor
    · rwa [linesText, List.flatMap_nil, List.append_nil]
    · exact fun _ hmem => absurd hmem List.not_mem_nil
  obtain ⟨done, cur, hbuilding, hcount, hloop⟩ := hstart.read hkeys hvalid htext hconverts
  refine ⟨done, cur, hbuilding, by simpa using hcount, ?_⟩
  have hrounds : (e.lastline ++ read.map newline).count BS = read.count BS := by
    rw [List.count_append, List.count_eq_zero.mpr h.no_BS, Nat.zero_add, count_newline]
  rw [inHandler, hrounds]
  change (eraseAll platform (read.count BS)
    ((linesText [] ++ e.lastline) ++ read.map newline)).map _ = _
  rw [hloop]
  rfl

/-- A call for a read with one line end at most is worth the calls for its keys. -/
theorem typing_read {e : Editor} {read later keys : Bytes}
    (h : Typing platform front e.stdin e.lastline) (hkeys : keys = front ++ (read ++ later))
    (hvalid : Valid keys) (htext : BackspacesHaveText platform keys)
    (hconverts : Converts platform (characters e.lastline) read) (hone : lineEnds read ≤ 1) :
    ∃ e', inHandler platform e read = some e' ∧
      Typing platform (front ++ read) e'.stdin e'.lastline := by
  obtain ⟨done, cur, hbuilding, hcount, hcall⟩ :=
    inHandler_read h hkeys hvalid htext hconverts
  refine ⟨_, hcall, ?_⟩
  match done with
  | [] =>
      have htyping := hbuilding.typing
      obtain ⟨hlastline, hstdin⟩ := forward_open e htyping.no_LF
      rw [linesText, List.flatMap_nil, List.append_nil] at htyping
      rw [linesText, List.flatMap_nil, List.nil_append, hlastline, hstdin]
      exact htyping
  | [line] =>
      have hline := hbuilding.plain line List.mem_cons_self
      have hjoined : linesText [line] ++ cur = line ++ LF :: cur := by simp [linesText]
      obtain ⟨hlastline, hstdin⟩ := @forward_line line cur e hline.no_LF
      rw [hjoined, hlastline, hstdin]
      simpa [linesText] using hbuilding.typing
  | _ :: _ :: _ =>
      rw [← hcount] at hone
      exact absurd hone (by simp)

/-- Behind a call for a read with more than one, a line end is left in the line. -/
theorem lineEnd_left {e : Editor} {read later keys : Bytes}
    (h : Typing platform front e.stdin e.lastline) (hkeys : keys = front ++ (read ++ later))
    (hvalid : Valid keys) (htext : BackspacesHaveText platform keys)
    (hconverts : Converts platform (characters e.lastline) read) (hmore : 1 < lineEnds read) :
    ∃ e', inHandler platform e read = some e' ∧ LF ∈ e'.lastline := by
  obtain ⟨done, cur, hbuilding, hcount, hcall⟩ :=
    inHandler_read h hkeys hvalid htext hconverts
  refine ⟨_, hcall, ?_⟩
  rw [← hcount] at hmore
  match done with
  | [] => exact absurd hmore (by simp)
  | [_] => exact absurd hmore (by simp)
  | line :: line' :: done =>
      have hline := hbuilding.plain line List.mem_cons_self
      have hjoined : linesText (line :: line' :: done) ++ cur =
          line ++ LF :: (linesText (line' :: done) ++ cur) := by
        simp [linesText]
      rw [hjoined, (forward_line e hline.no_LF).1]
      simp [linesText]

end Reads

/-! ## All reads -/

section Runs

variable {platform : Platform} {reads : List Bytes} {keys : Bytes}

/-- As long as no read has two line ends, the calls are worth the calls for the keys. -/
theorem typing_calls {calls later : List Bytes} (hreads : reads = calls ++ later)
    (hkeys : reads.flatten = keys) (hvalid : Valid keys)
    (htext : BackspacesHaveText platform keys) (hfits : Fits platform reads)
    (hone : ∀ read ∈ calls, lineEnds read ≤ 1) :
    ∃ e, handle platform calls = some e ∧
      Typing platform calls.flatten e.stdin e.lastline := by
  induction calls using List.reverseRecOn generalizing later with
  | nil => exact ⟨start, rfl, typing_nil⟩
  | append_singleton calls read ih =>
      have hsplit : reads = calls ++ read :: later := by simp [hreads]
      obtain ⟨e, hrun, htyping⟩ :=
        ih hsplit fun read' hmem => hone read' (List.mem_append_left _ hmem)
      have hplace : keys = calls.flatten ++ (read ++ later.flatten) := by
        rw [← hkeys, hsplit, List.flatten_append, List.flatten_cons]
      obtain ⟨e', hcall, htyping'⟩ := typing_read htyping hplace hvalid htext
        (hfits calls read later hsplit e hrun) (hone read (by simp))
      refine ⟨e', (handle_concat hrun read).trans hcall, ?_⟩
      rwa [List.flatten_append, List.flatten_singleton]

/-- Where it stays as if typed one by one, no read has two line ends. -/
theorem lineEnds_le_of_same {calls later : List Bytes} (hreads : reads = calls ++ later)
    (hkeys : reads.flatten = keys) (hvalid : Valid keys)
    (htext : BackspacesHaveText platform keys) (hfits : Fits platform reads)
    (hsame : SameAsTyped platform reads) : ∀ read ∈ calls, lineEnds read ≤ 1 := by
  induction calls using List.reverseRecOn generalizing later with
  | nil => exact fun _ hmem => absurd hmem List.not_mem_nil
  | append_singleton calls read ih =>
      have hsplit : reads = calls ++ read :: later := by simp [hreads]
      have hbefore := ih hsplit
      intro read' hmem
      rcases List.mem_append.mp hmem with hold | hnew
      · exact hbefore read' hold
      · rw [List.mem_singleton.mp hnew]
        by_contra hmore
        obtain ⟨e, hrun, htyping⟩ := typing_calls hsplit hkeys hvalid htext hfits hbefore
        have hplace : keys = calls.flatten ++ (read ++ later.flatten) := by
          rw [← hkeys, hsplit, List.flatten_append, List.flatten_cons]
        obtain ⟨e', hcall, hleft⟩ := lineEnd_left htyping hplace hvalid htext
          (hfits calls read later hsplit e hrun) (Nat.lt_of_not_le hmore)
        obtain ⟨e'', -, hrun', -, -, -, hLF⟩ := hsame (calls ++ [read]) ⟨later, hreads.symm⟩
        rw [handle_concat hrun read, hcall, Option.some.injEq] at hrun'
        exact hLF (hrun' ▸ hleft)

end Runs

/-- However the keys of a text are divided into reads, the line editor does what it does when
they are typed one by one exactly if no read has two line ends. -/
theorem same_as_typed_iff (platform : Platform) (text : List Char) (reads : List Bytes)
    (hreads : reads.flatten = encode text)
    (htext : BackspacesHaveText platform (encode text)) (hfits : Fits platform reads) :
    SameAsTyped platform reads ↔ ∀ read ∈ reads, lineEnds read ≤ 1 := by
  have hvalid : Valid (encode text) := ⟨text, rfl⟩
  constructor
  · exact lineEnds_le_of_same (List.append_nil reads).symm hreads hvalid htext hfits
  · rintro hone calls ⟨later, hlater⟩
    have hcalls : ∀ read ∈ calls, lineEnds read ≤ 1 :=
      fun read hmem => hone read (hlater ▸ List.mem_append_left later hmem)
    obtain ⟨e, hrun, htyping⟩ :=
      typing_calls hlater.symm hreads hvalid htext hfits hcalls
    obtain ⟨screen, htyped⟩ := htyping.run
    exact ⟨e, ⟨e.lastline, e.stdin, screen⟩, hrun, htyped, rfl, rfl, htyping.no_LF⟩

/-- `a`, `b`, a backspace and Return, the last three in one read. -/
theorem same_as_typed_iff_ab : SameAsTyped .posix [[97], [98, BS, CR]] := by
  refine (same_as_typed_iff .posix ['a', 'b', Char.ofNat 8, Char.ofNat 13] [[97], [98, BS, CR]]
    (by decide) ?_ ?_).mpr (by decide)
  · have hbytes : encode ['a', 'b', Char.ofNat 8, Char.ofNat 13] = [97, 98, BS, CR] := by decide
    intro front behind hkeys e he
    rw [hbytes] at hkeys
    have hfront : front = [97, 98] := by
      match front with
      | [] => cases hkeys
      | [_] => cases hkeys
      | [_, _] =>
          cases hkeys
          rfl
      | [_, _, _] => cases hkeys
      | _ :: _ :: _ :: _ :: _ => simp at hkeys
    have hkept : (handle .posix (oneByOne [97, 98])).map Editor.lastline = some [97, 98] := by
      decide +kernel
    rw [hfront] at he
    rw [he, Option.map_some, Option.some.injEq] at hkept
    rw [hkept]
    exact List.cons_ne_nil _ _
  · intro before read after hreads e he
    match before with
    | [] =>
        cases hreads
        simp [Converts, BS]
    | [_] =>
        cases hreads
        have hkept : (handle .posix [[97]]).map Editor.lastline = some [97] := by decide +kernel
        rw [he, Option.map_some, Option.some.injEq] at hkept
        rw [hkept]
        simp [Converts, BS, Platform.fits, characters, isContinuation, CR]
    | _ :: _ :: _ => simp at hreads

/-- Two lines that are pasted: the second one is kept back. -/
theorem not_same_as_typed_paste : ¬ SameAsTyped .posix [ascii "a\rb\r"] := by
  intro hsame
  obtain ⟨e, -, hrun, -, -, -, hLF⟩ := hsame [ascii "a\rb\r"] List.prefix_rfl
  have hkept : (handle .posix [ascii "a\rb\r"]).map Editor.lastline = some [98, LF] := by
    decide +kernel
  rw [hrun, Option.map_some, Option.some.injEq] at hkept
  rw [hkept] at hLF
  exact hLF (by decide)

end BlackCircle.Console.LineEditor
