import Mathlib.Data.List.Basic

/-!
# Terminals

A terminal whose rows are long enough for whatever is printed on them.  A token
returns the cursor to the first column, or moves it to the next row, or is shown
in some cells from the cursor on, over what was there.

Rows are compared by what they show: blanks behind it do not count.
-/

namespace BlackCircle.Foundation.Terminal

/-- How tokens are shown. -/
structure Display (τ γ : Type) where
  carriageReturn : τ
  lineFeed : τ
  blank : γ
  cells : τ → List γ
  apart : carriageReturn ≠ lineFeed

/-- The rows above the cursor, the row of the cursor, and its column. -/
structure Screen (γ : Type) where
  above : List (List γ)
  row : List γ
  column : Nat
  deriving DecidableEq, Repr

variable {τ γ : Type}

def fresh : Screen γ := ⟨[], [], 0⟩

/-- Cells written from a column on; the row is filled up to the column. -/
def overwrite (blank : γ) (row : List γ) (column : Nat) (cells : List γ) : List γ :=
  (row ++ List.replicate (column - row.length) blank).take column ++
    (cells ++ row.drop (column + cells.length))

section Print

variable [DecidableEq τ] (d : Display τ γ)

/-- One token. -/
def put (t : Screen γ) (token : τ) : Screen γ :=
  if token = d.carriageReturn then { t with column := 0 }
  else if token = d.lineFeed then ⟨t.above ++ [t.row], [], t.column⟩
  else
    { t with
      row := overwrite d.blank t.row t.column (d.cells token)
      column := t.column + (d.cells token).length }

def print (t : Screen γ) (text : List τ) : Screen γ := text.foldl (put d) t

/-- A text that neither returns nor ends a row. -/
def Inline (text : List τ) : Prop := d.carriageReturn ∉ text ∧ d.lineFeed ∉ text

end Print

/-- Blanks may follow what a row shows. -/
def Shows (blank : γ) (shown row : List γ) : Prop :=
  ∃ count, row = shown ++ List.replicate count blank

/-! ## Overwriting -/

section Overwrite

variable {blank : γ} {row shown cells more : List γ} {column : Nat}

theorem overwrite_nil (h : column ≤ row.length) : overwrite blank row column [] = row := by
  rw [overwrite, Nat.sub_eq_zero_of_le h, List.replicate_zero, List.append_nil, List.nil_append,
    List.length_nil, Nat.add_zero, List.take_append_drop]

/-- From the first column on, nothing is filled up. -/
theorem overwrite_front (row cells : List γ) :
    overwrite blank row 0 cells = cells ++ row.drop cells.length := by
  rw [overwrite, List.take_zero, List.nil_append, Nat.zero_add]

theorem length_le_overwrite (row cells : List γ) (column : Nat) :
    column + cells.length ≤ (overwrite blank row column cells).length := by
  rw [overwrite, List.length_append, List.length_take, List.length_append, List.length_append,
    List.length_replicate]
  omega

/-- Cells behind cells are written behind them. -/
theorem overwrite_append (row cells more : List γ) (column : Nat) :
    overwrite blank (overwrite blank row column cells) (column + cells.length) more =
      overwrite blank row column (cells ++ more) := by
  have hlength := @length_le_overwrite γ blank row cells column
  generalize hfilled : (row ++ List.replicate (column - row.length) blank).take column = filled
  have hcolumn : filled.length = column := by
    rw [← hfilled, List.length_take, List.length_append, List.length_replicate]
    omega
  have hwritten : overwrite blank row column cells =
      (filled ++ cells) ++ row.drop (column + cells.length) := by
    rw [overwrite, hfilled, List.append_assoc]
  have htake : (overwrite blank row column cells).take (column + cells.length) =
      filled ++ cells := by
    rw [hwritten]
    exact List.take_left' (by rw [List.length_append, hcolumn])
  have hdrop : (overwrite blank row column cells).drop (column + cells.length + more.length) =
      row.drop (column + (cells ++ more).length) := by
    rw [← List.drop_drop, hwritten, List.drop_left' (by rw [List.length_append, hcolumn]),
      List.drop_drop, List.length_append, Nat.add_assoc]
  conv_lhs =>
    rw [overwrite, Nat.sub_eq_zero_of_le hlength, List.replicate_zero, List.append_nil, htake,
      hdrop]
  rw [overwrite, hfilled, List.append_assoc, List.append_assoc]

/-- Written over from the front, a row shows the cells, if there are enough of them and of blanks
behind them to hide what it has shown. -/
theorem Shows.overwrite {spaces : Nat} (h : Shows blank shown row)
    (hhidden : shown.length ≤ cells.length + spaces) :
    Shows blank cells (overwrite blank row 0 (cells ++ List.replicate spaces blank)) := by
  obtain ⟨count, rfl⟩ := h
  have hlength : (cells ++ List.replicate spaces blank).length = cells.length + spaces := by
    rw [List.length_append, List.length_replicate]
  refine ⟨spaces + (count - (cells.length + spaces - shown.length)), ?_⟩
  rw [overwrite_front, hlength, List.drop_append, List.drop_eq_nil_of_le hhidden, List.nil_append,
    List.drop_replicate, List.append_assoc, List.replicate_append_replicate]

theorem shows_self (shown : List γ) : Shows blank shown shown :=
  ⟨0, (List.append_nil shown).symm⟩

end Overwrite

/-! ## Printing -/

section Printing

variable [DecidableEq τ] {d : Display τ γ} {text more : List τ} {t : Screen γ}

theorem print_append (t : Screen γ) (text more : List τ) :
    print d t (text ++ more) = print d (print d t text) more :=
  List.foldl_append

theorem print_carriageReturn (t : Screen γ) :
    print d t [d.carriageReturn] = { t with column := 0 } :=
  if_pos rfl

theorem print_lineFeed (t : Screen γ) :
    print d t [d.lineFeed] = ⟨t.above ++ [t.row], [], t.column⟩ := by
  change put d t d.lineFeed = _
  rw [put, if_neg d.apart.symm, if_pos rfl]

theorem put_inline {token : τ} (hreturn : token ≠ d.carriageReturn) (hfeed : token ≠ d.lineFeed) :
    put d t token = { t with
      row := overwrite d.blank t.row t.column (d.cells token)
      column := t.column + (d.cells token).length } := by
  rw [put, if_neg hreturn, if_neg hfeed]

/-- A text within a row is written as its cells; the row reaches up to the cursor. -/
theorem print_inline (h : Inline d text) (hcolumn : t.column ≤ t.row.length) :
    print d t text = { t with
      row := overwrite d.blank t.row t.column (text.flatMap d.cells)
      column := t.column + (text.flatMap d.cells).length } := by
  induction text generalizing t with
  | nil =>
      rw [List.flatMap_nil, overwrite_nil hcolumn]
      rfl
  | cons token text ih =>
      obtain ⟨hreturn, hfeed⟩ := h
      rw [List.mem_cons, not_or] at hreturn hfeed
      change print d (put d t token) text = _
      rw [put_inline (Ne.symm hreturn.1) (Ne.symm hfeed.1)]
      rw [ih ⟨hreturn.2, hfeed.2⟩ (length_le_overwrite _ _ _), List.flatMap_cons]
      simp only [overwrite_append, List.length_append, Nat.add_assoc]

/-- A text is written over the row from its first column. -/
theorem print_over (h : Inline d text) (t : Screen γ) :
    print d t (d.carriageReturn :: text) = { t with
      row := overwrite d.blank t.row 0 (text.flatMap d.cells)
      column := (text.flatMap d.cells).length } := by
  have hstart := @print_append τ γ _ d t [d.carriageReturn] text
  rw [print_carriageReturn] at hstart
  change print d t ([d.carriageReturn] ++ text) = _
  rw [hstart, print_inline h (Nat.zero_le _), Nat.zero_add]

/-- Behind a text and a line end, the text stays above. -/
theorem print_line (h : Inline d text) (t : Screen γ) :
    print d t (d.carriageReturn :: (text ++ [d.carriageReturn, d.lineFeed])) =
      ⟨t.above ++ [overwrite d.blank t.row 0 (text.flatMap d.cells)], [], 0⟩ := by
  rw [← List.cons_append, print_append, print_over h]
  change print d _ ([d.carriageReturn] ++ [d.lineFeed]) = _
  rw [print_append, print_carriageReturn, print_lineFeed]

/-- On an empty row there is nothing to be written over. -/
theorem print_empty (h : Inline d text) (above : List (List γ)) :
    print d ⟨above, [], 0⟩ text =
      ⟨above, text.flatMap d.cells, (text.flatMap d.cells).length⟩ := by
  have hprint := @print_inline τ γ _ d text ⟨above, [], 0⟩ h (Nat.le_refl 0)
  rw [hprint, overwrite_front, List.drop_nil, List.append_nil, Nat.zero_add]

end Printing

end BlackCircle.Foundation.Terminal
