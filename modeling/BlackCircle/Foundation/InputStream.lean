import Mathlib.Data.List.TakeWhile

/-!
# Formatted input

A stream is what is left to read, and whether it is still good: it is not once
an extraction has looked behind the end.  `sentry` skips white space, `extractWord`
is the extraction of a word, and `getline` that of a line, whose newline is taken
but not given out.  The tokens are arbitrary; what counts as space is a parameter.
-/

namespace BlackCircle.Foundation.InputStream

variable {α : Type}

/-! ## Words and what stops them -/

/-- The list is empty, or starts with a token of the kind. -/
def Starts (kind : α → Bool) (l : List α) : Prop := ∀ a ∈ l.head?, kind a = true

theorem Starts.append {kind : α → Bool} {l : List α} (h : Starts kind l) (hne : l ≠ [])
    (more : List α) : Starts kind (l ++ more) := by
  obtain ⟨a, l, rfl⟩ := List.exists_cons_of_ne_nil hne
  rintro _ ⟨⟩
  exact h a rfl

theorem starts_dropWhile (kind : α → Bool) (l : List α) :
    Starts (fun a => !kind a) (l.dropWhile kind) := by
  intro a ha
  have hhead := List.head?_dropWhile_not kind l
  rw [Option.mem_def.mp ha] at hhead
  simpa using hhead

section Span

variable {kind : α → Bool} {word rest : List α}

theorem takeWhile_append_stop (hword : ∀ a ∈ word, kind a = true)
    (hrest : Starts (fun a => !kind a) rest) : (word ++ rest).takeWhile kind = word := by
  rw [List.takeWhile_append_of_pos hword]
  cases rest with
  | nil => rw [List.takeWhile_nil, List.append_nil]
  | cons a rest =>
      have ha : kind a = false := by simpa using hrest a rfl
      rw [List.takeWhile_cons_of_neg (by simp [ha]), List.append_nil]

theorem dropWhile_append_stop (hword : ∀ a ∈ word, kind a = true)
    (hrest : Starts (fun a => !kind a) rest) : (word ++ rest).dropWhile kind = rest := by
  rw [List.dropWhile_append_of_pos hword]
  cases rest with
  | nil => rfl
  | cons a rest =>
      have ha : kind a = false := by simpa using hrest a rfl
      rw [List.dropWhile_cons_of_neg (by simp [ha])]

/-- A word is determined by the text and by what stops it. -/
theorem word_unique {word' rest' : List α} (hword : ∀ a ∈ word, kind a = true)
    (hrest : Starts (fun a => !kind a) rest) (hword' : ∀ a ∈ word', kind a = true)
    (hrest' : Starts (fun a => !kind a) rest') (heq : word ++ rest = word' ++ rest') :
    word = word' ∧ rest = rest' := by
  constructor
  · rw [← takeWhile_append_stop hword hrest, heq, takeWhile_append_stop hword' hrest']
  · rw [← dropWhile_append_stop hword hrest, heq, dropWhile_append_stop hword' hrest']

/-- Dropping stops inside the first part of a text that it does not drop as a whole. -/
theorem dropWhile_append_of_ne_nil (h : word.dropWhile kind ≠ []) :
    (word ++ rest).dropWhile kind = word.dropWhile kind ++ rest := by
  rw [List.dropWhile_append, if_neg (by simpa using h)]

end Span

section Stop

variable [DecidableEq α] {stop : α} {word : List α}

/-- A word without the token that stops it. -/
theorem ne_of_notMem (h : stop ∉ word) : ∀ a ∈ word, decide (a ≠ stop) = true := by
  intro a ha
  refine decide_eq_true ?_
  rintro rfl
  exact h ha

theorem starts_self (stop : α) (rest : List α) :
    Starts (fun a => !decide (a ≠ stop)) (stop :: rest) := by
  rintro _ ⟨⟩
  simp

end Stop

/-! ## Streams -/

/-- What is left to read, and whether nothing has looked behind the end yet. -/
structure Stream (α : Type) where
  rest : List α
  good : Bool
  deriving DecidableEq, Repr

/-- An extraction has stopped in front of `rest`. -/
def Stream.stopped (rest : List α) : Stream α := ⟨rest, !rest.isEmpty⟩

variable (space : α → Bool)

/-- The constructor of `istream::sentry`. -/
def sentry (is : Stream α) : Stream α :=
  if is.good then .stopped (is.rest.dropWhile space) else is

/-- `operator>>` for a string. -/
def extractWord (is : Stream α) : List α × Stream α :=
  let is := sentry space is
  if is.good then
    (is.rest.takeWhile fun a => !space a, .stopped (is.rest.dropWhile fun a => !space a))
  else ([], is)

/-- `getline`. -/
def getline [DecidableEq α] (newline : α) (is : Stream α) : List α × Stream α :=
  if is.good then
    (is.rest.takeWhile (· ≠ newline),
      match is.rest.dropWhile (· ≠ newline) with
      | [] => ⟨[], false⟩
      | _ :: rest => ⟨rest, true⟩)
  else ([], is)

variable {space} {gap word rest : List α}

theorem sentry_blank (hgap : ∀ a ∈ gap, space a = true) :
    sentry space ⟨gap, true⟩ = ⟨[], false⟩ := by
  rw [sentry, if_pos rfl, List.dropWhile_eq_nil_iff.mpr hgap]
  rfl

theorem sentry_solid {a : α} (hgap : ∀ a ∈ gap, space a = true) (ha : space a = false) :
    sentry space ⟨gap ++ a :: rest, true⟩ = ⟨a :: rest, true⟩ := by
  have hstop : Starts (fun a => !space a) (a :: rest) := by
    rintro _ ⟨⟩
    simp [ha]
  rw [sentry, if_pos rfl, dropWhile_append_stop hgap hstop]
  rfl

/-- Nothing but white space: no word, and the end has been reached. -/
theorem extractWord_blank (hgap : ∀ a ∈ gap, space a = true) :
    extractWord space ⟨gap, true⟩ = ([], ⟨[], false⟩) := by
  rw [extractWord, sentry_blank hgap]
  rfl

theorem extractWord_solid (hgap : ∀ a ∈ gap, space a = true)
    (hword : ∀ a ∈ word, space a = false) (hne : word ≠ []) (hrest : Starts space rest) :
    extractWord space ⟨gap ++ (word ++ rest), true⟩ = (word, .stopped rest) := by
  obtain ⟨a, word, rfl⟩ := List.exists_cons_of_ne_nil hne
  have hsolid : ∀ b ∈ a :: word, (!space b) = true := by
    intro b hb
    simp [hword b hb]
  have hstop : Starts (fun b => !!space b) rest := by simpa only [Bool.not_not] using hrest
  rw [extractWord, List.cons_append, sentry_solid hgap (hword a List.mem_cons_self),
    ← List.cons_append]
  dsimp only
  rw [if_pos rfl, takeWhile_append_stop hsolid hstop, dropWhile_append_stop hsolid hstop]

end BlackCircle.Foundation.InputStream
