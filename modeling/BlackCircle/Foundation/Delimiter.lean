import Mathlib.Data.List.Infix

/-!
# First occurrences of a delimiter

A word read up to a delimiter is described by where the delimiter first ends.
`FirstEnds mark word` says that `mark` ends `word` and no proper prefix of
`word` contains it; the buffer of a delimited read then holds the whole word
exactly when it contains the mark at all, whatever stands behind the word.
-/

namespace BlackCircle.Foundation.Delimiter

variable {α : Type}

/-- `mark` closes `word`, and `word` is the shortest prefix of itself that contains it. -/
structure FirstEnds (mark word : List α) : Prop where
  closes : mark <:+ word
  first : ∀ part, part <+: word → mark <:+: part → part = word

namespace FirstEnds

variable {mark word : List α}

/-- A buffer that is being filled with `word` and what follows it contains the
mark exactly from the moment the whole word has arrived. -/
theorem infix_iff {rest buffer : List α} (h : FirstEnds mark word)
    (hbuffer : buffer <+: word ++ rest) : mark <:+: buffer ↔ word <+: buffer := by
  constructor
  · intro hmark
    by_cases hlen : buffer.length ≤ word.length
    · have hpart : buffer <+: word :=
        List.prefix_of_prefix_length_le hbuffer (List.prefix_append word rest) hlen
      rw [h.first buffer hpart hmark]
    · exact List.prefix_of_prefix_length_le (List.prefix_append word rest) hbuffer
        (by omega)
  · rintro ⟨behind, rfl⟩
    exact h.closes.isInfix.trans (List.prefix_append word behind).isInfix

/-- A buffer that contains the mark is the word and a part of what follows it. -/
theorem split_of_infix {rest buffer unread : List α} (h : FirstEnds mark word)
    (hstream : buffer ++ unread = word ++ rest) (hmark : mark <:+: buffer) :
    ∃ behind, buffer = word ++ behind ∧ behind ++ unread = rest := by
  have hprefix : buffer <+: word ++ rest := ⟨unread, hstream⟩
  obtain ⟨behind, rfl⟩ := (h.infix_iff hprefix).mp hmark
  refine ⟨behind, rfl, ?_⟩
  rw [List.append_assoc] at hstream
  exact List.append_cancel_left hstream

/-- A buffer that is still short of the word does not contain the mark. -/
theorem not_infix_of_short {buffer rest : List α} (h : FirstEnds mark word)
    (hbuffer : buffer <+: word ++ rest) (hshort : buffer.length < word.length) :
    ¬ mark <:+: buffer := by
  intro hmark
  have hword := ((h.infix_iff hbuffer).mp hmark).length_le
  omega

end FirstEnds

/-- A block without the first token of the mark lies before every occurrence of it. -/
theorem infix_skip {first : α} {more block rest part : List α} (hfree : first ∉ block)
    (hpart : part <+: block ++ rest) (hmark : first :: more <:+: part) :
    ∃ tail, part = block ++ tail ∧ tail <+: rest ∧ first :: more <:+: tail := by
  induction block generalizing part with
  | nil => exact ⟨part, rfl, hpart, hmark⟩
  | cons token block ih =>
      cases part with
      | nil => simp at hmark
      | cons head part =>
          rw [List.cons_append, List.cons_prefix_cons] at hpart
          obtain ⟨rfl, hpart⟩ := hpart
          rcases List.infix_cons_iff.mp hmark with hhere | hlater
          · rw [List.cons_prefix_cons] at hhere
            exact absurd (hhere.1 ▸ List.mem_cons_self) hfree
          · obtain ⟨tail, rfl, htail, hmark⟩ :=
              ih (fun hmem => hfree (List.mem_cons_of_mem _ hmem)) hpart hlater
            exact ⟨tail, rfl, htail, hmark⟩

/-- A prefix of the mark that contains the mark is the mark. -/
theorem prefix_infix_self {mark part : List α} (hpart : part <+: mark) (hmark : mark <:+: part) :
    part = mark :=
  hpart.eq_of_length_le hmark.length_le

/-- A word without a mark that stands in front of the mark stands before it. -/
theorem prefix_of_notMem {word front behind : List α} {mark : α} (hfree : mark ∉ word)
    (h : word <+: front ++ mark :: behind) : word <+: front := by
  rcases List.prefix_or_prefix_of_prefix h (List.prefix_append _ _) with hword | hfront
  · exact hword
  · obtain ⟨more, rfl⟩ := hfront
    rw [List.prefix_append_right_inj] at h
    cases more with
    | nil => rw [List.append_nil]
    | cons b more =>
        have hfirst := (List.cons_prefix_cons.mp h).1
        exact absurd (List.mem_append_right front (hfirst ▸ List.mem_cons_self)) hfree

/-- A mark behind a block without its first token ends where it stands. -/
theorem firstEnds_of_notMem {first : α} {more block : List α} (hfree : first ∉ block) :
    FirstEnds (first :: more) (block ++ first :: more) where
  closes := List.suffix_append block _
  first := by
    intro part hpart hmark
    obtain ⟨tail, rfl, htail, hmark⟩ := infix_skip hfree hpart hmark
    rw [prefix_infix_self htail hmark]

/-! ## Joining and cutting -/

/-- The end of a joiner may be given to the item behind it. -/
theorem intercalate_append (joiner gap first : List α) (others : List (List α)) :
    (joiner ++ gap).intercalate (first :: others) =
      joiner.intercalate (first :: others.map fun item => gap ++ item) := by
  have hfront : ∀ (item : List α) (items : List (List α)),
      joiner.intercalate ((gap ++ item) :: items) = gap ++ joiner.intercalate (item :: items) := by
    intro item items
    cases items with
    | nil => simp
    | cons next items =>
        rw [List.intercalate_cons_cons, List.intercalate_cons_cons]
        simp only [List.append_assoc]
  induction others generalizing first with
  | nil => simp
  | cons next others ih =>
      rw [List.map_cons, List.intercalate_cons_cons, List.intercalate_cons_cons, ih, hfront]
      simp only [List.append_assoc]

theorem mem_intercalate {joiner : List α} {items : List (List α)} {a : α}
    (h : a ∈ joiner.intercalate items) : a ∈ joiner ∨ ∃ item ∈ items, a ∈ item := by
  induction items with
  | nil => simp at h
  | cons item items ih =>
      cases items with
      | nil => exact Or.inr ⟨item, List.mem_cons_self, by simpa using h⟩
      | cons next items =>
          rw [List.intercalate_cons_cons, List.mem_append, List.mem_append] at h
          rcases h with (hitem | hjoiner) | hrest
          · exact Or.inr ⟨item, List.mem_cons_self, hitem⟩
          · exact Or.inl hjoiner
          · exact (ih hrest).imp_right fun ⟨other, hother, ha⟩ =>
              ⟨other, List.mem_cons_of_mem _ hother, ha⟩

section Cut

variable [DecidableEq α]

/-- A text before and behind the first occurrence of a token. -/
def cutAt (token : α) (text : List α) : List α × List α :=
  (text.takeWhile (· ≠ token), (text.dropWhile (· ≠ token)).drop 1)

theorem cutAt_append {token : α} {before : List α} (hfree : token ∉ before) (behind : List α) :
    cutAt token (before ++ token :: behind) = (before, behind) := by
  have hbefore : ∀ a ∈ before, decide (a ≠ token) = true := by
    intro a hmem
    simpa using ne_of_mem_of_not_mem hmem hfree
  rw [cutAt, List.takeWhile_append_of_pos hbefore, List.dropWhile_append_of_pos hbefore]
  simp

theorem cutAt_of_notMem {token : α} {text : List α} (hfree : token ∉ text) :
    cutAt token text = (text, []) := by
  have htext : ∀ a ∈ text, decide (a ≠ token) = true := by
    intro a hmem
    simpa using ne_of_mem_of_not_mem hmem hfree
  have happend := @List.takeWhile_append_of_pos _ _ text [] htext
  have hdrop := @List.dropWhile_append_of_pos _ _ text [] htext
  rw [List.append_nil] at happend hdrop
  rw [cutAt, happend, hdrop]
  simp

end Cut

section DoubledMark

variable {a b : α}

/-- A line break followed by something other than a line break does not end the paragraph. -/
theorem FirstEnds.cons_line {line rest : List α} (hab : a ≠ b) (hfree : a ∉ line)
    (hnext : ∀ tail, rest ≠ a :: tail) (h : FirstEnds [a, b, a, b] rest) :
    FirstEnds [a, b, a, b] (line ++ a :: b :: rest) where
  closes := h.closes.trans ⟨line ++ [a, b], by simp⟩
  first := by
    intro part hpart hmark
    have hbreak : a ∉ [b] := by simpa using hab
    obtain ⟨tail, rfl, htail, hmark⟩ := infix_skip hfree hpart hmark
    obtain ⟨later, rfl, hlater⟩ : ∃ later, tail = a :: b :: later ∧ later <+: rest ∧
        [a, b, a, b] <:+: later := by
      cases tail with
      | nil => simp at hmark
      | cons head tail =>
          rw [List.cons_prefix_cons] at htail
          obtain ⟨rfl, htail⟩ := htail
          rcases List.infix_cons_iff.mp hmark with hhere | hmark
          · -- the mark at this break would need a second break right behind it
            exfalso
            rw [List.cons_prefix_cons] at hhere
            obtain ⟨behind, hbehind⟩ := hhere.2.trans htail
            rw [List.cons_append, List.cons.injEq] at hbehind
            exact hnext _ hbehind.2.symm
          · obtain ⟨later, rfl, hlater, hmark⟩ := infix_skip hbreak htail hmark
            exact ⟨later, rfl, hlater, hmark⟩
    rw [h.first later hlater.1 hlater.2]

/-- Lines that are not empty, each closed by a line break, and an empty line behind them: the
first empty line is the last one. -/
theorem firstEnds_lines {line : List α} (hab : a ≠ b) (hfree : a ∉ line) (lines : List (List α))
    (hlines : ∀ l ∈ lines, a ∉ l ∧ l ≠ []) :
    FirstEnds [a, b, a, b] (line ++ a :: b :: (lines.flatMap (· ++ [a, b]) ++ [a, b])) := by
  induction lines generalizing line with
  | nil => exact firstEnds_of_notMem hfree
  | cons next lines ih =>
      obtain ⟨hnext, hnonempty⟩ := hlines next List.mem_cons_self
      have hrest := ih hnext fun l hl => hlines l (List.mem_cons_of_mem _ hl)
      have hjoined : (next :: lines).flatMap (· ++ [a, b]) ++ [a, b] =
          next ++ a :: b :: (lines.flatMap (· ++ [a, b]) ++ [a, b]) := by
        simp
      rw [hjoined]
      refine hrest.cons_line hab hfree ?_
      rintro tail htail
      cases next with
      | nil => exact hnonempty rfl
      | cons first more =>
          rw [List.cons_append, List.cons.injEq] at htail
          exact hnext (htail.1 ▸ List.mem_cons_self)

end DoubledMark

end BlackCircle.Foundation.Delimiter
