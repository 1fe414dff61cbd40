import Mathlib.Data.List.Basic
import Mathlib.InformationTheory.Coding.UniquelyDecodable

/-!
# Stateless conversions in slices

A conversion takes characters off the front of its input and writes each of them
in another encoding, as long as there is room.  A call stops in front of the
first character that it cannot take, be it because none begins there, because it
cannot be written, or because there is no room for it.  `Reads` is what a reader
takes altogether that drops one token there and makes the next call with a fresh
slice of room.

Where only the first token of what a character is written as can begin one, what is
written can be read back.
-/

namespace BlackCircle.Foundation.Transcoding

open InformationTheory (UniquelyDecodable)

/-- The two sides of a conversion: which character the input begins with, and what a character
is written as. -/
structure Coding (α β κ : Type) where
  head : List α → Option (κ × List α)
  write : κ → Option (List β)
  behind : ∀ {input : List α} {code : κ} {rest : List α}, head input = some (code, rest) →
    ∃ front, front ≠ [] ∧ input = front ++ rest

namespace Coding

variable {α β κ : Type} (coding : Coding α β κ)

/-- The first character of the input, if it can be taken: itself, what it is written as, and the
input behind it. -/
def next (room : Nat) (input : List α) : Option (κ × List β × List α) :=
  (coding.head input).bind fun first =>
    ((coding.write first.1).filter fun seq => decide (seq.length ≤ room)).map fun seq =>
      (first.1, seq, first.2)

/-- What a list of characters is written as. -/
def written (codes : List κ) : List β := codes.flatMap fun code => (coding.write code).getD []

@[simp]
theorem written_nil : coding.written [] = [] := rfl

variable {coding} {room slice : Nat} {input left rest : List α} {seq out : List β} {code : κ}
  {codes : List κ} {a : α}

theorem next_eq_some :
    coding.next room input = some (code, seq, rest) ↔
      coding.head input = some (code, rest) ∧ coding.write code = some seq ∧
        seq.length ≤ room := by
  simp only [next, Option.bind_eq_some_iff, Option.map_eq_some_iff, Option.filter_eq_some_iff,
    decide_eq_true_eq, Prod.exists, Prod.mk.injEq]
  constructor
  · rintro ⟨found, behind, hhead, text, ⟨hwrite, hroom⟩, rfl, rfl, rfl⟩
    exact ⟨hhead, hwrite, hroom⟩
  · rintro ⟨hhead, hwrite, hroom⟩
    exact ⟨code, rest, hhead, seq, ⟨hwrite, hroom⟩, rfl, rfl, rfl⟩

theorem next_of_head (hhead : coding.head input = some (code, rest)) (room : Nat) :
    coding.next room input =
      ((coding.write code).filter fun seq => decide (seq.length ≤ room)).map fun seq =>
        (code, seq, rest) := by
  rw [next, hhead]
  rfl

/-- A character that cannot be written. -/
theorem next_of_write_none (hhead : coding.head input = some (code, rest))
    (hwrite : coding.write code = none) (room : Nat) : coding.next room input = none := by
  rw [next_of_head hhead, hwrite]
  rfl

/-- A character for which there is no room. -/
theorem next_of_no_room (hhead : coding.head input = some (code, rest))
    (hwrite : coding.write code = some seq) (hroom : ¬seq.length ≤ room) :
    coding.next room input = none := by
  rw [next_of_head hhead, hwrite, Option.filter_some, if_neg (by simpa using hroom)]
  rfl

/-- A character that is taken is not empty, and stands in front of what is left. -/
theorem behind_next (h : coding.next room input = some (code, seq, rest)) :
    ∃ front, front ≠ [] ∧ input = front ++ rest :=
  coding.behind (next_eq_some.mp h).1

theorem next_nil : coding.next room [] = none := by
  cases hnext : coding.next room [] with
  | none => rfl
  | some found =>
      obtain ⟨front, hfront, hinput⟩ := behind_next hnext
      exact absurd (List.append_eq_nil_iff.mp hinput.symm).1 hfront

theorem written_cons (hwrite : coding.write code = some seq) (codes : List κ) :
    coding.written (code :: codes) = seq ++ coding.written codes := by
  rw [written, List.flatMap_cons, hwrite]
  rfl

variable (coding) in
/-- One call with so much room, what it writes, and the input that it leaves. -/
inductive Call : Nat → List α → List β → List α → Prop where
  | done (room : Nat) : Call room [] [] []
  | stuck {room : Nat} {a : α} {input : List α} (h : coding.next room (a :: input) = none) :
      Call room (a :: input) [] (a :: input)
  | take {room : Nat} {input rest left : List α} {code : κ} {seq out : List β}
      (h : coding.next room input = some (code, seq, rest))
      (more : Call (room - seq.length) rest out left) : Call room input (seq ++ out) left

variable (coding) in
/-- The characters that are taken when every call has `slice` room, and a token is dropped
between two calls; the first call has `room`. -/
inductive Reads (slice : Nat) : Nat → List α → List κ → Prop where
  | done (room : Nat) : Reads slice room [] []
  | drop {room : Nat} {a : α} {input : List α} {codes : List κ}
      (h : coding.next room (a :: input) = none) (more : Reads slice slice input codes) :
      Reads slice room (a :: input) codes
  | take {room : Nat} {input rest : List α} {code : κ} {seq : List β} {codes : List κ}
      (h : coding.next room input = some (code, seq, rest))
      (more : Reads slice (room - seq.length) rest codes) : Reads slice room input (code :: codes)

/-- A call leaves an end of its input. -/
theorem Call.suffix (h : coding.Call room input out left) : left <:+ input := by
  induction h with
  | done room => exact List.suffix_rfl
  | stuck h => exact List.suffix_rfl
  | take h more ih =>
      obtain ⟨front, -, rfl⟩ := behind_next h
      exact ih.trans (List.suffix_append front _)

/-- A call writes whole characters. -/
theorem Call.exists_written (h : coding.Call room input out left) :
    ∃ codes, coding.written codes = out := by
  induction h with
  | done room => exact ⟨[], rfl⟩
  | stuck h => exact ⟨[], rfl⟩
  | take h more ih =>
      obtain ⟨codes, hout⟩ := ih
      obtain ⟨-, hwrite, -⟩ := next_eq_some.mp h
      exact ⟨_, by rw [written_cons hwrite, hout]⟩

/-- A call that takes everything. -/
theorem Call.reads (h : coding.Call room input out []) (slice : Nat) :
    ∃ codes, coding.Reads slice room input codes ∧ coding.written codes = out := by
  generalize hleft : ([] : List α) = left at h
  induction h with
  | done room => exact ⟨[], .done room, rfl⟩
  | stuck h => cases hleft
  | take h more ih =>
      obtain ⟨codes, hreads, hout⟩ := ih hleft
      obtain ⟨-, hwrite, -⟩ := next_eq_some.mp h
      exact ⟨_, .take h hreads, by rw [written_cons hwrite, hout]⟩

/-- A call that stops, and what is taken behind the dropped token. -/
theorem Call.reads_append (h : coding.Call room input out (a :: left))
    (hmore : coding.Reads slice slice left codes) :
    ∃ all, coding.Reads slice room input all ∧
      coding.written all = out ++ coding.written codes := by
  generalize hleft : a :: left = stopped at h
  induction h with
  | done room => cases hleft
  | stuck h =>
      cases hleft
      exact ⟨codes, .drop h hmore, rfl⟩
  | take h more ih =>
      obtain ⟨all, hreads, hout⟩ := ih hleft
      obtain ⟨-, hwrite, -⟩ := next_eq_some.mp h
      exact ⟨_, .take h hreads, by rw [written_cons hwrite, hout, List.append_assoc]⟩

/-- The characters are determined by the input. -/
theorem Reads.unique {codes' : List κ} (h : coding.Reads slice room input codes)
    (h' : coding.Reads slice room input codes') : codes = codes' := by
  induction h generalizing codes' with
  | done room =>
      cases h' with
      | done => rfl
      | take htake more' =>
          rw [next_nil] at htake
          cases htake
  | drop hnone more ih =>
      cases h' with
      | drop _ more' => exact ih more'
      | take htake more' =>
          rw [hnone] at htake
          cases htake
  | take htake more ih =>
      cases h' with
      | done =>
          rw [next_nil] at htake
          cases htake
      | drop hnone more' =>
          rw [hnone] at htake
          cases htake
      | take htake' more' =>
          rw [htake, Option.some.injEq, Prod.mk.injEq, Prod.mk.injEq] at htake'
          obtain ⟨rfl, rfl, rfl⟩ := htake'
          rw [ih more']

/-! ## A conversion that does so -/

variable (coding) in
/-- Convert as far as possible, with so many characters at most: what is written, and what is
left. -/
def convertWithin : Nat → Nat → List α → List β × List α
  | 0, _, input => ([], input)
  | fuel + 1, room, input =>
      match coding.next room input with
      | none => ([], input)
      | some (_, seq, rest) =>
          let (out, left) := convertWithin fuel (room - seq.length) rest
          (seq ++ out, left)

theorem call_convertWithin {fuel : Nat} (hfuel : input.length ≤ fuel) :
    coding.Call room input (coding.convertWithin fuel room input).1
      (coding.convertWithin fuel room input).2 := by
  induction fuel generalizing room input with
  | zero =>
      obtain rfl : input = [] := List.length_eq_zero_iff.mp (Nat.le_zero.mp hfuel)
      exact .done room
  | succ fuel ih =>
      rw [convertWithin]
      cases hnext : coding.next room input with
      | none =>
          cases input with
          | nil => exact .done room
          | cons a input => exact .stuck hnext
      | some found =>
          obtain ⟨code, seq, rest⟩ := found
          obtain ⟨front, hfront, rfl⟩ := behind_next hnext
          have hpos := List.length_pos_iff.mpr hfront
          rw [List.length_append] at hfuel
          exact .take hnext (ih (by omega))

end Coding

/-! ## Reading back -/

section Leads

variable {α : Type} {inner : α → Bool}

variable (inner) in
/-- A token that begins a character, and tokens that do not. -/
def Leads (seq : List α) : Prop :=
  ∃ first more, seq = first :: more ∧ inner first = false ∧ ∀ a ∈ more, inner a = true

/-- The tokens of a character end where another one begins. -/
theorem takeWhile_flatten {more : List α} (hmore : ∀ a ∈ more, inner a = true)
    {seqs : List (List α)} (hseqs : ∀ seq ∈ seqs, Leads inner seq) :
    (more ++ seqs.flatten).takeWhile inner = more := by
  rw [List.takeWhile_append_of_pos hmore]
  cases seqs with
  | nil => exact List.append_nil more
  | cons seq seqs =>
      obtain ⟨first, behind, rfl, hfirst, -⟩ := hseqs seq List.mem_cons_self
      rw [List.flatten_cons, List.cons_append, List.takeWhile_cons_of_neg (by simp [hfirst]),
        List.append_nil]

theorem uniquelyDecodable_of_leads {code : Set (List α)} (h : ∀ seq ∈ code, Leads inner seq) :
    UniquelyDecodable code := by
  intro seqs seqs' hseqs hseqs' heq
  have hleads : ∀ seq ∈ seqs, Leads inner seq := fun seq hmem => h seq (hseqs seq hmem)
  have hleads' : ∀ seq ∈ seqs', Leads inner seq := fun seq hmem => h seq (hseqs' seq hmem)
  clear hseqs hseqs'
  induction seqs generalizing seqs' with
  | nil =>
      cases seqs' with
      | nil => rfl
      | cons seq seqs' =>
          obtain ⟨first, more, rfl, -, -⟩ := hleads' seq List.mem_cons_self
          cases heq
  | cons seq seqs ih =>
      obtain ⟨⟨first, more, rfl, -, hmore⟩, hrest⟩ := List.forall_mem_cons.mp hleads
      cases seqs' with
      | nil => cases heq
      | cons seq' seqs' =>
          obtain ⟨⟨first', more', rfl, -, hmore'⟩, hrest'⟩ := List.forall_mem_cons.mp hleads'
          rw [List.flatten_cons, List.flatten_cons, List.cons_append, List.cons_append,
            List.cons.injEq] at heq
          obtain ⟨rfl, hbehind⟩ := heq
          have hinner := congrArg (List.takeWhile inner) hbehind
          rw [takeWhile_flatten hmore hrest, takeWhile_flatten hmore' hrest'] at hinner
          subst hinner
          rw [ih seqs' (List.append_cancel_left hbehind) hrest hrest']

end Leads

end BlackCircle.Foundation.Transcoding
