import BlackCircle.Foundation.ByteString
import Mathlib.Logic.Function.Basic

/-!
# File descriptors

The descriptors of a process: numbers below a limit, each of which may stand for
an open file.  A new descriptor is the lowest one that is free.  Of a pipe the
bytes are kept that have been written to it and not been read, of any other file
the bytes that the process has written.

A process of one thread that waits for room in a pipe waits forever if it is the
reader of the pipe as well; here a write for which there is no room does not
return.
-/

namespace BlackCircle.Foundation.Descriptors

open BlackCircle.Foundation.ByteString

/-- What a descriptor may stand for. -/
inductive File (α : Type) where
  | other (file : α)
  | readEnd (pipe : Nat)
  | writeEnd (pipe : Nat)
  deriving DecidableEq

structure Process (α : Type) where
  limit : Nat
  file : Nat → Option (File α)
  capacity : Nat
  pipes : List Bytes
  written : List (α × Bytes)

namespace Process

variable {α : Type}

def set (p : Process α) (fd : Nat) (file : Option (File α)) : Process α :=
  { p with file := Function.update p.file fd file }

/-- The lowest descriptor that is free. -/
def lowest (p : Process α) : Option Nat :=
  (List.range p.limit).find? fun fd => (p.file fd).isNone

/-- A new descriptor, unless there are too many. -/
def allocate (file : File α) (p : Process α) : Option (Nat × Process α) :=
  p.lowest.map fun fd => (fd, p.set fd (some file))

def dup (fd : Nat) (p : Process α) : Option (Nat × Process α) :=
  (p.file fd).bind fun file => p.allocate file

def dup2 (fd copy : Nat) (p : Process α) : Option (Process α) :=
  (p.file fd).bind fun file => if copy < p.limit then some (p.set copy (some file)) else none

/-- To close what is not open does nothing. -/
def close (fd : Nat) (p : Process α) : Process α := p.set fd none

/-- The two ends of a new pipe, the one to read from first. -/
def pipe (p : Process α) : Option ((Nat × Nat) × Process α) := do
  let (readEnd, p') ← { p with pipes := p.pipes ++ [[]] }.allocate (.readEnd p.pipes.length)
  let (writeEnd, p') ← p'.allocate (.writeEnd p.pipes.length)
  return ((readEnd, writeEnd), p')

/-- It returns if there is room for all bytes. -/
def write (fd : Nat) (bytes : Bytes) (p : Process α) : Option (Process α) :=
  match p.file fd with
  | some (.other file) => some { p with written := p.written ++ [(file, bytes)] }
  | some (.writeEnd n) =>
      (p.pipes[n]?).bind fun content =>
        if content.length + bytes.length ≤ p.capacity then
          some { p with pipes := p.pipes.set n (content ++ bytes) }
        else none
  | _ => none

/-- Some bytes from a pipe, at most so many. -/
def read (fd count : Nat) (p : Process α) : Option (Bytes × Process α) :=
  match p.file fd with
  | some (.readEnd n) =>
      (p.pipes[n]?).map fun content =>
        (content.take count, { p with pipes := p.pipes.set n (content.drop count) })
  | _ => none

section Calls

variable {p p' : Process α} {fd fd' copy count : Nat} {file : File α} {bytes : Bytes}

@[simp] theorem file_set_self (p : Process α) (fd : Nat) (file : Option (File α)) :
    (p.set fd file).file fd = file :=
  Function.update_self _ _ _

theorem file_set_of_ne (h : fd' ≠ fd) (p : Process α) (file : Option (File α)) :
    (p.set fd file).file fd' = p.file fd' :=
  Function.update_of_ne h _ _

/-- A new descriptor has been free. -/
theorem allocate_eq_some (h : p.allocate file = some (fd, p')) :
    p.file fd = none ∧ fd < p.limit ∧ p' = p.set fd (some file) := by
  obtain ⟨fd', hlowest, heq⟩ := Option.map_eq_some_iff.mp h
  obtain ⟨rfl, rfl⟩ := Prod.mk.inj heq
  have hmem := List.mem_of_find?_eq_some hlowest
  have hfree := List.find?_some hlowest
  exact ⟨by simpa using hfree, List.mem_range.mp hmem, rfl⟩

theorem dup_eq_some (h : p.dup fd = some (copy, p')) :
    ∃ file, p.file fd = some file ∧ p.file copy = none ∧ copy < p.limit ∧
      p' = p.set copy (some file) := by
  obtain ⟨file, hfile, halloc⟩ := Option.bind_eq_some_iff.mp h
  exact ⟨file, hfile, allocate_eq_some halloc⟩

theorem dup2_eq_some (h : p.dup2 fd copy = some p') :
    ∃ file, p.file fd = some file ∧ copy < p.limit ∧ p' = p.set copy (some file) := by
  obtain ⟨file, hfile, hset⟩ := Option.bind_eq_some_iff.mp h
  split at hset
  case isTrue hlt => exact ⟨file, hfile, hlt, (Option.some.inj hset).symm⟩
  case isFalse => cases hset

theorem pipe_eq_some {readEnd writeEnd : Nat} (h : p.pipe = some ((readEnd, writeEnd), p')) :
    p.file readEnd = none ∧ p.file writeEnd = none ∧ writeEnd ≠ readEnd ∧
      p' = ({ p with pipes := p.pipes ++ [[]] }.set readEnd
        (some (.readEnd p.pipes.length))).set writeEnd (some (.writeEnd p.pipes.length)) := by
  obtain ⟨⟨fd, first⟩, hfirst, h⟩ := Option.bind_eq_some_iff.mp h
  obtain ⟨⟨fd', second⟩, hsecond, h⟩ := Option.bind_eq_some_iff.mp h
  obtain ⟨⟨rfl, rfl⟩, rfl⟩ : (fd = readEnd ∧ fd' = writeEnd) ∧ second = p' := by
    simpa using h
  obtain ⟨hfree, -, rfl⟩ := allocate_eq_some hfirst
  obtain ⟨hfree', -, rfl⟩ := allocate_eq_some hsecond
  have hne : fd' ≠ fd := by
    rintro rfl
    rw [file_set_self] at hfree'
    cases hfree'
  rw [file_set_of_ne hne] at hfree'
  exact ⟨hfree, hfree', hne, rfl⟩

theorem write_other {other : α} (hfile : p.file fd = some (.other other)) (bytes : Bytes) :
    p.write fd bytes = some { p with written := p.written ++ [(other, bytes)] } := by
  rw [write, hfile]

/-- A write to a pipe returns if there is room for it. -/
theorem write_pipe {n : Nat} {content : Bytes} (hfile : p.file fd = some (.writeEnd n))
    (hcontent : p.pipes[n]? = some content) (bytes : Bytes) :
    p.write fd bytes = if content.length + bytes.length ≤ p.capacity then
      some { p with pipes := p.pipes.set n (content ++ bytes) } else none := by
  rw [write, hfile]
  simp only [hcontent, Option.bind_some]

theorem read_pipe {n : Nat} {content : Bytes} (hfile : p.file fd = some (.readEnd n))
    (hcontent : p.pipes[n]? = some content) (count : Nat) :
    p.read fd count = some (content.take count,
      { p with pipes := p.pipes.set n (content.drop count) }) := by
  rw [read, hfile]
  simp only [hcontent, Option.map_some]

end Calls

end Process

end BlackCircle.Foundation.Descriptors
