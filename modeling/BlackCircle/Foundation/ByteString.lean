import Mathlib.Data.List.Lex
import Mathlib.Order.Defs.LinearOrder

/-!
# Byte strings

A byte string is a list of bytes, ordered lexicographically by unsigned bytes.
`ascii` gives the bytes of a literal; only literals whose characters are below
`0x80` are written.
-/

namespace BlackCircle.Foundation.ByteString

abbrev Byte : Type := UInt8

abbrev Bytes : Type := List Byte

instance : LinearOrder Byte where
  le_refl := UInt8.le_refl
  le_trans := fun _ _ _ => UInt8.le_trans
  lt_iff_le_not_ge := by
    intro a b
    simp only [UInt8.lt_iff_toNat_lt, UInt8.le_iff_toNat_le]
    omega
  le_antisymm := fun _ _ => UInt8.le_antisymm
  le_total := UInt8.le_total
  toDecidableLE := inferInstance
  toDecidableEq := inferInstance
  toDecidableLT := inferInstance

/-- A test of all bytes of a text runs through the text, not through all bytes there are. -/
instance decidableForallMem (text : Bytes) (p : Byte → Prop) [DecidablePred p] :
    Decidable (∀ b ∈ text, p b) :=
  List.decidableBAll p text

/-- The byte of an ASCII character. -/
def byte (c : Char) : Byte := UInt8.ofNat c.toNat

/-- The bytes of an ASCII literal. -/
def ascii (text : String) : Bytes := text.toList.map byte

def CR : Byte := 13

def LF : Byte := 10

theorem CR_ne_LF : CR ≠ LF := by decide

end BlackCircle.Foundation.ByteString
