import BlackCircle.Foundation.Numeral
import BlackCircle.Json.Value

/-!
# Printed JSON

JSON trees over plain strings, the values they stand for, and their texts: a
tree has a list of tokens, and a text is any way of putting white space around
them.
-/

namespace BlackCircle.Json.Print

open BlackCircle.Foundation
open BlackCircle.Foundation.ByteString
open BlackCircle.Foundation.Numeral
open BlackCircle.Json

/-- A printable ASCII character that stands for itself in a string literal. -/
def isPlain (b : Byte) : Bool :=
  32 ≤ b && b < 127 && b != byte '"' && b != byte '\\' && b != byte '&'

/-- A string of plain characters. -/
structure Plain where
  bytes : Bytes
  plain : ∀ b ∈ bytes, isPlain b = true

/-- A JSON tree; the members of an object are in the order in which they are printed. -/
inductive Tree where
  | null
  | bool (b : Bool)
  | int (n : Int64)
  | string (s : Plain)
  | array (elements : List Tree)
  | object (members : List (Plain × Tree))

namespace Tree

mutual

/-- The value a tree stands for. -/
def value : Tree → Value
  | .null => .null
  | .bool b => .bool b
  | .int n => .int n
  | .string s => .string s.bytes
  | .array elements => .array (values elements)
  | .object members => .object (EntryList.inKeyOrder (memberValues members))

def values : List Tree → List Value
  | [] => []
  | element :: elements => element.value :: values elements

def memberValues : List (Plain × Tree) → List (Bytes × Value)
  | [] => []
  | member :: members => memberValue member :: memberValues members

def memberValue : Plain × Tree → Bytes × Value
  | (key, tree) => (key.bytes, tree.value)

end

mutual

/-- The keys of every object in the tree are pairwise distinct. -/
def Distinct : Tree → Prop
  | .null => True
  | .bool _ => True
  | .int _ => True
  | .string _ => True
  | .array elements => AllDistinct elements
  | .object members => (members.map fun member => member.1.bytes).Nodup ∧ MembersDistinct members

def AllDistinct : List Tree → Prop
  | [] => True
  | element :: elements => element.Distinct ∧ AllDistinct elements

def MembersDistinct : List (Plain × Tree) → Prop
  | [] => True
  | member :: members => MemberDistinct member ∧ MembersDistinct members

def MemberDistinct : Plain × Tree → Prop
  | (_, tree) => tree.Distinct

end

/-- Objects and arrays may stand at the root of a text. -/
def IsRoot : Tree → Prop
  | .null => False
  | .bool _ => False
  | .int _ => False
  | .string _ => False
  | .array _ => True
  | .object _ => True

end Tree

/-! ## Tokens -/

/-- A decimal integer, with a minus sign if it is negative. -/
def decimalInt (n : Int) : Bytes :=
  if n < 0 then byte '-' :: decimal n.natAbs else decimal n.natAbs

def quoted (s : Plain) : Bytes := byte '"' :: (s.bytes ++ [byte '"'])

/-- Token lists with a comma between each two of them. -/
def commaSeparated : List (List Bytes) → List Bytes
  | [] => []
  | first :: others => first ++ others.flatMap fun tokens => ascii "," :: tokens

namespace Tree

mutual

def tokens : Tree → List Bytes
  | .null => [ascii "null"]
  | .bool b => [if b then ascii "true" else ascii "false"]
  | .int n => [decimalInt n.toInt]
  | .string s => [quoted s]
  | .array elements => ascii "[" :: (commaSeparated (elementTokens elements) ++ [ascii "]"])
  | .object members =>
      ascii "\x7b" :: (commaSeparated (memberTokens members) ++ [ascii "\x7d"])

def elementTokens : List Tree → List (List Bytes)
  | [] => []
  | element :: elements => element.tokens :: elementTokens elements

def memberTokens : List (Plain × Tree) → List (List Bytes)
  | [] => []
  | member :: members => pairTokens member :: memberTokens members

def pairTokens : Plain × Tree → List Bytes
  | (key, tree) => quoted key :: ascii ":" :: tree.tokens

end

mutual

/-- How deep a tree is nested. -/
def depth : Tree → Nat
  | .null => 0
  | .bool _ => 0
  | .int _ => 0
  | .string _ => 0
  | .array elements => elementsDepth elements + 1
  | .object members => membersDepth members + 1

def elementsDepth : List Tree → Nat
  | [] => 0
  | element :: elements => max element.depth (elementsDepth elements)

def membersDepth : List (Plain × Tree) → Nat
  | [] => 0
  | member :: members => max (memberDepth member) (membersDepth members)

def memberDepth : Plain × Tree → Nat
  | (_, tree) => tree.depth

end

end Tree

/-! ## White space -/

/-- The white space of JSON texts. -/
def isBlank (b : Byte) : Bool := b == 32 || b == 9 || b == CR || b == LF

/-- A text that consists of the tokens, in order, with white space before, between and
behind them. -/
inductive Spaced : List Bytes → Bytes → Prop where
  | nil {gap : Bytes} (hgap : ∀ b ∈ gap, isBlank b = true) : Spaced [] gap
  | cons {gap token rest : Bytes} {tokens : List Bytes} (hgap : ∀ b ∈ gap, isBlank b = true)
      (hrest : Spaced tokens rest) : Spaced (token :: tokens) (gap ++ (token ++ rest))

end BlackCircle.Json.Print
