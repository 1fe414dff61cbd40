import BlackCircle.Foundation.ByteString
import BlackCircle.Foundation.OrderedMap

/-!
# JSON values

The alternatives of `json_object_value`.  An object is the entry list of a map,
in ascending key order.  A `double` is represented by the number its literal
denotes; how that number is rounded to a floating-point one is left open.
-/

namespace BlackCircle.Json

open BlackCircle.Foundation
open BlackCircle.Foundation.ByteString

/-- What a real literal denotes: a decimal number, or one of the two special values. -/
inductive Real where
  | decimal (negative : Bool) (mantissa : Nat) (exponent : Int)
  | nan (negative : Bool)
  | infinity (negative : Bool)
  deriving DecidableEq, Repr

/-- `json_object_value`. -/
inductive Value where
  | array (elements : List Value)
  | string (text : Bytes)
  | int (n : Int64)
  | real (x : Real)
  | object (members : List (Bytes × Value))
  | bool (b : Bool)
  | null

/-- A default-constructed variant holds its first alternative. -/
instance : Inhabited Value := ⟨.array []⟩

/-- `map::insert` of parsed members in turn: the first member with a key stays. -/
def insertMembers (members : List (Bytes × Value)) : List (Bytes × Value) :=
  members.foldl (fun entries member => EntryList.place id member.1 member.2 entries) []

end BlackCircle.Json
