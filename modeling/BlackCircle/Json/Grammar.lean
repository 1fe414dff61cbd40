import BlackCircle.Foundation.Numeral
import BlackCircle.Json.Value

/-!
# The grammar of `json_parser`

Every primitive parser of a rule with a skipper skips white space first; the
rules `escaped` and `ucn_code`, and everything inside the string literal, have
no skipper.  The rules that call each other recursively are functions of their
recursive occurrences, tied together by a bound on the nesting depth; a text is
never nested deeper than it is long.
-/

namespace BlackCircle.Json.Grammar

open BlackCircle.Foundation
open BlackCircle.Foundation.ByteString
open BlackCircle.Foundation.Numeral
open BlackCircle.Foundation.Peg
open BlackCircle.Json

/-! ## White space -/

/-- `ascii::space`. -/
def isSpace (b : Byte) : Bool := b == 32 || (9 ≤ b && b ≤ 13)

def skip : Parser Byte Unit := do
  let _ ← many (satisfy isSpace)
  return ()

/-- A primitive parser in a rule with a skipper. -/
def token {α : Type} (p : Parser Byte α) : Parser Byte α := do
  skip
  p

/-! ## Strings -/

/-- The continuation bytes of the loop in `ucn_to_utf8`, put in front of `seq`; five rounds
are enough for 32 bits. -/
def trail : Nat → UInt32 → Bytes → Bytes
  | 0, _, seq => seq
  | rounds + 1, code, seq =>
      if 0x80 ≤ code then
        trail rounds (code >>> 6) (((0x80 : UInt32) ||| (code &&& 0x3F)).toUInt8 :: seq)
      else seq

/-- `ucn_to_utf8`: the bytes for a code, or none for a surrogate. -/
def ucnToUtf8 (code : UInt32) : Option Bytes :=
  if 0xD800 ≤ code ∧ code < 0xE000 then none
  else
    let head : UInt32 :=
      if 0x04000000 ≤ code then (0xFC : UInt32) ||| ((code >>> 30) &&& 0x01)
      else if 0x00200000 ≤ code then (0xF8 : UInt32) ||| ((code >>> 24) &&& 0x03)
      else if 0x00010000 ≤ code then (0xF0 : UInt32) ||| ((code >>> 18) &&& 0x07)
      else if 0x00000800 ≤ code then (0xE0 : UInt32) ||| ((code >>> 12) &&& 0x0F)
      else if 0x00000080 ≤ code then (0xC0 : UInt32) ||| ((code >>> 6) &&& 0x1F)
      else code
    some (head.toUInt8 :: trail 6 code [])

/-- Exactly four hexadecimal digits. -/
def fourHex : Parser Byte UInt32 := do
  let a ← satisfy (isDigit 16)
  let b ← satisfy (isDigit 16)
  let c ← satisfy (isDigit 16)
  let d ← satisfy (isDigit 16)
  return UInt32.ofNat (value 16 [a, b, c, d])

def ucnCode : Parser Byte UInt32 := do
  lit (ascii "\\u")
  must fourHex

/-- A semantic action that sets `_pass`. -/
def pass {α : Type} (result : Option α) : Parser Byte α :=
  match result with
  | some value => pure value
  | none => refuse

/-- One alternative of an entity: its name, and the character it stands for. -/
def entity (name character : Bytes) : Parser Byte Bytes := do
  lit name
  return character

def escaped : Parser Byte Bytes :=
  alt
    (do lit (ascii "&")
        alt (entity (ascii "gt;") (ascii ">"))
          (alt (entity (ascii "lt;") (ascii "<"))
            (alt (entity (ascii "amp;") (ascii "&")) (pure (ascii "&")))))
    (alt
      (do lit (ascii "\\")
          alt
            (do let c ← satisfy (fun b => b ∈ ascii "bfnrt")
                return [c - byte 'a'])
            (do let c ← satisfy (fun b => b ∈ ascii "/\\\"")
                return [c]))
      (alt
        (do let code ← ucnCode
            pass (ucnToUtf8 code))
        (do let first ← ucnCode
            let second ← must ucnCode
            pass (ucnToUtf8 (((first - 0xD800) <<< 10) + (second - 0xDC00) + 0x10000)))))

/-- `ascii::char_ - '"'`. -/
def plainChar (b : Byte) : Bool := b < 0x80 && b != byte '"'

/-- The characters between the quotes. -/
def characters : Parser Byte (List Bytes) :=
  many (alt escaped (do let c ← satisfy plainChar
                        return [c]))

def string_ : Parser Byte Bytes :=
  token do
    lit [byte '"']
    let parts ← must characters
    must (lit [byte '"'])
    return parts.flatten

/-! ## Numbers and literals -/

/-- `int_parser<int64_t>`. -/
def int64 : Parser Byte Int64 := do
  let n ← signedNumeral (-2 ^ 63) (2 ^ 63 - 1)
  return Int64.ofInt n

/-- A word whose letters may be in either case. -/
def noCase (word : Bytes) : Parser Byte Unit :=
  match word with
  | [] => pure ()
  | letter :: word => do
      let _ ← satisfy fun b => b == letter || b == letter - 32
      noCase word

/-- The optional parenthesis behind `nan`. -/
def nanTail : Parser Byte Unit := do
  let opening ← opt (lit [byte '('])
  match opening with
  | none => return ()
  | some _ =>
      let _ ← many (satisfy fun b => b != byte ')')
      lit [byte ')']

def special (negative : Bool) : Parser Byte Real :=
  alt
    (do noCase (ascii "nan")
        nanTail
        return .nan negative)
    (do noCase (ascii "inf")
        let _ ← opt (noCase (ascii "inity"))
        return .infinity negative)

def isExp (b : Byte) : Bool := b == byte 'e' || b == byte 'E'

/-- The exponent part; a prefix without digits makes the whole number fail. -/
def exponent : Parser Byte Int := do
  let prefixed ← opt (satisfy isExp)
  match prefixed with
  | none => return 0
  | some _ =>
      let sign ← opt (satisfy isSign)
      let digits ← digitRun 10
      return signed sign (value 10 digits)

/-- A dot with or without digits behind it. -/
def fractionDigits : Parser Byte (Option Bytes) := do
  let dot ← opt (lit [byte '.'])
  match dot with
  | none => return none
  | some _ => opt (digitRun 10)

/-- Everything behind the integer digits, which are absent in `.5`. -/
def fraction (negative : Bool) (whole : Option Bytes) : Parser Byte Real := do
  let digits ← fractionDigits
  if whole = none ∧ digits = none then refuse
  else
    let e ← exponent
    return .decimal negative (value 10 (whole.getD [] ++ digits.getD []))
      (e - (digits.getD []).length)

/-- `qi::double_`. -/
def double_ : Parser Byte Real := do
  let sign ← opt (satisfy isSign)
  let negative := sign == some (byte '-')
  let whole ← opt (digitRun 10)
  match whole with
  | some _ => fraction negative whole
  | none => alt (special negative) (fraction negative none)

def bool_ : Parser Byte Bool :=
  alt (do lit (ascii "true")
          return true)
    (do lit (ascii "false")
        return false)

def null_ : Parser Byte Unit := token (lit (ascii "null"))

/-! ## Structure -/

/-- A separator or bracket. -/
def mark (c : Char) : Parser Byte Unit := token (lit [byte c])

section Rules

variable (value_ : Parser Byte Value)

def valuePair : Parser Byte (Bytes × Value) := do
  let key ← string_
  must (mark ':')
  let value ← must value_
  return (key, value)

def object_ : Parser Byte (List (Bytes × Value)) := do
  mark '\x7b'
  let members ← must (opt (sepBy1 (valuePair value_) (mark ',')))
  must (mark '\x7d')
  return insertMembers (members.getD [])

def array_ : Parser Byte (List Value) := do
  mark '['
  let elements ← must (opt (sepBy1 value_ (mark ',')))
  must (mark ']')
  return elements.getD []

/-- The integer alternative: an integer that is not continued by a dot. -/
def integer : Parser Byte Int64 := do
  let n ← token int64
  notAhead (mark '.')
  return n

/-- An alternative of `value_`. -/
def as {α : Type} (p : Parser Byte α) (wrap : α → Value) : Parser Byte Value := do
  let x ← p
  return wrap x

/-- The body of the rule `value_`, over its recursive occurrences. -/
def valueRule : Parser Byte Value :=
  alt (as (array_ value_) .array)
    (alt (as string_ .string)
      (alt (as integer .int)
        (alt (as (token double_) .real)
          (alt (as (object_ value_) .object)
            (alt (as (token bool_) .bool) (as null_ fun _ => .null))))))

end Rules

/-- The rule `value_`, for values nested less than `depth` deep. -/
def value_ : Nat → Parser Byte Value
  | 0 => ⟨fun _ => .throw .exhausted⟩
  | depth + 1 => valueRule (value_ depth)

def jsonText (depth : Nat) : Parser Byte Value :=
  alt (as (object_ (value_ depth)) .object) (as (array_ (value_ depth)) .array)

/-- `parse_json`: the parsed value, or a default-constructed one when the parser refuses. -/
def parseJson (s : Bytes) : Except Fault Value :=
  match (jsonText (s.length + 1)).run s with
  | .ok value _ => .ok value
  | .fail => .ok default
  | .throw fault => .error fault

/-! ## Consumption -/

section Consumption

variable (n : Nat)

theorem tame_skip : Tame n skip :=
  ((tame_satisfy _).many (advances_satisfy _)).bind fun _ => tame_pure _

theorem tame_token {α : Type} {p : Parser Byte α} (hp : Tame n p) : Tame n (token p) :=
  (tame_skip n).bind fun _ => hp

theorem tame_fourHex : Tame n fourHex :=
  (tame_satisfy _).bind fun _ => (tame_satisfy _).bind fun _ => (tame_satisfy _).bind fun _ =>
    (tame_satisfy _).bind fun _ => tame_pure _

theorem tame_ucnCode : Tame n ucnCode :=
  (tame_lit _).bind fun _ => (tame_fourHex n).must

theorem tame_pass {α : Type} (result : Option α) : Tame n (pass result) := by
  cases result with
  | none => exact tame_refuse
  | some value => exact tame_pure value

theorem tame_entity (name character : Bytes) : Tame n (entity name character) :=
  (tame_lit _).bind fun _ => tame_pure _

theorem tame_escaped : Tame n escaped := by
  refine Tame.alt ?_ (Tame.alt ?_ (Tame.alt ?_ ?_))
  · exact (tame_lit _).bind fun _ =>
      (tame_entity n _ _).alt ((tame_entity n _ _).alt ((tame_entity n _ _).alt (tame_pure _)))
  · refine (tame_lit _).bind fun _ => Tame.alt ?_ ?_
    · exact (tame_satisfy _).bind fun _ => tame_pure _
    · exact (tame_satisfy _).bind fun _ => tame_pure _
  · exact (tame_ucnCode n).bind fun _ => tame_pass n _
  · exact (tame_ucnCode n).bind fun _ => (tame_ucnCode n).must.bind fun _ => tame_pass n _

theorem advances_ucnCode : Advances ucnCode :=
  (advances_lit (by decide)).bind fun _ => (tame_fourHex 0).keeps.must

theorem advances_escaped : Advances escaped := by
  refine Advances.alt ?_ (Advances.alt ?_ (Advances.alt ?_ ?_))
  · exact (advances_lit (by decide)).bind fun _ =>
      ((tame_entity 0 _ _).alt
        ((tame_entity 0 _ _).alt ((tame_entity 0 _ _).alt (tame_pure _)))).keeps
  · refine (advances_lit (by decide)).bind fun _ => (Tame.alt ?_ ?_ : Tame 0 _).keeps
    · exact (tame_satisfy _).bind fun _ => tame_pure _
    · exact (tame_satisfy _).bind fun _ => tame_pure _
  · exact advances_ucnCode.bind fun _ => (tame_pass 0 _).keeps
  · exact advances_ucnCode.bind fun _ =>
      ((tame_ucnCode 0).must.bind fun _ => tame_pass 0 _).keeps

theorem tame_characters : Tame n characters := by
  refine Tame.many (Tame.alt (tame_escaped n) ?_) (Advances.alt advances_escaped ?_)
  · exact (tame_satisfy _).bind fun _ => tame_pure _
  · exact (advances_satisfy _).bind fun _ => keeps_pure _

theorem tame_string : Tame n string_ :=
  tame_token n ((tame_lit _).bind fun _ => (tame_characters n).must.bind fun _ =>
    (tame_lit _).must.bind fun _ => tame_pure _)

theorem tame_noCase (word : Bytes) : Tame n (noCase word) := by
  induction word with
  | nil => exact tame_pure ()
  | cons letter word ih => exact (tame_satisfy _).bind fun _ => ih

theorem tame_nanTail : Tame n nanTail := by
  refine (tame_lit _).opt.bind fun opening => ?_
  cases opening with
  | none => exact tame_pure ()
  | some _ =>
      exact ((tame_satisfy _).many (advances_satisfy _)).bind fun _ => tame_lit _

theorem tame_special (negative : Bool) : Tame n (special negative) := by
  refine Tame.alt ?_ ?_
  · exact (tame_noCase n _).bind fun _ => (tame_nanTail n).bind fun _ => tame_pure _
  · exact (tame_noCase n _).bind fun _ => (tame_noCase n _).opt.bind fun _ => tame_pure _

theorem tame_exponent : Tame n exponent := by
  refine (tame_satisfy _).opt.bind fun prefixed => ?_
  cases prefixed with
  | none => exact tame_pure 0
  | some _ =>
      exact (tame_satisfy _).opt.bind fun _ => (tame_digitRun n 10).bind fun _ => tame_pure _

theorem tame_fractionDigits : Tame n fractionDigits := by
  refine (tame_lit _).opt.bind fun dot => ?_
  cases dot with
  | none => exact tame_pure none
  | some _ => exact (tame_digitRun n 10).opt

theorem tame_fraction (negative : Bool) (whole : Option Bytes) :
    Tame n (fraction negative whole) := by
  refine (tame_fractionDigits n).bind fun digits => ?_
  split
  · exact tame_refuse
  · exact (tame_exponent n).bind fun _ => tame_pure _

theorem tame_double : Tame n double_ := by
  refine (tame_satisfy _).opt.bind fun sign => (tame_digitRun n 10).opt.bind fun whole => ?_
  cases whole with
  | some _ => exact tame_fraction n _ _
  | none => exact (tame_special n _).alt (tame_fraction n _ _)

theorem tame_bool : Tame n bool_ := by
  refine Tame.alt ?_ ?_
  · exact (tame_lit _).bind fun _ => tame_pure _
  · exact (tame_lit _).bind fun _ => tame_pure _

theorem tame_mark (c : Char) : Tame n (mark c) := tame_token n (tame_lit _)

theorem advances_mark (c : Char) : Advances (mark c) :=
  (tame_skip 0).keeps.bind_advances fun _ => advances_lit (by simp)

theorem tame_integer : Tame n integer :=
  (tame_token n ((tame_signedNumeral n _ _).bind fun _ => tame_pure _)).bind fun _ =>
    (tame_mark n '.').notAhead.bind fun _ => tame_pure _

theorem tame_as {α : Type} {p : Parser Byte α} (hp : Tame n p) (wrap : α → Value) :
    Tame n (as p wrap) :=
  hp.bind fun _ => tame_pure _

variable {n} {value_ : Parser Byte Value}

theorem tame_valuePair (hvalue : Tame n value_) : Tame n (valuePair value_) :=
  (tame_string n).bind fun _ => (tame_mark n ':').must.bind fun _ =>
    hvalue.must.bind fun _ => tame_pure _

/-- Between its brackets an array or object is shorter than as a whole. -/
theorem tame_object (hvalue : Tame n value_) : Tame (n + 1) (object_ value_) :=
  (tame_mark (n + 1) _).bind_shorter (advances_mark _) fun _ =>
    ((tame_valuePair hvalue).sepBy1 (tame_mark n _) (advances_mark _)).opt.must.bind fun _ =>
      (tame_mark n _).must.bind fun _ => tame_pure _

theorem tame_array (hvalue : Tame n value_) : Tame (n + 1) (array_ value_) :=
  (tame_mark (n + 1) _).bind_shorter (advances_mark _) fun _ =>
    (hvalue.sepBy1 (tame_mark n _) (advances_mark _)).opt.must.bind fun _ =>
      (tame_mark n _).must.bind fun _ => tame_pure _

theorem tame_value (depth : Nat) : Tame depth (Grammar.value_ depth) := by
  induction depth with
  | zero =>
      refine ⟨?_, ?_⟩
      · rintro input value rest ⟨⟩
      · intro input hlt
        omega
  | succ depth ih =>
      exact (tame_as _ (tame_array ih) _).alt ((tame_as _ (tame_string _) _).alt
        ((tame_as _ (tame_integer _) _).alt ((tame_as _ (tame_token _ (tame_double _)) _).alt
          ((tame_as _ (tame_object ih) _).alt ((tame_as _ (tame_token _ (tame_bool _)) _).alt
            (tame_as _ (tame_token _ (tame_lit _)) _))))))

end Consumption

/-- The bound on the nesting depth is never what `parse_json` fails with. -/
theorem parseJson_ne_exhausted (s : Bytes) : parseJson s ≠ .error .exhausted := by
  intro h
  have htame : Tame (s.length + 1 + 1) (jsonText (s.length + 1)) :=
    (tame_as _ (tame_object (tame_value _)) _).alt (tame_as _ (tame_array (tame_value _)) _)
  unfold parseJson at h
  split at h
  · cases h
  · cases h
  · rename_i fault hthrow
    cases h
    exact htame.bounded s (by omega) hthrow

end BlackCircle.Json.Grammar
