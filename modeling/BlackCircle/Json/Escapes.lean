import BlackCircle.Json.RoundTrip
import Mathlib.Tactic.IntervalCases

/-!
# Escapes in string literals

A string literal may spell an item in more than one way.  What the rule
`characters` makes of one spelling does not depend on what stands behind it, so
a literal is read item by item.  Two alphabets are read so: scalars spelled by
`\u` escapes, and ASCII characters spelled by the two-character escapes.
-/

namespace BlackCircle.Json.Escapes

open BlackCircle.Foundation.ByteString
open BlackCircle.Foundation.Numeral
open BlackCircle.Foundation.Peg
open BlackCircle.Json
open BlackCircle.Json.Grammar
open BlackCircle.Json.Print
open BlackCircle.Json.RoundTrip

/-! ## Literals read item by item -/

/-- A text that spells the items one after the other. -/
inductive Spelled {ι : Type} (spells : ι → Bytes → Prop) : List ι → Bytes → Prop where
  | nil : Spelled spells [] []
  | cons {item : ι} {items : List ι} {word text : Bytes} (hword : spells item word)
      (htext : Spelled spells items text) : Spelled spells (item :: items) (word ++ text)

/-- A text between quotation marks. -/
def literal (text : Bytes) : Bytes := byte '"' :: (text ++ [byte '"'])

/-- One round of `characters`. -/
def character : Parser Byte Bytes :=
  alt escaped (do let c ← satisfy plainChar
                  return [c])

theorem advances_character : Advances character :=
  Advances.alt advances_escaped ((advances_satisfy _).bind fun _ => keeps_pure _)

/-- Each spelling of an item is read as the bytes `part item`. -/
def ReadsSpelling {ι : Type} (spells : ι → Bytes → Prop) (part : ι → Bytes) : Prop :=
  ∀ item word rest, spells item word → character.run (word ++ rest) = .ok (part item) rest

section Items

variable {ι : Type} {spells : ι → Bytes → Prop} {part : ι → Bytes} {items : List ι}
  {text : Bytes}

theorem characters_spelled (hpart : ReadsSpelling spells part) (h : Spelled spells items text)
    (rest : Bytes) :
    characters.run (text ++ byte '"' :: rest) = .ok (items.map part) (byte '"' :: rest) := by
  induction h with
  | nil => exact many_fail (character_quote rest)
  | cons hword _ ih =>
      rw [List.append_assoc]
      exact many_cons advances_character (hpart _ _ _ hword) ih

theorem string_spelled (hpart : ReadsSpelling spells part) (h : Spelled spells items text)
    {input rest : Bytes} (hreads : Reads input (literal text ++ rest)) :
    string_.run input = .ok (items.flatMap part) rest := by
  have hliteral : literal text ++ rest = [byte '"'] ++ (text ++ byte '"' :: rest) := by
    simp [literal]
  have hclose : (lit [byte '"']).run (byte '"' :: rest) = .ok () rest := lit_append [byte '"'] rest
  rw [string_, hreads, hliteral, bind_ok (lit_append _ _),
    must_bind_ok (characters_spelled hpart h rest), must_bind_ok hclose, run_pure,
    List.flatMap_def]

end Items

/-! ## Arrays that hold one value -/

section Element

variable {recur : Parser Byte Value} {text inner rest behind : Bytes} {value : Value}
  {fault : Fault}

theorem array_element (hopen : Reads text (byte '[' :: inner))
    (hvalue : recur.run inner = .ok value rest) (hclose : Reads rest (byte ']' :: behind)) :
    (array_ recur).run text = .ok [value] behind := by
  have hmark : (mark '[').run text = .ok () inner := mark_ok hopen
  have hcomma : (mark ',').run rest = .fail := mark_fail hclose (by decide)
  have hlist : (sepBy1 recur (mark ',')).run inner = .ok [value] rest := by
    rw [sepBy1, bind_ok hvalue, bind_ok (many_fail (bind_fail hcomma)), run_pure]
  have hend : (mark ']').run rest = .ok () behind := mark_ok hclose
  rw [array_, bind_ok hmark, must_bind_ok (opt_ok hlist), must_bind_ok hend, run_pure]
  rfl

/-- An array whose first element throws. -/
theorem array_throw (hopen : Reads text (byte '[' :: inner))
    (hvalue : recur.run inner = .throw fault) : (array_ recur).run text = .throw fault := by
  have hmark : (mark '[').run text = .ok () inner := mark_ok hopen
  rw [array_, bind_ok hmark, must_bind_throw (opt_throw (sepBy1_throw hvalue))]

theorem parseJson_element (hopen : Reads text (byte '[' :: inner))
    (hvalue : (value_ (text.length + 1)).run inner = .ok value rest)
    (hclose : Reads rest (byte ']' :: behind)) : parseJson text = .ok (.array [value]) := by
  rw [parseJson, jsonText, alt_right (object_fail hopen (by decide)),
    as_ok (array_element hopen hvalue hclose)]

theorem parseJson_element_throw (hopen : Reads text (byte '[' :: inner))
    (hvalue : (value_ (text.length + 1)).run inner = .throw fault) :
    parseJson text = .error fault := by
  have harray : (as (array_ (value_ (text.length + 1))) .array).run text = .throw fault :=
    bind_throw (array_throw hopen hvalue)
  rw [parseJson, jsonText, alt_right (object_fail hopen (by decide)), harray]

end Element

section Literal

variable {written text : Bytes}

/-- What becomes of an array that holds a literal is what the rule for strings makes of the
literal where it stands. -/
theorem parseJson_between (htext : Spaced [[byte '['], literal written, [byte ']']] text) :
    ∃ input rest, Reads input (literal written ++ rest) ∧
      (∀ s, string_.run input = .ok s rest → parseJson text = .ok (.array [.string s])) ∧
      ∀ fault, string_.run input = .throw fault → parseJson text = .error fault := by
  obtain ⟨input, hinput, hopen⟩ := Spaced.reads htext ⟨byte '[', [], rfl, by decide⟩
  obtain ⟨rest, hrest, hreads⟩ := Spaced.reads hinput ⟨byte '"', _, rfl, by decide⟩
  obtain ⟨behind, -, hclose⟩ := Spaced.reads hrest (solid_closing (Or.inr (Or.inl rfl)))
  have harray : (as (array_ (value_ text.length)) .array).run input = .fail :=
    array_fail hreads (by decide)
  refine ⟨input, rest, hreads, fun s hstring => ?_, fun fault hstring => ?_⟩
  · exact parseJson_element hopen ((alt_right harray).trans (alt_left (as_ok hstring))) hclose
  · exact parseJson_element_throw hopen
      ((alt_right harray).trans (alt_throw (bind_throw hstring)))

/-- An array that holds a literal, white space between the tokens. -/
theorem parseJson_literal {s : Bytes}
    (hstring : ∀ input rest, Reads input (literal written ++ rest) →
      string_.run input = .ok s rest)
    (htext : Spaced [[byte '['], literal written, [byte ']']] text) :
    parseJson text = .ok (.array [.string s]) := by
  obtain ⟨input, rest, hreads, hok, -⟩ := parseJson_between htext
  exact hok s (hstring input rest hreads)

theorem parseJson_literal_throw {fault : Fault}
    (hstring : ∀ input rest, Reads input (literal written ++ rest) →
      string_.run input = .throw fault)
    (htext : Spaced [[byte '['], literal written, [byte ']']] text) :
    parseJson text = .error fault := by
  obtain ⟨input, rest, hreads, -, hthrow⟩ := parseJson_between htext
  exact hthrow fault (hstring input rest hreads)

end Literal

section Items

variable {ι : Type} {spells : ι → Bytes → Prop} {part : ι → Bytes} {items : List ι}
  {text : Bytes}

theorem parseJson_spelled (hpart : ReadsSpelling spells part) {written : Bytes}
    (h : Spelled spells items written)
    (htext : Spaced [[byte '['], literal written, [byte ']']] text) :
    parseJson text = .ok (.array [.string (items.flatMap part)]) :=
  parseJson_literal (fun _ _ hreads => string_spelled hpart h hreads) htext

theorem parsed_string_inj {a b : Bytes} :
    (.ok (.array [.string a]) : Except Fault Value) = .ok (.array [.string b]) ↔ a = b := by
  simp only [Except.ok.injEq, Value.array.injEq, List.cons.injEq, Value.string.injEq, and_true]

/-- A literal between brackets, without white space. -/
theorem spaced_literal (written : Bytes) :
    Spaced [[byte '['], literal written, [byte ']']]
      ([byte '['] ++ (literal written ++ [byte ']'])) := by
  have hnone : ∀ b ∈ ([] : Bytes), isBlank b = true := by
    intro b hmem
    cases hmem
  exact .cons hnone (.cons hnone (.cons hnone (.nil hnone)))

end Items

/-! ## Scalars -/

/-- Four hexadecimal digits, in either case, for a code. -/
structure SpellsCode (digits : Bytes) (code : Nat) : Prop where
  length : digits.length = 4
  digit : ∀ b ∈ digits, isDigit 16 b = true
  value : value 16 digits = code

/-- A `\u` escape for a scalar below `0x10000`, two of them for one above. -/
inductive SpellsScalar : Char → Bytes → Prop where
  | single {c : Char} {digits : Bytes} (hlow : c.toNat < 0x10000)
      (hdigits : SpellsCode digits c.toNat) : SpellsScalar c (ascii "\\u" ++ digits)
  | pair {c : Char} {first second : Bytes} (hhigh : 0x10000 ≤ c.toNat)
      (hfirst : SpellsCode first (0xD800 + (c.toNat - 0x10000) / 0x400))
      (hsecond : SpellsCode second (0xDC00 + (c.toNat - 0x10000) % 0x400)) :
      SpellsScalar c (ascii "\\u" ++ first ++ (ascii "\\u" ++ second))

theorem fourHex_digits {digits : Bytes} {code : Nat} (h : SpellsCode digits code) (rest : Bytes) :
    fourHex.run (digits ++ rest) = .ok (UInt32.ofNat code) rest := by
  obtain ⟨hlength, hdigit, rfl⟩ := h
  obtain ⟨a, b, c, d, rfl⟩ := List.length_eq_four.mp hlength
  have ha : isDigit 16 a = true := hdigit a (by simp)
  have hb : isDigit 16 b = true := hdigit b (by simp)
  have hc : isDigit 16 c = true := hdigit c (by simp)
  have hd : isDigit 16 d = true := hdigit d (by simp)
  simp only [List.cons_append, List.nil_append]
  rw [fourHex, bind_ok (satisfy_ok ha), bind_ok (satisfy_ok hb), bind_ok (satisfy_ok hc),
    bind_ok (satisfy_ok hd), run_pure]

theorem ucnCode_digits {digits : Bytes} {code : Nat} (h : SpellsCode digits code) (rest : Bytes) :
    ucnCode.run (ascii "\\u" ++ digits ++ rest) = .ok (UInt32.ofNat code) rest := by
  rw [ucnCode, List.append_assoc, bind_ok (lit_append _ _), must_ok (fourHex_digits h rest)]

/-- The code of a surrogate pair, as `escaped` computes it. -/
def pairCode (first second : UInt32) : UInt32 :=
  ((first - 0xD800) <<< 10) + (second - 0xDC00) + 0x10000

/-- The first two alternatives of `escaped` do not accept a `\u` escape. -/
theorem escaped_ucn {digits rest : Bytes} :
    escaped.run (ascii "\\u" ++ digits ++ rest) =
      (alt
        (do let code ← ucnCode
            pass (ucnToUtf8 code))
        (do let first ← ucnCode
            let second ← must ucnCode
            pass (ucnToUtf8 (pairCode first second)))).run
        (ascii "\\u" ++ digits ++ rest) := by
  have hentity : (lit (ascii "&")).run (byte '\\' :: (byte 'u' :: (digits ++ rest))) = .fail :=
    lit_fail_first rfl (by decide)
  have hbackslash : (lit (ascii "\\")).run (byte '\\' :: (byte 'u' :: (digits ++ rest))) =
      .ok () (byte 'u' :: (digits ++ rest)) := lit_append (ascii "\\") _
  have hcontrol : (satisfy fun b => b ∈ ascii "bfnrt").run (byte 'u' :: (digits ++ rest)) = .fail :=
    satisfy_fail (by decide)
  have hsame : (satisfy fun b => b ∈ ascii "/\\\"").run (byte 'u' :: (digits ++ rest)) = .fail :=
    satisfy_fail (by decide)
  have htext : ascii "\\u" ++ digits ++ rest = byte '\\' :: (byte 'u' :: (digits ++ rest)) := rfl
  rw [htext, escaped, alt_right (bind_fail hentity)]
  apply alt_right
  rw [bind_ok hbackslash, alt_right (bind_fail hcontrol)]
  exact bind_fail hsame

/-- The bytes `ucn_to_utf8` assigns; none for a surrogate. -/
def assigned (code : UInt32) : Bytes := (ucnToUtf8 code).getD []

theorem scalar_lt (c : Char) : c.toNat < 0x110000 := by
  have hvalid : c.toNat < 0xD800 ∨ 0xDFFF < c.toNat ∧ c.toNat < 0x110000 := c.valid
  omega

theorem not_surrogate (c : Char) : ¬(0xD800 ≤ c.val ∧ c.val < 0xE000) := by
  have hvalid : c.val.toNat < 0xD800 ∨ 0xDFFF < c.val.toNat ∧ c.val.toNat < 0x110000 := c.valid
  rw [UInt32.le_iff_toNat_le, UInt32.lt_iff_toNat_lt]
  simp only [UInt32.reduceToNat]
  omega

theorem ucnToUtf8_scalar (c : Char) : ucnToUtf8 c.val = some (assigned c.val) := by
  rw [assigned, ucnToUtf8, if_neg (not_surrogate c)]
  rfl

theorem ucnToUtf8_first {n : Nat} (h : n < 0x400) :
    ucnToUtf8 (UInt32.ofNat (0xD800 + n)) = none := by
  have hnat : (UInt32.ofNat (0xD800 + n)).toNat = 0xD800 + n := by
    rw [UInt32.toNat_ofNat']
    omega
  rw [ucnToUtf8, if_pos]
  rw [UInt32.le_iff_toNat_le, UInt32.lt_iff_toNat_lt, hnat]
  simp only [UInt32.reduceToNat]
  omega

/-- The arithmetic on a surrogate pair gives the scalar back. -/
theorem pair_code {c : Char} (hhigh : 0x10000 ≤ c.toNat) :
    pairCode (UInt32.ofNat (0xD800 + (c.toNat - 0x10000) / 0x400))
      (UInt32.ofNat (0xDC00 + (c.toNat - 0x10000) % 0x400)) = c.val := by
  have hvalid : c.toNat < 0x110000 := scalar_lt c
  have hnat : c.toNat = c.val.toNat := rfl
  have hfirst : UInt32.ofNat (0xD800 + (c.toNat - 0x10000) / 0x400) - 0xD800 =
      UInt32.ofNat ((c.toNat - 0x10000) / 0x400) := by
    apply UInt32.toNat_inj.mp
    simp only [UInt32.toNat_sub, UInt32.toNat_ofNat', UInt32.reduceToNat]
    omega
  have hsecond : UInt32.ofNat (0xDC00 + (c.toNat - 0x10000) % 0x400) - 0xDC00 =
      UInt32.ofNat ((c.toNat - 0x10000) % 0x400) := by
    apply UInt32.toNat_inj.mp
    simp only [UInt32.toNat_sub, UInt32.toNat_ofNat', UInt32.reduceToNat]
    omega
  rw [pairCode, hfirst, hsecond]
  apply UInt32.toNat_inj.mp
  simp only [UInt32.toNat_add, UInt32.toNat_shiftLeft, UInt32.toNat_ofNat', UInt32.reduceToNat,
    Nat.shiftLeft_eq, Nat.reduceMod, Nat.reducePow]
  omega

/-- The first escape alone is refused, the two together are taken. -/
theorem pass_scalar (c : Char) (rest : Bytes) :
    (pass (ucnToUtf8 c.val)).run rest = .ok (assigned c.val) rest := by
  rw [ucnToUtf8_scalar]
  rfl

theorem escaped_single {c : Char} {digits : Bytes} (h : SpellsCode digits c.toNat) (rest : Bytes) :
    escaped.run (ascii "\\u" ++ digits ++ rest) = .ok (assigned c.val) rest := by
  have hcode : UInt32.ofNat c.toNat = c.val := UInt32.ofNat_toNat
  rw [escaped_ucn]
  apply alt_left
  rw [bind_ok (ucnCode_digits h rest), hcode, pass_scalar]

/-- Two escapes, the first of which is refused on its own. -/
theorem escaped_two {first second : Bytes} {high low : Nat} (hfirst : SpellsCode first high)
    (hsecond : SpellsCode second low) (hnone : ucnToUtf8 (UInt32.ofNat high) = none)
    (rest : Bytes) :
    escaped.run (ascii "\\u" ++ first ++ (ascii "\\u" ++ second ++ rest)) =
      (pass (ucnToUtf8 (pairCode (UInt32.ofNat high) (UInt32.ofNat low)))).run rest := by
  have hsingle : (do let code ← ucnCode
                     pass (ucnToUtf8 code) : Parser Byte Bytes).run
      (ascii "\\u" ++ first ++ (ascii "\\u" ++ second ++ rest)) = .fail := by
    rw [bind_ok (ucnCode_digits hfirst _), hnone]
    rfl
  have hthird : (must ucnCode).run (ascii "\\u" ++ second ++ rest) =
      .ok (UInt32.ofNat low) rest := must_ok (ucnCode_digits hsecond rest)
  rw [escaped_ucn, alt_right hsingle, bind_into (ucnCode_digits hfirst _) rfl]
  exact bind_into hthird rfl

theorem escaped_pair {c : Char} {first second : Bytes} (hhigh : 0x10000 ≤ c.toNat)
    (hfirst : SpellsCode first (0xD800 + (c.toNat - 0x10000) / 0x400))
    (hsecond : SpellsCode second (0xDC00 + (c.toNat - 0x10000) % 0x400)) (rest : Bytes) :
    escaped.run (ascii "\\u" ++ first ++ (ascii "\\u" ++ second ++ rest)) =
      .ok (assigned c.val) rest := by
  have hsmall : (c.toNat - 0x10000) / 0x400 < 0x400 := by
    have hvalid : c.toNat < 0x110000 := scalar_lt c
    omega
  rw [escaped_two hfirst hsecond (ucnToUtf8_first hsmall), pair_code hhigh, pass_scalar]

theorem character_scalar : ReadsSpelling SpellsScalar fun c => assigned c.val := by
  intro c word rest h
  apply alt_left
  cases h with
  | single hlow hdigits => exact escaped_single hdigits rest
  | pair hhigh hfirst hsecond =>
      rw [List.append_assoc]
      exact escaped_pair hhigh hfirst hsecond rest

/-! ## The bytes of a scalar -/

/-- The lead byte, before it is cut to eight bits. -/
def lead (code : UInt32) : UInt32 :=
  if 0x04000000 ≤ code then (0xFC : UInt32) ||| ((code >>> 30) &&& 0x01)
  else if 0x00200000 ≤ code then (0xF8 : UInt32) ||| ((code >>> 24) &&& 0x03)
  else if 0x00010000 ≤ code then (0xF0 : UInt32) ||| ((code >>> 18) &&& 0x07)
  else if 0x00000800 ≤ code then (0xE0 : UInt32) ||| ((code >>> 12) &&& 0x0F)
  else if 0x00000080 ≤ code then (0xC0 : UInt32) ||| ((code >>> 6) &&& 0x1F)
  else code

/-- The continuation byte the loop takes from the lowest six bits. -/
def continuation (code : UInt32) : Byte := ((0x80 : UInt32) ||| (code &&& 0x3F)).toUInt8

theorem assigned_eq (c : Char) : assigned c.val = (lead c.val).toUInt8 :: trail 6 c.val [] := by
  rw [assigned, ucnToUtf8, if_neg (not_surrogate c)]
  rfl

section Trail

variable {rounds : Nat} {code : UInt32} {seq : Bytes}

theorem trail_next (h : 0x80 ≤ code.toNat) :
    trail (rounds + 1) code seq = trail rounds (code >>> 6) (continuation code :: seq) := by
  have hle : (0x80 : UInt32) ≤ code := UInt32.le_iff_toNat_le.mpr h
  rw [trail, if_pos hle, continuation]

theorem trail_end (h : code.toNat < 0x80) : trail rounds code seq = seq := by
  cases rounds with
  | zero => rfl
  | succ rounds =>
      have hle : ¬ (0x80 : UInt32) ≤ code := fun hle =>
        absurd (UInt32.le_iff_toNat_le.mp hle) (Nat.not_le_of_lt h)
      rw [trail, if_neg hle]

theorem toNat_shift (code : UInt32) : (code >>> 6).toNat = code.toNat / 64 := by
  rw [UInt32.toNat_shiftRight, Nat.shiftRight_eq_div_pow]
  rfl

theorem trail_one (h : 0x80 ≤ code.toNat) (hend : code.toNat < 0x2000) :
    trail 6 code [] = [continuation code] := by
  have hshift := toNat_shift code
  rw [trail_next h, trail_end (by omega)]

theorem trail_two (h : 0x2000 ≤ code.toNat) (hend : code.toNat < 0x80000) :
    trail 6 code [] = [continuation (code >>> 6), continuation code] := by
  have hshift := toNat_shift code
  have hshift₂ := toNat_shift (code >>> 6)
  rw [trail_next (by omega), trail_next (by omega), trail_end (by omega)]

theorem trail_three (h : 0x80000 ≤ code.toNat) (hend : code.toNat < 0x2000000) :
    trail 6 code [] =
      [continuation (code >>> 6 >>> 6), continuation (code >>> 6), continuation code] := by
  have hshift := toNat_shift code
  have hshift₂ := toNat_shift (code >>> 6)
  have hshift₃ := toNat_shift (code >>> 6 >>> 6)
  rw [trail_next (by omega), trail_next (by omega), trail_next (by omega), trail_end (by omega)]

end Trail

/-- Scalars for which the loop emits as many continuation bytes as the lead byte announces. -/
def Whole (c : Char) : Prop :=
  (c.toNat < 0x800 ∨ 0x2000 ≤ c.toNat) ∧ (c.toNat < 0x10000 ∨ 0x80000 ≤ c.toNat)

instance (c : Char) : Decidable (Whole c) := inferInstanceAs (Decidable (_ ∧ _))

section Classes

variable {c : Char}

theorem le_val (bound : UInt32) : bound ≤ c.val ↔ bound.toNat ≤ c.toNat := UInt32.le_iff_toNat_le

theorem val_le (bound : UInt32) : c.val ≤ bound ↔ c.toNat ≤ bound.toNat := UInt32.le_iff_toNat_le

theorem lt_val (bound : UInt32) : bound < c.val ↔ bound.toNat < c.toNat := UInt32.lt_iff_toNat_lt

theorem utf8Size_one (h : c.toNat < 0x80) : c.utf8Size = 1 := by
  simp only [Char.utf8Size_eq_one_iff, val_le, UInt32.reduceToNat]
  omega

theorem utf8Size_two (h : 0x80 ≤ c.toNat) (hend : c.toNat < 0x800) : c.utf8Size = 2 := by
  simp only [Char.utf8Size_eq_two_iff, val_le, lt_val, UInt32.reduceToNat]
  omega

theorem utf8Size_three (h : 0x800 ≤ c.toNat) (hend : c.toNat < 0x10000) : c.utf8Size = 3 := by
  simp only [Char.utf8Size_eq_three_iff, val_le, lt_val, UInt32.reduceToNat]
  omega

theorem utf8Size_four (h : 0x10000 ≤ c.toNat) : c.utf8Size = 4 := by
  simp only [Char.utf8Size_eq_four_iff, lt_val, UInt32.reduceToNat]
  omega

theorem continuation_eq (code : UInt32) : continuation code = code.toUInt8 &&& 0x3f ||| 0x80 := by
  rw [continuation, UInt32.toUInt8_or, UInt32.toUInt8_and, UInt8.or_comm]
  rfl

theorem shift_shift (code : UInt32) : code >>> 6 >>> 6 = code >>> 12 := by
  apply UInt32.toNat_inj.mp
  rw [toNat_shift, toNat_shift, UInt32.toNat_shiftRight, Nat.shiftRight_eq_div_pow,
    Nat.div_div_eq_div_mul]
  rfl

/-- The comparisons with which the lead byte is chosen. -/
theorem lead_cases :
    lead c.val =
      if 0x10000 ≤ c.toNat then (0xF0 : UInt32) ||| ((c.val >>> 18) &&& 0x07)
      else if 0x800 ≤ c.toNat then (0xE0 : UInt32) ||| ((c.val >>> 12) &&& 0x0F)
      else if 0x80 ≤ c.toNat then (0xC0 : UInt32) ||| ((c.val >>> 6) &&& 0x1F)
      else c.val := by
  have hlt := scalar_lt c
  simp only [lead, le_val, UInt32.reduceToNat]
  rw [if_neg (by omega), if_neg (by omega)]

/-- The bytes of a whole scalar are its UTF-8 encoding. -/
theorem assigned_whole (h : Whole c) : assigned c.val = String.utf8EncodeChar c := by
  obtain ⟨hthree, hfour⟩ := h
  have hlt := scalar_lt c
  have hnat : c.val.toNat = c.toNat := rfl
  rw [assigned_eq, lead_cases]
  by_cases h₄ : 0x10000 ≤ c.toNat
  · rw [String.utf8EncodeChar_eq_cons_cons_cons_cons (utf8Size_four h₄), if_pos h₄,
      trail_three (hfour.resolve_left (by omega)) (lt_trans hlt (by decide))]
    simp only [continuation_eq, shift_shift, UInt32.toUInt8_or, UInt32.toUInt8_and]
    rw [UInt8.or_comm]
    rfl
  · rw [if_neg h₄]
    by_cases h₃ : 0x800 ≤ c.toNat
    · rw [String.utf8EncodeChar_eq_cons_cons_cons (utf8Size_three h₃ (by omega)), if_pos h₃,
        trail_two (hthree.resolve_left (by omega)) (by omega)]
      simp only [continuation_eq, UInt32.toUInt8_or, UInt32.toUInt8_and]
      rw [UInt8.or_comm]
      rfl
    · rw [if_neg h₃]
      by_cases h₂ : 0x80 ≤ c.toNat
      · rw [String.utf8EncodeChar_eq_cons_cons (utf8Size_two h₂ (by omega)), if_pos h₂,
          trail_one h₂ (by omega)]
        simp only [continuation_eq, UInt32.toUInt8_or, UInt32.toUInt8_and]
        rw [UInt8.or_comm]
        rfl
      · rw [String.utf8EncodeChar_eq_singleton (utf8Size_one (by omega)), if_neg h₂,
          trail_end (by omega)]

/-- For any other scalar, one continuation byte is missing. -/
theorem length_assigned_lt (h : ¬Whole c) :
    (assigned c.val).length < (String.utf8EncodeChar c).length := by
  have hgap : (0x800 ≤ c.toNat ∧ c.toNat < 0x2000) ∨ (0x10000 ≤ c.toNat ∧ c.toNat < 0x80000) := by
    rw [Whole] at h
    omega
  have hnat : c.val.toNat = c.toNat := rfl
  rw [assigned_eq, List.length_cons, String.length_utf8EncodeChar]
  rcases hgap with ⟨hlow, hhigh⟩ | ⟨hlow, hhigh⟩
  · rw [trail_one (by omega) hhigh, utf8Size_three hlow (by omega)]
    exact Nat.lt_succ_self 2
  · rw [trail_two (by omega) hhigh, utf8Size_four hlow]
    exact Nat.lt_succ_self 3

end Classes

theorem length_assigned_le (c : Char) :
    (assigned c.val).length ≤ (String.utf8EncodeChar c).length := by
  by_cases h : Whole c
  · rw [assigned_whole h]
  · exact Nat.le_of_lt (length_assigned_lt h)

theorem length_flatMap_assigned_le (scalars : List Char) :
    (scalars.flatMap fun c => assigned c.val).length ≤
      (scalars.flatMap String.utf8EncodeChar).length := by
  induction scalars with
  | nil => exact Nat.le_refl 0
  | cons c scalars ih =>
      rw [List.flatMap_cons, List.flatMap_cons, List.length_append, List.length_append]
      exact Nat.add_le_add (length_assigned_le c) ih

/-- The bytes of a list of scalars are its UTF-8 encoding only if every one of them is. -/
theorem flatMap_assigned_iff (scalars : List Char) :
    (scalars.flatMap fun c => assigned c.val) = scalars.flatMap String.utf8EncodeChar ↔
      ∀ c ∈ scalars, Whole c := by
  constructor
  · intro heq
    induction scalars with
    | nil =>
        intro c hmem
        cases hmem
    | cons c scalars ih =>
        rw [List.flatMap_cons, List.flatMap_cons] at heq
        have htotal := congrArg List.length heq
        rw [List.length_append, List.length_append] at htotal
        -- neither summand can be longer than it should be, so none is shorter
        have hfirst := length_assigned_le c
        have hrest := length_flatMap_assigned_le scalars
        have hlength : (assigned c.val).length = (String.utf8EncodeChar c).length := by omega
        obtain ⟨-, htail⟩ := List.append_inj heq hlength
        rintro d (_ | ⟨_, hmem⟩)
        · by_contra hpartial
          exact absurd hlength (Nat.ne_of_lt (length_assigned_lt hpartial))
        · exact ih htail d hmem
  · intro hwhole
    rw [List.flatMap_def, List.flatMap_def]
    apply congrArg
    apply List.map_congr_left
    intro c hmem
    exact assigned_whole (hwhole c hmem)

/-- A literal of `\u` escapes is decoded to UTF-8 just when all its scalars are whole. -/
theorem parseJson_scalars_iff {scalars : List Char} {written text : Bytes}
    (hwritten : Spelled SpellsScalar scalars written)
    (htext : Spaced [[byte '['], literal written, [byte ']']] text) :
    parseJson text = .ok (.array [.string (scalars.flatMap String.utf8EncodeChar)]) ↔
      ∀ c ∈ scalars, Whole c := by
  rw [parseJson_spelled character_scalar hwritten htext, parsed_string_inj,
    flatMap_assigned_iff]

theorem parseJson_scalars_acute :
    parseJson (ascii "[\"\\u00E9\"]") = .ok (.array [.string [0xC3, 0xA9]]) := by
  have hcode : SpellsCode (ascii "00E9") (Char.toNat 'é') := ⟨rfl, by decide, by decide⟩
  have hwritten : Spelled SpellsScalar ['é'] (ascii "\\u00E9") :=
    @Spelled.cons _ _ _ _ _ [] (SpellsScalar.single (by decide) hcode) .nil
  apply (parseJson_scalars_iff hwritten (spaced_literal _)).mpr
  intro c hmem
  rw [List.mem_singleton.mp hmem]
  decide

/-- One continuation byte of U+0E01 is lost. -/
theorem not_parseJson_scalars :
    ¬ ∀ (scalars : List Char) (written text : Bytes), Spelled SpellsScalar scalars written →
      Spaced [[byte '['], literal written, [byte ']']] text →
        parseJson text = .ok (.array [.string (scalars.flatMap String.utf8EncodeChar)]) := by
  intro hall
  have hcode : SpellsCode (ascii "0e01") (Char.toNat 'ก') := ⟨rfl, by decide, by decide⟩
  have hwritten : Spelled SpellsScalar ['ก'] (ascii "\\u0e01") :=
    @Spelled.cons _ _ _ _ _ [] (SpellsScalar.single (by decide) hcode) .nil
  have hdecoded := parseJson_spelled character_scalar hwritten (spaced_literal _)
  rw [hall _ _ _ hwritten (spaced_literal _), parsed_string_inj, eq_comm,
    flatMap_assigned_iff] at hdecoded
  exact absurd (hdecoded 'ก' (List.mem_singleton.mpr rfl)) (by decide)

/-! ## Short escapes -/

/-- The spellings of an ASCII character without `\u` escapes. -/
inductive SpellsShort : Byte → Bytes → Prop where
  | backspace : SpellsShort 0x08 (ascii "\\b")
  | tab : SpellsShort 0x09 (ascii "\\t")
  | lineFeed : SpellsShort 0x0A (ascii "\\n")
  | formFeed : SpellsShort 0x0C (ascii "\\f")
  | carriageReturn : SpellsShort 0x0D (ascii "\\r")
  | quote : SpellsShort (byte '"') (ascii "\\\"")
  | backslash : SpellsShort (byte '\\') (ascii "\\\\")
  | solidus : SpellsShort (byte '/') (ascii "\\/")
  | plain {b : Byte} (h : isPlain b = true) : SpellsShort b [b]

/-- What the arithmetic on the escape letter makes of a control character. -/
def mistaken (b : Byte) : Byte :=
  if b = 0x08 then byte 'b' - byte 'a'
  else if b = 0x09 then byte 't' - byte 'a'
  else if b = 0x0A then byte 'n' - byte 'a'
  else if b = 0x0C then byte 'f' - byte 'a'
  else if b = 0x0D then byte 'r' - byte 'a'
  else b

theorem mistaken_printable {b : Byte} (h : 0x20 ≤ b) : mistaken b = b := by
  have hne : ∀ c : Byte, c < 0x20 → b ≠ c := by
    rintro c hlt rfl
    exact absurd h (not_le_of_gt hlt)
  rw [mistaken, if_neg (hne _ (by decide)), if_neg (hne _ (by decide)), if_neg (hne _ (by decide)),
    if_neg (hne _ (by decide)), if_neg (hne _ (by decide))]

section Backslash

variable {b : Byte} {rest : Bytes}

theorem backslash_run :
    escaped.run (byte '\\' :: rest) =
      (alt
        (do lit (ascii "\\")
            alt
              (do let c ← satisfy (fun b => b ∈ ascii "bfnrt")
                  return [c - byte 'a'])
              (do let c ← satisfy (fun b => b ∈ ascii "/\\\"")
                  return [c]))
        (alt
          (do let code ← ucnCode
              pass (ucnToUtf8 code))
          (do let first ← ucnCode
              let second ← must ucnCode
              pass (ucnToUtf8 (pairCode first second))))).run
        (byte '\\' :: rest) := by
  have hentity : (lit (ascii "&")).run (byte '\\' :: rest) = .fail := lit_fail_first rfl (by decide)
  rw [escaped, alt_right (bind_fail hentity)]
  rfl

/-- A letter behind the backslash counts from `a`. -/
theorem escaped_letter (h : b ∈ ascii "bfnrt") :
    escaped.run (byte '\\' :: b :: rest) = .ok [b - byte 'a'] rest := by
  have hbackslash : (lit (ascii "\\")).run (byte '\\' :: b :: rest) = .ok () (b :: rest) :=
    lit_append (ascii "\\") (b :: rest)
  rw [backslash_run]
  apply alt_left
  have hletter : (satisfy fun b => b ∈ ascii "bfnrt").run (b :: rest) = .ok b rest :=
    satisfy_ok (decide_eq_true h)
  rw [bind_ok hbackslash]
  apply alt_left
  rw [bind_ok hletter, run_pure]

/-- Any of the other three stands for itself. -/
theorem escaped_same (h : b ∈ ascii "/\\\"") :
    escaped.run (byte '\\' :: b :: rest) = .ok [b] rest := by
  have hbackslash : (lit (ascii "\\")).run (byte '\\' :: b :: rest) = .ok () (b :: rest) :=
    lit_append (ascii "\\") (b :: rest)
  have hdisjoint : ∀ c ∈ ascii "/\\\"", c ∉ ascii "bfnrt" := by decide
  have hletter : (satisfy fun b => b ∈ ascii "bfnrt").run (b :: rest) = .fail :=
    satisfy_fail (decide_eq_false (hdisjoint b h))
  have hsame : (satisfy fun b => b ∈ ascii "/\\\"").run (b :: rest) = .ok b rest :=
    satisfy_ok (decide_eq_true h)
  rw [backslash_run]
  apply alt_left
  rw [bind_ok hbackslash, alt_right (bind_fail hletter), bind_ok hsame, run_pure]

end Backslash

theorem character_short : ReadsSpelling SpellsShort fun b => [mistaken b] := by
  intro b word rest h
  cases h with
  | backspace => exact alt_left (escaped_letter (by decide))
  | tab => exact alt_left (escaped_letter (by decide))
  | lineFeed => exact alt_left (escaped_letter (by decide))
  | formFeed => exact alt_left (escaped_letter (by decide))
  | carriageReturn => exact alt_left (escaped_letter (by decide))
  | quote => exact alt_left (escaped_same (by decide))
  | backslash => exact alt_left (escaped_same (by decide))
  | solidus => exact alt_left (escaped_same (by decide))
  | plain hplain =>
      have hprintable : 0x20 ≤ b := by
        simp only [isPlain, Bool.and_eq_true, decide_eq_true_eq] at hplain
        exact hplain.1.1.1.1
      have hsame : mistaken b = b := mistaken_printable hprintable
      change character.run (b :: rest) = .ok [mistaken b] rest
      rw [hsame]
      exact character_plain hplain

/-- A spelled character is printable, or one of the five that have a letter of their own. -/
theorem SpellsShort.cases_byte {b : Byte} {word : Bytes} (h : SpellsShort b word) :
    0x20 ≤ b ∨ mistaken b ≠ b := by
  cases h with
  | backspace => exact Or.inr (by decide)
  | tab => exact Or.inr (by decide)
  | lineFeed => exact Or.inr (by decide)
  | formFeed => exact Or.inr (by decide)
  | carriageReturn => exact Or.inr (by decide)
  | quote => exact Or.inl (by decide)
  | backslash => exact Or.inl (by decide)
  | solidus => exact Or.inl (by decide)
  | plain hplain =>
      left
      simp only [isPlain, Bool.and_eq_true, decide_eq_true_eq] at hplain
      exact hplain.1.1.1.1

theorem map_mistaken_iff {chars written : Bytes} (hwritten : Spelled SpellsShort chars written) :
    chars.map mistaken = chars ↔ ∀ b ∈ chars, 0x20 ≤ b := by
  induction hwritten with
  | nil => exact ⟨fun _ b hmem => (List.not_mem_nil hmem).elim, fun _ => rfl⟩
  | @cons b chars word text hword _ ih =>
      rw [List.map_cons, List.cons.injEq, ih, List.forall_mem_cons]
      constructor
      · rintro ⟨hsame, hrest⟩
        exact ⟨hword.cases_byte.resolve_right (fun hne => hne hsame), hrest⟩
      · rintro ⟨hprintable, hrest⟩
        exact ⟨mistaken_printable hprintable, hrest⟩

/-- A literal with short escapes is decoded to the string just when no control character had to
be escaped. -/
theorem parseJson_short_iff {chars written text : Bytes}
    (hwritten : Spelled SpellsShort chars written)
    (htext : Spaced [[byte '['], literal written, [byte ']']] text) :
    parseJson text = .ok (.array [.string chars]) ↔ ∀ b ∈ chars, 0x20 ≤ b := by
  rw [parseJson_spelled character_short hwritten htext, parsed_string_inj,
    ← List.map_eq_flatMap, map_mistaken_iff hwritten]

theorem parseJson_short_quoted :
    parseJson (ascii "[\"a\\/\\\"\"]") = .ok (.array [.string (ascii "a/\"")]) := by
  have hwritten : Spelled SpellsShort (ascii "a/\"") (ascii "a\\/\\\"") :=
    @Spelled.cons _ _ _ _ _ _ (SpellsShort.plain (by decide))
      (.cons SpellsShort.solidus (@Spelled.cons _ _ _ _ _ [] SpellsShort.quote .nil))
  exact (parseJson_short_iff hwritten (spaced_literal _)).mpr (by decide)

/-- An escaped line feed becomes a carriage return. -/
theorem not_parseJson_short :
    ¬ ∀ chars written text : Bytes, Spelled SpellsShort chars written →
      Spaced [[byte '['], literal written, [byte ']']] text →
        parseJson text = .ok (.array [.string chars]) := by
  intro hall
  have hwritten : Spelled SpellsShort [0x0A] (ascii "\\n") :=
    @Spelled.cons _ _ _ _ _ [] SpellsShort.lineFeed .nil
  have hdecoded := parseJson_spelled character_short hwritten (spaced_literal _)
  rw [hall _ _ _ hwritten (spaced_literal _), parsed_string_inj] at hdecoded
  exact absurd hdecoded (by decide)

end BlackCircle.Json.Escapes
