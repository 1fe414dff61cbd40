import Mathlib.Data.List.Basic

/-!
# Texts in UTF-8 and UTF-16

The encodings of a text, character by character, and how they are taken apart
again: the first character of a UTF-8 string, and the characters of a sequence of
UTF-16 units, in which a lone surrogate stands for the replacement character.
A byte below `0x80` is a character of its own wherever it occurs in UTF-8.
-/

namespace BlackCircle.Foundation.Unicode

/-! ## UTF-8 -/

def encode (text : List Char) : List UInt8 := text.flatMap String.utf8EncodeChar

@[simp]
theorem encode_nil : encode [] = [] := rfl

theorem encode_cons (c : Char) (text : List Char) :
    encode (c :: text) = String.utf8EncodeChar c ++ encode text := rfl

theorem encode_append (text more : List Char) :
    encode (text ++ more) = encode text ++ encode more :=
  List.flatMap_append

theorem encode_singleton (c : Char) : encode [c] = String.utf8EncodeChar c :=
  List.flatMap_singleton _ _

/-- A byte that does not begin a character. -/
def isContinuation (b : UInt8) : Bool := 0x80 ≤ b && b < 0xC0

/-- How many characters begin in a string. -/
def characters (bytes : List UInt8) : Nat := bytes.countP fun b => !isContinuation b

theorem characters_append (bytes more : List UInt8) :
    characters (bytes ++ more) = characters bytes + characters more :=
  List.countP_append

/-- The first character and what is behind it, where a string starts with one. -/
def decodeHead (bytes : List UInt8) : Option (Char × List UInt8) :=
  (bytes.toByteArray.utf8DecodeChar? 0).map fun c => (c, bytes.drop c.utf8Size)

theorem decodeHead_encode (c : Char) (rest : List UInt8) :
    decodeHead (String.utf8EncodeChar c ++ rest) = some (c, rest) := by
  have hlength : c.utf8Size = (String.utf8EncodeChar c).length :=
    (String.length_utf8EncodeChar c).symm
  rw [decodeHead, List.toByteArray_append, ByteArray.utf8DecodeChar?_utf8EncodeChar_append,
    Option.map_some, hlength, List.drop_left]

/-- Where a character is decoded, its encoding stands in front. -/
theorem decodeHead_eq_some {bytes rest : List UInt8} {c : Char}
    (h : decodeHead bytes = some (c, rest)) : bytes = String.utf8EncodeChar c ++ rest := by
  rw [decodeHead, Option.map_eq_some_iff] at h
  obtain ⟨found, hdecode, hfound⟩ := h
  rw [Prod.mk.injEq] at hfound
  obtain ⟨rfl, rfl⟩ := hfound
  obtain ⟨behind, hbytes⟩ := ByteArray.exists_of_utf8DecodeChar?_eq_some hdecode
  have hlist := congrArg (fun array => array.data.toList) hbytes
  simp only [ByteArray.data_append, Array.toList_append, List.data_toByteArray] at hlist
  rw [hlist, ← String.length_utf8EncodeChar, List.drop_left]

theorem isContinuation_ofNat (n : Nat) : isContinuation (UInt8.ofNat (n % 0x40 + 0x80)) = true := by
  simp only [isContinuation, Bool.and_eq_true, decide_eq_true_eq, UInt8.le_iff_toNat_le,
    UInt8.lt_iff_toNat_lt, UInt8.toNat_ofNat', UInt8.reduceToNat]
  omega

theorem leads_ofNat {n base : Nat} (hbase : 0xC0 ≤ base) (hn : n + base < 0x100) :
    0xC0 ≤ UInt8.ofNat (n + base) := by
  rw [UInt8.le_iff_toNat_le, UInt8.toNat_ofNat', Nat.mod_eq_of_lt hn]
  exact Nat.le_trans hbase (Nat.le_add_left base n)

theorem utf8EncodeChar_ascii {c : Char} (h : c.toNat < 0x80) :
    String.utf8EncodeChar c = [UInt8.ofNat c.toNat] := by
  have hle : c.val.toNat ≤ 0x7f := Nat.le_of_lt_succ h
  rw [String.utf8EncodeChar]
  exact if_pos hle

/-- The encoding of a character: one byte below `0x80`, or a byte that begins it and bytes
that do not. -/
theorem utf8EncodeChar_cases (c : Char) :
    (c.toNat < 0x80 ∧ String.utf8EncodeChar c = [UInt8.ofNat c.toNat]) ∨
      ∃ first more, String.utf8EncodeChar c = first :: more ∧ 0xC0 ≤ first ∧
        ∀ b ∈ more, isContinuation b = true := by
  rw [String.utf8EncodeChar]
  split
  case isTrue h => exact Or.inl ⟨Nat.lt_succ_of_le h, rfl⟩
  case isFalse =>
    right
    split
    case isTrue =>
      refine ⟨_, _, rfl, leads_ofNat (by decide) (by omega), ?_⟩
      simp only [List.mem_singleton, forall_eq, isContinuation_ofNat]
    case isFalse =>
      split
      case isTrue =>
        refine ⟨_, _, rfl, leads_ofNat (by decide) (by omega), ?_⟩
        simp only [List.mem_cons, List.not_mem_nil, or_false, forall_eq_or_imp, forall_eq,
          isContinuation_ofNat, and_self]
      case isFalse =>
        refine ⟨_, _, rfl, leads_ofNat (by decide) (by omega), ?_⟩
        simp only [List.mem_cons, List.not_mem_nil, or_false, forall_eq_or_imp, forall_eq,
          isContinuation_ofNat, and_self]

theorem not_isContinuation_of_lt {b : UInt8} (h : b < 0x80) : isContinuation b = false := by
  rw [isContinuation, Bool.and_eq_false_iff]
  exact Or.inl (decide_eq_false (UInt8.not_le.mpr h))

theorem not_isContinuation_of_leads {b : UInt8} (h : 0xC0 ≤ b) : isContinuation b = false := by
  rw [isContinuation, Bool.and_eq_false_iff]
  exact Or.inr (decide_eq_false (UInt8.not_lt.mpr h))

theorem ofNat_lt {n : Nat} (h : n < 0x80) : UInt8.ofNat n < 0x80 := by
  rw [UInt8.lt_iff_toNat_lt, UInt8.toNat_ofNat', Nat.mod_eq_of_lt (by omega)]
  exact h

/-- Where a character is cut, none begins. -/
theorem decodeHead_continuation {b : UInt8} (hb : isContinuation b = true) (tail : List UInt8) :
    decodeHead (b :: tail) = none := by
  cases hhead : decodeHead (b :: tail) with
  | none => rfl
  | some found =>
      obtain ⟨c, rest⟩ := found
      have hbytes := decodeHead_eq_some hhead
      rcases utf8EncodeChar_cases c with ⟨hsmall, hc⟩ | ⟨first, more, hc, hfirst, -⟩
      · rw [hc, List.singleton_append, List.cons.injEq] at hbytes
        rw [hbytes.1, not_isContinuation_of_lt (ofNat_lt hsmall)] at hb
        cases hb
      · rw [hc, List.cons_append, List.cons.injEq] at hbytes
        rw [hbytes.1, not_isContinuation_of_leads hfirst] at hb
        cases hb

theorem characters_utf8EncodeChar (c : Char) : characters (String.utf8EncodeChar c) = 1 := by
  rcases utf8EncodeChar_cases c with ⟨hsmall, hc⟩ | ⟨first, more, hc, hfirst, hmore⟩
  · rw [hc, characters, List.countP_singleton, not_isContinuation_of_lt (ofNat_lt hsmall)]
    rfl
  · have hnone : more.countP (fun b => !isContinuation b) = 0 := by
      rw [List.countP_eq_zero]
      intro b hb
      simp [hmore b hb]
    rw [hc, characters, List.countP_cons, hnone, not_isContinuation_of_leads hfirst]
    rfl

/-- A text has as many characters in UTF-8 as it has. -/
theorem characters_encode (text : List Char) : characters (encode text) = text.length := by
  induction text with
  | nil => rfl
  | cons c text ih =>
      rw [encode_cons, characters_append, characters_utf8EncodeChar, ih, List.length_cons,
        Nat.add_comm]

theorem length_encode_le (text : List Char) : (encode text).length ≤ 4 * text.length := by
  induction text with
  | nil => exact Nat.le_refl 0
  | cons c text ih =>
      have hc := c.utf8Size_le_four
      rw [encode_cons, List.length_append, String.length_utf8EncodeChar, List.length_cons]
      omega

/-- In the encoding of a character, a byte below `0x80` is all there is. -/
theorem utf8EncodeChar_of_mem {c : Char} {b : UInt8} (hb : b < 0x80)
    (hmem : b ∈ String.utf8EncodeChar c) : String.utf8EncodeChar c = [b] := by
  rcases utf8EncodeChar_cases c with ⟨-, hc⟩ | ⟨first, more, hc, hfirst, hmore⟩
  · rw [hc, List.mem_singleton] at hmem
    rw [hc, hmem]
  · exfalso
    rw [hc] at hmem
    rcases List.mem_cons.mp hmem with rfl | hlater
    · exact absurd (UInt8.lt_of_lt_of_le hb (UInt8.le_trans (by decide) hfirst))
        (UInt8.lt_irrefl b)
    · have hcont := hmore b hlater
      rw [not_isContinuation_of_lt hb] at hcont
      cases hcont

/-- A byte below `0x80` in the encoding of a text is a character of the text. -/
theorem mem_of_mem_encode {text : List Char} {b : UInt8} (hb : b < 0x80) (hmem : b ∈ encode text) :
    ∃ c ∈ text, c.toNat = b.toNat := by
  obtain ⟨c, hc, hin⟩ := List.mem_flatMap.mp hmem
  rcases utf8EncodeChar_cases c with ⟨hsmall, hencode⟩ | ⟨first, more, hencode, hfirst, -⟩
  · rw [hencode, List.mem_singleton] at hin
    refine ⟨c, hc, ?_⟩
    rw [hin, UInt8.toNat_ofNat', Nat.mod_eq_of_lt (by omega)]
  · have hwhole := hencode.symm.trans (utf8EncodeChar_of_mem hb hin)
    rw [List.cons.injEq] at hwhole
    rw [hwhole.1] at hfirst
    exact absurd (UInt8.lt_of_lt_of_le hb (UInt8.le_trans (by decide) hfirst)) (UInt8.lt_irrefl b)

/-- A string that is the encoding of a text. -/
def Valid (bytes : List UInt8) : Prop := ∃ text, bytes = encode text

theorem valid_nil : Valid [] := ⟨[], rfl⟩

theorem Valid.append {bytes more : List UInt8} (h : Valid bytes) (hmore : Valid more) :
    Valid (bytes ++ more) := by
  obtain ⟨text, rfl⟩ := h
  obtain ⟨text', rfl⟩ := hmore
  exact ⟨text ++ text', (encode_append text text').symm⟩

/-- A byte below `0x80` is a character of its own, between two texts. -/
theorem Valid.split {front behind : List UInt8} {b : UInt8} (hb : b < 0x80)
    (h : Valid (front ++ b :: behind)) : Valid front ∧ Valid [b] ∧ Valid behind := by
  obtain ⟨text, htext⟩ := h
  induction text generalizing front with
  | nil =>
      rw [encode_nil] at htext
      exact absurd htext (by simp)
  | cons c text ih =>
      rw [encode_cons] at htext
      rcases List.append_eq_append_iff.mp htext.symm with ⟨more, hfront, hrest⟩ | ⟨more, hc, hrest⟩
      · -- the first character lies in front of the byte
        obtain ⟨hmore, hbyte, hbehind⟩ := ih hrest.symm
        refine ⟨?_, hbyte, hbehind⟩
        rw [hfront]
        exact Valid.append ⟨[c], (encode_singleton c).symm⟩ hmore
      · cases more with
        | nil =>
            rw [List.append_nil] at hc
            obtain ⟨-, hbyte, hbehind⟩ := @ih [] (by simpa using hrest)
            exact ⟨⟨[c], by rw [encode_singleton, hc]⟩, hbyte, hbehind⟩
        | cons b' more =>
            rw [List.cons_append, List.cons.injEq] at hrest
            obtain ⟨rfl, rfl⟩ := hrest
            have hwhole : String.utf8EncodeChar c = [b] :=
              utf8EncodeChar_of_mem hb (hc ▸ List.mem_append_right front List.mem_cons_self)
            have hlength := congrArg List.length (hwhole.symm.trans hc)
            simp only [List.length_append, List.length_cons, List.length_nil] at hlength
            obtain rfl : front = [] := List.length_eq_zero_iff.mp (by omega)
            obtain rfl : more = [] := List.length_eq_zero_iff.mp (by omega)
            exact ⟨valid_nil, ⟨[c], by rw [encode_singleton, hwhole]⟩, text, rfl⟩

def replacement : Char := Char.ofNat 0xFFFD

/-- All characters of a string, the replacement character for each byte that belongs to none.
Every character takes at least one unit of fuel. -/
def decodeWithin : Nat → List UInt8 → List Char
  | 0, _ => []
  | _ + 1, [] => []
  | fuel + 1, b :: bytes =>
      match decodeHead (b :: bytes) with
      | some (c, rest) => c :: decodeWithin fuel rest
      | none => replacement :: decodeWithin fuel bytes

def decode (bytes : List UInt8) : List Char := decodeWithin bytes.length bytes

theorem decodeWithin_encode {fuel : Nat} {text : List Char} (hfuel : text.length ≤ fuel) :
    decodeWithin fuel (encode text) = text := by
  induction text generalizing fuel with
  | nil => cases fuel <;> rfl
  | cons c text ih =>
      obtain ⟨fuel, rfl⟩ := Nat.exists_eq_add_one_of_ne_zero (Nat.ne_zero_of_lt hfuel)
      have hhead := decodeHead_encode c (encode text)
      rw [← encode_cons] at hhead
      cases hbytes : encode (c :: text) with
      | nil =>
          rw [hbytes] at hhead
          cases hhead
      | cons b bytes =>
          rw [hbytes] at hhead
          rw [decodeWithin, hhead]
          dsimp only
          rw [ih (Nat.le_of_succ_le_succ hfuel)]

theorem length_le_encode (text : List Char) : text.length ≤ (encode text).length := by
  rw [← characters_encode]
  exact List.countP_le_length

theorem decode_encode (text : List Char) : decode (encode text) = text :=
  decodeWithin_encode (length_le_encode text)

/-! ## UTF-16 -/

/-- The UTF-16 units of a character. -/
def units (c : Char) : List Nat :=
  if c.toNat < 0x10000 then [c.toNat]
  else [0xD800 + (c.toNat - 0x10000) / 0x400, 0xDC00 + (c.toNat - 0x10000) % 0x400]

def isHighSurrogate (unit : Nat) : Bool := 0xD800 ≤ unit && unit < 0xDC00

def isLowSurrogate (unit : Nat) : Bool := 0xDC00 ≤ unit && unit < 0xE000

/-- A unit that is no part of a pair. -/
def single (unit : Nat) : Char :=
  if isHighSurrogate unit || isLowSurrogate unit then replacement else Char.ofNat unit

/-- The characters of a sequence of units. -/
def assemble : List Nat → List Char
  | [] => []
  | [unit] => [single unit]
  | high :: low :: rest =>
      if isHighSurrogate high && isLowSurrogate low then
        Char.ofNat (0x10000 + (high - 0xD800) * 0x400 + (low - 0xDC00)) :: assemble rest
      else single high :: assemble (low :: rest)

theorem toNat_valid (c : Char) : c.toNat < 0xD800 ∨ (0xDFFF < c.toNat ∧ c.toNat < 0x110000) :=
  c.valid

theorem assemble_single {unit : Nat} (h : isHighSurrogate unit = false) (rest : List Nat) :
    assemble (unit :: rest) = single unit :: assemble rest := by
  cases rest with
  | nil => rfl
  | cons low rest => rw [assemble, if_neg (by simp [h])]

theorem assemble_units (c : Char) (rest : List Nat) :
    assemble (units c ++ rest) = c :: assemble rest := by
  have hvalid := toNat_valid c
  rw [units]
  split
  case isTrue h =>
    have hhigh : isHighSurrogate c.toNat = false := by
      simp only [isHighSurrogate, Bool.and_eq_false_iff, decide_eq_false_iff_not]
      omega
    have hlow : isLowSurrogate c.toNat = false := by
      simp only [isLowSurrogate, Bool.and_eq_false_iff, decide_eq_false_iff_not]
      omega
    rw [List.singleton_append, assemble_single hhigh, single, hhigh, hlow, Char.ofNat_toNat]
    rfl
  case isFalse h =>
    have hhigh : isHighSurrogate (0xD800 + (c.toNat - 0x10000) / 0x400) = true := by
      simp only [isHighSurrogate, Bool.and_eq_true, decide_eq_true_eq]
      omega
    have hlow : isLowSurrogate (0xDC00 + (c.toNat - 0x10000) % 0x400) = true := by
      simp only [isLowSurrogate, Bool.and_eq_true, decide_eq_true_eq]
      omega
    have hcode : 0x10000 + (0xD800 + (c.toNat - 0x10000) / 0x400 - 0xD800) * 0x400 +
        (0xDC00 + (c.toNat - 0x10000) % 0x400 - 0xDC00) = c.toNat := by
      omega
    have hpair : (isHighSurrogate (0xD800 + (c.toNat - 0x10000) / 0x400) &&
        isLowSurrogate (0xDC00 + (c.toNat - 0x10000) % 0x400)) = true := by
      rw [hhigh, hlow]
      rfl
    rw [List.cons_append, List.cons_append, List.nil_append, assemble, if_pos hpair, hcode,
      Char.ofNat_toNat]

/-- UTF-16 is taken apart again, whatever follows. -/
theorem assemble_flatMap_units (text : List Char) (rest : List Nat) :
    assemble (text.flatMap units ++ rest) = text ++ assemble rest := by
  induction text with
  | nil => rfl
  | cons c text ih =>
      rw [List.flatMap_cons, List.append_assoc, assemble_units, ih, List.cons_append]

end BlackCircle.Foundation.Unicode
