import BlackCircle.Foundation.Numeral

/-!
# Escapes and base64

`url_escape` and `base64_encode`, and the decoder that takes an escape apart
again.  A `char` is its unsigned byte here: the sign extension of a shifted
negative `char` is masked away in the source, and no negative `char` is
alphanumeric.
-/

namespace BlackCircle.Oauth.Encode

open BlackCircle.Foundation.ByteString
open BlackCircle.Foundation.Numeral

/-! ## `url_escape` -/

def hex : Bytes := ascii "0123456789ABCDEF"

/-- `hexanizer`: `head` and the two hexadecimal digits of `c`, behind `s`. -/
def hexanizer (head s : Bytes) (c : Byte) : Bytes :=
  s ++ head ++ [hex.getD ((c >>> 4) &&& 0xF).toNat 0, hex.getD (c &&& 0xF).toNat 0]

def isalnum (c : Byte) : Bool :=
  (byte '0' ≤ c && c ≤ byte '9') || (byte 'a' ≤ c && c ≤ byte 'z') ||
    (byte 'A' ≤ c && c ≤ byte 'Z')

/-- The bytes that stand for themselves in an escape. -/
def isUnreserved (c : Byte) : Bool :=
  isalnum c || c == byte '-' || c == byte '.' || c == byte '_' || c == byte '~'

def doEscape (str : Bytes) (c : Byte) : Bytes :=
  if isUnreserved c then str ++ [c] else hexanizer [byte '%'] str c

def urlEscape (s : Bytes) : Bytes := s.foldl doEscape []

/-! ## `base64_encode` -/

def base64ConvertSingle (c : Byte) : Byte :=
  if c < 26 then byte 'A' + c
  else if c < 52 then byte 'a' + c - 26
  else if c < 62 then byte '0' + c - 52
  else if c = 62 then byte '+'
  else if c = 63 then byte '/'
  else byte '='

/-- The four characters for the bits of up to three bytes. -/
def base64Group (tmp : UInt32) (pad : Nat) : Bytes :=
  [base64ConvertSingle ((tmp >>> 18) &&& 0x3F).toUInt8,
    base64ConvertSingle ((tmp >>> 12) &&& 0x3F).toUInt8,
    if pad > 1 then byte '=' else base64ConvertSingle ((tmp >>> 6) &&& 0x3F).toUInt8,
    if pad > 0 then byte '=' else base64ConvertSingle (tmp &&& 0x3F).toUInt8]

/-- Three bytes as one number. -/
def base64Bits (a b c : Byte) : UInt32 :=
  (((a.toUInt32 <<< 8) ||| b.toUInt32) <<< 8) ||| c.toUInt32

def base64Encode : Bytes → Bytes
  | [] => []
  | [a] => base64Group (base64Bits a 0 0) 2
  | [a, b] => base64Group (base64Bits a b 0) 1
  | a :: b :: c :: src => base64Group (base64Bits a b c) 0 ++ base64Encode src

/-! ## Reading an escape -/

/-- Every `%` and the two digits behind it stand for one byte. -/
def percentDecode : Bytes → Bytes
  | b :: hi :: lo :: rest =>
      if b = byte '%' then UInt8.ofNat (value 16 [hi, lo]) :: percentDecode rest
      else b :: percentDecode (hi :: lo :: rest)
  | rest => rest

theorem percentDecode_cons_of_ne {b : Byte} (hne : b ≠ byte '%') (rest : Bytes) :
    percentDecode (b :: rest) = b :: percentDecode rest := by
  match rest with
  | [] => rfl
  | [_] => rfl
  | hi :: lo :: rest => rw [percentDecode, if_neg hne]

/-- The escape of one byte. -/
def escapeByte (c : Byte) : Bytes := doEscape [] c

theorem doEscape_eq (str : Bytes) (c : Byte) : doEscape str c = str ++ escapeByte c := by
  unfold escapeByte doEscape
  split
  · simp
  · simp [hexanizer]

theorem urlEscape_eq (s : Bytes) : urlEscape s = s.flatMap escapeByte := by
  suffices hfold : ∀ str, s.foldl doEscape str = str ++ s.flatMap escapeByte by
    exact hfold []
  induction s with
  | nil => simp
  | cons c s ih =>
      intro str
      rw [List.foldl_cons, ih, doEscape_eq, List.flatMap_cons, List.append_assoc]

theorem digitValue_hex {n : Nat} (h : n < 16) : digitValue (hex.getD n 0) = n := by
  interval_cases n <;> decide

theorem value_hex {m n : Nat} (hm : m < 16) (hn : n < 16) :
    value 16 [hex.getD m 0, hex.getD n 0] = 16 * m + n := by
  simp only [value, List.foldl_cons, List.foldl_nil, digitValue_hex hm, digitValue_hex hn]
  omega

theorem nibble_lt (d : Byte) : (d &&& 0xF).toNat < 16 := by
  have hbound : d.toNat &&& (0xF : UInt8).toNat ≤ (0xF : UInt8).toNat := Nat.and_le_right
  rw [UInt8.toNat_and]
  exact Nat.lt_of_le_of_lt hbound (by decide)

theorem toNat_nibbles (c : Byte) :
    16 * ((c >>> 4) &&& 0xF).toNat + (c &&& 0xF).toNat = c.toNat := by
  have hlow : (c &&& 0xF).toNat = c.toNat % 16 := by
    rw [UInt8.toNat_and]
    exact Nat.and_two_pow_sub_one_eq_mod c.toNat 4
  have hhigh : ((c >>> 4) &&& 0xF).toNat = c.toNat / 16 := by
    have hlt := c.toNat_lt
    have hshift : (c >>> 4).toNat = c.toNat / 16 := by
      rw [UInt8.toNat_shiftRight]
      exact Nat.shiftRight_eq_div_pow c.toNat 4
    rw [UInt8.toNat_and, hshift]
    have hmask : c.toNat / 16 &&& (0xF : UInt8).toNat = c.toNat / 16 % 16 :=
      Nat.and_two_pow_sub_one_eq_mod _ 4
    omega
  omega

/-- An escaped byte is read back, whatever follows it. -/
theorem percentDecode_escapeByte (c : Byte) (rest : Bytes) :
    percentDecode (escapeByte c ++ rest) = c :: percentDecode rest := by
  unfold escapeByte doEscape
  split
  · rename_i hplain
    have hne : c ≠ byte '%' := by
      rintro rfl
      revert hplain
      decide
    exact percentDecode_cons_of_ne hne rest
  · have hvalue : value 16 [hex.getD ((c >>> 4) &&& 0xF).toNat 0, hex.getD (c &&& 0xF).toNat 0] =
        c.toNat := by
      rw [value_hex (nibble_lt (c >>> 4)) (nibble_lt c)]
      exact toNat_nibbles c
    rw [hexanizer, List.nil_append, List.singleton_append, List.cons_append, List.cons_append,
      List.cons_append, List.nil_append, percentDecode, if_pos rfl, hvalue, UInt8.ofNat_toNat]

/-- Decoding undoes the escape of any byte string. -/
theorem percentDecode_urlEscape (s : Bytes) : percentDecode (urlEscape s) = s := by
  rw [urlEscape_eq]
  induction s with
  | nil => rfl
  | cons c s ih => rw [List.flatMap_cons, percentDecode_escapeByte, ih]

/-- A text without escapes decodes to itself. -/
theorem percentDecode_of_notMem {text : Bytes} (h : byte '%' ∉ text) :
    percentDecode text = text := by
  induction text with
  | nil => rfl
  | cons b text ih =>
      rw [List.mem_cons, not_or] at h
      rw [percentDecode_cons_of_ne (Ne.symm h.1), ih h.2]

theorem urlEscape_ne_nil {s : Bytes} (h : s ≠ []) : urlEscape s ≠ [] := by
  intro hnil
  have hdecode := percentDecode_urlEscape s
  rw [hnil] at hdecode
  exact h hdecode.symm

/-! ## The bytes of an escape -/

def isEscaped (c : Byte) : Bool := isUnreserved c || c == byte '%'

theorem isEscaped_hex {n : Nat} (h : n < 16) : isEscaped (hex.getD n 0) = true := by
  interval_cases n <;> decide

theorem isEscaped_of_mem {s : Bytes} {b : Byte} (h : b ∈ urlEscape s) : isEscaped b = true := by
  rw [urlEscape_eq] at h
  obtain ⟨c, -, hb⟩ := List.mem_flatMap.mp h
  unfold escapeByte doEscape at hb
  split at hb
  · rename_i hplain
    rw [List.nil_append, List.mem_singleton] at hb
    simp [isEscaped, hb, hplain]
  · simp only [hexanizer, List.nil_append, List.cons_append, List.mem_cons, List.not_mem_nil,
      or_false] at hb
    rcases hb with rfl | rfl | rfl
    · decide
    · exact isEscaped_hex (nibble_lt (c >>> 4))
    · exact isEscaped_hex (nibble_lt c)

theorem notMem_urlEscape {b : Byte} (h : isEscaped b = false) (s : Bytes) : b ∉ urlEscape s := by
  intro hmem
  rw [isEscaped_of_mem hmem] at h
  cases h

end BlackCircle.Oauth.Encode
