import BlackCircle.Oauth.Encode

/-!
# Escapes of signed characters

`url_escape` over a `char` that has a sign.  A character is promoted to `int`
before it is compared, shifted or masked; a byte from `0x80` on is negative
there.  The escapes are those of the unsigned bytes: no negative character is
in a range of letters or digits, and the mask behind an arithmetic shift takes
the extended sign away again.
-/

namespace BlackCircle.Oauth.SignedChar

open BlackCircle.Foundation.ByteString
open BlackCircle.Foundation.Numeral
open BlackCircle.Oauth.Encode (percentDecode escapeByte)

/-! ## The functions -/

/-- The characters of a `string` that holds these bytes. -/
def chars (s : Bytes) : List Int8 := s.map UInt8.toInt8

/-- The bytes that a `string` holds. -/
def bytes (s : List Int8) : Bytes := s.map Int8.toUInt8

/-- A character literal, promoted to `int`. -/
def code (c : Char) : Int32 := Int32.ofNat c.toNat

def hex : List Int8 := chars Encode.hex

def hexanizer (head s : List Int8) (c : Int8) : List Int8 :=
  s ++ head ++ [hex.getD ((c.toInt32 >>> 4) &&& 0xF).toNatClampNeg 0,
    hex.getD (c.toInt32 &&& 0xF).toNatClampNeg 0]

def isalnum (c : Int32) : Bool :=
  (code '0' ≤ c && c ≤ code '9') || (code 'a' ≤ c && c ≤ code 'z') ||
    (code 'A' ≤ c && c ≤ code 'Z')

def isUnreserved (c : Int32) : Bool :=
  isalnum c || c == code '-' || c == code '.' || c == code '_' || c == code '~'

def doEscape (str : List Int8) (c : Int8) : List Int8 :=
  if isUnreserved c.toInt32 then str ++ [c] else hexanizer (chars (ascii "%")) str c

def urlEscape (s : List Int8) : List Int8 := s.foldl doEscape []

/-! ## Signs do not matter -/

@[simp]
theorem bytes_chars (s : Bytes) : bytes (chars s) = s := by
  rw [bytes, chars, List.map_map]
  exact List.map_id s

@[simp]
theorem chars_bytes (s : List Int8) : chars (bytes s) = s := by
  rw [bytes, chars, List.map_map]
  exact List.map_id s

theorem chars_append (s t : Bytes) : chars (s ++ t) = chars s ++ chars t := List.map_append

theorem bytes_append (s t : List Int8) : bytes (s ++ t) = bytes s ++ bytes t := List.map_append

/-- A fact about every byte is one about 256 numbers. -/
theorem forall_byte {p : Byte → Prop} (h : ∀ n < 256, p (UInt8.ofNat n)) (b : Byte) : p b := by
  have hb := h b.toNat b.toNat_lt
  rwa [UInt8.ofNat_toNat] at hb

/-- A negative character is in none of the ranges. -/
theorem isUnreserved_toInt8 (b : Byte) :
    isUnreserved b.toInt8.toInt32 = Encode.isUnreserved b := by
  revert b
  refine forall_byte ?_
  decide +kernel

/-- The mask takes the copies of the sign away. -/
theorem high_toInt8 (b : Byte) :
    ((b.toInt8.toInt32 >>> 4) &&& 0xF).toNatClampNeg = ((b >>> 4) &&& 0xF).toNat := by
  revert b
  refine forall_byte ?_
  decide +kernel

theorem low_toInt8 (b : Byte) : (b.toInt8.toInt32 &&& 0xF).toNatClampNeg = (b &&& 0xF).toNat := by
  revert b
  refine forall_byte ?_
  decide +kernel

theorem hex_getD (n : Nat) : hex.getD n 0 = (Encode.hex.getD n 0).toInt8 := by
  rw [hex, chars, List.getD_eq_getElem?_getD, List.getElem?_map, List.getD_eq_getElem?_getD]
  cases Encode.hex[n]? <;> rfl

theorem doEscape_toInt8 (str : Bytes) (b : Byte) :
    doEscape (chars str) b.toInt8 = chars (Encode.doEscape str b) := by
  rw [doEscape, Encode.doEscape, isUnreserved_toInt8]
  split
  · rw [chars_append]
    rfl
  · rw [hexanizer, Encode.hexanizer, high_toInt8, low_toInt8, hex_getD, hex_getD, chars_append,
      chars_append]
    rfl

/-- Signed characters are escaped as their bytes are. -/
theorem urlEscape_chars (s : Bytes) : urlEscape (chars s) = chars (Encode.urlEscape s) := by
  suffices hfold : ∀ str, (chars s).foldl doEscape (chars str) =
      chars (s.foldl Encode.doEscape str) by
    exact hfold []
  induction s with
  | nil => exact fun str => rfl
  | cons b s ih =>
      intro str
      have hchars : chars (b :: s) = b.toInt8 :: chars s := rfl
      rw [hchars, List.foldl_cons, doEscape_toInt8, List.foldl_cons]
      exact ih (Encode.doEscape str b)

theorem bytes_urlEscape (s : List Int8) : bytes (urlEscape s) = Encode.urlEscape (bytes s) := by
  have hchars := urlEscape_chars (bytes s)
  rw [chars_bytes] at hchars
  rw [hchars, bytes_chars]

/-! ## The shape of an escape -/

/-- The characters that need no escape. -/
def unreserved : Bytes :=
  ascii "ABCDEFGHIJKLMNOPQRSTUVWXYZabcdefghijklmnopqrstuvwxyz0123456789-._~"

/-- The hexadecimal digits, in upper case. -/
def upperHex : Bytes := ascii "0123456789ABCDEF"

/-- A piece of an escape: a character that needs none, or a `%` and two digits. -/
inductive Piece where
  | plain (b : Byte) (hplain : b ∈ unreserved)
  | triple (high low : Byte) (hhigh : high ∈ upperHex) (hlow : low ∈ upperHex)

namespace Piece

def text : Piece → Bytes
  | plain b _ => [b]
  | triple high low _ _ => [byte '%', high, low]

/-- The byte that a piece stands for. -/
def stands : Piece → Byte
  | plain b _ => b
  | triple high low _ _ => UInt8.ofNat (value 16 [high, low])

/-- No escape stands for a character that needs none. -/
def Canonical : Piece → Prop
  | plain _ _ => True
  | triple high low _ _ => UInt8.ofNat (value 16 [high, low]) ∉ unreserved

end Piece

/-- The text of some pieces. -/
def spelled (pieces : List Piece) : Bytes := pieces.flatMap Piece.text

@[simp]
theorem spelled_nil : spelled [] = [] := rfl

theorem spelled_cons (p : Piece) (pieces : List Piece) :
    spelled (p :: pieces) = p.text ++ spelled pieces := rfl

/-- The unreserved characters as numbers, range by range. -/
theorem map_toNat_unreserved : unreserved.map UInt8.toNat =
    List.range' 65 26 ++ List.range' 97 26 ++ List.range' 48 10 ++ [45, 46, 95, 126] := by
  decide +kernel

theorem mem_unreserved (b : Byte) : b ∈ unreserved ↔ Encode.isUnreserved b = true := by
  have hinj : Function.Injective UInt8.toNat := fun _ _ => UInt8.toNat_inj.mp
  rw [← List.mem_map_of_injective hinj, map_toNat_unreserved]
  simp [Encode.isUnreserved, Encode.isalnum, byte, List.mem_range'_1, UInt8.le_iff_toNat_le,
    ← UInt8.toNat_inj]
  omega

theorem hex_getD_eq {n : Nat} (h : n < upperHex.length) :
    Encode.hex.getD n 0 = upperHex[n] := by
  rw [List.getD_eq_getElem?_getD, Encode.hex, ← upperHex, List.getElem?_eq_getElem h,
    Option.getD_some]

theorem hex_mem {n : Nat} (h : n < 16) : Encode.hex.getD n 0 ∈ upperHex := by
  have hlength : n < upperHex.length := h
  rw [hex_getD_eq hlength]
  exact List.getElem_mem hlength

theorem exists_hex {c : Byte} (h : c ∈ upperHex) : ∃ n < 16, Encode.hex.getD n 0 = c := by
  obtain ⟨n, hn, hc⟩ := List.getElem_of_mem h
  exact ⟨n, hn, (hex_getD_eq hn).trans hc⟩

/-- The piece for one byte. -/
theorem exists_piece (c : Byte) : ∃ p : Piece, p.text = escapeByte c := by
  unfold escapeByte Encode.doEscape
  split
  · rename_i hplain
    exact ⟨.plain c ((mem_unreserved c).mpr hplain), rfl⟩
  · have hhigh := hex_mem (Encode.nibble_lt (c >>> 4))
    have hlow := hex_mem (Encode.nibble_lt c)
    exact ⟨.triple _ _ hhigh hlow, rfl⟩

theorem urlEscape_spelled (s : Bytes) :
    ∃ pieces, Encode.urlEscape s = spelled pieces := by
  rw [Encode.urlEscape_eq]
  induction s with
  | nil => exact ⟨[], rfl⟩
  | cons c s ih =>
      obtain ⟨pieces, hpieces⟩ := ih
      obtain ⟨p, hp⟩ := exists_piece c
      exact ⟨p :: pieces, by rw [List.flatMap_cons, hpieces, spelled_cons, hp]⟩

/-- Decoding takes the pieces apart. -/
theorem percentDecode_spelled (pieces : List Piece) :
    percentDecode (spelled pieces) = pieces.map Piece.stands := by
  induction pieces with
  | nil => rfl
  | cons p pieces ih =>
      rw [spelled_cons, List.map_cons, ← ih]
      cases p with
      | plain b hplain =>
          have hne : b ≠ byte '%' := by
            rintro rfl
            have hunreserved := (mem_unreserved (byte '%')).mp hplain
            revert hunreserved
            decide
          exact Encode.percentDecode_cons_of_ne hne _
      | triple high low hhigh hlow => rfl

/-- A triple that stands for no unreserved character is the escape of what it stands for. -/
theorem escapeByte_triple {high low : Byte} (hhigh : high ∈ upperHex) (hlow : low ∈ upperHex)
    (h : UInt8.ofNat (value 16 [high, low]) ∉ unreserved) :
    escapeByte (UInt8.ofNat (value 16 [high, low])) = [byte '%', high, low] := by
  obtain ⟨m, hm, rfl⟩ := exists_hex hhigh
  obtain ⟨n, hn, rfl⟩ := exists_hex hlow
  rw [mem_unreserved] at h
  rw [Encode.escapeByte, Encode.doEscape, if_neg h, Encode.value_hex hm hn]
  -- a byte has only one pair of nibbles
  have hlt : 16 * m + n < 256 := by omega
  have hbyte : (UInt8.ofNat (16 * m + n)).toNat = 16 * m + n := UInt8.toNat_ofNat_of_lt' hlt
  have hnibbles := Encode.toNat_nibbles (UInt8.ofNat (16 * m + n))
  have hhigh' := Encode.nibble_lt (UInt8.ofNat (16 * m + n) >>> 4)
  have hlow' := Encode.nibble_lt (UInt8.ofNat (16 * m + n))
  have hm' : ((UInt8.ofNat (16 * m + n) >>> 4) &&& 0xF).toNat = m := by omega
  have hn' : (UInt8.ofNat (16 * m + n) &&& 0xF).toNat = n := by omega
  rw [Encode.hexanizer, hm', hn']
  rfl

theorem Piece.Canonical.escapeByte {p : Piece} (h : p.Canonical) :
    escapeByte p.stands = p.text := by
  cases p with
  | plain b hplain =>
      rw [Piece.stands, Encode.escapeByte, Encode.doEscape, if_pos ((mem_unreserved b).mp hplain)]
      rfl
  | triple high low hhigh hlow => exact escapeByte_triple hhigh hlow h

theorem urlEscape_stands {pieces : List Piece} (h : ∀ p ∈ pieces, p.Canonical) :
    Encode.urlEscape (pieces.map Piece.stands) = spelled pieces := by
  rw [Encode.urlEscape_eq, List.flatMap_map, spelled]
  exact List.flatMap_congr fun p hp => (h p hp).escapeByte

/-- Every `string` is escaped to pieces and read back, a character at a time, and whatever is
spelled canonically is the escape of what it stands for. -/
theorem urlEscape_faithful :
    (∀ s, ∃ pieces, bytes (urlEscape s) = spelled pieces) ∧
      (∀ s, percentDecode (bytes (urlEscape s)) = bytes s) ∧
      (∀ s t, urlEscape (s ++ t) = urlEscape s ++ urlEscape t) ∧
      ∀ pieces : List Piece, (∀ p ∈ pieces, p.Canonical) →
        bytes (urlEscape (chars (percentDecode (spelled pieces)))) = spelled pieces := by
  refine ⟨?_, ?_, ?_, ?_⟩
  · intro s
    rw [bytes_urlEscape]
    exact urlEscape_spelled (bytes s)
  · intro s
    rw [bytes_urlEscape]
    exact Encode.percentDecode_urlEscape (bytes s)
  · intro s t
    rw [← chars_bytes (urlEscape (s ++ t)), ← chars_bytes (urlEscape s ++ urlEscape t),
      bytes_append, bytes_urlEscape, bytes_urlEscape, bytes_urlEscape, bytes_append,
      Encode.urlEscape_eq, Encode.urlEscape_eq, Encode.urlEscape_eq, List.flatMap_append]
  · intro pieces hcanonical
    rw [bytes_urlEscape, bytes_chars, percentDecode_spelled]
    exact urlEscape_stands hcanonical

end BlackCircle.Oauth.SignedChar
