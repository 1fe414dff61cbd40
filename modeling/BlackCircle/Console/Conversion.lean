import BlackCircle.Foundation.ByteString
import BlackCircle.Foundation.Unicode

/-!
# Conversion between narrow and wide strings

`extern_to_wide` and `wide_to_extern` for the encoding UTF-8, for the two kinds of
system that the source distinguishes.  On Windows (and Cygwin) the system converts
a string as a whole, and wide characters are UTF-16 units.  On the other systems
`iconv` converts into a buffer of 1024 bytes, and wide characters are code points
of four bytes, the lowest first; whenever `iconv` stops early, because of the input
or because the buffer is full, one byte of the input is dropped.
-/

namespace BlackCircle.Console.Conversion

open BlackCircle.Foundation.ByteString
open BlackCircle.Foundation.Unicode

inductive Platform where
  | win32
  | posix
  deriving DecidableEq, Repr

/-! ## Windows -/

/-- `MultiByteToWideChar` for UTF-8. -/
def multiByteToWideChar (seq : Bytes) : List Nat := (decode seq).flatMap units

/-- `WideCharToMultiByte` for UTF-8. -/
def wideCharToMultiByte (seq : List Nat) : Bytes := encode (assemble seq)

/-! ## Other systems -/

/-- `iconv` from UTF-8 to `wchar_t`, with room for so many wide characters: what it has
converted, and the input that is left. -/
def iconvToWide : Nat → Bytes → List Nat × Bytes
  | 0, inbuf => ([], inbuf)
  | room + 1, inbuf =>
      match decodeHead inbuf with
      | none => ([], inbuf)
      | some (c, rest) =>
          let (wide, left) := iconvToWide room rest
          (c.toNat :: wide, left)

/-- The bytes of a `wchar_t`. -/
def wideBytes (wide : Nat) : Bytes :=
  [UInt8.ofNat wide, UInt8.ofNat (wide / 0x100), UInt8.ofNat (wide / 0x10000),
    UInt8.ofNat (wide / 0x1000000)]

/-- The `wchar_t` that starts with these bytes. -/
def wideOf (b₀ b₁ b₂ b₃ : Byte) : Nat :=
  b₀.toNat + b₁.toNat * 0x100 + b₂.toNat * 0x10000 + b₃.toNat * 0x1000000

/-- `iconv` from `wchar_t` to UTF-8, with room for so many bytes. -/
def iconvToNarrow (room : Nat) : Bytes → Bytes × Bytes
  | b₀ :: b₁ :: b₂ :: b₃ :: rest =>
      let code := wideOf b₀ b₁ b₂ b₃
      let narrow := String.utf8EncodeChar (Char.ofNat code)
      if code.isValidChar ∧ narrow.length ≤ room then
        let (seq, left) := iconvToNarrow (room - narrow.length) rest
        (narrow ++ seq, left)
      else ([], b₀ :: b₁ :: b₂ :: b₃ :: rest)
  | inbuf => ([], inbuf)

/-- The loop around `iconv`.  Every round but the last drops a byte, so that one round more
than there are bytes is enough. -/
def convert {β : Type} (iconv : Bytes → List β × Bytes) : Nat → Bytes → List β
  | 0, _ => []
  | rounds + 1, inbuf =>
      match iconv inbuf with
      | (ret, []) => ret
      | (ret, _ :: left) => ret ++ convert iconv rounds left

def narrowToWide (str : Bytes) : List Nat := convert (iconvToWide 256) (str.length + 1) str

def wideToNarrow (seq : List Nat) : Bytes :=
  let inbuf := seq.flatMap wideBytes
  convert (iconvToNarrow 1024) (inbuf.length + 1) inbuf

theorem iconvToWide_encode {room : Nat} {text : List Char} (hroom : text.length ≤ room) :
    iconvToWide room (encode text) = (text.map Char.toNat, []) := by
  induction text generalizing room with
  | nil => cases room <;> rfl
  | cons c text ih =>
      obtain ⟨room, rfl⟩ := Nat.exists_eq_add_one_of_ne_zero (Nat.ne_zero_of_lt hroom)
      rw [encode_cons, iconvToWide, decodeHead_encode]
      dsimp only
      rw [ih (Nat.le_of_succ_le_succ hroom)]
      rfl

theorem wideOf_wideBytes {wide : Nat} (h : wide < 0x110000) :
    wideOf (UInt8.ofNat wide) (UInt8.ofNat (wide / 0x100)) (UInt8.ofNat (wide / 0x10000))
      (UInt8.ofNat (wide / 0x1000000)) = wide := by
  simp only [wideOf, UInt8.toNat_ofNat']
  omega

theorem iconvToNarrow_wide {room : Nat} {text : List Char}
    (hroom : (encode text).length ≤ room) :
    iconvToNarrow room ((text.map Char.toNat).flatMap wideBytes) = (encode text, []) := by
  induction text generalizing room with
  | nil => rfl
  | cons c text ih =>
      have hsmall : c.toNat < 0x110000 := by
        rcases toNat_valid c with h | ⟨-, h⟩
        · omega
        · exact h
      rw [encode_cons, List.length_append] at hroom
      rw [List.map_cons, List.flatMap_cons, wideBytes, List.cons_append, List.cons_append,
        List.cons_append, List.cons_append, List.nil_append, iconvToNarrow, wideOf_wideBytes hsmall,
        Char.ofNat_toNat]
      dsimp only
      rw [if_pos ⟨c.valid, by omega⟩, ih (by omega)]
      rfl

theorem convert_whole {β : Type} {iconv : Bytes → List β × Bytes} {inbuf : Bytes} {ret : List β}
    (h : iconv inbuf = (ret, [])) (rounds : Nat) : convert iconv (rounds + 1) inbuf = ret := by
  rw [convert, h]

/-! ## Both kinds -/

def externToWide : Platform → Bytes → List Nat
  | .win32 => multiByteToWideChar
  | .posix => narrowToWide

def wideToExtern : Platform → List Nat → Bytes
  | .win32 => wideCharToMultiByte
  | .posix => wideToNarrow

/-- How many characters are converted without loss: any number, or what `iconv` has room for. -/
def Platform.fits : Platform → Nat → Prop
  | .win32, _ => True
  | .posix, count => count ≤ 256

theorem Platform.fits_mono {platform : Platform} {count more : Nat} (hle : count ≤ more)
    (h : platform.fits more) : platform.fits count := by
  cases platform with
  | win32 => exact trivial
  | posix => exact Nat.le_trans hle h

/-- What is left of a character without its last wide character: half of a pair of surrogates
is converted to the replacement character. -/
def Platform.remnant : Platform → Char → List Char
  | .win32, c => if c.toNat < 0x10000 then [] else [replacement]
  | .posix, _ => []

theorem externToWide_ne_nil {platform : Platform} {text : List Char} {c : Char}
    (hfits : platform.fits (text.length + 1)) :
    externToWide platform (encode (text ++ [c])) ≠ [] := by
  cases platform with
  | win32 =>
      rw [externToWide, multiByteToWideChar, decode_encode, List.flatMap_append]
      refine List.append_ne_nil_of_right_ne_nil _ ?_
      rw [List.flatMap_singleton, units]
      split <;> exact List.cons_ne_nil _ _
  | posix =>
      have hroom : (text ++ [c]).length ≤ 256 := by
        rw [List.length_append]
        exact hfits
      rw [externToWide, narrowToWide, convert_whole (iconvToWide_encode hroom)]
      simp

/-- Converted to and fro without the last wide character, a text loses its last character. -/
theorem wideToExtern_dropLast {platform : Platform} {text : List Char} {c : Char}
    (hfits : platform.fits (text.length + 1)) :
    wideToExtern platform (externToWide platform (encode (text ++ [c]))).dropLast =
      encode (text ++ platform.remnant c) := by
  cases platform with
  | win32 =>
      rw [externToWide, multiByteToWideChar, decode_encode, List.flatMap_append,
        List.flatMap_singleton, wideToExtern, wideCharToMultiByte, Platform.remnant, units]
      split
      case isTrue =>
        have hwhole := assemble_flatMap_units text []
        rw [List.append_nil] at hwhole
        rw [List.dropLast_concat, hwhole]
        rfl
      case isFalse hlarge =>
        have hhigh : isHighSurrogate (0xD800 + (c.toNat - 0x10000) / 0x400) = true := by
          rcases toNat_valid c with h | ⟨-, h⟩
          · omega
          · simp only [isHighSurrogate, Bool.and_eq_true, decide_eq_true_eq]
            omega
        rw [List.dropLast_append_of_ne_nil (List.cons_ne_nil _ _), assemble_flatMap_units]
        change encode (text ++ [single (0xD800 + (c.toNat - 0x10000) / 0x400)]) = _
        rw [single, hhigh]
        rfl
  | posix =>
      have hwide : (text ++ [c]).length ≤ 256 := by
        rw [List.length_append]
        exact hfits
      have hnarrow : (encode text).length ≤ 1024 := by
        have hlength := length_encode_le text
        have hcount : text.length + 1 ≤ 256 := hfits
        omega
      rw [externToWide, narrowToWide, convert_whole (iconvToWide_encode hwide), List.map_append,
        List.map_singleton, List.dropLast_concat, wideToExtern, wideToNarrow,
        convert_whole (iconvToNarrow_wide hnarrow), Platform.remnant, List.append_nil]

end BlackCircle.Console.Conversion
