import BlackCircle.Oauth.SignedChar

/-!
# Base64

`base64_encode` for any type of elements: what a range holds enters the
accumulator by its conversion to `uint32_t`, so that the bits of a conversion
above the lowest eight fall on the elements in front of it in the same group.
The decoder of RFC 4648 is the reference.
-/

namespace BlackCircle.Oauth.Base64

open BlackCircle.Foundation.ByteString
open BlackCircle.Oauth.Encode (base64ConvertSingle base64Group base64Bits)

/-! ## The encoder -/

section Encoder

variable {α : Type} (word : α → UInt32)

/-- A turn of the inner loop on `tmp`, with the element that it takes, if there is one. -/
def shiftIn (tmp : UInt32) : Option α → UInt32
  | some a => (tmp <<< 8) ||| word a
  | none => tmp <<< 8

/-- The three turns for one group. -/
def groupBits (a b c : Option α) : UInt32 := shiftIn word (shiftIn word (shiftIn word 0 a) b) c

/-- `base64_encode`, where `word` converts an element to `uint32_t`. -/
def base64Encode : List α → Bytes
  | [] => []
  | [a] => base64Group (groupBits word (some a) none none) 2
  | [a, b] => base64Group (groupBits word (some a) (some b) none) 1
  | a :: b :: c :: src =>
      base64Group (groupBits word (some a) (some b) (some c)) 0 ++ base64Encode src

end Encoder

/-! ## RFC 4648 -/

def alphabet : Bytes := ascii "ABCDEFGHIJKLMNOPQRSTUVWXYZabcdefghijklmnopqrstuvwxyz0123456789+/"

def padding : Byte := byte '='

/-- The number that a character of the alphabet stands for. -/
def sextet (c : Byte) : Option Nat := alphabet.idxOf? c

/-- The bytes of four characters; only the last four may be padded, and then with zero bits. -/
def decodeGroup (last : Bool) (c₁ c₂ c₃ c₄ : Byte) : Option Bytes := do
  let s₁ ← sextet c₁
  let s₂ ← sextet c₂
  if last ∧ c₄ = padding then
    if c₃ = padding then
      if s₂ % 16 = 0 then some [UInt8.ofNat (s₁ * 4 + s₂ / 16)] else none
    else
      let s₃ ← sextet c₃
      if s₃ % 4 = 0 then
        some [UInt8.ofNat (s₁ * 4 + s₂ / 16), UInt8.ofNat (s₂ % 16 * 16 + s₃ / 4)]
      else none
  else
    let s₃ ← sextet c₃
    let s₄ ← sextet c₄
    some [UInt8.ofNat (s₁ * 4 + s₂ / 16), UInt8.ofNat (s₂ % 16 * 16 + s₃ / 4),
      UInt8.ofNat (s₃ % 4 * 64 + s₄)]

def base64Decode : Bytes → Option Bytes
  | [] => some []
  | c₁ :: c₂ :: c₃ :: c₄ :: text => do
      let group ← decodeGroup text.isEmpty c₁ c₂ c₃ c₄
      return group ++ (← base64Decode text)
  | _ => none

/-! ## Groups -/

/-- The character for a number below 64. -/
def letter (n : Nat) : Byte := alphabet.getD n 0

theorem base64ConvertSingle_ofNat {n : Nat} (h : n < 64) :
    base64ConvertSingle (UInt8.ofNat n) = letter n := by
  revert n
  decide +kernel

theorem alphabet_nodup : alphabet.Nodup := by decide +kernel

theorem lt_length_alphabet {n : Nat} (h : n < 64) : n < alphabet.length := h

theorem letter_eq {n : Nat} (h : n < alphabet.length) : letter n = alphabet[n] := by
  rw [letter, List.getD_eq_getElem?_getD, List.getElem?_eq_getElem h, Option.getD_some]

theorem letter_mem {n : Nat} (h : n < 64) : letter n ∈ alphabet := by
  have hlength := lt_length_alphabet h
  rw [letter_eq hlength]
  exact List.getElem_mem hlength

theorem sextet_letter {n : Nat} (h : n < 64) : sextet (letter n) = some n := by
  have hlength := lt_length_alphabet h
  refine List.idxOf?_eq_some_iff.mpr ⟨hlength, (letter_eq hlength).symm, ?_⟩
  intro i hi heq
  rw [letter_eq hlength, alphabet_nodup.getElem_inj_iff] at heq
  exact hi.ne heq

theorem padding_notMem : padding ∉ alphabet := by decide

theorem letter_ne_padding {n : Nat} (h : n < 64) : letter n ≠ padding :=
  fun heq => padding_notMem (heq ▸ letter_mem h)

/-- Six bits of the accumulator. -/
def sixBits (tmp : UInt32) (shift : Nat) : Nat := tmp.toNat / 2 ^ shift % 64

theorem sixBits_lt (tmp : UInt32) (shift : Nat) : sixBits tmp shift < 64 :=
  Nat.mod_lt _ (by decide)

theorem mask_toUInt8 {tmp word : UInt32} {shift : Nat} (h : word.toNat = tmp.toNat / 2 ^ shift) :
    (word &&& 0x3F).toUInt8 = UInt8.ofNat (sixBits tmp shift) := by
  apply UInt8.toNat_inj.mp
  have hmask : word.toNat &&& (0x3F : UInt32).toNat = word.toNat % 64 :=
    Nat.and_two_pow_sub_one_eq_mod word.toNat 6
  rw [UInt32.toNat_toUInt8, UInt32.toNat_and, hmask, UInt8.toNat_ofNat', h, sixBits]

/-- The characters of a group, read off the number in the accumulator. -/
theorem base64Group_eq (tmp : UInt32) (pad : Nat) :
    base64Group tmp pad =
      [letter (sixBits tmp 18), letter (sixBits tmp 12),
        if pad > 1 then padding else letter (sixBits tmp 6),
        if pad > 0 then padding else letter (sixBits tmp 0)] := by
  have hshift : ∀ k : UInt32, (tmp >>> k).toNat = tmp.toNat / 2 ^ (k.toNat % 32) := fun k => by
    rw [UInt32.toNat_shiftRight, Nat.shiftRight_eq_div_pow]
  have hlast : tmp.toNat = tmp.toNat / 2 ^ 0 := by rw [Nat.pow_zero, Nat.div_one]
  have h₁ : ((tmp >>> 18) &&& 0x3F).toUInt8 = _ := mask_toUInt8 (hshift 18)
  have h₂ : ((tmp >>> 12) &&& 0x3F).toUInt8 = _ := mask_toUInt8 (hshift 12)
  have h₃ : ((tmp >>> 6) &&& 0x3F).toUInt8 = _ := mask_toUInt8 (hshift 6)
  rw [base64Group, h₁, h₂, h₃, mask_toUInt8 hlast, base64ConvertSingle_ofNat (sixBits_lt tmp _),
    base64ConvertSingle_ofNat (sixBits_lt tmp _), base64ConvertSingle_ofNat (sixBits_lt tmp _),
    base64ConvertSingle_ofNat (sixBits_lt tmp _)]
  rfl

/-- Only the lowest 24 bits have a part in it. -/
theorem base64Group_congr {tmp tmp' : UInt32} (h : tmp.toNat % 2 ^ 24 = tmp'.toNat % 2 ^ 24)
    (pad : Nat) : base64Group tmp pad = base64Group tmp' pad := by
  have h₁ : sixBits tmp 18 = sixBits tmp' 18 := by
    unfold sixBits
    omega
  have h₂ : sixBits tmp 12 = sixBits tmp' 12 := by
    unfold sixBits
    omega
  have h₃ : sixBits tmp 6 = sixBits tmp' 6 := by
    unfold sixBits
    omega
  have h₄ : sixBits tmp 0 = sixBits tmp' 0 := by
    unfold sixBits
    omega
  rw [base64Group_eq, base64Group_eq, h₁, h₂, h₃, h₄]

theorem toNat_shift_or {tmp : UInt32} (h : tmp.toNat < 2 ^ 24) (b : Byte) :
    ((tmp <<< 8) ||| b.toUInt32).toNat = tmp.toNat * 256 + b.toNat := by
  have hshift : (tmp <<< 8).toNat = tmp.toNat <<< 8 := by
    rw [UInt32.toNat_shiftLeft]
    refine Nat.mod_eq_of_lt ?_
    rw [Nat.shiftLeft_eq]
    exact Nat.mul_lt_mul_of_pos_right h (by decide)
  rw [UInt32.toNat_or, hshift, UInt8.toNat_toUInt32, ← Nat.shiftLeft_add_eq_or_of_lt b.toNat_lt,
    Nat.shiftLeft_eq]

/-- Bytes as one number. -/
theorem toNat_base64Bits (a b c : Byte) :
    (base64Bits a b c).toNat = a.toNat * 65536 + b.toNat * 256 + c.toNat := by
  have ha := a.toNat_lt
  have hb := b.toNat_lt
  have hone : a.toUInt32.toNat < 2 ^ 24 := by
    rw [UInt8.toNat_toUInt32]
    omega
  have htwo := toNat_shift_or hone b
  rw [UInt8.toNat_toUInt32] at htwo
  rw [base64Bits, toNat_shift_or (by omega), htwo]
  omega

/-! ## Decoding a group -/

section Decoding

variable (a b c : Byte)

theorem first_byte :
    UInt8.ofNat (sixBits (base64Bits a b c) 18 * 4 + sixBits (base64Bits a b c) 12 / 16) = a := by
  apply UInt8.toNat_inj.mp
  have ha := a.toNat_lt
  have hb := b.toNat_lt
  have hc := c.toNat_lt
  rw [UInt8.toNat_ofNat', sixBits, sixBits, toNat_base64Bits]
  omega

theorem second_byte :
    UInt8.ofNat (sixBits (base64Bits a b c) 12 % 16 * 16 + sixBits (base64Bits a b c) 6 / 4) =
      b := by
  apply UInt8.toNat_inj.mp
  have hb := b.toNat_lt
  have hc := c.toNat_lt
  rw [UInt8.toNat_ofNat', sixBits, sixBits, toNat_base64Bits]
  omega

theorem third_byte :
    UInt8.ofNat (sixBits (base64Bits a b c) 6 % 4 * 64 + sixBits (base64Bits a b c) 0) = c := by
  apply UInt8.toNat_inj.mp
  have hc := c.toNat_lt
  rw [UInt8.toNat_ofNat', sixBits, sixBits, toNat_base64Bits]
  omega

/-- A text that begins with a group of three bytes. -/
theorem base64Decode_full (text : Bytes) :
    base64Decode (base64Group (base64Bits a b c) 0 ++ text) =
      (base64Decode text).map ([a, b, c] ++ ·) := by
  have hgroup : ∀ last, decodeGroup last (letter (sixBits (base64Bits a b c) 18))
      (letter (sixBits (base64Bits a b c) 12)) (letter (sixBits (base64Bits a b c) 6))
      (letter (sixBits (base64Bits a b c) 0)) = some [a, b, c] := by
    intro last
    have hlast : ¬ (last = true ∧ letter (sixBits (base64Bits a b c) 0) = padding) :=
      fun h => letter_ne_padding (sixBits_lt _ _) h.2
    simp only [decodeGroup, sextet_letter (sixBits_lt _ _), Option.bind_eq_bind, Option.bind_some,
      if_neg hlast, first_byte, second_byte, third_byte]
  have hchars : base64Group (base64Bits a b c) 0 ++ text =
      letter (sixBits (base64Bits a b c) 18) :: letter (sixBits (base64Bits a b c) 12) ::
        letter (sixBits (base64Bits a b c) 6) :: letter (sixBits (base64Bits a b c) 0) :: text := by
    rw [base64Group_eq]
    rfl
  rw [hchars, base64Decode, hgroup]
  cases base64Decode text <;> rfl

/-- The last group, of two bytes. -/
theorem base64Decode_two : base64Decode (base64Group (base64Bits a b 0) 1) = some [a, b] := by
  have hzero : sixBits (base64Bits a b 0) 6 % 4 = 0 := by
    have hbyte : (0 : Byte).toNat = 0 := rfl
    rw [sixBits, toNat_base64Bits]
    omega
  have hthird : letter (sixBits (base64Bits a b 0) 6) ≠ padding :=
    letter_ne_padding (sixBits_lt _ _)
  have hgroup : decodeGroup true (letter (sixBits (base64Bits a b 0) 18))
      (letter (sixBits (base64Bits a b 0) 12)) (letter (sixBits (base64Bits a b 0) 6)) padding =
        some [a, b] := by
    simp only [decodeGroup, sextet_letter (sixBits_lt _ _), Option.bind_eq_bind, Option.bind_some,
      and_self, if_true, if_neg hthird, if_pos hzero, first_byte, second_byte]
  have hchars : base64Group (base64Bits a b 0) 1 =
      [letter (sixBits (base64Bits a b 0) 18), letter (sixBits (base64Bits a b 0) 12),
        letter (sixBits (base64Bits a b 0) 6), padding] := by
    rw [base64Group_eq]
    rfl
  rw [hchars, base64Decode, List.isEmpty_nil, hgroup]
  rfl

/-- The last group, of one byte. -/
theorem base64Decode_one : base64Decode (base64Group (base64Bits a 0 0) 2) = some [a] := by
  have hzero : sixBits (base64Bits a 0 0) 12 % 16 = 0 := by
    have hbyte : (0 : Byte).toNat = 0 := rfl
    rw [sixBits, toNat_base64Bits]
    omega
  have hgroup : decodeGroup true (letter (sixBits (base64Bits a 0 0) 18))
      (letter (sixBits (base64Bits a 0 0) 12)) padding padding = some [a] := by
    simp only [decodeGroup, sextet_letter (sixBits_lt _ _), Option.bind_eq_bind, Option.bind_some,
      and_self, if_true, if_pos hzero, first_byte]
  have hchars : base64Group (base64Bits a 0 0) 2 =
      [letter (sixBits (base64Bits a 0 0) 18), letter (sixBits (base64Bits a 0 0) 12), padding,
        padding] := by
    rw [base64Group_eq]
    rfl
  rw [hchars, base64Decode, List.isEmpty_nil, hgroup]
  rfl

end Decoding

/-! ## What a text stands for -/

section Absorbed

variable {α : Type} (word : α → UInt32)

/-- The byte that an element holds. -/
def low (a : α) : Byte := (word a).toUInt8

/-- The bits of a conversion that fall on the element in front. -/
def middle (a : α) : Byte := (word a >>> 8).toUInt8

/-- The bits of a conversion that fall on the element before that one. -/
def high (a : α) : Byte := (word a >>> 16).toUInt8

/-- The bytes that the accumulator ends up with, group by group. -/
def absorbed : List α → Bytes
  | [] => []
  | [a] => [low word a]
  | [a, b] => [low word a ||| middle word b, low word b]
  | a :: b :: c :: src =>
      (low word a ||| middle word b ||| high word c) :: (low word b ||| middle word c) ::
        low word c :: absorbed src

theorem shiftIn_zero (a : α) : shiftIn word 0 (some a) = word a := by
  rw [shiftIn]
  simp

/-- A number by its lowest three bytes. -/
theorem toNat_bytes (tmp : UInt32) :
    tmp.toNat % 2 ^ 24 =
      (tmp >>> 16).toUInt8.toNat * 65536 + (tmp >>> 8).toUInt8.toNat * 256 +
        tmp.toUInt8.toNat := by
  have hhigh : (tmp >>> 16).toUInt8.toNat = tmp.toNat / 65536 % 256 := by
    rw [UInt32.toNat_toUInt8, UInt32.toNat_shiftRight, Nat.shiftRight_eq_div_pow]
    rfl
  have hmiddle : (tmp >>> 8).toUInt8.toNat = tmp.toNat / 256 % 256 := by
    rw [UInt32.toNat_toUInt8, UInt32.toNat_shiftRight, Nat.shiftRight_eq_div_pow]
    rfl
  have hlow : tmp.toUInt8.toNat = tmp.toNat % 256 := by rw [UInt32.toNat_toUInt8]
  omega

/-- Bit by bit, the conversions of a group lie over one another. -/
theorem accumulated_first (x y z : UInt32) :
    (((((x <<< 8) ||| y) <<< 8) ||| z) >>> 16).toUInt8 =
      x.toUInt8 ||| (y >>> 8).toUInt8 ||| (z >>> 16).toUInt8 := by
  apply UInt8.toBitVec_inj.mp
  ext i hi
  simp
  interval_cases i <;> simp

theorem accumulated_second (x y z : UInt32) :
    (((((x <<< 8) ||| y) <<< 8) ||| z) >>> 8).toUInt8 = y.toUInt8 ||| (z >>> 8).toUInt8 := by
  apply UInt8.toBitVec_inj.mp
  ext i hi
  simp
  interval_cases i <;> simp

theorem accumulated_third (x y z : UInt32) :
    ((((x <<< 8) ||| y) <<< 8) ||| z).toUInt8 = z.toUInt8 := by
  apply UInt8.toBitVec_inj.mp
  ext i hi
  simp

/-- The group of three conversions is the group of the bytes that they leave. -/
theorem base64Group_accumulated (x y z : UInt32) (pad : Nat) :
    base64Group ((((x <<< 8) ||| y) <<< 8) ||| z) pad =
      base64Group (base64Bits (x.toUInt8 ||| (y >>> 8).toUInt8 ||| (z >>> 16).toUInt8)
        (y.toUInt8 ||| (z >>> 8).toUInt8) z.toUInt8) pad := by
  refine base64Group_congr ?_ pad
  rw [toNat_bytes, accumulated_first, accumulated_second, accumulated_third, toNat_base64Bits]
  refine (Nat.mod_eq_of_lt ?_).symm
  have hx := (x.toUInt8 ||| (y >>> 8).toUInt8 ||| (z >>> 16).toUInt8).toNat_lt
  have hy := (y.toUInt8 ||| (z >>> 8).toUInt8).toNat_lt
  have hz := z.toUInt8.toNat_lt
  omega

theorem groupBits_full (a b c : α) :
    groupBits word (some a) (some b) (some c) = (((word a <<< 8) ||| word b) <<< 8) ||| word c := by
  rw [groupBits, shiftIn_zero]
  rfl

theorem groupBits_two (a b : α) :
    groupBits word (some a) (some b) none = (((word a <<< 8) ||| word b) <<< 8) ||| 0 := by
  rw [groupBits, shiftIn_zero, UInt32.or_zero]
  rfl

theorem groupBits_one (a : α) :
    groupBits word (some a) none none = (((word a <<< 8) ||| 0) <<< 8) ||| 0 := by
  rw [groupBits, shiftIn_zero, UInt32.or_zero, UInt32.or_zero]
  rfl

/-- A range is encoded as the bytes that its accumulators end up with. -/
theorem base64Encode_eq : ∀ src : List α,
    base64Encode word src = Encode.base64Encode (absorbed word src)
  | [] => rfl
  | [a] => by
      rw [base64Encode, groupBits_one, base64Group_accumulated]
      simp [absorbed, Encode.base64Encode, low]
  | [a, b] => by
      rw [base64Encode, groupBits_two, base64Group_accumulated]
      simp [absorbed, Encode.base64Encode, low, middle]
  | a :: b :: c :: src => by
      rw [base64Encode, groupBits_full, base64Group_accumulated, base64Encode_eq src]
      rfl

end Absorbed

/-! ## Unsigned bytes -/

/-- The conversion of an `unsigned char`. -/
abbrev unsignedWord : Byte → UInt32 := UInt8.toUInt32

theorem low_unsigned (b : Byte) : low unsignedWord b = b := UInt8.toUInt8_toUInt32 b

/-- There is nothing above the byte. -/
theorem shifted_unsigned (b : Byte) {shift : UInt32} (h : 8 ≤ shift.toNat)
    (h' : shift.toNat < 32) : (unsignedWord b >>> shift).toUInt8 = 0 := by
  have hpow : 2 ^ 8 ≤ 2 ^ shift.toNat := Nat.pow_le_pow_right (by decide) h
  apply UInt8.toNat_inj.mp
  rw [UInt32.toNat_toUInt8, UInt32.toNat_shiftRight, UInt8.toNat_toUInt32, Nat.mod_eq_of_lt h',
    Nat.shiftRight_eq_div_pow, Nat.div_eq_of_lt (b.toNat_lt.trans_le hpow)]
  rfl

theorem middle_unsigned (b : Byte) : middle unsignedWord b = 0 :=
  shifted_unsigned b (by decide) (by decide)

theorem high_unsigned (b : Byte) : high unsignedWord b = 0 :=
  shifted_unsigned b (by decide) (by decide)

/-- Unsigned bytes are what they are. -/
theorem absorbed_unsigned : ∀ src : Bytes, absorbed unsignedWord src = src
  | [] => rfl
  | [a] => by rw [absorbed, low_unsigned]
  | [a, b] => by rw [absorbed, low_unsigned, low_unsigned, middle_unsigned, UInt8.or_zero]
  | a :: b :: c :: src => by
      rw [absorbed, low_unsigned, low_unsigned, low_unsigned, middle_unsigned, middle_unsigned,
        high_unsigned, UInt8.or_zero, UInt8.or_zero, UInt8.or_zero, absorbed_unsigned src]

/-- On unsigned bytes the encoder is the one that signatures go through. -/
theorem base64Encode_unsigned (src : Bytes) :
    base64Encode unsignedWord src = Encode.base64Encode src := by
  rw [base64Encode_eq, absorbed_unsigned]

theorem base64Decode_encode : ∀ src : Bytes, base64Decode (Encode.base64Encode src) = some src
  | [] => rfl
  | [a] => base64Decode_one a
  | [a, b] => base64Decode_two a b
  | a :: b :: c :: src => by
      rw [Encode.base64Encode, base64Decode_full, base64Decode_encode src]
      rfl

theorem base64Encode_injective : Function.Injective Encode.base64Encode := by
  intro src src' heq
  have hdecode := base64Decode_encode src
  rw [heq, base64Decode_encode src', Option.some.injEq] at hdecode
  exact hdecode.symm

/-- The characters of an encoded text, and the padding behind them. -/
theorem base64Encode_shape : ∀ src : Bytes, ∃ body, (∀ c ∈ body, c ∈ alphabet) ∧
    Encode.base64Encode src = body ++ List.replicate ((3 - src.length % 3) % 3) padding
  | [] => ⟨[], fun c hc => absurd hc List.not_mem_nil, rfl⟩
  | [a] => by
      refine ⟨[letter (sixBits (base64Bits a 0 0) 18), letter (sixBits (base64Bits a 0 0) 12)],
        ?_, ?_⟩
      · simp only [List.forall_mem_cons, letter_mem (sixBits_lt _ _), List.not_mem_nil,
          false_imp_iff, implies_true, and_self]
      · rw [Encode.base64Encode, base64Group_eq]
        rfl
  | [a, b] => by
      refine ⟨[letter (sixBits (base64Bits a b 0) 18), letter (sixBits (base64Bits a b 0) 12),
        letter (sixBits (base64Bits a b 0) 6)], ?_, ?_⟩
      · simp only [List.forall_mem_cons, letter_mem (sixBits_lt _ _), List.not_mem_nil,
          false_imp_iff, implies_true, and_self]
      · rw [Encode.base64Encode, base64Group_eq]
        rfl
  | a :: b :: c :: src => by
      obtain ⟨body, hbody, htext⟩ := base64Encode_shape src
      refine ⟨base64Group (base64Bits a b c) 0 ++ body, ?_, ?_⟩
      · rw [base64Group_eq]
        simp only [gt_iff_lt, Nat.not_lt_zero, if_false, List.forall_mem_append,
          List.forall_mem_cons, letter_mem (sixBits_lt _ _), List.not_mem_nil, false_imp_iff,
          implies_true, and_self, true_and]
        exact hbody
      · have hlength : (a :: b :: c :: src).length % 3 = src.length % 3 := by
          simp only [List.length_cons]
          omega
        rw [Encode.base64Encode, htext, hlength, List.append_assoc]

theorem length_base64Encode : ∀ src : Bytes,
    (Encode.base64Encode src).length = 4 * ((src.length + 2) / 3)
  | [] => rfl
  | [a] => by
      rw [Encode.base64Encode, base64Group]
      simp only [List.length_cons, List.length_nil, Nat.reduceAdd, Nat.reduceDiv, Nat.reduceMul]
  | [a, b] => by
      rw [Encode.base64Encode, base64Group]
      simp only [List.length_cons, List.length_nil, Nat.reduceAdd, Nat.reduceDiv, Nat.reduceMul]
  | a :: b :: c :: src => by
      rw [Encode.base64Encode, List.length_append, length_base64Encode src, base64Group]
      simp only [List.length_cons, List.length_nil]
      omega

/-- What is encoded has the length, the padding and the characters that RFC 4648 asks for, and is
decoded to the bytes that were given. -/
theorem base64Encode_faithful :
    (∀ src, (base64Encode unsignedWord src).length = 4 * ((src.length + 2) / 3) ∧
      (∃ body, (∀ c ∈ body, c ∈ alphabet ∧ c ≠ padding) ∧ base64Encode unsignedWord src =
        body ++ List.replicate ((3 - src.length % 3) % 3) padding) ∧
      base64Decode (base64Encode unsignedWord src) = some src) ∧
    Function.Injective (base64Encode unsignedWord) := by
  constructor
  · intro src
    rw [base64Encode_unsigned]
    obtain ⟨body, hbody, htext⟩ := base64Encode_shape src
    have hclean : ∀ c ∈ body, c ∈ alphabet ∧ c ≠ padding := fun c hc =>
      ⟨hbody c hc, ne_of_mem_of_not_mem (hbody c hc) padding_notMem⟩
    exact ⟨length_base64Encode src, ⟨body, hclean, htext⟩, base64Decode_encode src⟩
  · intro src src' heq
    rw [base64Encode_unsigned, base64Encode_unsigned] at heq
    exact base64Encode_injective heq

/-! ## Other element types -/

section Elements

variable {α : Type} (word : α → UInt32)

/-- In every group, the bits of a conversion above its byte are set in front of it anyway. -/
def Covered : List α → Prop
  | [] => True
  | [_] => True
  | [a, b] => low word a ||| middle word b = low word a
  | a :: b :: c :: src =>
      low word a ||| middle word b ||| high word c = low word a ∧
        low word b ||| middle word c = low word b ∧ Covered src

theorem absorbed_eq_iff : ∀ src : List α,
    absorbed word src = src.map (low word) ↔ Covered word src
  | [] => iff_of_true rfl trivial
  | [a] => iff_of_true rfl trivial
  | [a, b] => by
      simp only [absorbed, List.map_cons, List.map_nil, List.cons.injEq, and_true, Covered]
  | a :: b :: c :: src => by
      simp only [absorbed, List.map_cons, List.cons.injEq, true_and, Covered,
        absorbed_eq_iff src]

theorem base64Encode_eq_iff (src : List α) :
    base64Encode word src = base64Encode unsignedWord (src.map (low word)) ↔ Covered word src := by
  rw [base64Encode_eq, base64Encode_unsigned, base64Encode_injective.eq_iff, absorbed_eq_iff]

end Elements

/-! ## Characters with a sign -/

/-- The conversion of a `char`: it is promoted to `int` first. -/
def charWord (c : Int8) : UInt32 := c.toInt32.toUInt32

/-- A byte from `0x80` on stands in a group of three only behind bytes `0xFF`. -/
def HighBehindFull : Bytes → Prop
  | [] => True
  | [_] => True
  | [a, b] => 0x80 ≤ b → a = 0xFF
  | a :: b :: c :: src =>
      (0x80 ≤ b → a = 0xFF) ∧ (0x80 ≤ c → a = 0xFF ∧ b = 0xFF) ∧ HighBehindFull src

theorem low_char (b : Byte) : low charWord b.toInt8 = b := by
  revert b
  refine SignedChar.forall_byte ?_
  decide +kernel

/-- The bits above the byte are copies of the sign. -/
theorem middle_char (b : Byte) : middle charWord b.toInt8 = if 0x80 ≤ b then 0xFF else 0 := by
  revert b
  refine SignedChar.forall_byte ?_
  decide +kernel

theorem high_char (b : Byte) : high charWord b.toInt8 = if 0x80 ≤ b then 0xFF else 0 := by
  revert b
  refine SignedChar.forall_byte ?_
  decide +kernel

theorem or_full (a : Byte) : a ||| 0xFF = 0xFF := by
  revert a
  refine SignedChar.forall_byte ?_
  decide +kernel

/-- Copies of a sign are covered by a byte with all bits set. -/
theorem or_sign_iff (a b : Byte) :
    a ||| (if 0x80 ≤ b then 0xFF else 0) = a ↔ (0x80 ≤ b → a = 0xFF) := by
  split
  case isTrue h =>
    rw [or_full]
    exact ⟨fun heq _ => heq.symm, fun himp => (himp h).symm⟩
  case isFalse h =>
    rw [UInt8.or_zero]
    exact ⟨fun _ hb => absurd hb h, fun _ => rfl⟩

theorem or_signs_iff (a b c : Byte) :
    a ||| (if 0x80 ≤ b then 0xFF else 0) ||| (if 0x80 ≤ c then 0xFF else 0) = a ↔
      (0x80 ≤ b → a = 0xFF) ∧ (0x80 ≤ c → a = 0xFF) := by
  by_cases hb : 0x80 ≤ b
  · have hfull : (0xFF : Byte) ||| (if 0x80 ≤ c then 0xFF else 0) = 0xFF :=
      (or_sign_iff 0xFF c).mpr fun _ => rfl
    rw [if_pos hb, or_full, hfull]
    exact ⟨fun heq => ⟨fun _ => heq.symm, fun _ => heq.symm⟩, fun h => (h.1 hb).symm⟩
  · rw [if_neg hb, UInt8.or_zero, or_sign_iff]
    exact ⟨fun h => ⟨fun hb' => absurd hb' hb, h⟩, fun h => h.2⟩

theorem covered_char_iff : ∀ src : Bytes,
    Covered charWord (SignedChar.chars src) ↔ HighBehindFull src
  | [] => Iff.rfl
  | [a] => Iff.rfl
  | [a, b] => by
      rw [SignedChar.chars, List.map_cons, List.map_cons, List.map_nil, Covered, low_char,
        middle_char, or_sign_iff, HighBehindFull]
  | a :: b :: c :: src => by
      rw [SignedChar.chars, List.map_cons, List.map_cons, List.map_cons, Covered, low_char,
        low_char, middle_char, middle_char, high_char, or_signs_iff, or_sign_iff, HighBehindFull]
      have hrest := covered_char_iff src
      rw [SignedChar.chars] at hrest
      rw [hrest]
      constructor
      · rintro ⟨⟨hb, hc⟩, hc', hmore⟩
        exact ⟨hb, fun h => ⟨hc h, hc' h⟩, hmore⟩
      · rintro ⟨hb, hc, hmore⟩
        exact ⟨⟨hb, fun h => (hc h).1⟩, fun h => (hc h).2, hmore⟩

theorem map_low_chars (src : Bytes) : (SignedChar.chars src).map (low charWord) = src := by
  rw [SignedChar.chars, List.map_map]
  exact (List.map_congr_left fun b _ => low_char b).trans (List.map_id src)

/-- A `string` is encoded as its unsigned bytes are just when its high bytes stand behind full
ones, and any range just when the bits above its bytes are covered. -/
theorem base64Encode_same_iff {α : Type} (word : α → UInt32) (src : List α) (s : Bytes) :
    (base64Encode charWord (SignedChar.chars s) = base64Encode unsignedWord s ↔
      HighBehindFull s) ∧
    (base64Encode word src = base64Encode unsignedWord (src.map (low word)) ↔
      Covered word src) := by
  constructor
  · have hsame := base64Encode_eq_iff charWord (SignedChar.chars s)
    rw [map_low_chars] at hsame
    exact hsame.trans (covered_char_iff s)
  · exact base64Encode_eq_iff word src

/-- The letter `é` in UTF-8: the second byte wipes out the first. -/
theorem not_base64Encode_same :
    ¬ ∀ src : Bytes, base64Encode charWord (SignedChar.chars src) =
      base64Encode unsignedWord src := by
  intro hsame
  have hbytes := hsame [0xC3, 0xA9]
  revert hbytes
  decide

end BlackCircle.Oauth.Base64
