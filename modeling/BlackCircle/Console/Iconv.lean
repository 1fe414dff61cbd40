import BlackCircle.Console.Conversion
import BlackCircle.Foundation.Transcoding
import Mathlib.Computability.StateTransition

/-!
# The loops around `iconv`

The three loops of the source with the variables that they keep: a pointer into
the input, the count of bytes left, a `size_t` of `w` bits that wraps around
below zero, and what has been inserted so far.  What a call of `iconv` does is
left open; `System` states what is documented of it for the conversions that the
callers use.  `wchar_t` has four bytes, the lowest first.
-/

namespace BlackCircle.Console.Iconv

open BlackCircle.Foundation.ByteString
open BlackCircle.Foundation.Transcoding
open BlackCircle.Foundation.Unicode
open BlackCircle.Console.Conversion (wideBytes wideOf wideOf_wideBytes)
open StateTransition

/-! ## One loop -/

/-- What a call does: what it writes, how far it moves the input, and whether it returns -1. -/
structure Outcome where
  written : Bytes
  consumed : Nat
  failed : Bool
  deriving DecidableEq, Repr

/-- The calls of `iconv` on a descriptor, by their number, `inbuf` and `inbytesleft`. -/
abbrev Descriptor : Type := Nat → Nat → Nat → Outcome

/-- The variables of a loop, with the number of calls made; `inbuf` counts from the start of the
input. -/
structure Variables (β : Type) where
  calls : Nat
  inbuf : Nat
  inbytesleft : Nat
  ret : List β
  deriving DecidableEq, Repr

/-- The room in `buf`. -/
def slice : Nat := 1024

section Loop

variable {β : Type} (w : Nat) (insert : Bytes → List β) (cd : Descriptor)

/-- `--` of a `size_t`. -/
def decrement (n : Nat) : Nat := if n = 0 then 2 ^ w - 1 else n - 1

/-- The body of the loop. -/
def round (v : Variables β) : Variables β :=
  let r := cd v.calls v.inbuf v.inbytesleft
  let inbuf := v.inbuf + r.consumed
  let inbytesleft := v.inbytesleft - r.consumed
  let ret := v.ret ++ insert r.written
  if r.failed then ⟨v.calls + 1, inbuf + 1, decrement w inbytesleft, ret⟩
  else ⟨v.calls + 1, inbuf, inbytesleft, ret⟩

/-- The body once more, while there is input left. -/
def again (v : Variables β) : Option (Variables β) :=
  if 0 < v.inbytesleft then some (round w insert cd v) else none

def entered (length : Nat) : Variables β := ⟨0, 0, length, []⟩

/-- The body once, and then as long as there is input left. -/
def loop (length : Nat) : Part (List β) :=
  (eval (again w insert cd) (round w insert cd (entered length))).map Variables.ret

end Loop

/-! ## The three loops -/

/-- The bytes of `buf` as `wchar_t`. -/
def wides : Bytes → List UInt32
  | b₀ :: b₁ :: b₂ :: b₃ :: rest => UInt32.ofNat (wideOf b₀ b₁ b₂ b₃) :: wides rest
  | _ => []

def bytesOf (wide : UInt32) : Bytes := wideBytes wide.toNat

section Functions

variable (w : Nat) (iconvOpen : Bytes → Bytes → Bytes → Descriptor)

def narrowToWide (str enc : Bytes) : Part (List UInt32) :=
  loop w wides (iconvOpen (ascii "wchar_t") enc str) str.length

def wideToNarrow (seq : List UInt32) (enc : Bytes) : Part Bytes :=
  loop w id (iconvOpen enc (ascii "wchar_t") (seq.flatMap bytesOf)) (seq.length * 4)

def narrowToNarrow (str source target : Bytes) : Part Bytes :=
  loop w id (iconvOpen target source str) str.length

/-- `io_encoding`. -/
inductive IoEncoding where
  | encUtf8
  | encSystem
  deriving DecidableEq, Repr

/-- The name under which an encoding is opened; the empty name is that of the locale. -/
def IoEncoding.name : IoEncoding → Bytes
  | encUtf8 => ascii "UTF-8"
  | encSystem => ascii ""

def externToWide (coding : IoEncoding) (seq : Bytes) : Part (List UInt32) :=
  narrowToWide w iconvOpen seq coding.name

def wideToExtern (coding : IoEncoding) (seq : List UInt32) : Part Bytes :=
  wideToNarrow w iconvOpen seq coding.name

def utf8ToExtern (coding : IoEncoding) (seq : Bytes) : Part Bytes :=
  if coding = .encUtf8 ∨ seq = [] then Part.some seq
  else narrowToNarrow w iconvOpen seq (ascii "UTF-8") (ascii "")

def externToUtf8 (coding : IoEncoding) (seq : Bytes) : Part Bytes :=
  if coding = .encUtf8 ∨ seq = [] then Part.some seq
  else narrowToNarrow w iconvOpen seq (ascii "") (ascii "UTF-8")

end Functions

/-! ## Encodings -/

/-- A character of UTF-8, by its code point. -/
def utf8Head (input : Bytes) : Option (UInt32 × Bytes) :=
  (decodeHead input).map fun first => (first.1.val, first.2)

/-- Six bits of a code, as a byte behind the first one. -/
def utf8Tail (k code : Nat) : Byte := UInt8.ofNat (code / 0x40 ^ k % 0x40 + 0x80)

/-- UTF-8 with up to six bytes, as it was first defined. -/
def utf8Bytes (code : Nat) : Bytes :=
  if code ≤ 0x7F then [UInt8.ofNat code]
  else if code ≤ 0x7FF then [UInt8.ofNat (code / 0x40 % 0x20 + 0xC0), utf8Tail 0 code]
  else if code ≤ 0xFFFF then
    [UInt8.ofNat (code / 0x1000 % 0x10 + 0xE0), utf8Tail 1 code, utf8Tail 0 code]
  else if code ≤ 0x1FFFFF then
    [UInt8.ofNat (code / 0x40000 % 0x08 + 0xF0), utf8Tail 2 code, utf8Tail 1 code,
      utf8Tail 0 code]
  else if code ≤ 0x3FFFFFF then
    [UInt8.ofNat (code / 0x1000000 % 0x04 + 0xF8), utf8Tail 3 code, utf8Tail 2 code,
      utf8Tail 1 code, utf8Tail 0 code]
  else
    [UInt8.ofNat (code / 0x40000000 % 0x02 + 0xFC), utf8Tail 4 code, utf8Tail 3 code,
      utf8Tail 2 code, utf8Tail 1 code, utf8Tail 0 code]

/-- The C library writes every unit with the highest bit clear that is no surrogate, be it the code
of a character or not. -/
def utf8Write (code : UInt32) : Option Bytes :=
  if 0xD800 ≤ code ∧ code ≤ 0xDFFF ∨ 0x7FFFFFFF < code then none
  else some (utf8Bytes code.toNat)

/-- The charset of the locale `C`. -/
def asciiWrite (code : UInt32) : Option Bytes :=
  if code < 0x80 then some [code.toUInt8] else none

/-- The `wchar_t` that the input begins with. -/
def wideHead : Bytes → Option (UInt32 × Bytes)
  | b₀ :: b₁ :: b₂ :: b₃ :: rest => some (UInt32.ofNat (wideOf b₀ b₁ b₂ b₃), rest)
  | _ => none

def wideWrite (code : UInt32) : Option Bytes := some (bytesOf code)

theorem isContinuation_utf8Tail (k code : Nat) : isContinuation (utf8Tail k code) = true :=
  isContinuation_ofNat (code / 0x40 ^ k)

/-- A byte that begins a character, and bytes that do not. -/
theorem utf8Bytes_cases (code : Nat) :
    ∃ first more, utf8Bytes code = first :: more ∧ isContinuation first = false ∧
      ∀ b ∈ more, isContinuation b = true := by
  have hleads : ∀ {n base : Nat}, 0xC0 ≤ base → n + base < 0x100 →
      isContinuation (UInt8.ofNat (n + base)) = false := fun hbase hn =>
    not_isContinuation_of_leads (leads_ofNat hbase hn)
  rw [utf8Bytes]
  split_ifs with h
  · exact ⟨_, _, rfl, not_isContinuation_of_lt (ofNat_lt (by omega)), List.forall_mem_nil _⟩
  all_goals
    refine ⟨_, _, rfl, hleads (by decide) (by omega), ?_⟩
    simp only [List.mem_cons, List.not_mem_nil, or_false, forall_eq_or_imp, forall_eq,
      isContinuation_utf8Tail, and_self]

/-- A character is written as such. -/
theorem utf8Write_char (c : Char) : utf8Write c.val = some (String.utf8EncodeChar c) := by
  have hvalid : c.val.toNat < 0xD800 ∨ 0xDFFF < c.val.toNat ∧ c.val.toNat < 0x110000 := c.valid
  have hwritten : ¬(0xD800 ≤ c.val ∧ c.val ≤ 0xDFFF ∨ 0x7FFFFFFF < c.val) := by
    simp only [UInt32.le_iff_toNat_le, UInt32.lt_iff_toNat_lt, UInt32.reduceToNat]
    omega
  have hshort : c.val.toNat ≤ 0x1FFFFF := by omega
  rw [utf8Write, if_neg hwritten, utf8Bytes, String.utf8EncodeChar, if_pos hshort]
  split_ifs <;> simp [utf8Tail]

theorem utf8Write_nonempty {code : UInt32} {seq : Bytes} (h : utf8Write code = some seq) :
    seq ≠ [] := by
  rw [utf8Write, Option.ite_none_left_eq_some] at h
  obtain ⟨first, more, hbytes, -, -⟩ := utf8Bytes_cases code.toNat
  rw [← Option.some.inj h.2, hbytes]
  exact List.cons_ne_nil first more

theorem asciiWrite_nonempty {code : UInt32} {seq : Bytes} (h : asciiWrite code = some seq) :
    seq ≠ [] := by
  rw [asciiWrite, Option.ite_none_right_eq_some] at h
  rw [← Option.some.inj h.2]
  exact List.cons_ne_nil _ _

theorem utf8Head_behind {input rest : Bytes} {code : UInt32}
    (h : utf8Head input = some (code, rest)) : ∃ front, front ≠ [] ∧ input = front ++ rest := by
  rw [utf8Head, Option.map_eq_some_iff] at h
  obtain ⟨⟨c, behind⟩, hhead, hfirst⟩ := h
  rw [Prod.mk.injEq] at hfirst
  obtain ⟨-, rfl⟩ := hfirst
  refine ⟨String.utf8EncodeChar c, ?_, decodeHead_eq_some hhead⟩
  rw [← List.length_pos_iff, String.length_utf8EncodeChar]
  exact c.utf8Size_pos

theorem wideHead_behind {input rest : Bytes} {code : UInt32}
    (h : wideHead input = some (code, rest)) : ∃ front, front ≠ [] ∧ input = front ++ rest := by
  match input, h with
  | b₀ :: b₁ :: b₂ :: b₃ :: _, rfl => exact ⟨[b₀, b₁, b₂, b₃], List.cons_ne_nil _ _, rfl⟩

theorem length_bytesOf (wide : UInt32) : (bytesOf wide).length = 4 := rfl

theorem length_units (units : List UInt32) :
    (units.flatMap bytesOf).length = units.length * 4 := by
  simp [List.length_flatMap, length_bytesOf]

theorem ofNat_wideOf_bytes (wide : UInt32) :
    UInt32.ofNat (wideOf (UInt8.ofNat wide.toNat) (UInt8.ofNat (wide.toNat / 0x100))
      (UInt8.ofNat (wide.toNat / 0x10000)) (UInt8.ofNat (wide.toNat / 0x1000000))) = wide := by
  have hlt := wide.toNat_lt
  have hword : wideOf (UInt8.ofNat wide.toNat) (UInt8.ofNat (wide.toNat / 0x100))
      (UInt8.ofNat (wide.toNat / 0x10000)) (UInt8.ofNat (wide.toNat / 0x1000000)) =
        wide.toNat := by
    simp only [wideOf, UInt8.toNat_ofNat']
    omega
  rw [hword, UInt32.ofNat_toNat]

/-- A unit in front of the input is read back. -/
theorem wideHead_bytesOf (wide : UInt32) (rest : Bytes) :
    wideHead (bytesOf wide ++ rest) = some (wide, rest) := by
  change some (UInt32.ofNat (wideOf _ _ _ _), rest) = some (wide, rest)
  rw [ofNat_wideOf_bytes]

theorem wides_bytesOf (wide : UInt32) (rest : Bytes) :
    wides (bytesOf wide ++ rest) = wide :: wides rest := by
  change UInt32.ofNat (wideOf _ _ _ _) :: wides rest = wide :: wides rest
  rw [ofNat_wideOf_bytes]

def fromUtf8 (write : UInt32 → Option Bytes) : Coding Byte Byte UInt32 where
  head := utf8Head
  write := write
  behind := utf8Head_behind

def fromWide (write : UInt32 → Option Bytes) : Coding Byte Byte UInt32 where
  head := wideHead
  write := write
  behind := wideHead_behind

/-- The calls on a descriptor convert what is left of the input, each into a slice of its own;
one that leaves some of it fails. -/
def Follows (coding : Coding Byte Byte UInt32) (input : Bytes) (cd : Descriptor) : Prop :=
  ∀ calls inbuf, inbuf ≤ input.length →
    ∃ left, coding.Call slice (input.drop inbuf)
        (cd calls inbuf (input.length - inbuf)).written left ∧
      (cd calls inbuf (input.length - inbuf)).consumed + left.length =
        input.length - inbuf ∧
      ((cd calls inbuf (input.length - inbuf)).failed = true ↔ left ≠ [])

/-- A system with some stateless charset in its locale, and what is documented of its `iconv`.  Of
what is read as UTF-8, this is about the encodings of texts. -/
structure System where
  iconvOpen : Bytes → Bytes → Bytes → Descriptor
  charset : UInt32 → Option Bytes
  nonempty : ∀ {code : UInt32} {seq : Bytes}, charset code = some seq → seq ≠ []
  utf8ToWide : ∀ text, Follows (fromUtf8 wideWrite) (encode text)
    (iconvOpen (ascii "wchar_t") (ascii "UTF-8") (encode text))
  wideToUtf8 : ∀ units, Follows (fromWide utf8Write) units
    (iconvOpen (ascii "UTF-8") (ascii "wchar_t") units)
  utf8ToLocale : ∀ text, Follows (fromUtf8 charset) (encode text)
    (iconvOpen (ascii "") (ascii "UTF-8") (encode text))
  wideToLocale : ∀ units, Follows (fromWide charset) units
    (iconvOpen (ascii "") (ascii "wchar_t") units)

/-- Calls that convert what they can. -/
def follow (coding : Coding Byte Byte UInt32) (input : Bytes) : Descriptor :=
  fun _ inbuf inbytesleft =>
    let (out, left) :=
      coding.convertWithin input.length slice ((input.drop inbuf).take inbytesleft)
    ⟨out, inbytesleft - left.length, !left.isEmpty⟩

theorem follows_follow (coding : Coding Byte Byte UInt32) (input : Bytes) :
    Follows coding input (follow coding input) := by
  intro calls inbuf hinbuf
  have hwhole : (input.drop inbuf).take (input.length - inbuf) = input.drop inbuf := by
    rw [← List.length_drop, List.take_length]
  have hfuel : (input.drop inbuf).length ≤ input.length := by
    rw [List.length_drop]
    exact Nat.sub_le _ _
  have hcall := @Coding.call_convertWithin _ _ _ coding slice (input.drop inbuf) input.length hfuel
  have hle := hcall.suffix.length_le
  rw [List.length_drop] at hle
  refine ⟨(coding.convertWithin input.length slice (input.drop inbuf)).2, ?_, ?_, ?_⟩
  · rw [follow, hwhole]
    exact hcall
  · rw [follow, hwhole]
    exact Nat.sub_add_cancel hle
  · rw [follow, hwhole]
    dsimp only
    rw [Bool.not_eq_true', List.isEmpty_eq_false_iff]

/-- A system that does so, with any charset. -/
def System.following (charset : UInt32 → Option Bytes)
    (nonempty : ∀ {code : UInt32} {seq : Bytes}, charset code = some seq → seq ≠ []) : System where
  iconvOpen := fun target source =>
    let write := if target = ascii "wchar_t" then wideWrite
      else if target = ascii "UTF-8" then utf8Write else charset
    follow (if source = ascii "UTF-8" then fromUtf8 write else fromWide write)
  charset := charset
  nonempty := nonempty
  utf8ToWide := fun _ => follows_follow _ _
  wideToUtf8 := fun _ => follows_follow _ _
  utf8ToLocale := fun _ => follows_follow _ _
  wideToLocale := fun _ => follows_follow _ _

/-- What is written for a wide character in an encoding. -/
def System.target (system : System) : IoEncoding → UInt32 → Option Bytes
  | .encUtf8 => utf8Write
  | .encSystem => system.charset

/-! ## What a loop returns -/

section Runs

variable {β : Type} {w : Nat} {insert : Bytes → List β} {coding : Coding Byte Byte UInt32}
  {cd : Descriptor} {input : Bytes}

/-- The body of the loop, by what its call leaves. -/
theorem round_eq (hcd : Follows coding input cd) {v : Variables β} (hinbuf : v.inbuf ≤ input.length)
    (hleft : v.inbytesleft = input.length - v.inbuf) :
    ∃ out left, coding.Call slice (input.drop v.inbuf) out left ∧
      left = input.drop (input.length - left.length) ∧ left.length ≤ input.length ∧
      round w insert cd v =
        ⟨v.calls + 1, input.length - left.length + (if left = [] then 0 else 1),
          left.length - 1, v.ret ++ insert out⟩ := by
  obtain ⟨left, hcall, hconsumed, hfailed⟩ := hcd v.calls v.inbuf hinbuf
  have hsuffix : left <:+ input := hcall.suffix.trans (List.drop_suffix _ _)
  have hle := hsuffix.length_le
  refine ⟨_, left, hcall, List.suffix_iff_eq_drop.mp hsuffix, hle, ?_⟩
  rw [← hleft] at hconsumed hfailed ⊢
  rw [round]
  by_cases hnil : left = []
  · have hreturned : (cd v.calls v.inbuf v.inbytesleft).failed = false := by
      rw [← Bool.not_eq_true, hfailed]
      exact not_not_intro hnil
    subst hnil
    simp only [hreturned, Bool.false_eq_true, if_false, if_true, List.length_nil] at hconsumed ⊢
    congr 1 <;> omega
  · have hreturned := hfailed.mpr hnil
    have hpos := List.length_pos_iff.mpr hnil
    simp only [hreturned, if_true, if_neg hnil]
    rw [decrement, if_neg (by omega)]
    congr 1 <;> omega

/-- From the head of the loop on, what is taken from the rest of the input is inserted, when a
byte is dropped between two calls. -/
theorem reaches_end (hcd : Follows coding input cd) (hinsert : ∀ codes more,
      insert (coding.written codes ++ more) = insert (coding.written codes) ++ insert more)
    (hnil : insert [] = []) (v : Variables β) (hinbuf : v.inbuf ≤ input.length)
    (hleft : v.inbytesleft = input.length - v.inbuf) :
    ∃ codes final, coding.Reads slice slice (input.drop v.inbuf) codes ∧
      Reaches (again w insert cd) v final ∧
      again w insert cd final = none ∧
      final.ret = v.ret ++ insert (coding.written codes) := by
  generalize hn : v.inbytesleft = n
  induction n using Nat.strong_induction_on generalizing v with
  | _ n ih =>
      by_cases hzero : v.inbytesleft = 0
      · have hempty : input.drop v.inbuf = [] := List.drop_eq_nil_of_le (by omega)
        refine ⟨[], v, ?_, Relation.ReflTransGen.refl, if_neg (by omega), ?_⟩
        · rw [hempty]
          exact .done slice
        · rw [Coding.written_nil, hnil, List.append_nil]
      · have hagain : again w insert cd v = some (round w insert cd v) :=
          if_pos (Nat.pos_of_ne_zero hzero)
        obtain ⟨out, left, hcall, hdrop, hle, hround⟩ :=
          @round_eq β w insert coding cd input hcd v hinbuf hleft
        cases left with
        | nil =>
            obtain ⟨codes, hreads, hout⟩ := hcall.reads slice
            refine ⟨codes, _, hreads, Relation.ReflTransGen.single hagain, ?_, ?_⟩
            · rw [hround]
              rfl
            · rw [hround, hout]
        | cons b tail =>
            -- a byte is dropped, and what is behind it is shorter
            have hshort := hcall.suffix.length_le
            rw [List.length_drop, List.length_cons] at hshort
            have hinbuf' : input.length - (b :: tail).length + 1 = input.length - tail.length := by
              rw [List.length_cons]
              omega
            have htail : input.drop (input.length - tail.length) = tail := by
              rw [← hinbuf', ← List.drop_drop, ← hdrop]
              rfl
            rw [if_neg (List.cons_ne_nil b tail), hinbuf', List.length_cons,
              Nat.add_sub_cancel] at hround
            obtain ⟨codes, final, hreads, hreach, hrest, hret⟩ :=
              ih tail.length (by omega) (round w insert cd v)
                (by rw [hround]; exact Nat.sub_le _ _)
                (by rw [hround]; dsimp only; omega) (by rw [hround])
            rw [hround] at hreads hret
            dsimp only at hreads hret
            rw [htail] at hreads
            obtain ⟨all, hall, hout⟩ := hcall.reads_append hreads
            obtain ⟨shown, rfl⟩ := hcall.exists_written
            refine ⟨all, final, hall, hreach.head hagain, hrest, ?_⟩
            rw [hret, hout, hinsert, List.append_assoc]

/-- The body is run once on an empty input. -/
theorem loop_nil (hcd : Follows coding [] cd) (hnil : insert [] = []) :
    loop w insert cd 0 = Part.some [] := by
  obtain ⟨out, left, hcall, -, hle, hround⟩ :=
    @round_eq β w insert coding cd [] hcd (entered 0) (Nat.le_refl 0) rfl
  obtain rfl : left = [] := List.length_eq_zero_iff.mp (Nat.le_zero.mp hle)
  obtain ⟨codes, hreads, hout⟩ := hcall.reads slice
  obtain rfl := hreads.unique (.done slice)
  have hrest : again w insert cd (round w insert cd (entered 0)) = none := by
    rw [hround]
    rfl
  have heval := Part.eq_some_iff.mpr (mem_eval.mpr ⟨Relation.ReflTransGen.refl, hrest⟩)
  rw [loop, heval, Part.map_some, hround, ← hout, Coding.written_nil, hnil]
  rfl

/-- What the loop returns. -/
theorem loop_eq (hcd : Follows coding input cd) (hnil : insert [] = [])
    (hinsert : ∀ codes more, insert (coding.written codes ++ more) =
      insert (coding.written codes) ++ insert more) {codes : List UInt32}
    (hreads : coding.Reads slice slice input codes) :
    loop w insert cd input.length = Part.some (insert (coding.written codes)) := by
  cases input with
  | nil =>
      obtain rfl := hreads.unique (.done slice)
      rw [Coding.written_nil, hnil]
      exact loop_nil hcd hnil
  | cons b input =>
      have hagain : again w insert cd (entered (b :: input).length) =
          some (round w insert cd (entered (b :: input).length)) :=
        if_pos (Nat.succ_pos _)
      obtain ⟨codes', final, hreads', hreach, hrest, hret⟩ :=
        @reaches_end β w insert coding cd (b :: input) hcd hinsert hnil
          (entered (b :: input).length) (Nat.zero_le _) rfl
      obtain rfl := hreads.unique hreads'
      have heval := Part.eq_some_iff.mpr (mem_eval.mpr ⟨hreach, hrest⟩)
      rw [loop, ← reaches_eval (Relation.ReflTransGen.single hagain), heval, Part.map_some, hret]
      rfl

/-- A loop that inserts the bytes themselves. -/
theorem loop_id_eq (hcd : Follows coding input cd) {codes : List UInt32}
    (hreads : coding.Reads slice slice input codes) :
    loop w id cd input.length = Part.some (coding.written codes) :=
  loop_eq hcd rfl (fun _ _ => rfl) hreads

/-- What wide characters are written as, by what is read of them. -/
theorem wideToExtern_eq (w : Nat) (system : System) (coding : IoEncoding)
    {units codes : List UInt32}
    (hreads : (fromWide (system.target coding)).Reads slice slice (units.flatMap bytesOf) codes) :
    wideToExtern w system.iconvOpen coding units =
      Part.some ((fromWide (system.target coding)).written codes) := by
  rw [wideToExtern, wideToNarrow, ← length_units]
  cases coding with
  | encUtf8 => exact loop_id_eq (system.wideToUtf8 _) hreads
  | encSystem => exact loop_id_eq (system.wideToLocale _) hreads

end Runs

end BlackCircle.Console.Iconv
