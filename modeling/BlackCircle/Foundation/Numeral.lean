import BlackCircle.Foundation.ByteString
import BlackCircle.Foundation.Peg
import Mathlib.Data.Nat.Digits.Lemmas

/-!
# Numerals

Digit strings in a base up to sixteen, their values, and the parsers that read
them.  A numeral parser takes the longest run of digits and refuses when the
run is empty or its value leaves the target range.
-/

namespace BlackCircle.Foundation.Numeral

open BlackCircle.Foundation.ByteString
open BlackCircle.Foundation.Peg

/-- The value of a digit in any base; letters of either case count from ten. -/
def digitValue (b : Byte) : Nat :=
  let n := b.toNat
  if 48 ≤ n ∧ n ≤ 57 then n - 48
  else if 97 ≤ n ∧ n ≤ 122 then n - 87
  else if 65 ≤ n ∧ n ≤ 90 then n - 55
  else 36

def isDigit (base : Nat) (b : Byte) : Bool := decide (digitValue b < base)

/-- The number a digit string denotes, most significant digit first. -/
def value (base : Nat) (text : Bytes) : Nat :=
  text.foldl (fun acc b => acc * base + digitValue b) 0

theorem value_eq_ofDigits (base : Nat) (text : Bytes) :
    value base text = Nat.ofDigits base (text.map digitValue).reverse := by
  rw [Nat.ofDigits_eq_foldr, List.foldr_reverse, List.foldl_map]
  simp only [value, Nat.cast_id, Nat.add_comm, Nat.mul_comm]

/-- A digit string of the given base, as the numeral parsers accept it. -/
structure IsNumeral (base : Nat) (text : Bytes) : Prop where
  nonempty : text ≠ []
  digits : ∀ b ∈ text, isDigit base b = true

instance (base : Nat) (text : Bytes) : Decidable (IsNumeral base text) :=
  decidable_of_iff (text ≠ [] ∧ ∀ b ∈ text, isDigit base b = true)
    ⟨fun h => ⟨h.1, h.2⟩, fun h => ⟨h.1, h.2⟩⟩

/-- No byte outside the alphanumeric range is a digit of a base up to sixteen. -/
theorem IsNumeral.notMem {base : Nat} {text : Bytes} (h : IsNumeral base text) {b : Byte}
    (hb : isDigit base b = false) : b ∉ text := by
  intro hmem
  rw [h.digits b hmem] at hb
  cases hb

/-! ## Decimal output -/

/-- The digit that stands for a number below ten. -/
def decimalDigit (n : Nat) : Byte := UInt8.ofNat (48 + n)

/-- The decimal numeral of a number, without superfluous zeros. -/
def decimal (n : Nat) : Bytes :=
  if n = 0 then [decimalDigit 0] else (Nat.digits 10 n).reverse.map decimalDigit

theorem digitValue_decimalDigit {n : Nat} (h : n < 10) : digitValue (decimalDigit n) = n := by
  interval_cases n <;> decide

theorem isNumeral_decimal (n : Nat) : IsNumeral 10 (decimal n) := by
  have hdigit : ∀ d < 10, isDigit 10 (decimalDigit d) = true := by
    intro d hd
    simpa [isDigit, digitValue_decimalDigit hd] using hd
  unfold decimal
  split
  · exact ⟨by simp, by simpa using hdigit 0 (by omega)⟩
  · rename_i hn
    refine ⟨by simpa using Nat.digits_ne_nil_iff_ne_zero.mpr hn, ?_⟩
    intro b hb
    obtain ⟨d, hd, rfl⟩ := List.mem_map.mp hb
    exact hdigit d (Nat.digits_lt_base (by omega) (List.mem_reverse.mp hd))

theorem value_decimal (n : Nat) : value 10 (decimal n) = n := by
  unfold decimal
  split
  · rename_i hn
    rw [hn]
    decide
  · rw [value_eq_ofDigits, List.map_map, ← List.map_reverse, List.reverse_reverse]
    have hmap : (Nat.digits 10 n).map (digitValue ∘ decimalDigit) = Nat.digits 10 n := by
      conv_rhs => rw [← List.map_id (Nat.digits 10 n)]
      refine List.map_congr_left fun d hd => ?_
      exact digitValue_decimalDigit (Nat.digits_lt_base (by omega) hd)
    rw [hmap, Nat.ofDigits_digits]

/-! ## Numeral parsers -/

/-- The longest non-empty run of digits. -/
def digitRun (base : Nat) : Parser Byte Bytes := many1 (satisfy (isDigit base))

/-- An unsigned numeral whose value is below `limit`. -/
def unsignedNumeral (base limit : Nat) : Parser Byte Nat := do
  let text ← digitRun base
  if value base text < limit then return value base text else refuse

def isSign (b : Byte) : Bool := b == byte '-' || b == byte '+'

/-- The signed number for an optional sign and a magnitude. -/
def signed (sign : Option Byte) (magnitude : Nat) : Int :=
  if sign = some (byte '-') then -(magnitude : Int) else magnitude

/-- An optionally signed decimal numeral with a value in `[low, high]`. -/
def signedNumeral (low high : Int) : Parser Byte Int := do
  let sign ← opt (satisfy isSign)
  let text ← digitRun 10
  let n := signed sign (value 10 text)
  if low ≤ n ∧ n ≤ high then return n else refuse

/-- A rest that does not prolong a numeral. -/
def Terminates (base : Nat) (rest : Bytes) : Prop :=
  ∀ b tail, rest = b :: tail → isDigit base b = false

theorem terminates_cons {base : Nat} {b : Byte} {tail : Bytes} (h : isDigit base b = false) :
    Terminates base (b :: tail) := by
  intro b' tail' heq
  cases heq
  exact h

theorem digitRun_append {base : Nat} {text rest : Bytes} (h : IsNumeral base text)
    (hrest : Terminates base rest) : (digitRun base).run (text ++ rest) = .ok text rest :=
  many1_satisfy_append h.nonempty h.digits hrest

/-- What the digit parser has matched is a digit string. -/
theorem digitRun_eq_ok {base : Nat} {input text rest : Bytes}
    (h : (digitRun base).run input = .ok text rest) :
    IsNumeral base text ∧ input = text ++ rest := by
  obtain ⟨hne, hall, happend⟩ := many1_satisfy_eq_ok h
  exact ⟨⟨hne, hall⟩, happend⟩

theorem unsignedNumeral_append {base limit : Nat} {text rest : Bytes} (h : IsNumeral base text)
    (hrest : Terminates base rest) (hlimit : value base text < limit) :
    (unsignedNumeral base limit).run (text ++ rest) = .ok (value base text) rest := by
  rw [unsignedNumeral, bind_ok (digitRun_append h hrest), if_pos hlimit, run_pure]

/-- A digit string whose value is out of range is refused as a whole. -/
theorem unsignedNumeral_overflow {base limit : Nat} {text rest : Bytes} (h : IsNumeral base text)
    (hrest : Terminates base rest) (hlimit : limit ≤ value base text) :
    (unsignedNumeral base limit).run (text ++ rest) = .fail := by
  rw [unsignedNumeral, bind_ok (digitRun_append h hrest), if_neg (by omega)]
  rfl

/-- What is read is in range. -/
theorem unsignedNumeral_lt {base limit n : Nat} {input rest : Bytes}
    (h : (unsignedNumeral base limit).run input = .ok n rest) : n < limit := by
  obtain ⟨text, middle, -, hvalue⟩ := bind_eq_ok h
  split at hvalue
  case isTrue hlt =>
    rw [run_pure, Reply.ok.injEq] at hvalue
    rw [← hvalue.1]
    exact hlt
  case isFalse => cases hvalue

/-- An optional sign in front of a digit string is taken apart from it. -/
theorem sign_run {sign : Option Byte} {text : Bytes} (hsign : ∀ b ∈ sign, isSign b = true)
    (h : IsNumeral 10 text) (rest : Bytes) :
    (opt (satisfy isSign)).run (sign.toList ++ text ++ rest) = .ok sign (text ++ rest) := by
  cases sign with
  | some b => exact opt_ok (satisfy_ok (hsign b rfl))
  | none =>
      cases text with
      | nil => exact absurd rfl h.nonempty
      | cons b text =>
          have hdigit := h.digits b List.mem_cons_self
          refine opt_fail (satisfy_fail ?_)
          by_contra hb
          simp only [isSign, Bool.not_eq_false, Bool.or_eq_true, beq_iff_eq] at hb
          rcases hb with rfl | rfl <;> exact absurd hdigit (by decide)

section Signed

variable {low high : Int} {sign : Option Byte} {text rest : Bytes}

/-- A digit string with an optional sign, in range or out of it. -/
theorem signedNumeral_run (hsign : ∀ b ∈ sign, isSign b = true) (h : IsNumeral 10 text)
    (hrest : Terminates 10 rest) :
    (signedNumeral low high).run (sign.toList ++ text ++ rest) =
      if low ≤ signed sign (value 10 text) ∧ signed sign (value 10 text) ≤ high then
        .ok (signed sign (value 10 text)) rest
      else .fail := by
  rw [signedNumeral, bind_ok (sign_run hsign h rest), bind_ok (digitRun_append h hrest)]
  by_cases hrange : low ≤ signed sign (value 10 text) ∧ signed sign (value 10 text) ≤ high
  · simp only [if_pos hrange, run_pure]
  · simp only [if_neg hrange]
    rfl

theorem signedNumeral_signed (hsign : ∀ b ∈ sign, isSign b = true) (h : IsNumeral 10 text)
    (hrest : Terminates 10 rest) (hlow : low ≤ signed sign (value 10 text))
    (hhigh : signed sign (value 10 text) ≤ high) :
    (signedNumeral low high).run (sign.toList ++ text ++ rest) =
      .ok (signed sign (value 10 text)) rest := by
  rw [signedNumeral_run hsign h hrest, if_pos ⟨hlow, hhigh⟩]

/-- A digit string without a sign. -/
theorem signedNumeral_append (h : IsNumeral 10 text) (hrest : Terminates 10 rest)
    (hlow : low ≤ value 10 text) (hhigh : value 10 text ≤ high) :
    (signedNumeral low high).run (text ++ rest) = .ok (value 10 text : Int) rest :=
  @signedNumeral_signed low high none text rest (by rintro b ⟨⟩) h hrest hlow hhigh

/-- A digit string behind a minus sign. -/
theorem signedNumeral_minus (h : IsNumeral 10 text) (hrest : Terminates 10 rest)
    (hlow : low ≤ -(value 10 text : Int)) (hhigh : -(value 10 text : Int) ≤ high) :
    (signedNumeral low high).run (byte '-' :: (text ++ rest)) =
      .ok (-(value 10 text : Int)) rest := by
  have hminus : ∀ b ∈ some (byte '-'), isSign b = true := by
    rintro b ⟨⟩
    decide
  exact signedNumeral_signed hminus h hrest hlow hhigh

end Signed

theorem advances_digitRun (base : Nat) : Advances (digitRun base) :=
  Advances.many1 (advances_satisfy _)

section Consumption

variable (n : Nat)

theorem tame_ite {α : Type} {c : Prop} [Decidable c] (value : α) :
    Tame n (if c then pure value else refuse : Parser Byte α) := by
  split
  · exact tame_pure value
  · exact tame_refuse

theorem tame_digitRun (base : Nat) : Tame n (digitRun base) :=
  (tame_satisfy _).many1 (advances_satisfy _)

theorem tame_unsignedNumeral (base limit : Nat) : Tame n (unsignedNumeral base limit) :=
  (tame_digitRun n base).bind fun _ => tame_ite n _

theorem tame_signedNumeral (low high : Int) : Tame n (signedNumeral low high) :=
  (tame_satisfy _).opt.bind fun _ => (tame_digitRun n 10).bind fun _ => tame_ite n _

/-- A numeral parser has no expectation points. -/
theorem quiet_signedNumeral (low high : Int) : Quiet (signedNumeral low high) := by
  refine (quiet_satisfy _).opt.bind fun _ =>
    ((quiet_satisfy _).many1 (advances_satisfy _)).bind fun _ => ?_
  simp only
  split_ifs
  · exact quiet_pure _
  · exact quiet_refuse

theorem advances_unsignedNumeral (base limit : Nat) : Advances (unsignedNumeral base limit) :=
  (advances_digitRun base).bind fun _ => (tame_ite 0 _).keeps

end Consumption

end BlackCircle.Foundation.Numeral
