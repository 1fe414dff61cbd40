import BlackCircle.Json.Places

/-!
# Numbers of the JSON grammar

A number literal has a whole part and may have a fraction and an exponent.  The
integer alternative takes the whole part alone unless a dot stands behind it or
it does not fit; an exponent directly behind the whole part is left standing,
and no array or object goes on with it.
-/

namespace BlackCircle.Json.Numbers

open BlackCircle.Foundation.ByteString
open BlackCircle.Foundation.Numeral
open BlackCircle.Foundation.Peg
open BlackCircle.Json
open BlackCircle.Json.Grammar
open BlackCircle.Json.Places
open BlackCircle.Json.Print
open BlackCircle.Json.RoundTrip

/-! ## Literals -/

/-- The exponent part of a number. -/
structure Exponent where
  letter : Byte
  sign : Option Byte
  digits : Bytes
  isExp_letter : isExp letter = true
  isSign_sign : ∀ b ∈ sign, isSign b = true
  numeral : IsNumeral 10 digits

theorem Exponent.letter_stray (e : Exponent) : Stray e.letter := by
  have hletter := e.isExp_letter
  simp only [isExp, Bool.or_eq_true, beq_iff_eq] at hletter
  rcases hletter with hletter | hletter
  · rw [hletter]
    constructor <;> decide
  · rw [hletter]
    constructor <;> decide

def Exponent.text (e : Exponent) : Bytes := e.letter :: (e.sign.toList ++ e.digits)

def Exponent.power (e : Exponent) : Int := signed e.sign (value 10 e.digits)

/-- The digits of a number without their dot. -/
def mantissa (whole : Bytes) (fraction : Option Bytes) : Nat :=
  value 10 (whole ++ fraction.getD [])

/-- The power of ten that a number has besides its mantissa. -/
def scale (fraction : Option Bytes) (exponent : Option Exponent) : Int :=
  (exponent.elim 0 Exponent.power) - (fraction.getD []).length

/-- The largest finite `double`. -/
def maxDouble : Nat := (2 ^ 53 - 1) * 2 ^ 971

/-- A number literal in the range of `double`. -/
structure Number where
  negative : Bool
  whole : Bytes
  fraction : Option Bytes
  exponent : Option Exponent
  numeral : IsNumeral 10 whole
  noZeros : ∀ tail, whole = byte '0' :: tail → tail = []
  fractionNumeral : ∀ digits ∈ fraction, IsNumeral 10 digits
  bounded : mantissa whole fraction * 10 ^ (scale fraction exponent).toNat ≤
    maxDouble * 10 ^ (-scale fraction exponent).toNat

namespace Number

def sign (n : Number) : Option Byte := if n.negative then some (byte '-') else none

def fractionText (n : Number) : Bytes := n.fraction.elim [] fun digits => byte '.' :: digits

def exponentText (n : Number) : Bytes := n.exponent.elim [] Exponent.text

def text (n : Number) : Bytes :=
  n.sign.toList ++ n.whole ++ (n.fractionText ++ n.exponentText)

/-- What stands in front of the fraction and the exponent. -/
def wholePart (n : Number) : Int := signed n.sign (value 10 n.whole)

/-- The whole part is an `int64_t`. -/
def Fits (n : Number) : Prop := -2 ^ 63 ≤ n.wholePart ∧ n.wholePart ≤ 2 ^ 63 - 1

instance (n : Number) : Decidable n.Fits := inferInstanceAs (Decidable (_ ∧ _))

/-- The value of a number: an integer if it is written as one and fits, else a real. -/
def value (n : Number) : Value :=
  if n.fraction = none ∧ n.exponent = none ∧ n.Fits then .int (Int64.ofInt n.wholePart)
  else .real (.decimal n.negative (mantissa n.whole n.fraction) (scale n.fraction n.exponent))

/-- No exponent stands directly behind a whole part that fits. -/
def Separate (n : Number) : Prop := n.exponent = none ∨ n.fraction ≠ none ∨ ¬ n.Fits

end Number

/-! ## What stands behind a number -/

/-- A text that prolongs no number. -/
structure Ends (rest : Bytes) : Prop where
  digit : Terminates 10 rest
  exp : ∀ b tail, rest = b :: tail → isExp b = false
  point : ∀ b tail, rest = b :: tail → byte '.' ≠ b
  noPoint : (mark '.').run rest = .fail

theorem ends_of_closes {more : List Bytes} {rest : Bytes} (h : Closes more)
    (hspaced : Spaced more rest) : Ends rest where
  digit := h.terminates hspaced
  exp := by
    have hexp : ∀ b ∈ endBytes, isExp b = false := by decide
    exact fun b tail hrest => hexp b (h.first hspaced hrest)
  point := by
    have hpoint : ∀ b ∈ endBytes, byte '.' ≠ b := by decide
    exact fun b tail hrest => hpoint b (h.first hspaced hrest)
  noPoint := h.no_dot hspaced

section Reals

variable {rest : Bytes}

theorem exponent_none (h : Ends rest) : exponent.run rest = .ok 0 rest := by
  have habsent : (satisfy isExp).run rest = .fail := by
    cases rest with
    | nil => exact satisfy_nil _
    | cons b tail => exact satisfy_fail (h.exp b tail rfl)
  rw [exponent, bind_ok (opt_fail habsent), run_pure]

theorem exponent_some (e : Exponent) (h : Ends rest) :
    exponent.run (e.text ++ rest) = .ok e.power rest := by
  have hletter : (satisfy isExp).run (e.text ++ rest) =
      .ok e.letter (e.sign.toList ++ e.digits ++ rest) := satisfy_ok e.isExp_letter
  rw [exponent, bind_ok (opt_ok hletter)]
  simp only
  rw [bind_ok (sign_run e.isSign_sign e.numeral rest), bind_ok (digitRun_append e.numeral h.digit),
    run_pure]
  rfl

theorem exponent_run (n : Number) (h : Ends rest) :
    exponent.run (n.exponentText ++ rest) = .ok (n.exponent.elim 0 Exponent.power) rest := by
  rw [Number.exponentText]
  cases n.exponent with
  | none => exact exponent_none h
  | some e => exact exponent_some e h

/-- Neither a digit nor a dot begins what stands behind the fraction. -/
theorem exponentText_first (n : Number) (h : Ends rest) {b : Byte} {tail : Bytes}
    (hcons : n.exponentText ++ rest = b :: tail) : isDigit 10 b = false ∧ byte '.' ≠ b := by
  rw [Number.exponentText] at hcons
  cases hexponent : n.exponent with
  | none =>
      rw [hexponent] at hcons
      exact ⟨h.digit b tail hcons, h.point b tail hcons⟩
  | some e =>
      rw [hexponent] at hcons
      cases hcons
      exact ⟨e.letter_stray.digit, e.letter_stray.point⟩

theorem point_fail (hpoint : ∀ b tail, rest = b :: tail → byte '.' ≠ b) :
    (lit [byte '.']).run rest = .fail := by
  cases rest with
  | nil => rfl
  | cons b tail => exact lit_fail_first rfl (hpoint b tail rfl)

theorem fractionDigits_run (n : Number) (h : Ends rest) :
    fractionDigits.run (n.fractionText ++ (n.exponentText ++ rest)) =
      .ok n.fraction (n.exponentText ++ rest) := by
  have hnumeral := n.fractionNumeral
  rw [Number.fractionText]
  cases hfraction : n.fraction with
  | none =>
      have habsent : (lit [byte '.']).run (n.exponentText ++ rest) = .fail :=
        point_fail fun b tail hcons => (exponentText_first n h hcons).2
      rw [fractionDigits]
      exact bind_into (opt_fail habsent) rfl
  | some digits =>
      have hpoint : (lit [byte '.']).run (byte '.' :: digits ++ (n.exponentText ++ rest)) =
          .ok () (digits ++ (n.exponentText ++ rest)) := lit_append [byte '.'] _
      have hdigits := digitRun_append (hnumeral digits hfraction)
        fun b tail hcons => (exponentText_first n h hcons).1
      rw [fractionDigits]
      exact (bind_into (opt_ok hpoint) rfl).trans (opt_ok hdigits)

/-- What stands behind the whole part is no digit. -/
theorem terminates_behind (n : Number) (h : Ends rest) :
    Terminates 10 (n.fractionText ++ (n.exponentText ++ rest)) := by
  intro b tail hcons
  rw [Number.fractionText] at hcons
  cases hfraction : n.fraction with
  | none =>
      rw [hfraction] at hcons
      exact (exponentText_first n h hcons).1
  | some digits =>
      rw [hfraction] at hcons
      cases hcons
      decide

theorem isSign_sign (n : Number) : ∀ b ∈ n.sign, isSign b = true := by
  intro b hb
  rw [Number.sign] at hb
  split_ifs at hb with hnegative
  · cases hb
    decide
  · cases hb

/-- `double_` reads every number as a whole. -/
theorem double_run (n : Number) (h : Ends rest) :
    double_.run (n.text ++ rest) =
      .ok (.decimal n.negative (mantissa n.whole n.fraction) (scale n.fraction n.exponent))
        rest := by
  have htext : n.text ++ rest =
      n.sign.toList ++ n.whole ++ (n.fractionText ++ (n.exponentText ++ rest)) := by
    simp only [Number.text, List.append_assoc]
  have hnegative : (n.sign == some (byte '-')) = n.negative := by
    rw [Number.sign]
    cases n.negative <;> rfl
  have hwhole := digitRun_append n.numeral (terminates_behind n h)
  rw [htext, double_, bind_ok (sign_run (isSign_sign n) n.numeral _)]
  simp only
  rw [bind_ok (opt_ok hwhole)]
  simp only [hnegative, fraction]
  rw [bind_ok (fractionDigits_run n h)]
  simp only [reduceCtorEq, false_and, if_false]
  rw [bind_ok (exponent_run n h), run_pure]
  rfl

end Reals

/-! ## The alternatives of `value_` -/

section Alternatives

variable {recur : Parser Byte Value} {text rest : Bytes}

/-- The integer alternative takes a whole part that fits, and nothing else. -/
theorem integer_run (n : Number) (h : Ends rest) (hreads : Reads text (n.text ++ rest)) :
    integer.run text =
      if n.fraction = none ∧ n.Fits then .ok (Int64.ofInt n.wholePart) (n.exponentText ++ rest)
      else .fail := by
  have htext : n.text ++ rest =
      n.sign.toList ++ n.whole ++ (n.fractionText ++ (n.exponentText ++ rest)) := by
    simp only [Number.text, List.append_assoc]
  have hnumeral := @signedNumeral_run (-2 ^ 63) (2 ^ 63 - 1) _ _ _ (isSign_sign n) n.numeral
    (terminates_behind n h)
  rw [← htext] at hnumeral
  by_cases hfits : n.Fits
  · have hint : (token int64).run text =
        .ok (Int64.ofInt n.wholePart) (n.fractionText ++ (n.exponentText ++ rest)) := by
      rw [hreads, int64, bind_ok (hnumeral.trans (if_pos hfits)), run_pure]
      rfl
    rw [integer, bind_ok hint, Number.fractionText]
    cases hfraction : n.fraction with
    | none =>
        have hpoint : (mark '.').run (n.exponentText ++ rest) = .fail := by
          rw [Number.exponentText]
          cases hexponent : n.exponent with
          | none => exact h.noPoint
          | some e => exact mark_fail (reads_solid e.letter_stray.space) e.letter_stray.point
        rw [if_pos ⟨rfl, hfits⟩]
        exact bind_into (notAhead_ok hpoint) rfl
    | some digits =>
        have hpoint : (mark '.').run (byte '.' :: digits ++ (n.exponentText ++ rest)) =
            .ok () (digits ++ (n.exponentText ++ rest)) :=
          mark_ok (reads_solid (by decide))
        rw [if_neg (fun hnone => Option.some_ne_none _ hnone.1)]
        exact bind_fail (notAhead_fail hpoint)
  · have hint : (token int64).run text = .fail := by
      rw [hreads, int64, bind_fail (hnumeral.trans (if_neg hfits))]
    rw [if_neg (fun hboth => hfits hboth.2), integer, bind_fail hint]

/-- The first byte of a number. -/
theorem text_cons (n : Number) :
    ∃ b tail, n.text = b :: tail ∧ (b = byte '-' ∨ isDigit 10 b = true) := by
  have hnumeral := n.numeral
  have hsign : n.sign = some (byte '-') ∨ n.sign = none := by
    rw [Number.sign]
    cases n.negative with
    | true => exact Or.inl rfl
    | false => exact Or.inr rfl
  rcases hsign with hsign | hsign
  · refine ⟨byte '-', n.whole ++ (n.fractionText ++ n.exponentText), ?_, Or.inl rfl⟩
    rw [Number.text, hsign]
    rfl
  · cases hwhole : n.whole with
    | nil => exact absurd hwhole hnumeral.nonempty
    | cons b whole =>
        refine ⟨b, whole ++ (n.fractionText ++ n.exponentText), ?_, Or.inr ?_⟩
        · rw [Number.text, hsign, hwhole]
          rfl
        · exact hnumeral.digits b (by rw [hwhole]; exact List.mem_cons_self)

theorem solid_number (n : Number) : Solid n.text := by
  obtain ⟨b, tail, hcons, hb⟩ := text_cons n
  refine ⟨b, tail, hcons, ?_⟩
  rcases hb with rfl | hdigit
  · decide
  · exact isSpace_of_digit (by omega) hdigit

/-- A number is neither an array nor a string. -/
theorem valueRule_number (n : Number) (hreads : Reads text (n.text ++ rest)) :
    (valueRule recur).run text = (alt (as integer .int) (alt (as (token double_) .real)
      (alt (as (object_ recur) .object)
        (alt (as (token bool_) .bool) (as null_ fun _ => .null))))).run text := by
  obtain ⟨b, tail, hcons, hb⟩ := text_cons n
  have hfirst : Reads text (b :: (tail ++ rest)) := by
    rw [hcons] at hreads
    exact hreads
  rw [valueRule, alt_right (array_fail hfirst (ne_of_starts_int hb (by decide) (by decide))),
    alt_right (as_fail (string_fail hfirst (ne_of_starts_int hb (by decide) (by decide))))]

/-- A number with no exponent directly behind a whole part that fits is read as a whole. -/
theorem value_separate {n : Number} (hseparate : n.Separate) (h : Ends rest)
    (hreads : Reads text (n.text ++ rest)) : (valueRule recur).run text = .ok n.value rest := by
  have hinteger := integer_run n h hreads
  rw [valueRule_number n hreads, Number.value]
  by_cases hint : n.fraction = none ∧ n.Fits
  · have hexponent : n.exponent = none :=
      hseparate.resolve_right (not_or.mpr ⟨fun hne => hne hint.1, fun hnot => hnot hint.2⟩)
    have htext : n.exponentText = [] := by rw [Number.exponentText, hexponent, Option.elim_none]
    rw [if_pos hint, htext, List.nil_append] at hinteger
    rw [if_pos ⟨hint.1, hexponent, hint.2⟩, alt_left (as_ok hinteger)]
  · have hdouble : (token double_).run text = _ := (hreads double_).trans (double_run n h)
    rw [if_neg hint] at hinteger
    rw [if_neg fun hall => hint ⟨hall.1, hall.2.2⟩, alt_right (as_fail hinteger),
      alt_left (as_ok hdouble)]

/-- Otherwise the exponent is left standing. -/
theorem value_mixed {n : Number} (hmixed : ¬ n.Separate) (h : Ends rest)
    (hreads : Reads text (n.text ++ rest)) : Spoiled ((valueRule recur).run text) := by
  have hinteger := integer_run n h hreads
  rw [Number.Separate, not_or, not_or, not_not, not_not] at hmixed
  obtain ⟨hsome, hnone, hfits⟩ := hmixed
  obtain ⟨e, hexponent⟩ := Option.ne_none_iff_exists'.mp hsome
  rw [if_pos ⟨hnone, hfits⟩, Number.exponentText, hexponent] at hinteger
  right
  refine ⟨.int (Int64.ofInt n.wholePart), e.letter, e.sign.toList ++ e.digits ++ rest, ?_,
    e.letter_stray⟩
  rw [valueRule_number n hreads, alt_left (as_ok hinteger)]
  rfl

end Alternatives

/-! ## Numbers in their places -/

theorem readsItem_number {n : Number} (h : n.Separate) (depth : Nat) (hdepth : 0 < depth) :
    ReadsItem (value_ depth) [n.text] n.value := by
  intro more text hcloses hspaced
  obtain ⟨depth, rfl⟩ : ∃ d, depth = d + 1 := ⟨depth - 1, by omega⟩
  obtain ⟨rest, hrest, hreads⟩ := Spaced.reads hspaced (solid_number n)
  exact ⟨rest, value_separate h (ends_of_closes hcloses hrest) hreads, hrest⟩

theorem spoils_number {n : Number} (h : ¬ n.Separate) (depth : Nat) (hdepth : 0 < depth) :
    Spoils (value_ depth) [n.text] := by
  intro more text hcloses hspaced
  obtain ⟨depth, rfl⟩ : ∃ d, depth = d + 1 := ⟨depth - 1, by omega⟩
  obtain ⟨rest, hrest, hreads⟩ := Spaced.reads hspaced (solid_number n)
  exact value_mixed h (ends_of_closes hcloses hrest) hreads

/-- Wherever a number stands, the text is parsed with its value in that place just when no
exponent stands directly behind a whole part that fits. -/
theorem parseJson_number_iff (n : Number) {place : Place} {text : Bytes}
    (hinside : place.IsInside) (hspaced : Spaced (place.tokens [n.text]) text) :
    parseJson text = .ok (place.value n.value) ↔ n.Separate := by
  constructor
  · intro hparsed
    by_contra hmixed
    have hthrown := parseJson_spoiled
      (fun depth hdepth => spoils_number hmixed depth (Nat.zero_lt_of_lt hdepth)) hinside hspaced
    rw [hthrown] at hparsed
    cases hparsed
  · intro hseparate
    exact parseJson_place
      (fun depth hdepth => readsItem_number hseparate depth (Nat.zero_lt_of_lt hdepth))
      hinside hspaced

/-- A number between brackets, with spaces around it. -/
theorem spaced_number (n : Number) :
    Spaced ((Place.element [] .here []).tokens [n.text])
      (ascii "[" ++ (ascii " " ++ (n.text ++ ascii " ]"))) :=
  @Spaced.cons [] _ _ _ (by decide) (@Spaced.cons (ascii " ") _ _ _ (by decide)
    (@Spaced.cons (ascii " ") _ [] _ (by decide) (.nil (by decide))))

/-- A number with all its parts. -/
theorem parseJson_number_parts :
    parseJson (ascii "[ -1.5e3 ]") = .ok (.array [.real (.decimal true 15 2)]) := by
  have hbounded : mantissa (ascii "1") (some (ascii "5")) * 10 ^ (2 : Int).toNat ≤
      maxDouble * 10 ^ (-2 : Int).toNat := by decide +kernel
  have hparsed := @parseJson_number_iff
    ⟨true, ascii "1", some (ascii "5"),
      some ⟨byte 'e', none, ascii "3", rfl, by rintro b ⟨⟩, by decide⟩,
      by decide, by rintro tail ⟨⟩, by decide, hbounded⟩
    (.element [] .here []) _ trivial (spaced_number _)
  exact hparsed.mpr (Or.inr (Or.inl (Option.some_ne_none _)))

/-- A whole number with an exponent makes the parser throw. -/
theorem not_parseJson_number :
    ¬ ∀ (n : Number) (place : Place) (text : Bytes), place.IsInside →
      Spaced (place.tokens [n.text]) text → parseJson text = .ok (place.value n.value) := by
  intro hall
  have hbounded : mantissa (ascii "1") none * 10 ^ (5 : Int).toNat ≤
      maxDouble * 10 ^ (-5 : Int).toNat := by decide +kernel
  have hparsed := hall
    ⟨false, ascii "1", none, some ⟨byte 'e', none, ascii "5", rfl, by rintro b ⟨⟩, by decide⟩,
      by decide, by rintro tail ⟨⟩, by decide, hbounded⟩
    (.element [] .here []) _ trivial (spaced_number _)
  have hthrown : parseJson (ascii "[ 1e5 ]") = .error .expectation := rfl
  have hclash : ∀ v : Value, (.error .expectation : Except Fault Value) ≠ .ok v := by
    rintro v ⟨⟩
  exact hclash _ (hthrown.symm.trans hparsed)

end BlackCircle.Json.Numbers
