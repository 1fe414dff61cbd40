import BlackCircle.Foundation.Unicode
import BlackCircle.Json.Entities
import Mathlib.Data.List.Chain

/-!
# Surrogate escapes

A literal of printable characters and `\u` escapes.  An escape that
`ucn_to_utf8` refuses, high or low, is taken together with the escape behind it,
whatever that is; without an escape behind it the rule throws.  Where even the
two together are refused, the backslash is read as a character and the second
escape stands by itself.
-/

namespace BlackCircle.Json.Surrogates

open BlackCircle.Foundation
open BlackCircle.Foundation.ByteString
open BlackCircle.Foundation.Numeral
open BlackCircle.Foundation.Peg
open BlackCircle.Foundation.Unicode (isHighSurrogate isLowSurrogate)
open BlackCircle.Json
open BlackCircle.Json.Entities
open BlackCircle.Json.Escapes
open BlackCircle.Json.Grammar
open BlackCircle.Json.Literals
open BlackCircle.Json.Print
open BlackCircle.Json.RoundTrip

/-! ## Literals -/

/-- A printable character that may stand in a literal. -/
structure Letter where
  byte : Byte
  printable : isPrintable byte = true
  quote : byte ≠ ByteString.byte '"'
  backslash : byte ≠ ByteString.byte '\\'

/-- Four hexadecimal digits. -/
structure Digits where
  text : Bytes
  length : text.length = 4
  hexadecimal : ∀ b ∈ text, isDigit 16 b = true

def Digits.code (digits : Digits) : Nat := value 16 digits.text

/-- A printable character or a `\u` escape. -/
inductive Item where
  | letter (letter : Letter)
  | escape (digits : Digits)

namespace Item

def text : Item → Bytes
  | letter l => [l.byte]
  | escape digits => ascii "\\u" ++ digits.text

/-- The code of an escape. -/
def code? : Item → Option Nat
  | letter _ => none
  | escape digits => some digits.code

end Item

/-- What is written between the quotation marks. -/
def written (items : List Item) : Bytes := items.flatMap Item.text

def isSurrogate (code : Nat) : Bool := 0xD800 ≤ code && code < 0xE000

/-- The number that two codes are combined to, in 32 bits. -/
def combined (first second : Nat) : Nat :=
  (pairCode (UInt32.ofNat first) (UInt32.ofNat second)).toNat

/-! ## Pairs and strays -/

/-- Of two neighbours, the first is a high surrogate just when the second is a low one. -/
def Matched (first second : Option Nat) : Prop :=
  first.any isHighSurrogate = second.any isLowSurrogate

/-- Every high surrogate is followed by a low one, and every low one is preceded by a high one;
there is no escape before the first item and none behind the last. -/
def Paired (items : List Item) : Prop :=
  (none :: (items.map Item.code? ++ [none])).IsChain Matched

instance (first second : Option Nat) : Decidable (Matched first second) :=
  inferInstanceAs (Decidable (first.any isHighSurrogate = second.any isLowSurrogate))

instance (items : List Item) : Decidable (Paired items) :=
  inferInstanceAs (Decidable (List.IsChain Matched (none :: (items.map Item.code? ++ [none]))))

/-- The reading from the left comes to a surrogate with no escape behind it. -/
def stranded : List Item → Bool
  | [] => false
  | .letter _ :: items => stranded items
  | [.escape first] => isSurrogate first.code
  | .escape first :: .letter _ :: items => isSurrogate first.code || stranded items
  | .escape first :: .escape second :: items =>
      if isSurrogate first.code && !isSurrogate (combined first.code second.code) then
        stranded items
      else stranded (.escape second :: items)

section Digits

theorem Digits.spells (digits : Digits) : SpellsCode digits.text digits.code where
  length := digits.length
  digit := digits.hexadecimal
  value := rfl

theorem digitValue_lt {b : Byte} (h : isDigit 16 b = true) : digitValue b < 16 := by
  simpa [isDigit] using h

/-- Four hexadecimal digits are less than `0x10000`. -/
theorem Digits.code_lt (digits : Digits) : digits.code < 0x10000 := by
  obtain ⟨text, hlength, hdigit⟩ := digits
  obtain ⟨a, b, c, d, rfl⟩ := List.length_eq_four.mp hlength
  have ha := digitValue_lt (hdigit a (by simp))
  have hb := digitValue_lt (hdigit b (by simp))
  have hc := digitValue_lt (hdigit c (by simp))
  have hd := digitValue_lt (hdigit d (by simp))
  simp only [Digits.code, value, List.foldl_cons, List.foldl_nil]
  omega

theorem toNat_code {n : Nat} (h : n < 0x10000) : (UInt32.ofNat n).toNat = n := by
  rw [UInt32.toNat_ofNat']
  exact Nat.mod_eq_of_lt (by omega)

/-- `ucn_to_utf8` refuses the surrogates and nothing else. -/
theorem ucnToUtf8_eq_none {code : UInt32} :
    ucnToUtf8 code = none ↔ isSurrogate code.toNat = true := by
  have hrange : (0xD800 ≤ code ∧ code < 0xE000) ↔ isSurrogate code.toNat = true := by
    rw [isSurrogate, Bool.and_eq_true, decide_eq_true_eq, decide_eq_true_eq,
      UInt32.le_iff_toNat_le, UInt32.lt_iff_toNat_lt]
    rfl
  rw [← hrange, ucnToUtf8]
  split_ifs with h
  · exact iff_of_true rfl h
  · exact iff_of_false (by rintro ⟨⟩) h

/-- A high and a low surrogate give a scalar above `0xFFFF`. -/
theorem combined_pair {first second : Nat} (hfirst : isHighSurrogate first = true)
    (hsecond : isLowSurrogate second = true) : isSurrogate (combined first second) = false := by
  simp only [isHighSurrogate, isLowSurrogate, Bool.and_eq_true, decide_eq_true_eq] at hfirst hsecond
  have hle : 0x10000 ≤ combined first second := by
    simp only [combined, pairCode, UInt32.toNat_add, UInt32.toNat_sub, UInt32.toNat_shiftLeft,
      UInt32.toNat_ofNat', UInt32.reduceToNat, Nat.shiftLeft_eq, Nat.reduceMod, Nat.reducePow]
    omega
  simp only [isSurrogate, Bool.and_eq_false_iff, decide_eq_false_iff_not]
  omega

end Digits

/-! ## What `characters` makes of a literal -/

section Outcome

variable {digits : Digits} {rest : Bytes}

/-- Bytes that stand for themselves are passed over. -/
theorem outcome_verbatim {word : Bytes}
    (h : ∀ b ∈ word, plainChar b = true ∧ b ≠ byte '&' ∧ b ≠ byte '\\') (rest : Bytes) :
    (characters.run (word ++ rest)).outcome = (characters.run rest).outcome := by
  induction word with
  | nil => rfl
  | cons b word ih =>
      obtain ⟨hplain, hamp, hbackslash⟩ := h b List.mem_cons_self
      have hfirst : character.run (b :: (word ++ rest)) = .ok [b] (word ++ rest) :=
        character_verbatim hplain hamp hbackslash
      exact (many_outcome advances_character hfirst).trans
        (ih fun c hc => h c (List.mem_cons_of_mem _ hc))

/-- An ampersand is passed over; what it may take with it are plain characters. -/
theorem outcome_ampersand (rest : Bytes) :
    (characters.run (byte '&' :: rest)).outcome = (characters.run rest).outcome := by
  rcases character_ampersand_cases rest with ⟨name, hname, part, after, rfl, hrun⟩ | hrun
  · have hverbatim : ∀ b ∈ name, plainChar b = true ∧ b ≠ byte '&' ∧ b ≠ byte '\\' := by
      simp only [entityNames, List.mem_cons, List.not_mem_nil, or_false] at hname
      rcases hname with rfl | rfl | rfl <;> decide
    rw [outcome_verbatim hverbatim after]
    exact many_outcome advances_character hrun
  · exact many_outcome advances_character hrun

theorem outcome_letter (l : Letter) (rest : Bytes) :
    (characters.run (l.byte :: rest)).outcome = (characters.run rest).outcome := by
  by_cases hamp : l.byte = byte '&'
  · rw [hamp]
    exact outcome_ampersand rest
  · exact many_outcome advances_character
      (character_verbatim (plainChar_of_printable l.printable l.quote) hamp l.backslash)

/-- The code of an escape, as `ucn_to_utf8` gets it. -/
theorem ucnToUtf8_code : ucnToUtf8 (UInt32.ofNat digits.code) = none ↔
    isSurrogate digits.code = true := by
  rw [ucnToUtf8_eq_none, toNat_code digits.code_lt]

theorem outcome_scalar (h : isSurrogate digits.code = false) (rest : Bytes) :
    (characters.run (ascii "\\u" ++ digits.text ++ rest)).outcome =
      (characters.run rest).outcome := by
  obtain ⟨part, hpart⟩ : ∃ part, ucnToUtf8 (UInt32.ofNat digits.code) = some part := by
    refine Option.ne_none_iff_exists'.mp fun hnone => ?_
    rw [ucnToUtf8_code, h] at hnone
    cases hnone
  have hsingle : (do let code ← ucnCode
                     pass (ucnToUtf8 code) : Parser Byte Bytes).run
      (ascii "\\u" ++ digits.text ++ rest) = .ok part rest := by
    rw [bind_ok (ucnCode_digits digits.spells rest), hpart]
    rfl
  have hrun : character.run (ascii "\\u" ++ digits.text ++ rest) = .ok part rest := by
    apply alt_left
    rw [escaped_ucn]
    exact alt_left hsingle
  exact many_outcome advances_character hrun

/-- A surrogate with no escape behind it. -/
theorem outcome_stuck (h : isSurrogate digits.code = true) (hrest : ucnCode.run rest = .fail) :
    (characters.run (ascii "\\u" ++ digits.text ++ rest)).outcome = .throw .expectation := by
  have hsingle : (do let code ← ucnCode
                     pass (ucnToUtf8 code) : Parser Byte Bytes).run
      (ascii "\\u" ++ digits.text ++ rest) = .fail := by
    rw [bind_ok (ucnCode_digits digits.spells rest), ucnToUtf8_code.mpr h]
    rfl
  have hrun : character.run (ascii "\\u" ++ digits.text ++ rest) = .throw .expectation := by
    apply alt_throw
    rw [escaped_ucn, alt_right hsingle, bind_ok (ucnCode_digits digits.spells rest)]
    exact must_bind_fail hrest
  exact congrArg Reply.outcome (many_throw hrun)

section Two

variable {first second : Digits}

theorem escaped_surrogate (h : isSurrogate first.code = true) (rest : Bytes) :
    escaped.run (ascii "\\u" ++ first.text ++ (ascii "\\u" ++ second.text ++ rest)) =
      (pass (ucnToUtf8 (pairCode (UInt32.ofNat first.code) (UInt32.ofNat second.code)))).run
        rest :=
  escaped_two first.spells second.spells (ucnToUtf8_code.mpr h) rest

/-- A surrogate and the escape behind it, taken together. -/
theorem outcome_taken (h : isSurrogate first.code = true)
    (hscalar : isSurrogate (combined first.code second.code) = false) (rest : Bytes) :
    (characters.run (ascii "\\u" ++ first.text ++ (ascii "\\u" ++ second.text ++ rest))).outcome =
      (characters.run rest).outcome := by
  obtain ⟨part, hpart⟩ : ∃ part, ucnToUtf8 (pairCode (UInt32.ofNat first.code)
      (UInt32.ofNat second.code)) = some part := by
    refine Option.ne_none_iff_exists'.mp fun hnone => ?_
    rw [ucnToUtf8_eq_none] at hnone
    exact absurd (hscalar.symm.trans hnone) (by decide)
  have hrun : character.run (ascii "\\u" ++ first.text ++ (ascii "\\u" ++ second.text ++ rest)) =
      .ok part rest := by
    apply alt_left
    rw [escaped_surrogate h, hpart]
    rfl
  exact many_outcome advances_character hrun

/-- A hexadecimal digit is a letter or a digit. -/
theorem verbatim_digit {b : Byte} (h : isDigit 16 b = true) :
    plainChar b = true ∧ b ≠ byte '&' ∧ b ≠ byte '\\' := by
  have hne : ∀ c, isDigit 16 c = false → b ≠ c := by
    rintro c hc rfl
    rw [h] at hc
    cases hc
  have hlt : b < 0x80 := by
    rw [isDigit, decide_eq_true_eq, digitValue] at h
    have hbound : (0x80 : UInt8).toNat = 128 := rfl
    rw [UInt8.lt_iff_toNat_lt, hbound]
    split_ifs at h <;> omega
  refine ⟨?_, hne _ (by decide), hne _ (by decide)⟩
  rw [plainChar, Bool.and_eq_true, decide_eq_true_eq, bne_iff_ne]
  exact ⟨hlt, hne _ (by decide)⟩

theorem verbatim_digits (digits : Digits) :
    ∀ b ∈ byte 'u' :: digits.text, plainChar b = true ∧ b ≠ byte '&' ∧ b ≠ byte '\\' :=
  List.forall_mem_cons.mpr ⟨by decide, fun b hb => verbatim_digit (digits.hexadecimal b hb)⟩

/-- A surrogate that is refused even together with the escape behind it: it is read as the six
characters it is written with. -/
theorem outcome_refused (h : isSurrogate first.code = true)
    (hrefused : isSurrogate (combined first.code second.code) = true) (rest : Bytes) :
    (characters.run (ascii "\\u" ++ first.text ++ (ascii "\\u" ++ second.text ++ rest))).outcome =
      (characters.run (ascii "\\u" ++ second.text ++ rest)).outcome := by
  have hfail : escaped.run (ascii "\\u" ++ first.text ++ (ascii "\\u" ++ second.text ++ rest)) =
      .fail := by
    rw [escaped_surrogate h, ucnToUtf8_eq_none.mpr hrefused]
    rfl
  have hbackslash : character.run
      (byte '\\' :: (byte 'u' :: first.text ++ (ascii "\\u" ++ second.text ++ rest))) =
        .ok [byte '\\'] (byte 'u' :: first.text ++ (ascii "\\u" ++ second.text ++ rest)) := by
    have hplain : (satisfy plainChar).run
        (byte '\\' :: (byte 'u' :: first.text ++ (ascii "\\u" ++ second.text ++ rest))) =
          .ok (byte '\\') (byte 'u' :: first.text ++ (ascii "\\u" ++ second.text ++ rest)) :=
      satisfy_ok (by decide)
    refine (alt_right hfail).trans ?_
    exact (bind_ok hplain).trans rfl
  exact (many_outcome advances_character hbackslash).trans
    (outcome_verbatim (verbatim_digits first) _)

end Two

/-- No escape begins at a byte other than a backslash. -/
theorem ucnCode_fail {b : Byte} (h : b ≠ byte '\\') : ucnCode.run (b :: rest) = .fail :=
  bind_fail (lit_fail_first rfl (Ne.symm h))

theorem written_cons (item : Item) (items : List Item) (rest : Bytes) :
    written (item :: items) ++ rest = item.text ++ (written items ++ rest) := by
  rw [written, List.flatMap_cons, List.append_assoc]
  rfl

/-- `characters` comes to the closing mark, or throws where the reading is stranded. -/
theorem outcome_written (items : List Item) (rest : Bytes) :
    (characters.run (written items ++ byte '"' :: rest)).outcome =
      if stranded items then .throw .expectation else .ok () (byte '"' :: rest) := by
  induction items using stranded.induct with
  | case1 =>
      have hquote : characters.run (byte '"' :: rest) = .ok [] (byte '"' :: rest) :=
        many_fail (character_quote rest)
      exact congrArg Reply.outcome hquote
  | case2 l items ih =>
      rw [written_cons, stranded]
      exact (outcome_letter l _).trans ih
  | case3 first =>
      rw [written_cons, stranded]
      cases hfirst : isSurrogate first.code with
      | false =>
          have hquote : characters.run (byte '"' :: rest) = .ok [] (byte '"' :: rest) :=
            many_fail (character_quote rest)
          exact (outcome_scalar hfirst _).trans (congrArg Reply.outcome hquote)
      | true => exact outcome_stuck hfirst (ucnCode_fail (by decide))
  | case4 first l items ih =>
      rw [written_cons, stranded]
      cases hfirst : isSurrogate first.code with
      | false =>
          rw [Bool.false_or, ← ih]
          refine (outcome_scalar hfirst _).trans ?_
          rw [written_cons]
          exact outcome_letter l _
      | true =>
          rw [written_cons]
          exact outcome_stuck hfirst (ucnCode_fail l.backslash)
  | case5 first second items htaken ih =>
      rw [written_cons, written_cons, stranded, if_pos htaken, ← ih]
      rw [Bool.and_eq_true, Bool.not_eq_true'] at htaken
      exact outcome_taken htaken.1 htaken.2 _
  | case6 first second items htaken ih =>
      rw [stranded, if_neg htaken, ← ih, written_cons]
      cases hfirst : isSurrogate first.code with
      | false => exact outcome_scalar hfirst _
      | true =>
          rw [hfirst, Bool.true_and, Bool.not_eq_true', Bool.not_eq_false] at htaken
          rw [written_cons]
          exact outcome_refused hfirst htaken _

end Outcome

/-! ## Paired literals -/

theorem isSurrogate_eq (code : Nat) :
    isSurrogate code = (isHighSurrogate code || isLowSurrogate code) := by
  rw [Bool.eq_iff_iff]
  simp only [isSurrogate, isHighSurrogate, isLowSurrogate, Bool.and_eq_true, Bool.or_eq_true,
    decide_eq_true_eq]
  omega

theorem not_high_of_low {code : Nat} (h : isLowSurrogate code = true) :
    isHighSurrogate code = false := by
  simp only [isLowSurrogate, Bool.and_eq_true, decide_eq_true_eq] at h
  simp only [isHighSurrogate, Bool.and_eq_false_iff, decide_eq_false_iff_not]
  omega

section Neighbours

variable {before after : Option Nat} {code : Nat} {later : List (Option Nat)}

/-- Behind an item that is no high surrogate stands no low one, so that a surrogate there is
high, and is followed by a low one. -/
theorem low_behind (hbefore : before.any isHighSurrogate = false)
    (hchain : (before :: some code :: after :: later).IsChain Matched) :
    isSurrogate code = after.any isLowSurrogate ∧
      (after.any isLowSurrogate = false → isHighSurrogate code = false) := by
  rw [List.isChain_cons_cons, List.isChain_cons_cons] at hchain
  obtain ⟨hfirst, hsecond, -⟩ := hchain
  have hlow : isLowSurrogate code = false := hfirst.symm.trans hbefore
  have hhigh : isHighSurrogate code = after.any isLowSurrogate := hsecond
  rw [isSurrogate_eq, hlow, hhigh, Bool.or_false]
  exact ⟨rfl, id⟩

end Neighbours

/-- A literal whose surrogates are paired is read to its end. -/
theorem stranded_of_matched (items : List Item) :
    ∀ before : Option Nat, before.any isHighSurrogate = false →
      (before :: (items.map Item.code? ++ [none])).IsChain Matched → stranded items = false := by
  induction items using stranded.induct with
  | case1 => exact fun _ _ _ => rfl
  | case2 l items ih =>
      intro before _ hchain
      rw [stranded]
      exact ih none rfl hchain.tail
  | case3 first =>
      intro before hbefore hchain
      exact (low_behind hbefore hchain).1
  | case4 first l items ih =>
      intro before hbefore hchain
      have hfirst : isSurrogate first.code = false := (low_behind hbefore hchain).1
      rw [stranded, hfirst, Bool.false_or]
      exact ih none rfl hchain.tail.tail
  | case5 first second items htaken ih =>
      intro before hbefore hchain
      rw [stranded, if_pos htaken]
      rw [Bool.and_eq_true] at htaken
      have hlow : isLowSurrogate second.code = true :=
        (low_behind hbefore hchain).1.symm.trans htaken.1
      exact ih (some second.code) (not_high_of_low hlow) hchain.tail.tail
  | case6 first second items htaken ih =>
      intro before hbefore hchain
      obtain ⟨hsurrogate, hhigh⟩ := low_behind hbefore hchain
      rw [stranded, if_neg htaken]
      cases hlow : isLowSurrogate second.code with
      | false => exact ih (some first.code) (hhigh hlow) hchain.tail
      | true =>
          -- such a pair is taken
          have hfirst : isSurrogate first.code = true := hsurrogate.trans hlow
          have hnext : Matched (some first.code) (some second.code) := hchain.tail.rel
          have hhigh : isHighSurrogate first.code = true := hnext.trans hlow
          rw [hfirst, combined_pair hhigh hlow] at htaken
          exact absurd rfl htaken

/-- A literal is accepted when its surrogates are paired and refused when they are not, just
when they are paired, or the reading from the left comes to a surrogate with no escape behind
it. -/
theorem parseJson_paired_iff {items : List Item} {text : Bytes}
    (htext : Spaced [[byte '['], literal (written items), [byte ']']] text) :
    ((Paired items → ∃ s, parseJson text = .ok (.array [.string s])) ∧
      (¬ Paired items → ∃ fault, parseJson text = .error fault)) ↔
        Paired items ∨ stranded items = true := by
  have hpaired : Paired items → stranded items = false := stranded_of_matched items none rfl
  obtain ⟨input, rest, hreads, hok, hthrow⟩ := parseJson_between htext
  have houtcome := outcome_written items rest
  cases hstranded : stranded items with
  | false =>
      rw [hstranded] at houtcome
      obtain ⟨parts, hparts⟩ := Reply.outcome_eq_ok houtcome
      have hread := hok _ (string_closed hparts hreads)
      rw [hread]
      constructor
      · rintro ⟨-, hrefused⟩
        by_contra hnot
        obtain ⟨fault, hfault⟩ := hrefused fun h => hnot (Or.inl h)
        cases hfault
      · rintro (h | h)
        · exact ⟨fun _ => ⟨_, rfl⟩, fun hnot => absurd h hnot⟩
        · exact absurd h (by decide)
  | true =>
      rw [hstranded] at houtcome hpaired
      have hthrown := hthrow _ (string_throws (Reply.outcome_eq_throw houtcome) hreads)
      rw [hthrown]
      refine iff_of_true ⟨fun h => ?_, fun _ => ⟨_, rfl⟩⟩ (Or.inr rfl)
      exact absurd (hpaired h) (by decide)

/-- A surrogate pair is read. -/
theorem parseJson_paired_face :
    ∃ s, parseJson (ascii "[\"\\ud83d\\ude00\"]") = .ok (.array [.string s]) := by
  have hpaired : Paired [.escape ⟨ascii "d83d", rfl, by decide⟩,
      .escape ⟨ascii "de00", rfl, by decide⟩] := by decide
  exact ((parseJson_paired_iff (spaced_literal _)).mpr (Or.inl hpaired)).1 hpaired

/-- A high surrogate takes the letter that is escaped behind it. -/
theorem not_parseJson_paired :
    ¬ ∀ (items : List Item) (text : Bytes),
      Spaced [[byte '['], literal (written items), [byte ']']] text →
        (Paired items → ∃ s, parseJson text = .ok (.array [.string s])) ∧
          (¬ Paired items → ∃ fault, parseJson text = .error fault) := by
  intro hall
  have hstray : ¬ Paired [.escape ⟨ascii "d800", rfl, by decide⟩,
      .escape ⟨ascii "0041", rfl, by decide⟩] := by decide
  obtain ⟨fault, hthrown⟩ := (hall _ _ (spaced_literal _)).2 hstray
  have hread : parseJson ([byte '['] ++ (literal (ascii "\\ud800\\u0041") ++ [byte ']'])) =
      .ok (.array [.string [0xE2, 0x91, 0x81]]) := rfl
  cases hread.symm.trans hthrown

end BlackCircle.Json.Surrogates
