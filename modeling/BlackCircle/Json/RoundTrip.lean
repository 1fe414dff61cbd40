import BlackCircle.Json.Grammar
import BlackCircle.Json.Print

/-!
# Parsing what was printed

The proofs read a text token by token.  `Reads text input` says that a primitive
parser sees `input` where the text stands, white space aside; a text that is
spaced from its tokens reads as its first token.  The induction is on the
nesting depth; the elements of one array or object are gone through in turn.
-/

namespace BlackCircle.Json.RoundTrip

open BlackCircle.Foundation
open BlackCircle.Foundation.ByteString
open BlackCircle.Foundation.EntryList (inKeyOrder perm_inKeyOrder sorted_inKeyOrder)
open BlackCircle.Foundation.Numeral
open BlackCircle.Foundation.Peg
open BlackCircle.Json
open BlackCircle.Json.Grammar
open BlackCircle.Json.Print

/-! ## Tokens -/

/-- Where `text` stands, a parser behind the skipper sees `input`. -/
def Reads (text input : Bytes) : Prop :=
  ∀ {α : Type} (p : Parser Byte α), (token p).run text = p.run input

/-- A token that white space cannot swallow. -/
def Solid (word : Bytes) : Prop := ∃ b tail, word = b :: tail ∧ isSpace b = false

theorem isSpace_of_isBlank {b : Byte} (h : isBlank b = true) : isSpace b = true := by
  simp only [isBlank, CR, LF, Bool.or_eq_true, beq_iff_eq] at h
  rcases h with ((rfl | rfl) | rfl) | rfl <;> decide

/-- The skipper takes all white space up to something else. -/
theorem reads_space {gap rest : Bytes} (hgap : ∀ b ∈ gap, isSpace b = true)
    (hrest : ∀ b tail, rest = b :: tail → isSpace b = false) : Reads (gap ++ rest) rest := by
  intro α p
  have hspaces : (many (satisfy isSpace)).run (gap ++ rest) = .ok gap rest :=
    many_satisfy_append hgap hrest
  have hskip : skip.run (gap ++ rest) = .ok () rest := by
    rw [skip, bind_ok hspaces, run_pure]
  rw [token, bind_ok hskip]

theorem reads_gap {gap rest : Bytes} (hgap : ∀ b ∈ gap, isBlank b = true)
    (hrest : ∀ b tail, rest = b :: tail → isSpace b = false) : Reads (gap ++ rest) rest :=
  reads_space (fun b hb => isSpace_of_isBlank (hgap b hb)) hrest

/-- A text that does not begin with white space. -/
theorem reads_solid {b : Byte} {tail : Bytes} (hb : isSpace b = false) :
    Reads (b :: tail) (b :: tail) := by
  refine @reads_space [] (b :: tail) (by rintro b ⟨⟩) ?_
  rintro b' tail' heq
  cases heq
  exact hb

/-- A text that is spaced from its tokens reads as the first of them, and what follows is
spaced from the others. -/
theorem Spaced.reads {word text : Bytes} {more : List Bytes} (h : Spaced (word :: more) text)
    (hsolid : Solid word) : ∃ rest, Spaced more rest ∧ Reads text (word ++ rest) := by
  obtain ⟨b, tail, rfl, hb⟩ := hsolid
  cases h with
  | cons hgap hrest =>
      refine ⟨_, hrest, reads_gap hgap ?_⟩
      rintro b' tail' heq
      cases heq
      exact hb

theorem Spaced.reads_nil {text : Bytes} (h : Spaced [] text) : Reads text [] := by
  cases h with
  | nil hgap =>
      have hreads := @reads_gap text [] hgap (by rintro b tail ⟨⟩)
      rwa [List.append_nil] at hreads

/-- White space may be added at both ends. -/
theorem Spaced.surround {tokens : List Bytes} {before text after : Bytes} (h : Spaced tokens text)
    (hbefore : ∀ b ∈ before, isBlank b = true) (hafter : ∀ b ∈ after, isBlank b = true) :
    Spaced tokens (before ++ (text ++ after)) := by
  induction h generalizing before with
  | nil hgap =>
      exact .nil (List.forall_mem_append.mpr ⟨hbefore, List.forall_mem_append.mpr ⟨hgap, hafter⟩⟩)
  | @cons gap token rest tokens hgap hrest ih =>
      have hinner : Spaced tokens ([] ++ (rest ++ after)) := ih (by simp)
      have hjoined : before ++ ((gap ++ (token ++ rest)) ++ after) =
          (before ++ gap) ++ (token ++ (rest ++ after)) := by
        simp only [List.append_assoc]
      rw [hjoined]
      exact .cons (List.forall_mem_append.mpr ⟨hbefore, hgap⟩) hinner

section Marks

variable {text rest : Bytes} {b : Byte} {c : Char}

theorem mark_ok (h : Reads text (byte c :: rest)) : (mark c).run text = .ok () rest := by
  have hlit : (lit [byte c]).run (byte c :: rest) = .ok () rest := lit_append [byte c] rest
  rw [mark, h, hlit]

theorem lit_fail_first {word : Bytes} {first : Byte} {tail : Bytes} (hword : word = first :: tail)
    (hne : first ≠ b) : (lit word).run (b :: rest) = .fail := by
  apply lit_fail
  rw [hword, List.cons_prefix_cons]
  exact fun h => hne h.1

theorem mark_fail (h : Reads text (b :: rest)) (hne : byte c ≠ b) : (mark c).run text = .fail := by
  rw [mark, h]
  exact lit_fail_first rfl hne

end Marks

/-! ## Strings -/

theorem plain_ne {b : Byte} (h : isPlain b = true) :
    b ≠ byte '"' ∧ b ≠ byte '\\' ∧ b ≠ byte '&' ∧ b < 0x80 := by
  simp only [isPlain, Bool.and_eq_true, bne_iff_ne, decide_eq_true_eq] at h
  obtain ⟨⟨⟨⟨-, hlt⟩, hquote⟩, hbackslash⟩, hamp⟩ := h
  exact ⟨hquote, hbackslash, hamp, lt_trans hlt (by decide)⟩

/-- A byte that is neither an ampersand nor a backslash starts no escape. -/
theorem escaped_fail {b : Byte} {rest : Bytes} (hamp : b ≠ byte '&') (hbackslash : b ≠ byte '\\') :
    escaped.run (b :: rest) = .fail := by
  have hentity : (lit (ascii "&")).run (b :: rest) = .fail := lit_fail_first rfl (Ne.symm hamp)
  have hshort : (lit (ascii "\\")).run (b :: rest) = .fail :=
    lit_fail_first rfl (Ne.symm hbackslash)
  have hcode : ucnCode.run (b :: rest) = .fail :=
    bind_fail (lit_fail_first rfl (Ne.symm hbackslash))
  rw [escaped, alt_right (bind_fail hentity), alt_right (bind_fail hshort),
    alt_right (bind_fail hcode)]
  exact bind_fail hcode

/-- A plain character stands for itself. -/
theorem character_plain {b : Byte} {rest : Bytes} (h : isPlain b = true) :
    (alt escaped (do let c ← satisfy plainChar
                     return [c])).run (b :: rest) = .ok [b] rest := by
  obtain ⟨hquote, hbackslash, hamp, hlt⟩ := plain_ne h
  have hplain : plainChar b = true := by simp [plainChar, hlt, hquote]
  rw [alt_right (escaped_fail hamp hbackslash), bind_ok (satisfy_ok hplain), run_pure]

theorem character_quote (rest : Bytes) :
    (alt escaped (do let c ← satisfy plainChar
                     return [c])).run (byte '"' :: rest) = .fail := by
  rw [alt_right (escaped_fail (by decide) (by decide))]
  exact bind_fail (satisfy_fail (by decide))

theorem characters_plain {text rest : Bytes} (h : ∀ b ∈ text, isPlain b = true) :
    characters.run (text ++ byte '"' :: rest) =
      .ok (text.map fun b => [b]) (byte '"' :: rest) := by
  have hadvances : Advances (alt escaped (do let c ← satisfy plainChar
                                             return [c])) :=
    Advances.alt advances_escaped ((advances_satisfy _).bind fun _ => keeps_pure _)
  induction text with
  | nil => exact many_fail (character_quote rest)
  | cons b text ih =>
      have hrest := ih fun b' hb' => h b' (List.mem_cons_of_mem _ hb')
      exact many_cons hadvances (character_plain (h b List.mem_cons_self)) hrest

/-- A string literal of plain characters. -/
theorem string_quoted {text rest : Bytes} (s : Plain) (h : Reads text (quoted s ++ rest)) :
    string_.run text = .ok s.bytes rest := by
  have hquoted : quoted s ++ rest = [byte '"'] ++ (s.bytes ++ byte '"' :: rest) := by
    simp [quoted]
  have hclose : (lit [byte '"']).run (byte '"' :: rest) = .ok () rest := lit_append [byte '"'] rest
  have hflat : (s.bytes.map fun b => [b]).flatten = s.bytes := by
    rw [← List.flatMap_def, List.flatMap_singleton']
  rw [string_, h, hquoted, bind_ok (lit_append _ _), must_bind_ok (characters_plain s.plain),
    must_bind_ok hclose, run_pure, hflat]

theorem string_fail {text rest : Bytes} {b : Byte} (h : Reads text (b :: rest))
    (hne : byte '"' ≠ b) : string_.run text = .fail := by
  rw [string_, h]
  exact bind_fail (lit_fail_first rfl hne)

/-! ## Numbers -/

theorem int64_decimal {n : Int64} {rest : Bytes} (hrest : Terminates 10 rest) :
    int64.run (decimalInt n.toInt ++ rest) = .ok n rest := by
  have hlow : -2 ^ 63 ≤ n.toInt := Int64.le_toInt n
  have hhigh : n.toInt < 2 ^ 63 := Int64.toInt_lt n
  have hvalue : value 10 (decimal n.toInt.natAbs) = n.toInt.natAbs := value_decimal _
  have hnumeral := isNumeral_decimal n.toInt.natAbs
  have hread : (signedNumeral (-2 ^ 63) (2 ^ 63 - 1)).run (decimalInt n.toInt ++ rest) =
      .ok n.toInt rest := by
    by_cases hneg : n.toInt < 0
    · have habs : -(value 10 (decimal n.toInt.natAbs) : Int) = n.toInt := by omega
      rw [decimalInt, if_pos hneg, List.cons_append,
        signedNumeral_minus hnumeral hrest (by omega) (by omega), habs]
    · have habs : (value 10 (decimal n.toInt.natAbs) : Int) = n.toInt := by omega
      rw [decimalInt, if_neg hneg, signedNumeral_append hnumeral hrest (by omega) (by omega), habs]
  rw [int64, bind_ok hread, run_pure, Int64.ofInt_toInt]

theorem integer_decimal {n : Int64} {text rest : Bytes}
    (h : Reads text (decimalInt n.toInt ++ rest)) (hrest : Terminates 10 rest)
    (hdot : (mark '.').run rest = .fail) : integer.run text = .ok n rest := by
  have hread : (token int64).run text = .ok n rest := (h int64).trans (int64_decimal hrest)
  rw [integer, bind_ok hread, bind_ok (notAhead_ok hdot), run_pure]

section Refusals

variable {text rest : Bytes} {b : Byte}

theorem sign_fail (hsign : isSign b = false) :
    (opt (satisfy isSign)).run (b :: rest) = .ok none (b :: rest) :=
  opt_fail (satisfy_fail hsign)

theorem digitRun_fail (hdigit : isDigit 10 b = false) : (digitRun 10).run (b :: rest) = .fail :=
  many1_fail (satisfy_fail hdigit)

theorem integer_fail (h : Reads text (b :: rest)) (hsign : isSign b = false)
    (hdigit : isDigit 10 b = false) : integer.run text = .fail := by
  have hnumeral : (signedNumeral (-2 ^ 63) (2 ^ 63 - 1)).run (b :: rest) = .fail := by
    rw [signedNumeral, bind_ok (sign_fail hsign)]
    exact bind_fail (digitRun_fail hdigit)
  have hread : (token int64).run text = .fail := (h int64).trans (bind_fail hnumeral)
  exact bind_fail hread

/-- A text that starts neither a numeral nor a special value is no real. -/
theorem double_fail (h : Reads text (b :: rest)) (hsign : isSign b = false)
    (hdigit : isDigit 10 b = false) (hdot : byte '.' ≠ b)
    (hspecial : (special false).run (b :: rest) = .fail) : (token double_).run text = .fail := by
  have hdigits : fractionDigits.run (b :: rest) = .ok none (b :: rest) := by
    have hnone : (opt (lit [byte '.'])).run (b :: rest) = .ok none (b :: rest) :=
      opt_fail (lit_fail_first rfl hdot)
    rw [fractionDigits, bind_ok hnone, run_pure]
  have hfraction : (fraction false none).run (b :: rest) = .fail := by
    rw [fraction, bind_ok hdigits]
    rfl
  rw [h, double_, bind_ok (sign_fail hsign), bind_ok (opt_fail (digitRun_fail hdigit))]
  exact (alt_right hspecial).trans hfraction

theorem noCase_fail {letter : Byte} {word : Bytes} (hlower : b ≠ letter)
    (hupper : b ≠ letter - 32) : (noCase (letter :: word)).run (b :: rest) = .fail :=
  bind_fail (satisfy_fail (by simp [hlower, hupper]))

theorem special_fail (hn : b ≠ byte 'n') (hN : b ≠ byte 'N') (hi : b ≠ byte 'i')
    (hI : b ≠ byte 'I') : (special false).run (b :: rest) = .fail := by
  have hnan : (noCase (ascii "nan")).run (b :: rest) = .fail := noCase_fail hn hN
  have hinf : (noCase (ascii "inf")).run (b :: rest) = .fail := noCase_fail hi hI
  rw [special, alt_right (bind_fail hnan)]
  exact bind_fail hinf

/-- `null` begins like `nan`, but not for long. -/
theorem special_null : (special false).run (ascii "null" ++ rest) = .fail := by
  have hfirst : (satisfy fun b => b == byte 'n' || b == byte 'n' - 32).run
      (byte 'n' :: (ascii "ull" ++ rest)) = .ok (byte 'n') (ascii "ull" ++ rest) :=
    satisfy_ok (by decide)
  have hnan : (noCase (ascii "nan")).run (byte 'n' :: (ascii "ull" ++ rest)) = .fail := by
    have hrest : (noCase (ascii "an")).run (byte 'u' :: (ascii "ll" ++ rest)) = .fail :=
      noCase_fail (by decide) (by decide)
    exact (bind_ok hfirst).trans hrest
  have hinf : (noCase (ascii "inf")).run (byte 'n' :: (ascii "ull" ++ rest)) = .fail :=
    noCase_fail (by decide) (by decide)
  exact (alt_right (bind_fail hnan)).trans (bind_fail hinf)

end Refusals

/-! ## One value -/

section OneValue

variable {recur : Parser Byte Value} {text rest : Bytes} {b : Byte}

theorem as_ok {α : Type} {p : Parser Byte α} {wrap : α → Value} {x : α}
    (h : p.run text = .ok x rest) : (as p wrap).run text = .ok (wrap x) rest := by
  rw [as, bind_ok h, run_pure]

theorem as_fail {α : Type} {p : Parser Byte α} {wrap : α → Value} (h : p.run text = .fail) :
    (as p wrap).run text = .fail :=
  bind_fail h

theorem array_fail (h : Reads text (b :: rest)) (hne : byte '[' ≠ b) :
    (as (array_ recur) .array).run text = .fail :=
  as_fail (bind_fail (mark_fail h hne))

theorem object_fail (h : Reads text (b :: rest)) (hne : byte '\x7b' ≠ b) :
    (as (object_ recur) .object).run text = .fail :=
  as_fail (bind_fail (mark_fail h hne))

theorem bool_fail (h : Reads text (b :: rest)) (ht : byte 't' ≠ b) (hf : byte 'f' ≠ b) :
    (as (token bool_) .bool).run text = .fail := by
  have htrue : (lit (ascii "true")).run (b :: rest) = .fail := lit_fail_first rfl ht
  have hfalse : (lit (ascii "false")).run (b :: rest) = .fail := lit_fail_first rfl hf
  have hread : (token bool_).run text = .fail :=
    (h bool_).trans ((alt_right (bind_fail htrue)).trans (bind_fail hfalse))
  exact as_fail hread

/-- The first byte of a token that neither the string rule nor the rules for numbers accept. -/
structure NoScalar (b : Byte) : Prop where
  quote : byte '"' ≠ b
  sign : isSign b = false
  digit : isDigit 10 b = false
  dot : byte '.' ≠ b

/-- The alternatives behind arrays, for a token that is no string and no number. -/
theorem valueRule_no_scalar (h : Reads text (b :: rest)) (hb : NoScalar b) (hne : byte '[' ≠ b)
    (hspecial : (special false).run (b :: rest) = .fail) :
    (valueRule recur).run text = (alt (as (object_ recur) .object)
      (alt (as (token bool_) .bool) (as null_ fun _ => .null))).run text := by
  rw [valueRule, alt_right (array_fail h hne), alt_right (as_fail (string_fail h hb.quote)),
    alt_right (as_fail (integer_fail h hb.sign hb.digit)),
    alt_right (as_fail (double_fail h hb.sign hb.digit hb.dot hspecial))]

/-- The alternatives behind arrays, for what begins like a word, an object or a closing mark. -/
theorem valueRule_late (h : Reads text (b :: rest))
    (hb : b ∈ [byte 't', byte 'f', byte '\x7b', byte ']']) :
    (valueRule recur).run text = (alt (as (object_ recur) .object)
      (alt (as (token bool_) .bool) (as null_ fun _ => .null))).run text := by
  simp only [List.mem_cons, List.not_mem_nil, or_false] at hb
  rcases hb with rfl | rfl | rfl | rfl
  all_goals
    exact valueRule_no_scalar h ⟨by decide, by decide, by decide, by decide⟩ (by decide)
      (special_fail (by decide) (by decide) (by decide) (by decide))

theorem value_null (h : Reads text (ascii "null" ++ rest)) :
    (valueRule recur).run text = .ok .null rest := by
  have hfirst : Reads text (byte 'n' :: (ascii "ull" ++ rest)) := h
  have hnull : null_.run text = .ok () rest := (h (lit (ascii "null"))).trans (lit_append _ _)
  rw [valueRule_no_scalar hfirst ⟨by decide, by decide, by decide, by decide⟩ (by decide)
      special_null,
    alt_right (object_fail hfirst (by decide)),
    alt_right (bool_fail hfirst (by decide) (by decide)), as_ok hnull]

theorem value_true (h : Reads text (ascii "true" ++ rest)) :
    (valueRule recur).run text = .ok (.bool true) rest := by
  have hfirst : Reads text (byte 't' :: (ascii "rue" ++ rest)) := h
  have hword : (do lit (ascii "true"); return true : Parser Byte Bool).run (ascii "true" ++ rest) =
      .ok true rest := by
    rw [bind_ok (lit_append _ _), run_pure]
  have hbool : (token bool_).run text = .ok true rest := (h bool_).trans (alt_left hword)
  rw [valueRule_late hfirst (by decide), alt_right (object_fail hfirst (by decide)),
    alt_left (as_ok hbool)]

theorem value_false (h : Reads text (ascii "false" ++ rest)) :
    (valueRule recur).run text = .ok (.bool false) rest := by
  have hfirst : Reads text (byte 'f' :: (ascii "alse" ++ rest)) := h
  have hword : (do lit (ascii "false"); return false : Parser Byte Bool).run
      (ascii "false" ++ rest) = .ok false rest := by
    rw [bind_ok (lit_append _ _), run_pure]
  have htrue : (lit (ascii "true")).run (ascii "false" ++ rest) = .fail :=
    lit_fail_first rfl (by decide)
  have hbool : (token bool_).run text = .ok false rest :=
    (h bool_).trans ((alt_right (bind_fail htrue)).trans hword)
  rw [valueRule_late hfirst (by decide), alt_right (object_fail hfirst (by decide)),
    alt_left (as_ok hbool)]

theorem value_string (s : Plain) (h : Reads text (quoted s ++ rest)) :
    (valueRule recur).run text = .ok (.string s.bytes) rest := by
  have hfirst : Reads text (byte '"' :: (s.bytes ++ [byte '"'] ++ rest)) := h
  rw [valueRule, alt_right (array_fail hfirst (by decide)),
    alt_left (as_ok (string_quoted s h))]

/-- The first byte of a printed integer. -/
theorem decimalInt_cons (n : Int) :
    ∃ b tail, decimalInt n = b :: tail ∧ (b = byte '-' ∨ isDigit 10 b = true) := by
  by_cases hneg : n < 0
  · exact ⟨_, _, if_pos hneg, Or.inl rfl⟩
  · have hnumeral := isNumeral_decimal n.natAbs
    cases hdecimal : decimal n.natAbs with
    | nil => exact absurd hdecimal hnumeral.nonempty
    | cons b tail =>
        refine ⟨b, tail, by rw [decimalInt, if_neg hneg, hdecimal], Or.inr ?_⟩
        exact hnumeral.digits b (by rw [hdecimal]; exact List.mem_cons_self)

theorem ne_of_starts_int {b c : Byte} (hb : b = byte '-' ∨ isDigit 10 b = true)
    (hminus : c ≠ byte '-') (hdigit : isDigit 10 c = false) : c ≠ b := by
  rintro rfl
  rcases hb with hb | hb
  · exact hminus hb
  · rw [hdigit] at hb
    cases hb

theorem value_int (n : Int64) (h : Reads text (decimalInt n.toInt ++ rest))
    (hrest : Terminates 10 rest) (hdot : (mark '.').run rest = .fail) :
    (valueRule recur).run text = .ok (.int n) rest := by
  obtain ⟨b, tail, hcons, hb⟩ := decimalInt_cons n.toInt
  have hfirst : Reads text (b :: (tail ++ rest)) := by
    rw [hcons] at h
    exact h
  rw [valueRule, alt_right (array_fail hfirst (ne_of_starts_int hb (by decide) (by decide))),
    alt_right (as_fail (string_fail hfirst (ne_of_starts_int hb (by decide) (by decide)))),
    alt_left (as_ok (integer_decimal h hrest hdot))]

theorem value_array {elements : List Value} (h : (array_ recur).run text = .ok elements rest) :
    (valueRule recur).run text = .ok (.array elements) rest := by
  rw [valueRule, alt_left (as_ok h)]

theorem value_object {input : Bytes} {members : List (Bytes × Value)}
    (h : Reads text (byte '\x7b' :: input))
    (hobject : (object_ recur).run text = .ok members rest) :
    (valueRule recur).run text = .ok (.object members) rest := by
  rw [valueRule_late h (by decide), alt_left (as_ok hobject)]

/-- No value starts with a closing bracket. -/
theorem value_fail_close (h : Reads text (byte ']' :: rest)) :
    (valueRule recur).run text = .fail := by
  rw [valueRule_late h (by decide), alt_right (object_fail h (by decide)),
    alt_right (bool_fail h (by decide) (by decide))]
  exact as_fail ((h (lit (ascii "null"))).trans (lit_fail_first rfl (by decide)))

end OneValue

/-! ## What may follow a value -/

/-- The tokens that may follow a value: a comma, a closing bracket, or none. -/
def Closes (more : List Bytes) : Prop :=
  more = [] ∨ ∃ c tail, (c = ',' ∨ c = ']' ∨ c = '\x7d') ∧ more = [byte c] :: tail

theorem closes_cons {c : Char} (hc : c = ',' ∨ c = ']' ∨ c = '\x7d') (tail : List Bytes) :
    Closes ([byte c] :: tail) :=
  Or.inr ⟨c, tail, hc, rfl⟩

/-- Further items stand behind their commas. -/
theorem Closes.items {ι : Type} {more : List Bytes} (hmore : Closes more)
    (tokens : ι → List Bytes) (items : List ι) :
    Closes ((items.flatMap fun item => ascii "," :: tokens item) ++ more) := by
  cases items with
  | nil => exact hmore
  | cons next items => exact closes_cons (Or.inl rfl) _

theorem solid_closing {c : Char} (hc : c = ',' ∨ c = ']' ∨ c = '\x7d') : Solid [byte c] := by
  refine ⟨byte c, [], rfl, ?_⟩
  rcases hc with rfl | rfl | rfl <;> decide

/-- White space is below the digits. -/
theorem isSpace_of_digit {base : Nat} {b : Byte} (hbase : base ≤ 36)
    (h : isDigit base b = true) : isSpace b = false := by
  have hlow : 48 ≤ b.toNat := by
    rw [isDigit, decide_eq_true_eq, digitValue] at h
    split_ifs at h <;> omega
  have hspace : b ≠ 32 := by
    rintro rfl
    revert hlow
    decide
  have hcontrol : ¬ b ≤ 13 := by
    intro hle
    have hle : b.toNat ≤ (13 : UInt8).toNat := UInt8.le_iff_toNat_le.mp hle
    have hthirteen : (13 : UInt8).toNat = 13 := rfl
    omega
  simp [isSpace, hspace, hcontrol]

theorem solid_decimalInt (n : Int) : Solid (decimalInt n) := by
  obtain ⟨b, tail, hcons, hb⟩ := decimalInt_cons n
  refine ⟨b, tail, hcons, ?_⟩
  rcases hb with rfl | hdigit
  · decide
  · exact isSpace_of_digit (by omega) hdigit

/-- The bytes that may stand directly behind a value. -/
def endBytes : Bytes := [32, 9, CR, LF, byte ',', byte ']', byte '\x7d']

theorem mem_endBytes_of_blank {b : Byte} (h : isBlank b = true) : b ∈ endBytes := by
  simp only [isBlank, Bool.or_eq_true, beq_iff_eq] at h
  rcases h with ((rfl | rfl) | rfl) | rfl <;> decide

theorem Closes.first {more : List Bytes} {rest tail : Bytes} {b : Byte} (h : Closes more)
    (hspaced : Spaced more rest) (hrest : rest = b :: tail) : b ∈ endBytes := by
  cases hspaced with
  | nil hgap =>
      rw [hrest] at hgap
      exact mem_endBytes_of_blank (hgap b List.mem_cons_self)
  | @cons gap token rest tokens hgap _ =>
      cases gap with
      | cons blank gap =>
          cases hrest
          exact mem_endBytes_of_blank (hgap b List.mem_cons_self)
      | nil =>
          rcases h with hnone | ⟨c, tail, hc, hmore⟩
          · cases hnone
          · cases hmore
            cases hrest
            rcases hc with rfl | rfl | rfl <;> decide

/-- What follows a value neither prolongs a numeral nor makes it a real. -/
theorem Closes.terminates {more : List Bytes} {rest : Bytes} (h : Closes more)
    (hspaced : Spaced more rest) : Terminates 10 rest := by
  have hdigit : ∀ b ∈ endBytes, isDigit 10 b = false := by decide
  exact fun b tail hrest => hdigit b (h.first hspaced hrest)

theorem Closes.no_dot {more : List Bytes} {rest : Bytes} (h : Closes more)
    (hspaced : Spaced more rest) : (mark '.').run rest = .fail := by
  rcases h with rfl | ⟨c, tail, hc, rfl⟩
  · rw [mark, Spaced.reads_nil hspaced]
    rfl
  · obtain ⟨after, -, hreads⟩ := Spaced.reads hspaced (solid_closing hc)
    refine mark_fail hreads ?_
    rcases hc with rfl | rfl | rfl <;> decide

/-! ## Lists of items -/

section Items

variable {α ι : Type} {p : Parser Byte α} {tokens : ι → List Bytes} {result : ι → α}

/-- A parser that reads a printed item, whatever closes it. -/
def ReadsItem (p : Parser Byte α) (tokens : List Bytes) (result : α) : Prop :=
  ∀ more text, Closes more → Spaced (tokens ++ more) text →
    ∃ rest, p.run text = .ok result rest ∧ Spaced more rest

/-- The items behind the first one, each behind its comma. -/
theorem many_items (hkeeps : Keeps p) {close : Char} (hclose : close = ']' ∨ close = '\x7d')
    (more : List Bytes) (items : List ι)
    (hitems : ∀ item ∈ items, ReadsItem p (tokens item) (result item)) (text : Bytes)
    (hspaced : Spaced ((items.flatMap fun item => ascii "," :: tokens item) ++
      [byte close] :: more) text) :
    ∃ rest, (many (do mark ','; p)).run text = .ok (items.map result) rest ∧
      Spaced ([byte close] :: more) rest := by
  have hadvances : Advances (do mark ','; p) := (advances_mark ',').bind fun _ => hkeeps
  induction items generalizing text with
  | nil =>
      obtain ⟨after, -, hreads⟩ := Spaced.reads hspaced (solid_closing (Or.inr hclose))
      have hcomma : (mark ',').run text = .fail := by
        refine mark_fail hreads ?_
        rcases hclose with rfl | rfl <;> decide
      exact ⟨text, many_fail (bind_fail hcomma), hspaced⟩
  | cons item items ih =>
      rw [List.flatMap_cons, List.append_assoc, List.cons_append] at hspaced
      obtain ⟨after, hafter, hreads⟩ :=
        Spaced.reads hspaced (solid_closing (Or.inl rfl) : Solid [byte ','])
      have hcloses := (closes_cons (Or.inr hclose) more).items tokens items
      obtain ⟨rest₁, hitem, hrest₁⟩ := hitems item List.mem_cons_self _ after hcloses hafter
      obtain ⟨rest, hmany, hrest⟩ :=
        ih (fun other hmem => hitems other (List.mem_cons_of_mem _ hmem)) rest₁ hrest₁
      have hcomma : (mark ',').run text = .ok () after := mark_ok hreads
      have hround : (do mark ','; p).run text = .ok (result item) rest₁ :=
        (bind_ok hcomma).trans hitem
      exact ⟨rest, many_cons hadvances hround hmany, hrest⟩

/-- Items between brackets, up to the closing bracket. -/
theorem opt_items (hkeeps : Keeps p) {close : Char} (hclose : close = ']' ∨ close = '\x7d')
    (more : List Bytes) (items : List ι)
    (hitems : ∀ item ∈ items, ReadsItem p (tokens item) (result item))
    (hnone : ∀ text rest, Reads text (byte close :: rest) → p.run text = .fail) (text : Bytes)
    (hspaced : Spaced (commaSeparated (items.map tokens) ++ [byte close] :: more) text) :
    ∃ found rest, (opt (sepBy1 p (mark ','))).run text = .ok found rest ∧
      found.getD [] = items.map result ∧ Spaced ([byte close] :: more) rest := by
  cases items with
  | nil =>
      obtain ⟨after, -, hreads⟩ := Spaced.reads hspaced (solid_closing (Or.inr hclose))
      exact ⟨none, text, opt_fail (bind_fail (hnone text after hreads)), rfl, hspaced⟩
  | cons item items =>
      rw [List.map_cons, commaSeparated, List.flatMap_map, List.append_assoc] at hspaced
      have hcloses := (closes_cons (Or.inr hclose) more).items tokens items
      obtain ⟨rest₁, hfirst, hrest₁⟩ := hitems item List.mem_cons_self _ text hcloses hspaced
      obtain ⟨rest, hmany, hrest⟩ := many_items hkeeps hclose more items
        (fun other hmem => hitems other (List.mem_cons_of_mem _ hmem)) rest₁ hrest₁
      have hlist : (sepBy1 p (mark ',')).run text = .ok ((item :: items).map result) rest := by
        rw [sepBy1, bind_ok hfirst]
        exact bind_ok hmany
      exact ⟨some _, rest, opt_ok hlist, rfl, hrest⟩

end Items

/-! ## Members in key order -/

/-- With distinct keys, inserting the members in turn puts them in key order. -/
theorem insertMembers_eq {members : List (Bytes × Value)}
    (hdistinct : (members.map Prod.fst).Nodup) : insertMembers members = inKeyOrder members := by
  suffices hfold : ∀ entries : List (Bytes × Value), EntryList.Sorted entries →
      ((entries ++ members).map Prod.fst).Nodup →
      EntryList.Sorted (members.foldl (fun entries member =>
        EntryList.place id member.1 member.2 entries) entries) ∧
      (members.foldl (fun entries member =>
        EntryList.place id member.1 member.2 entries) entries).Perm (entries ++ members) by
    obtain ⟨hsorted, hperm⟩ := hfold [] List.Pairwise.nil (by simpa using hdistinct)
    exact hsorted.eq_of_perm (sorted_inKeyOrder hdistinct)
      (hperm.trans (perm_inKeyOrder members).symm)
  clear hdistinct
  induction members with
  | nil =>
      intro entries hsorted _
      exact ⟨hsorted, by simp⟩
  | cons member members ih =>
      intro entries hsorted hnodup
      have hnew : ∀ entry ∈ entries, entry.1 ≠ member.1 := by
        intro entry hmem
        rw [List.map_append, List.nodup_append] at hnodup
        exact hnodup.2.2 _ (List.mem_map_of_mem hmem) _ (by simp)
      have hperm := EntryList.perm_place hnew id member.2
      have hmiddle : (entries ++ member :: members).Perm
          (EntryList.place id member.1 member.2 entries ++ members) :=
        List.perm_middle.trans (hperm.symm.append_right members)
      obtain ⟨hsorted', hperm'⟩ := ih _ (hsorted.place id member.1 member.2)
        ((hmiddle.map Prod.fst).nodup_iff.mp hnodup)
      exact ⟨hsorted', hperm'.trans hmiddle.symm⟩

/-! ## Trees -/

theorem values_eq (elements : List Tree) : Tree.values elements = elements.map Tree.value := by
  induction elements with
  | nil => rfl
  | cons element elements ih => rw [Tree.values, ih, List.map_cons]

theorem memberValues_eq (members : List (Plain × Tree)) :
    Tree.memberValues members =
      members.map fun member => (member.1.bytes, member.2.value) := by
  induction members with
  | nil => rfl
  | cons member members ih => rw [Tree.memberValues, ih, List.map_cons, Tree.memberValue]

theorem elementTokens_eq (elements : List Tree) :
    Tree.elementTokens elements = elements.map Tree.tokens := by
  induction elements with
  | nil => rfl
  | cons element elements ih => rw [Tree.elementTokens, ih, List.map_cons]

theorem memberTokens_eq (members : List (Plain × Tree)) :
    Tree.memberTokens members = members.map Tree.pairTokens := by
  induction members with
  | nil => rfl
  | cons member members ih => rw [Tree.memberTokens, ih, List.map_cons]

theorem allDistinct_mem {elements : List Tree} (h : Tree.AllDistinct elements) {element : Tree}
    (hmem : element ∈ elements) : element.Distinct := by
  induction elements with
  | nil => cases hmem
  | cons head elements ih =>
      rw [Tree.AllDistinct] at h
      rcases List.mem_cons.mp hmem with rfl | hmem
      · exact h.1
      · exact ih h.2 hmem

theorem membersDistinct_mem {members : List (Plain × Tree)} (h : Tree.MembersDistinct members)
    {member : Plain × Tree} (hmem : member ∈ members) : member.2.Distinct := by
  induction members with
  | nil => cases hmem
  | cons head members ih =>
      rw [Tree.MembersDistinct, Tree.MemberDistinct] at h
      rcases List.mem_cons.mp hmem with rfl | hmem
      · exact h.1
      · exact ih h.2 hmem

theorem depth_le_elementsDepth {elements : List Tree} {element : Tree}
    (hmem : element ∈ elements) : element.depth ≤ Tree.elementsDepth elements := by
  induction elements with
  | nil => cases hmem
  | cons head elements ih =>
      rw [Tree.elementsDepth]
      rcases List.mem_cons.mp hmem with rfl | hmem
      · exact le_max_left _ _
      · exact (ih hmem).trans (le_max_right _ _)

theorem depth_le_membersDepth {members : List (Plain × Tree)} {member : Plain × Tree}
    (hmem : member ∈ members) : member.2.depth ≤ Tree.membersDepth members := by
  induction members with
  | nil => cases hmem
  | cons head members ih =>
      rw [Tree.membersDepth, Tree.memberDepth]
      rcases List.mem_cons.mp hmem with rfl | hmem
      · exact le_max_left _ _
      · exact (ih hmem).trans (le_max_right _ _)

theorem length_le_commaSeparated (items : List (List Bytes)) :
    items.flatten.flatten.length ≤ (commaSeparated items).flatten.length := by
  cases items with
  | nil => exact le_refl _
  | cons first others =>
      suffices hothers : others.flatten.flatten.length ≤
          (others.flatMap fun tokens => ascii "," :: tokens).flatten.length by
        simp only [commaSeparated, List.flatten_cons, List.flatten_append, List.length_append]
        omega
      induction others with
      | nil => exact le_refl _
      | cons tokens others ih =>
          simp only [List.flatten_cons, List.flatten_append, List.flatMap_cons, List.length_append]
          omega

mutual

/-- Every level of nesting takes at least one byte. -/
theorem depth_le_length : ∀ t : Tree, t.depth ≤ t.tokens.flatten.length
  | .null => Nat.zero_le _
  | .bool _ => Nat.zero_le _
  | .int _ => Nat.zero_le _
  | .string _ => Nat.zero_le _
  | .array elements => by
      have hinner := (elementsDepth_le_length elements).trans (length_le_commaSeparated _)
      have hopen : 0 < (ascii "[").length := by decide
      simp only [Tree.depth, Tree.tokens, List.flatten_cons, List.flatten_append,
        List.length_append]
      omega
  | .object members => by
      have hinner := (membersDepth_le_length members).trans (length_le_commaSeparated _)
      have hopen : 0 < (ascii "\x7b").length := by decide
      simp only [Tree.depth, Tree.tokens, List.flatten_cons, List.flatten_append,
        List.length_append]
      omega

theorem elementsDepth_le_length : ∀ elements : List Tree,
    Tree.elementsDepth elements ≤ (Tree.elementTokens elements).flatten.flatten.length
  | [] => Nat.zero_le _
  | element :: elements => by
      have hhead := depth_le_length element
      have htail := elementsDepth_le_length elements
      simp only [Tree.elementsDepth, Tree.elementTokens, List.flatten_cons, List.flatten_append,
        List.length_append]
      omega

theorem membersDepth_le_length : ∀ members : List (Plain × Tree),
    Tree.membersDepth members ≤ (Tree.memberTokens members).flatten.flatten.length
  | [] => Nat.zero_le _
  | member :: members => by
      have hhead := memberDepth_le_length member
      have htail := membersDepth_le_length members
      simp only [Tree.membersDepth, Tree.memberTokens, List.flatten_cons, List.flatten_append,
        List.length_append]
      omega

theorem memberDepth_le_length : ∀ member : Plain × Tree,
    Tree.memberDepth member ≤ (Tree.pairTokens member).flatten.length
  | (key, tree) => by
      have htree := depth_le_length tree
      simp only [Tree.memberDepth, Tree.pairTokens, List.flatten_cons, List.length_append]
      omega

end

theorem Spaced.length_le {tokens : List Bytes} {text : Bytes} (h : Spaced tokens text) :
    tokens.flatten.length ≤ text.length := by
  induction h with
  | nil hgap => exact Nat.zero_le _
  | cons hgap hrest ih =>
      simp only [List.flatten_cons, List.length_append]
      omega

/-! ## Arrays and objects -/

section Brackets

variable {recur : Parser Byte Value}

section Items

variable {ι : Type} {tokens : ι → List Bytes} {items : List ι} {more : List Bytes} {text : Bytes}

/-- Items between square brackets, if the rule for values reads each of them. -/
theorem array_items {result : ι → Value} (hkeeps : Keeps recur)
    (hnone : ∀ text rest, Reads text (byte ']' :: rest) → recur.run text = .fail)
    (hitems : ∀ item ∈ items, ReadsItem recur (tokens item) (result item))
    (hspaced : Spaced (ascii "[" :: (commaSeparated (items.map tokens) ++ [ascii "]"]) ++ more)
      text) :
    ∃ rest, (array_ recur).run text = .ok (items.map result) rest ∧ Spaced more rest := by
  rw [List.cons_append, List.append_assoc] at hspaced
  obtain ⟨inner, hinner, hopen⟩ := Spaced.reads hspaced ⟨byte '[', [], rfl, by decide⟩
  obtain ⟨found, closing, hlist, hfound, hclosing⟩ :=
    opt_items hkeeps (Or.inl rfl) more items hitems hnone inner hinner
  obtain ⟨rest, hrest, hclose⟩ := Spaced.reads hclosing (solid_closing (Or.inr (Or.inl rfl)))
  refine ⟨rest, ?_, hrest⟩
  have hmark : (mark '[').run text = .ok () inner := mark_ok hopen
  have hend : (mark ']').run closing = .ok () rest := mark_ok hclose
  rw [array_, bind_ok hmark, must_bind_ok hlist, must_bind_ok hend, run_pure, hfound]

/-- Members between braces, if the rule for members reads each of them. -/
theorem object_items {result : ι → Bytes × Value} (hkeeps : Keeps (valuePair recur))
    (hitems : ∀ item ∈ items, ReadsItem (valuePair recur) (tokens item) (result item))
    (hspaced : Spaced (ascii "\x7b" :: (commaSeparated (items.map tokens) ++ [ascii "\x7d"]) ++
      more) text) :
    ∃ rest, (object_ recur).run text = .ok (insertMembers (items.map result)) rest ∧
      Spaced more rest := by
  rw [List.cons_append, List.append_assoc] at hspaced
  obtain ⟨inner, hinner, hopen⟩ := Spaced.reads hspaced ⟨byte '\x7b', [], rfl, by decide⟩
  have hnone : ∀ text rest, Reads text (byte '\x7d' :: rest) →
      (valuePair recur).run text = .fail :=
    fun text rest hreads => bind_fail (string_fail hreads (by decide))
  obtain ⟨found, closing, hlist, hfound, hclosing⟩ :=
    opt_items hkeeps (Or.inr rfl) more items hitems hnone inner hinner
  obtain ⟨rest, hrest, hclose⟩ := Spaced.reads hclosing (solid_closing (Or.inr (Or.inr rfl)))
  refine ⟨rest, ?_, hrest⟩
  have hmark : (mark '\x7b').run text = .ok () inner := mark_ok hopen
  have hend : (mark '\x7d').run closing = .ok () rest := mark_ok hclose
  rw [object_, bind_ok hmark, must_bind_ok hlist, must_bind_ok hend, run_pure, hfound]

end Items

/-- An array literal, if the rule for its elements reads each of them. -/
theorem array_tokens (hkeeps : Keeps recur)
    (hnone : ∀ text rest, Reads text (byte ']' :: rest) → recur.run text = .fail)
    {elements : List Tree}
    (helements : ∀ element ∈ elements, ReadsItem recur element.tokens element.value)
    {more : List Bytes} {text : Bytes}
    (hspaced : Spaced ((Tree.array elements).tokens ++ more) text) :
    ∃ rest, (array_ recur).run text = .ok (Tree.values elements) rest ∧ Spaced more rest := by
  rw [Tree.tokens, elementTokens_eq] at hspaced
  rw [values_eq]
  exact array_items hkeeps hnone helements hspaced

/-- A member, if the rule for strings reads its name. -/
theorem readsItem_named {word s : Bytes} {tokens : List Bytes} {value : Value} (hsolid : Solid word)
    (hname : ∀ input rest, Reads input (word ++ rest) → string_.run input = .ok s rest)
    (h : ReadsItem recur tokens value) :
    ReadsItem (valuePair recur) (word :: [byte ':'] :: tokens) (s, value) := by
  intro more text hcloses hspaced
  obtain ⟨behindName, hbehindName, hreads⟩ := Spaced.reads hspaced hsolid
  obtain ⟨inner, hinner, hcolon⟩ := Spaced.reads hbehindName ⟨byte ':', [], rfl, by decide⟩
  obtain ⟨rest, hvalue, hrest⟩ := h more inner hcloses hinner
  refine ⟨rest, ?_, hrest⟩
  have hmark : (mark ':').run behindName = .ok () inner := mark_ok hcolon
  rw [valuePair, bind_ok (hname text _ hreads), must_bind_ok hmark, must_bind_ok hvalue, run_pure]

theorem readsItem_pair {member : Plain × Tree}
    (h : ReadsItem recur member.2.tokens member.2.value) :
    ReadsItem (valuePair recur) (Tree.pairTokens member) (member.1.bytes, member.2.value) := by
  obtain ⟨key, tree⟩ := member
  exact readsItem_named ⟨byte '"', _, rfl, by decide⟩
    (fun _ _ hreads => string_quoted key hreads) h

/-- An object literal with distinct keys, if the rule for its values reads each of them. -/
theorem object_tokens (hkeeps : Keeps (valuePair recur)) {members : List (Plain × Tree)}
    (hmembers : ∀ member ∈ members, ReadsItem recur member.2.tokens member.2.value)
    (hdistinct : (members.map fun member => member.1.bytes).Nodup)
    {more : List Bytes} {text : Bytes}
    (hspaced : Spaced ((Tree.object members).tokens ++ more) text) :
    ∃ rest, (object_ recur).run text = .ok (inKeyOrder (Tree.memberValues members)) rest ∧
      Spaced more rest := by
  have hkeys : ((Tree.memberValues members).map Prod.fst).Nodup := by
    rw [memberValues_eq, List.map_map]
    exact hdistinct
  rw [Tree.tokens, memberTokens_eq] at hspaced
  rw [← insertMembers_eq hkeys, memberValues_eq]
  exact object_items hkeeps (fun member hmem => readsItem_pair (hmembers member hmem)) hspaced

end Brackets

/-- The rule for values reads every printed tree, whatever closes it. -/
theorem readsItem_value (depth : Nat) :
    ∀ t : Tree, t.depth < depth → t.Distinct → ReadsItem (value_ depth) t.tokens t.value := by
  induction depth with
  | zero =>
      intro t hdepth
      omega
  | succ depth ih =>
      intro t hdepth hdistinct more text hcloses hspaced
      cases t with
      | null =>
          obtain ⟨rest, hrest, hreads⟩ := Spaced.reads hspaced ⟨byte 'n', _, rfl, by decide⟩
          exact ⟨rest, value_null hreads, hrest⟩
      | bool b =>
          cases b with
          | false =>
              obtain ⟨rest, hrest, hreads⟩ := Spaced.reads hspaced ⟨byte 'f', _, rfl, by decide⟩
              exact ⟨rest, value_false hreads, hrest⟩
          | true =>
              obtain ⟨rest, hrest, hreads⟩ := Spaced.reads hspaced ⟨byte 't', _, rfl, by decide⟩
              exact ⟨rest, value_true hreads, hrest⟩
      | int n =>
          obtain ⟨rest, hrest, hreads⟩ := Spaced.reads hspaced (solid_decimalInt n.toInt)
          exact ⟨rest, value_int n hreads (hcloses.terminates hrest) (hcloses.no_dot hrest), hrest⟩
      | string s =>
          obtain ⟨rest, hrest, hreads⟩ := Spaced.reads hspaced ⟨byte '"', _, rfl, by decide⟩
          exact ⟨rest, value_string s hreads, hrest⟩
      | array elements =>
          rw [Tree.depth] at hdepth
          rw [Tree.Distinct] at hdistinct
          have hnone : ∀ text rest, Reads text (byte ']' :: rest) →
              (value_ depth).run text = .fail := by
            obtain ⟨depth', rfl⟩ : ∃ depth', depth = depth' + 1 := ⟨depth - 1, by omega⟩
            exact fun text rest hreads => value_fail_close hreads
          obtain ⟨rest, harray, hrest⟩ := array_tokens (tame_value depth).keeps hnone
            (fun element hmem => ih element
              (by have hle := depth_le_elementsDepth hmem; omega)
              (allDistinct_mem hdistinct hmem)) hspaced
          exact ⟨rest, value_array harray, hrest⟩
      | object members =>
          rw [Tree.depth] at hdepth
          rw [Tree.Distinct] at hdistinct
          obtain ⟨rest, hobject, hrest⟩ := object_tokens (tame_valuePair (tame_value depth)).keeps
            (fun member hmem => ih member.2
              (by have hle := depth_le_membersDepth hmem; omega)
              (membersDistinct_mem hdistinct.2 hmem))
            hdistinct.1 hspaced
          obtain ⟨inner, -, hreads⟩ := Spaced.reads hspaced ⟨byte '\x7b', [], rfl, by decide⟩
          exact ⟨rest, value_object hreads hobject, hrest⟩

/-- A printed object or array is read whatever tokens stand behind it. -/
theorem parseJson_tokens (t : Tree) {more : List Bytes} {text : Bytes} (hroot : t.IsRoot)
    (hdistinct : t.Distinct) (hspaced : Spaced (t.tokens ++ more) text) :
    parseJson text = .ok t.value := by
  have hdepth : t.depth ≤ text.length := by
    have hlength := Spaced.length_le hspaced
    have hle := depth_le_length t
    rw [List.flatten_append, List.length_append] at hlength
    omega
  have hvalue := readsItem_value (text.length + 1)
  suffices hrun : ∃ rest, (jsonText (text.length + 1)).run text = .ok t.value rest by
    obtain ⟨rest, hrun⟩ := hrun
    rw [parseJson, hrun]
  cases t with
  | null => cases hroot
  | bool b => cases hroot
  | int n => cases hroot
  | string s => cases hroot
  | array elements =>
      rw [Tree.depth] at hdepth
      rw [Tree.Distinct] at hdistinct
      have hnone : ∀ input rest, Reads input (byte ']' :: rest) →
          (value_ (text.length + 1)).run input = .fail :=
        fun input rest hreads => value_fail_close hreads
      obtain ⟨rest, harray, -⟩ := array_tokens (tame_value _).keeps hnone
        (fun element hmem => hvalue element
          (by have hle := depth_le_elementsDepth hmem; omega)
          (allDistinct_mem hdistinct hmem)) hspaced
      obtain ⟨inner, -, hreads⟩ := Spaced.reads hspaced ⟨byte '[', [], rfl, by decide⟩
      exact ⟨rest, (alt_right (object_fail hreads (by decide))).trans (as_ok harray)⟩
  | object members =>
      rw [Tree.depth] at hdepth
      rw [Tree.Distinct] at hdistinct
      obtain ⟨rest, hobject, -⟩ := object_tokens (tame_valuePair (tame_value _)).keeps
        (fun member hmem => hvalue member.2
          (by have hle := depth_le_membersDepth hmem; omega)
          (membersDistinct_mem hdistinct.2 hmem))
        hdistinct.1 hspaced
      exact ⟨rest, alt_left (as_ok hobject)⟩

/-- What a printed object or array parses to is the tree it was printed from. -/
theorem parseJson_printed (t : Tree) (text : Bytes) (hroot : t.IsRoot) (hdistinct : t.Distinct)
    (hspaced : Spaced t.tokens text) : parseJson text = .ok t.value := by
  have hnil : t.tokens ++ [] = t.tokens := List.append_nil _
  rw [← hnil] at hspaced
  exact parseJson_tokens t hroot hdistinct hspaced

theorem parseJson_printed_pair :
    parseJson (ascii " [-9223372036854775808 ,\t\x7b\"a\":null\x7d]\r\n") =
      .ok (.array [.int (-9223372036854775808), .object [(ascii "a", .null)]]) := by
  have hsingle : inKeyOrder [(ascii "a", Value.null)] = [(ascii "a", .null)] :=
    List.mergeSort_singleton _
  rw [← hsingle]
  refine parseJson_printed
    (.array [.int (-9223372036854775808), .object [(⟨ascii "a", by decide⟩, .null)]]) _
    trivial ⟨trivial, ⟨List.nodup_singleton _, trivial, trivial⟩, trivial⟩ ?_
  refine @Spaced.cons (ascii " ") (ascii "[") _ _ (by decide) ?_
  refine @Spaced.cons [] (ascii "-9223372036854775808") _ _ (by decide) ?_
  refine @Spaced.cons (ascii " ") (ascii ",") _ _ (by decide) ?_
  refine @Spaced.cons (ascii "\t") (ascii "\x7b") _ _ (by decide) ?_
  refine @Spaced.cons [] (ascii "\"a\"") _ _ (by decide) ?_
  refine @Spaced.cons [] (ascii ":") _ _ (by decide) ?_
  refine @Spaced.cons [] (ascii "null") _ _ (by decide) ?_
  refine @Spaced.cons [] (ascii "\x7d") _ _ (by decide) ?_
  refine @Spaced.cons [] (ascii "]") _ _ (by decide) ?_
  exact @Spaced.nil (ascii "\r\n") (by decide)

end BlackCircle.Json.RoundTrip
