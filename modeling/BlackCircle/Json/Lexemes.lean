import BlackCircle.Json.Literals

/-!
# Lexemes

What the rules without a skipper match, as relations between a text, what it
stands for and what is left.  Where one of the earlier alternatives of a rule
applies, a later one does not.
-/

namespace BlackCircle.Json.Lexemes

open BlackCircle.Foundation.ByteString
open BlackCircle.Foundation.Numeral
open BlackCircle.Foundation.Peg
open BlackCircle.Json
open BlackCircle.Json.Escapes
open BlackCircle.Json.Grammar
open BlackCircle.Json.Literals
open BlackCircle.Json.RoundTrip

/-! ## Characters -/

/-- A `\u` escape with its code, and what stands behind it. -/
inductive Code : Bytes → Nat → Bytes → Prop where
  | mk {digits : Bytes} {code : Nat} (hdigits : SpellsCode digits code) (rest : Bytes) :
      Code (ascii "\\u" ++ digits ++ rest) code rest

/-- One character of a literal, the bytes it stands for, and what stands behind it. -/
inductive Character : Bytes → Bytes → Bytes → Prop where
  | gt (rest : Bytes) : Character (ascii "&gt;" ++ rest) (ascii ">") rest
  | lt (rest : Bytes) : Character (ascii "&lt;" ++ rest) (ascii "<") rest
  | amp (rest : Bytes) : Character (ascii "&amp;" ++ rest) (ascii "&") rest
  | ampersand {rest : Bytes} (hname : ∀ name ∈ entityNames, ¬ name <+: rest) :
      Character (byte '&' :: rest) (ascii "&") rest
  | letter {b : Byte} (hb : b ∈ ascii "bfnrt") (rest : Bytes) :
      Character (byte '\\' :: b :: rest) [b - byte 'a'] rest
  | same {b : Byte} (hb : b ∈ ascii "/\\\"") (rest : Bytes) :
      Character (byte '\\' :: b :: rest) [b] rest
  | single {text rest part : Bytes} {code : Nat} (hcode : Code text code rest)
      (hpart : ucnToUtf8 (UInt32.ofNat code) = some part) : Character text part rest
  | pair {text middle rest part : Bytes} {first second : Nat} (hfirst : Code text first middle)
      (hsecond : Code middle second rest) (hnone : ucnToUtf8 (UInt32.ofNat first) = none)
      (hpart : ucnToUtf8 (pairCode (UInt32.ofNat first) (UInt32.ofNat second)) = some part) :
      Character text part rest
  | refused {text middle rest : Bytes} {first second : Nat}
      (hfirst : Code (byte '\\' :: text) first middle) (hsecond : Code middle second rest)
      (hnone : ucnToUtf8 (UInt32.ofNat first) = none)
      (hpair : ucnToUtf8 (pairCode (UInt32.ofNat first) (UInt32.ofNat second)) = none) :
      Character (byte '\\' :: text) [byte '\\'] text
  | backslash {text : Bytes} (htext : ∀ b tail, text = b :: tail → b ∉ ascii "bfnrt/\\\"u") :
      Character (byte '\\' :: text) [byte '\\'] text
  | verbatim {b : Byte} (hplain : plainChar b = true) (hamp : b ≠ byte '&')
      (hbackslash : b ≠ byte '\\') (rest : Bytes) : Character (b :: rest) [b] rest

section Codes

variable {input rest : Bytes}

theorem fourHex_eq_ok {code : UInt32} (h : fourHex.run input = .ok code rest) :
    ∃ digits n, SpellsCode digits n ∧ code = UInt32.ofNat n ∧ input = digits ++ rest := by
  obtain ⟨a, behindA, ha, h⟩ := bind_eq_ok h
  obtain ⟨b, behindB, hb, h⟩ := bind_eq_ok h
  obtain ⟨c, behindC, hc, h⟩ := bind_eq_ok h
  obtain ⟨d, behindD, hd, h⟩ := bind_eq_ok h
  cases h
  obtain ⟨hdigitA, rfl⟩ := satisfy_eq_ok ha
  obtain ⟨hdigitB, rfl⟩ := satisfy_eq_ok hb
  obtain ⟨hdigitC, rfl⟩ := satisfy_eq_ok hc
  obtain ⟨hdigitD, rfl⟩ := satisfy_eq_ok hd
  refine ⟨[a, b, c, d], value 16 [a, b, c, d], ⟨rfl, ?_, rfl⟩, rfl, rfl⟩
  simp only [List.forall_mem_cons, hdigitA, hdigitB, hdigitC, hdigitD, List.not_mem_nil,
    false_imp_iff, implies_true, and_self]

theorem ucnCode_eq_ok {code : UInt32} (h : ucnCode.run input = .ok code rest) :
    ∃ n, code = UInt32.ofNat n ∧ Code input n rest := by
  obtain ⟨⟨⟩, middle, hlit, hfour⟩ := bind_eq_ok h
  obtain ⟨digits, n, hdigits, hcode, hmiddle⟩ := fourHex_eq_ok (must_eq_ok hfour)
  refine ⟨n, hcode, ?_⟩
  rw [lit_eq_ok hlit, hmiddle, ← List.append_assoc]
  exact .mk hdigits rest

theorem ucnCode_run {code : Nat} (h : Code input code rest) :
    ucnCode.run input = .ok (UInt32.ofNat code) rest := by
  obtain ⟨hdigits, rest⟩ := h
  exact ucnCode_digits hdigits rest

/-- Behind `\u` the rule does not refuse. -/
theorem ucnCode_settled (tail : Bytes) : ucnCode.run (ascii "\\u" ++ tail) ≠ .fail := by
  intro h
  rw [ucnCode, bind_ok (lit_append _ tail)] at h
  exact settles_must _ _ h

theorem pass_eq_ok {α : Type} {result : Option α} {value : α}
    (h : (pass result).run input = .ok value rest) : result = some value ∧ rest = input := by
  cases result with
  | none => cases h
  | some found =>
      cases h
      exact ⟨rfl, rfl⟩

theorem pass_eq_fail {α : Type} {result : Option α} (h : (pass result).run input = .fail) :
    result = none := by
  cases result with
  | none => rfl
  | some found => cases h

/-- What `pass` accepts behind a rule is an image of what the rule reads. -/
theorem passed_eq_ok {α β : Type} {p : Parser Byte α} {image : α → Option β} {value : β}
    (h : (p >>= fun code => pass (image code)).run input = .ok value rest) :
    ∃ code, p.run input = .ok code rest ∧ image code = some value := by
  obtain ⟨code, middle, hcode, hpass⟩ := bind_eq_ok h
  obtain ⟨hvalue, rfl⟩ := pass_eq_ok hpass
  exact ⟨code, hcode, hvalue⟩

theorem passed_eq_fail {α β : Type} {p : Parser Byte α} {image : α → Option β} {code : α}
    (hcode : p.run input = .ok code rest)
    (h : (p >>= fun code => pass (image code)).run input = .fail) : image code = none := by
  rw [bind_ok hcode] at h
  exact pass_eq_fail h

/-- The alternative for one escape. -/
def single : Parser Byte Bytes := do
  let code ← ucnCode
  pass (ucnToUtf8 code)

/-- The alternative for two escapes. -/
def pair : Parser Byte Bytes := do
  let first ← ucnCode
  let second ← must ucnCode
  pass (ucnToUtf8 (pairCode first second))

theorem single_run {code : Nat} (h : Code input code rest) :
    single.run input = (pass (ucnToUtf8 (UInt32.ofNat code))).run rest :=
  bind_into (ucnCode_run h) rfl

theorem pair_run {first second : Nat} {middle : Bytes} (hfirst : Code input first middle)
    (hsecond : Code middle second rest) :
    pair.run input =
      (pass (ucnToUtf8 (pairCode (UInt32.ofNat first) (UInt32.ofNat second)))).run rest :=
  (bind_into (ucnCode_run hfirst) rfl).trans (bind_into (must_ok (ucnCode_run hsecond)) rfl)

theorem single_eq_ok {part : Bytes} (h : single.run input = .ok part rest) :
    ∃ code, Code input code rest ∧ ucnToUtf8 (UInt32.ofNat code) = some part := by
  obtain ⟨code, hcode, hpart⟩ := passed_eq_ok h
  obtain ⟨n, rfl, hinput⟩ := ucnCode_eq_ok hcode
  exact ⟨n, hinput, hpart⟩

theorem pair_eq_ok {part : Bytes} (h : pair.run input = .ok part rest) :
    ∃ first second middle, Code input first middle ∧ Code middle second rest ∧
      ucnToUtf8 (pairCode (UInt32.ofNat first) (UInt32.ofNat second)) = some part := by
  obtain ⟨first, middle, hfirst, h⟩ := bind_eq_ok h
  obtain ⟨second, hsecond, hpart⟩ := passed_eq_ok h
  obtain ⟨m, rfl, hinput⟩ := ucnCode_eq_ok hfirst
  obtain ⟨n, rfl, hmiddle⟩ := ucnCode_eq_ok (must_eq_ok hsecond)
  exact ⟨m, n, middle, hinput, hmiddle, hpart⟩

/-- An escape that is refused on its own is no scalar. -/
theorem single_eq_fail {code : Nat} (hcode : Code input code rest) (h : single.run input = .fail) :
    ucnToUtf8 (UInt32.ofNat code) = none := by
  rw [single_run hcode] at h
  exact pass_eq_fail h

/-- What is refused both on its own and together with an escape behind it. -/
theorem pair_eq_fail {tail : Bytes} (hsingle : single.run (ascii "\\u" ++ tail) = .fail)
    (hpair : pair.run (ascii "\\u" ++ tail) = .fail) :
    ∃ first second middle rest, Code (ascii "\\u" ++ tail) first middle ∧
      Code middle second rest ∧ ucnToUtf8 (UInt32.ofNat first) = none ∧
        ucnToUtf8 (pairCode (UInt32.ofNat first) (UInt32.ofNat second)) = none := by
  cases hfirst : ucnCode.run (ascii "\\u" ++ tail) with
  | fail => exact absurd hfirst (ucnCode_settled tail)
  | throw fault =>
      rw [pair, bind_throw hfirst] at hpair
      cases hpair
  | ok code middle =>
      obtain ⟨first, rfl, hcode⟩ := ucnCode_eq_ok hfirst
      have hnone := single_eq_fail hcode hsingle
      rw [pair, bind_ok hfirst] at hpair
      cases hsecond : ucnCode.run middle with
      | fail =>
          rw [must_bind_fail hsecond] at hpair
          cases hpair
      | throw fault =>
          rw [must_bind_throw hsecond] at hpair
          cases hpair
      | ok code rest =>
          obtain ⟨second, rfl, hbehind⟩ := ucnCode_eq_ok hsecond
          have hrefused := passed_eq_fail (must_ok hsecond) hpair
          exact ⟨first, second, middle, rest, hcode, hbehind, hnone, hrefused⟩

end Codes

section Characters

variable {input part rest : Bytes}

theorem entity_eq_ok {name character : Bytes}
    (h : (entity name character).run input = .ok part rest) :
    input = name ++ rest ∧ part = character := by
  obtain ⟨⟨⟩, middle, hlit, hpure⟩ := bind_eq_ok h
  cases hpure
  exact ⟨lit_eq_ok hlit, rfl⟩

theorem entity_eq_fail {name character : Bytes} (h : (entity name character).run input = .fail) :
    ¬ name <+: input := by
  rintro ⟨tail, rfl⟩
  rw [entity_ok] at h
  cases h

/-- The alternatives of `escaped`. -/
theorem escaped_eq :
    escaped =
      alt (do lit (ascii "&"); reference)
        (alt
          (do lit (ascii "\\")
              alt
                (do let c ← satisfy (fun b => b ∈ ascii "bfnrt")
                    return [c - byte 'a'])
                (do let c ← satisfy (fun b => b ∈ ascii "/\\\"")
                    return [c]))
          (alt single pair)) := rfl

theorem short_eq_ok
    (h : (do lit (ascii "\\")
             alt
               (do let c ← satisfy (fun b => b ∈ ascii "bfnrt")
                   return [c - byte 'a'])
               (do let c ← satisfy (fun b => b ∈ ascii "/\\\"")
                   return [c]) : Parser Byte Bytes).run input = .ok part rest) :
    Character input part rest := by
  obtain ⟨⟨⟩, middle, hlit, hshort⟩ := bind_eq_ok h
  rw [lit_eq_ok hlit]
  rcases alt_eq_ok hshort with hletter | ⟨-, hsame⟩
  · obtain ⟨b, behind, hb, hpure⟩ := bind_eq_ok hletter
    cases hpure
    obtain ⟨hmem, rfl⟩ := satisfy_eq_ok hb
    exact .letter (of_decide_eq_true hmem) rest
  · obtain ⟨b, behind, hb, hpure⟩ := bind_eq_ok hsame
    cases hpure
    obtain ⟨hmem, rfl⟩ := satisfy_eq_ok hb
    exact .same (of_decide_eq_true hmem) rest

theorem reference_eq_ok (h : reference.run input = .ok part rest) :
    Character (byte '&' :: input) part rest := by
  rcases alt_eq_ok h with hgt | ⟨hgt, h⟩
  · obtain ⟨rfl, rfl⟩ := entity_eq_ok hgt
    exact .gt rest
  rcases alt_eq_ok h with hlt | ⟨hlt, h⟩
  · obtain ⟨rfl, rfl⟩ := entity_eq_ok hlt
    exact .lt rest
  rcases alt_eq_ok h with hamp | ⟨hamp, h⟩
  · obtain ⟨rfl, rfl⟩ := entity_eq_ok hamp
    exact .amp rest
  cases h
  refine .ampersand fun name hname => ?_
  simp only [entityNames, List.mem_cons, List.not_mem_nil, or_false] at hname
  rcases hname with rfl | rfl | rfl
  · exact entity_eq_fail hgt
  · exact entity_eq_fail hlt
  · exact entity_eq_fail hamp

theorem escaped_eq_ok (h : escaped.run input = .ok part rest) : Character input part rest := by
  rw [escaped_eq] at h
  rcases alt_eq_ok h with hentity | ⟨-, h⟩
  · obtain ⟨⟨⟩, middle, hlit, hreference⟩ := bind_eq_ok hentity
    rw [lit_eq_ok hlit]
    exact reference_eq_ok hreference
  rcases alt_eq_ok h with hshort | ⟨-, h⟩
  · exact short_eq_ok hshort
  rcases alt_eq_ok h with hsingle | ⟨hsingle, hpair⟩
  · obtain ⟨code, hcode, hpart⟩ := single_eq_ok hsingle
    exact .single hcode hpart
  · obtain ⟨first, second, middle, hfirst, hsecond, hpart⟩ := pair_eq_ok hpair
    exact .pair hfirst hsecond (single_eq_fail hfirst hsingle) hpart

/-- A backslash that begins no escape. -/
theorem backslash_eq_fail {text : Bytes} (h : escaped.run (byte '\\' :: text) = .fail) :
    Character (byte '\\' :: text) [byte '\\'] text := by
  by_cases hu : ∃ tail, text = byte 'u' :: tail
  · obtain ⟨tail, rfl⟩ := hu
    rw [escaped_eq] at h
    have htail := (alt_eq_fail (alt_eq_fail h).2).2
    obtain ⟨hsingle, hpair⟩ := alt_eq_fail htail
    obtain ⟨first, second, middle, rest, hfirst, hsecond, hnone, hrefused⟩ :=
      pair_eq_fail hsingle hpair
    exact .refused hfirst hsecond hnone hrefused
  · refine .backslash fun b tail htext hmem => ?_
    subst htext
    have hcases : ∀ c ∈ ascii "bfnrt/\\\"u",
        c ∈ ascii "bfnrt" ∨ c ∈ ascii "/\\\"" ∨ c = byte 'u' := by decide
    rcases hcases b hmem with hletter | hsame | rfl
    · cases h.symm.trans (escaped_letter hletter)
    · cases h.symm.trans (escaped_same hsame)
    · exact hu ⟨tail, rfl⟩

theorem ampersand_settled (text : Bytes) : escaped.run (byte '&' :: text) ≠ .fail := by
  intro h
  rw [escaped_eq] at h
  have hlit : (lit (ascii "&")).run (byte '&' :: text) = .ok () text := lit_append (ascii "&") text
  have hfail := (alt_eq_fail h).1
  rw [bind_ok hlit] at hfail
  cases (alt_eq_fail (alt_eq_fail (alt_eq_fail hfail).2).2).2

/-- Each match of the rule is a character. -/
theorem character_eq_ok (h : character.run input = .ok part rest) : Character input part rest := by
  rcases alt_eq_ok h with hescaped | ⟨hescaped, hplain⟩
  · exact escaped_eq_ok hescaped
  · obtain ⟨b, behind, hb, hpure⟩ := bind_eq_ok hplain
    cases hpure
    obtain ⟨haccepts, rfl⟩ := satisfy_eq_ok hb
    by_cases hamp : b = byte '&'
    · subst hamp
      exact absurd hescaped (ampersand_settled rest)
    by_cases hbackslash : b = byte '\\'
    · subst hbackslash
      exact backslash_eq_fail hescaped
    · exact .verbatim haccepts hamp hbackslash rest

/-- Of two escapes that begin a text, the first alternative to apply is the one that counts. -/
theorem escaped_code {code : Nat} {middle : Bytes} (h : Code input code middle) :
    escaped.run input = (alt single pair).run input := by
  obtain ⟨hdigits, rest⟩ := h
  exact escaped_ucn

theorem escaped_refused {text middle : Bytes} {first second : Nat}
    (hfirst : Code text first middle) (hsecond : Code middle second rest)
    (hnone : ucnToUtf8 (UInt32.ofNat first) = none) :
    escaped.run text =
      (pass (ucnToUtf8 (pairCode (UInt32.ofNat first) (UInt32.ofNat second)))).run rest := by
  have hsingle : single.run text = .fail := by
    rw [single_run hfirst, hnone]
    rfl
  rw [escaped_code hfirst, alt_right hsingle, pair_run hfirst hsecond]

/-- A backslash that begins no escape is read by itself. -/
theorem character_backslash {text : Bytes} (h : escaped.run (byte '\\' :: text) = .fail) :
    character.run (byte '\\' :: text) = .ok [byte '\\'] text := by
  have hplain : (satisfy plainChar).run (byte '\\' :: text) = .ok (byte '\\') text :=
    satisfy_ok (by decide)
  rw [character, alt_right h, bind_ok hplain, run_pure]

theorem escaped_stray {text : Bytes}
    (h : ∀ b tail, text = b :: tail → b ∉ ascii "bfnrt/\\\"u") :
    escaped.run (byte '\\' :: text) = .fail := by
  have hentity : (lit (ascii "&")).run (byte '\\' :: text) = .fail :=
    lit_fail_first rfl (by decide)
  have hbackslash : (lit (ascii "\\")).run (byte '\\' :: text) = .ok () text :=
    lit_append (ascii "\\") text
  have hucn : ucnCode.run (byte '\\' :: text) = .fail := by
    refine bind_fail (lit_fail ?_)
    intro hprefix
    obtain ⟨-, hrest⟩ := List.cons_prefix_cons.mp hprefix
    obtain ⟨tail, htail⟩ := hrest
    exact h (byte 'u') tail htail.symm (by decide)
  have hstray : ∀ accepts : Bytes, accepts ⊆ ascii "bfnrt/\\\"u" →
      (satisfy fun b => b ∈ accepts).run text = .fail := by
    intro accepts hsubset
    cases text with
    | nil => exact satisfy_nil _
    | cons b tail =>
        exact satisfy_fail (decide_eq_false fun hmem => h b tail rfl (hsubset hmem))
  have hsingle : single.run (byte '\\' :: text) = .fail := bind_fail hucn
  have hpair : pair.run (byte '\\' :: text) = .fail := bind_fail hucn
  rw [escaped_eq, alt_right (bind_fail hentity)]
  refine (alt_right ?_).trans ((alt_right hsingle).trans hpair)
  rw [bind_ok hbackslash, alt_right (bind_fail (hstray _ (by decide)))]
  exact bind_fail (hstray _ (by decide))

/-- Each character is matched by the rule. -/
theorem character_run (h : Character input part rest) : character.run input = .ok part rest := by
  cases h with
  | gt => exact character_gt rest
  | lt => exact character_lt rest
  | amp => exact character_amp rest
  | ampersand hname => exact character_ampersand hname
  | letter hb => exact alt_left (escaped_letter hb)
  | same hb => exact alt_left (escaped_same hb)
  | single hcode hpart =>
      have hsingle : single.run input = .ok part rest := by
        rw [single_run hcode, hpart]
        rfl
      apply alt_left
      rw [escaped_code hcode, alt_left hsingle]
  | pair hfirst hsecond hnone hpart =>
      apply alt_left
      rw [escaped_refused hfirst hsecond hnone, hpart]
      rfl
  | refused hfirst hsecond hnone hpair =>
      refine character_backslash ?_
      rw [escaped_refused hfirst hsecond hnone, hpair]
      rfl
  | backslash htext => exact character_backslash (escaped_stray htext)
  | verbatim hplain hamp hbackslash => exact character_verbatim hplain hamp hbackslash

end Characters

/-! ## White space and words -/

/-- A step behind any white space. -/
def Behind {α : Type} (step : Bytes → α → Bytes → Prop) (text : Bytes) (value : α)
    (rest : Bytes) : Prop :=
  ∃ gap input, (∀ b ∈ gap, isSpace b = true) ∧ (∀ b tail, input = b :: tail → isSpace b = false) ∧
    text = gap ++ input ∧ step input value rest

/-- A word of the grammar. -/
def Word (word text : Bytes) (_ : Unit) (rest : Bytes) : Prop := text = word ++ rest

/-- A separator or bracket behind white space. -/
def Marked (c : Char) (text rest : Bytes) : Prop := Behind (Word [byte c]) text () rest

/-- A string literal and the text it stands for. -/
def Literal (text s rest : Bytes) : Prop :=
  ∃ inner parts, text = byte '"' :: inner ∧ Repeats Character inner parts (byte '"' :: rest) ∧
    s = parts.flatten

section Skipping

variable {α : Type} {p : Parser Byte α} {text rest : Bytes} {value : α}

theorem skip_eq_ok {input : Bytes} (h : skip.run text = .ok () input) :
    ∃ gap, (∀ b ∈ gap, isSpace b = true) ∧ (∀ b tail, input = b :: tail → isSpace b = false) ∧
      text = gap ++ input := by
  obtain ⟨gap, middle, hmany, hpure⟩ := bind_eq_ok h
  cases hpure
  obtain ⟨hgap, htext⟩ := many_satisfy_eq_ok hmany
  refine ⟨gap, hgap, ?_, htext⟩
  rintro b tail rfl
  by_contra hspace
  have hstep : (satisfy isSpace).run (b :: tail) = .ok b tail :=
    satisfy_ok (by simpa using hspace)
  cases (many_eq_ok hmany).2.symm.trans hstep

/-- A primitive parser of a rule with a skipper. -/
theorem token_iff :
    (token p).run text = .ok value rest ↔ Behind p.Matches text value rest := by
  constructor
  · intro h
    obtain ⟨⟨⟩, input, hskip, hstep⟩ := bind_eq_ok h
    obtain ⟨gap, hgap, hinput, htext⟩ := skip_eq_ok hskip
    exact ⟨gap, input, hgap, hinput, htext, hstep⟩
  · rintro ⟨gap, input, hgap, hinput, rfl, hstep⟩
    have hreads : Reads (gap ++ input) input := reads_space hgap hinput
    rw [hreads]
    exact hstep

theorem Behind.reads {step : Bytes → α → Bytes → Prop} (h : Behind step text value rest) :
    ∃ input, Reads text input ∧ step input value rest := by
  obtain ⟨gap, input, hgap, hinput, rfl, hstep⟩ := h
  exact ⟨input, reads_space hgap hinput, hstep⟩

theorem Behind.imp {step other : Bytes → α → Bytes → Prop}
    (himp : ∀ input, step input value rest → other input value rest)
    (h : Behind step text value rest) : Behind other text value rest := by
  obtain ⟨gap, input, hgap, hinput, htext, hstep⟩ := h
  exact ⟨gap, input, hgap, hinput, htext, himp input hstep⟩

theorem word_iff {word : Bytes} :
    (token (lit word)).run text = .ok () rest ↔ Behind (Word word) text () rest := by
  rw [token_iff]
  constructor
  · exact Behind.imp fun input h => lit_eq_ok h
  · refine Behind.imp fun input h => ?_
    rw [h]
    exact lit_append word rest

theorem mark_iff {c : Char} : (mark c).run text = .ok () rest ↔ Marked c text rest := word_iff

theorem quiet_token (hp : Quiet p) : Quiet (token p) :=
  Quiet.bind (((quiet_satisfy _).many (advances_satisfy _)).bind fun _ => quiet_pure _) fun _ => hp

theorem quiet_mark (c : Char) : Quiet (mark c) := quiet_token (quiet_lit _)

/-- Where the words are not, the parser refuses. -/
theorem mark_refuses {c : Char} (h : ¬ ∃ rest, Marked c text rest) : (mark c).run text = .fail := by
  cases hmark : (mark c).run text with
  | ok found rest => exact absurd ⟨rest, mark_iff.mp hmark⟩ h
  | fail => rfl
  | throw fault => exact absurd hmark (quiet_mark c text fault)

theorem Marked.reads {c : Char} (h : Marked c text rest) : Reads text (byte c :: rest) := by
  obtain ⟨input, hreads, rfl⟩ := Behind.reads h
  exact hreads

/-- A mark takes at least one byte. -/
theorem Marked.length {c : Char} (h : Marked c text rest) : rest.length < text.length :=
  (advances_mark c text () rest (mark_iff.mpr h)).2

end Skipping

section Strings

variable {text s rest : Bytes}

theorem matches_character : character.Matches = Character := by
  funext input part rest
  exact propext ⟨character_eq_ok, character_run⟩

theorem string_eq_ok (h : string_.run text = .ok s rest) : Behind Literal text s rest := by
  refine (token_iff.mp h).imp fun input hliteral => ?_
  obtain ⟨⟨⟩, inner, hopen, hliteral⟩ := bind_eq_ok hliteral
  obtain ⟨parts, closing, hparts, hliteral⟩ := bind_eq_ok hliteral
  obtain ⟨⟨⟩, behind, hclose, hpure⟩ := bind_eq_ok hliteral
  cases hpure
  have hrepeats : Repeats character.Matches inner parts closing :=
    (many_eq_ok (must_eq_ok hparts)).1
  rw [lit_eq_ok (must_eq_ok hclose), matches_character] at hrepeats
  exact ⟨inner, parts, lit_eq_ok hopen, hrepeats, rfl⟩

theorem string_run (h : Behind Literal text s rest) : string_.run text = .ok s rest := by
  refine token_iff.mpr (h.imp fun input hliteral => ?_)
  obtain ⟨inner, parts, rfl, hparts, rfl⟩ := hliteral
  have hopen : (lit [byte '"']).run (byte '"' :: inner) = .ok () inner :=
    lit_append [byte '"'] inner
  have hclose : (lit [byte '"']).run (byte '"' :: rest) = .ok () rest := lit_append [byte '"'] rest
  rw [← matches_character] at hparts
  have hmany : characters.run inner = .ok parts (byte '"' :: rest) :=
    many_repeats advances_character hparts (character_quote rest)
  rw [Parser.Matches, bind_ok hopen, must_bind_ok hmany, must_bind_ok hclose, run_pure]

end Strings

end BlackCircle.Json.Lexemes
