import BlackCircle.Foundation.Delimiter
import BlackCircle.Foundation.Unicode
import BlackCircle.Json.Literals

/-!
# Text written as it is, and entities

Three ways to put a text between quotation marks without `\u` escapes: in UTF-8
as it is, with five characters escaped one by one, and as it is in printable
ASCII.  The first is read for ASCII texts only; the other two are undone.
-/

namespace BlackCircle.Json.Entities

open BlackCircle.Foundation
open BlackCircle.Foundation.ByteString
open BlackCircle.Foundation.Delimiter
open BlackCircle.Foundation.Peg
open BlackCircle.Foundation.Unicode (encode encode_cons ofNat_lt utf8EncodeChar_ascii
  utf8EncodeChar_cases)
open BlackCircle.Json
open BlackCircle.Json.Escapes
open BlackCircle.Json.Grammar
open BlackCircle.Json.Literals
open BlackCircle.Json.Print
open BlackCircle.Json.RoundTrip

/-! ## Raw UTF-8 -/

/-- A character that JSON lets stand in a literal and that begins no entity. -/
structure IsRaw (c : Char) : Prop where
  visible : 0x20 ≤ c.toNat
  quote : c ≠ '"'
  backslash : c ≠ '\\'
  ampersand : c ≠ '&'

section Raw

variable {c : Char} {text : List Char}

/-- The byte of an ASCII character is that of no other character. -/
theorem byte_ne {d : Char} (hc : c.toNat < 0x80) (hd : d.toNat < 0x80) (hne : c ≠ d) :
    UInt8.ofNat c.toNat ≠ byte d := by
  intro heq
  apply hne
  apply Char.toNat_inj.mp
  have hnat : (UInt8.ofNat c.toNat).toNat = (UInt8.ofNat d.toNat).toNat := congrArg _ heq
  rwa [UInt8.toNat_ofNat', UInt8.toNat_ofNat', Nat.mod_eq_of_lt (by omega),
    Nat.mod_eq_of_lt (by omega)] at hnat

theorem character_ascii (hraw : IsRaw c) (hc : c.toNat < 0x80) (rest : Bytes) :
    character.run (UInt8.ofNat c.toNat :: rest) = .ok [UInt8.ofNat c.toNat] rest := by
  have hquote := byte_ne hc (by decide) hraw.quote
  refine character_verbatim ?_ (byte_ne hc (by decide) hraw.ampersand)
    (byte_ne hc (by decide) hraw.backslash)
  rw [plainChar, Bool.and_eq_true, decide_eq_true_eq, bne_iff_ne]
  exact ⟨ofNat_lt hc, hquote⟩

theorem characters_ascii (hraw : ∀ c ∈ text, IsRaw c) (hascii : ∀ c ∈ text, c.toNat < 0x80)
    (rest : Bytes) :
    ∃ parts, characters.run (encode text ++ byte '"' :: rest) = .ok parts (byte '"' :: rest) ∧
      parts.flatten = encode text := by
  induction text with
  | nil => exact ⟨[], many_fail (character_quote rest), rfl⟩
  | cons c text ih =>
      obtain ⟨parts, hparts, hflat⟩ := ih (fun d hd => hraw d (List.mem_cons_of_mem _ hd))
        (fun d hd => hascii d (List.mem_cons_of_mem _ hd))
      have hc : c.toNat < 0x80 := hascii c List.mem_cons_self
      have hencode : encode (c :: text) = UInt8.ofNat c.toNat :: encode text := by
        rw [encode_cons, utf8EncodeChar_ascii hc]
        rfl
      refine ⟨[UInt8.ofNat c.toNat] :: parts, ?_, ?_⟩
      · rw [hencode]
        exact many_cons advances_character (character_ascii (hraw c List.mem_cons_self) hc _) hparts
      · rw [hencode, List.flatten_cons, hflat]
        rfl

/-- A character beyond ASCII ends the characters of a literal where it stands. -/
theorem characters_beyond (hraw : ∀ c ∈ text, IsRaw c) (hbeyond : ∃ c ∈ text, 0x80 ≤ c.toNat)
    (rest : Bytes) :
    ∃ parts b more, characters.run (encode text ++ byte '"' :: rest) = .ok parts (b :: more) ∧
      byte '"' ≠ b := by
  induction text with
  | nil =>
      obtain ⟨c, hmem, -⟩ := hbeyond
      cases hmem
  | cons c text ih =>
      have hfirst : IsRaw c := hraw c List.mem_cons_self
      rcases Nat.lt_or_ge c.toNat 0x80 with hc | hc
      · have hlater : ∃ d ∈ text, 0x80 ≤ d.toNat := by
          obtain ⟨d, hmem, hd⟩ := hbeyond
          rcases List.mem_cons.mp hmem with rfl | hmem
          · exact absurd hc (Nat.not_lt.mpr hd)
          · exact ⟨d, hmem, hd⟩
        obtain ⟨parts, b, more, hparts, hb⟩ :=
          ih (fun d hd => hraw d (List.mem_cons_of_mem _ hd)) hlater
        refine ⟨[UInt8.ofNat c.toNat] :: parts, b, more, ?_, hb⟩
        rw [encode_cons, utf8EncodeChar_ascii hc, List.append_assoc]
        exact many_cons advances_character (character_ascii hfirst hc _) hparts
      · rcases utf8EncodeChar_cases c with ⟨hsmall, -⟩ | ⟨first, tail, hc', hleads, -⟩
        · exact absurd hsmall (Nat.not_lt.mpr hc)
        · have hge : ¬ first < 0x80 := by
            rw [not_lt]
            exact le_trans (by decide) hleads
          have hne : ∀ d : Byte, d < 0x80 → d ≠ first := by
            rintro d hd rfl
            exact hge hd
          have hplain : plainChar first = false := by simp [plainChar, hge]
          refine ⟨[], first, tail ++ (encode text ++ byte '"' :: rest), ?_, hne _ (by decide)⟩
          rw [encode_cons, hc', List.append_assoc, List.cons_append]
          exact many_fail (character_stops hplain (hne _ (by decide)).symm
            (hne _ (by decide)).symm)

end Raw

/-- The ASCII texts are those that are read from UTF-8 as it stands, be it in an element of an
array or in a key. -/
theorem parseJson_raw_iff {text : List Char} {t : Tree} {array object : Bytes}
    (hraw : ∀ c ∈ text, IsRaw c) (hdistinct : t.Distinct)
    (harray : Spaced [[byte '['], literal (encode text), [byte ']']] array)
    (hobject : Spaced ([byte '\x7b'] :: literal (encode text) :: [byte ':'] :: t.tokens ++
      [[byte '\x7d']]) object) :
    (parseJson array = .ok (.array [.string (encode text)]) ↔ ∀ c ∈ text, c.toNat < 0x80) ∧
      (parseJson object = .ok (.object [(encode text, t.value)]) ↔
        ∀ c ∈ text, c.toNat < 0x80) := by
  by_cases hascii : ∀ c ∈ text, c.toNat < 0x80
  · have hstring : ∀ input rest, Reads input (literal (encode text) ++ rest) →
        string_.run input = .ok (encode text) rest := by
      intro input rest hreads
      obtain ⟨parts, hparts, hflat⟩ := characters_ascii hraw hascii rest
      have hread := string_closed hparts hreads
      rwa [hflat] at hread
    exact ⟨iff_of_true (parseJson_literal hstring harray) hascii,
      iff_of_true (parseJson_key hdistinct hstring hobject) hascii⟩
  · have hbeyond : ∃ c ∈ text, 0x80 ≤ c.toNat := by
      push Not at hascii
      exact hascii
    have hstring : ∀ input rest, Reads input (literal (encode text) ++ rest) →
        string_.run input = .throw .expectation := by
      intro input rest hreads
      obtain ⟨parts, b, more, hparts, hb⟩ := characters_beyond hraw hbeyond rest
      exact string_stopped hparts hb hreads
    have harray' := parseJson_literal_throw hstring harray
    have hobject' := parseJson_key_throw hstring hobject
    constructor
    · rw [harray']
      exact iff_of_false (by rintro ⟨⟩) hascii
    · rw [hobject']
      exact iff_of_false (by rintro ⟨⟩) hascii

/-- A text in ASCII, as an element and as a key. -/
theorem parseJson_raw_ascii :
    parseJson (ascii "[\"a>b\"]") = .ok (.array [.string (ascii "a>b")]) ∧
      parseJson (ascii "\x7b\"a>b\":null\x7d") = .ok (.object [(ascii "a>b", .null)]) := by
  have hraw : ∀ c ∈ ['a', '>', 'b'], IsRaw c := by
    intro c hmem
    simp only [List.mem_cons, List.not_mem_nil, or_false] at hmem
    rcases hmem with rfl | rfl | rfl
    · exact ⟨by decide, by decide, by decide, by decide⟩
    · exact ⟨by decide, by decide, by decide, by decide⟩
    · exact ⟨by decide, by decide, by decide, by decide⟩
  have hascii : ∀ c ∈ ['a', '>', 'b'], c.toNat < 0x80 := by
    intro c hmem
    simp only [List.mem_cons, List.not_mem_nil, or_false] at hmem
    rcases hmem with rfl | rfl | rfl <;> decide
  have hobject : Spaced ([byte '\x7b'] :: literal (encode ['a', '>', 'b']) :: [byte ':'] ::
      Tree.null.tokens ++ [[byte '\x7d']]) (ascii "\x7b\"a>b\":null\x7d") := by
    refine @Spaced.cons [] (ascii "\x7b") _ _ (by decide) ?_
    refine @Spaced.cons [] (ascii "\"a>b\"") _ _ (by decide) ?_
    refine @Spaced.cons [] (ascii ":") _ _ (by decide) ?_
    refine @Spaced.cons [] (ascii "null") _ _ (by decide) ?_
    exact @Spaced.cons [] (ascii "\x7d") [] _ (by decide) (.nil (by decide))
  obtain ⟨harray, hkey⟩ := @parseJson_raw_iff _ Tree.null _ _ hraw trivial
    (spaced_literal (encode ['a', '>', 'b'])) hobject
  exact ⟨harray.mpr hascii, hkey.mpr hascii⟩

/-- An acute e in UTF-8 makes the whole text throw. -/
theorem not_parseJson_raw :
    ¬ ∀ (text : List Char) (array : Bytes), (∀ c ∈ text, IsRaw c) →
      Spaced [[byte '['], literal (encode text), [byte ']']] array →
        parseJson array = .ok (.array [.string (encode text)]) := by
  intro hall
  have hraw : ∀ c ∈ ['é'], IsRaw c := by
    intro c hmem
    rw [List.mem_singleton.mp hmem]
    exact ⟨by decide, by decide, by decide, by decide⟩
  have hread := hall ['é'] _ hraw (spaced_literal _)
  have hthrown : parseJson ([byte '['] ++ (literal (encode ['é']) ++ [byte ']'])) =
      .error .expectation := rfl
  rw [hthrown] at hread
  cases hread

/-! ## Five characters escaped -/

/-- The bytes that are escaped, and what is written for each of them. -/
def escapeChar (b : Byte) : Bytes :=
  if b = byte '&' then ascii "&amp;"
  else if b = byte '<' then ascii "&lt;"
  else if b = byte '>' then ascii "&gt;"
  else if b = byte '"' then ascii "\\\""
  else if b = byte '\\' then ascii "\\\\"
  else [b]

/-- One escaping pass. -/
def escapePass (s : Bytes) : Bytes := s.flatMap escapeChar

/-- A printable ASCII character. -/
def isPrintable (b : Byte) : Bool := 0x20 ≤ b && b < 0x7F

theorem plainChar_of_printable {b : Byte} (h : isPrintable b = true) (hquote : b ≠ byte '"') :
    plainChar b = true := by
  simp only [isPrintable, Bool.and_eq_true, decide_eq_true_eq] at h
  simp [plainChar, hquote, lt_trans h.2 (by decide : (0x7F : Byte) < 0x80)]

/-- Each printable character is read back from what is written for it. -/
theorem character_escapeChar :
    ReadsSpelling (fun b word => isPrintable b = true ∧ word = escapeChar b) fun b => [b] := by
  rintro b word rest ⟨hprintable, rfl⟩
  rw [escapeChar]
  split_ifs with hamp hlt hgt hquote hbackslash
  · rw [hamp]
    exact character_amp rest
  · rw [hlt]
    exact character_lt rest
  · rw [hgt]
    exact character_gt rest
  · rw [hquote]
    exact alt_left (escaped_same (by decide))
  · rw [hbackslash]
    exact alt_left (escaped_same (by decide))
  · exact character_verbatim (plainChar_of_printable hprintable hquote) hamp hbackslash

theorem spelled_escapePass {s : Bytes} (h : ∀ b ∈ s, isPrintable b = true) :
    Spelled (fun b word => isPrintable b = true ∧ word = escapeChar b) s (escapePass s) := by
  induction s with
  | nil => exact .nil
  | cons b s ih =>
      exact .cons ⟨h b List.mem_cons_self, rfl⟩ (ih fun c hc => h c (List.mem_cons_of_mem _ hc))

/-! ## Printable text as it is -/

/-- No ampersand of the text begins an entity. -/
def NoEntity (s : Bytes) : Prop := ∀ name ∈ entityNames, ¬ byte '&' :: name <:+: s

theorem NoEntity.tail {b : Byte} {s : Bytes} (h : NoEntity (b :: s)) : NoEntity s :=
  fun name hname hinfix => h name hname (List.infix_cons hinfix)

/-- What begins behind an ampersand begins before the closing mark. -/
theorem NoEntity.ahead {s : Bytes} (h : NoEntity (byte '&' :: s)) (rest : Bytes) :
    ∀ name ∈ entityNames, ¬ name <+: s ++ byte '"' :: rest := by
  intro name hname hprefix
  have hfree : byte '"' ∉ name := by
    simp only [entityNames, List.mem_cons, List.not_mem_nil, or_false] at hname
    rcases hname with rfl | rfl | rfl <;> decide
  have hbefore : byte '&' :: name <+: byte '&' :: s :=
    List.cons_prefix_cons.mpr ⟨rfl, prefix_of_notMem hfree hprefix⟩
  exact h name hname hbefore.isInfix

theorem characters_printable {s : Bytes} (h : ∀ b ∈ s, isPrintable b = true)
    (hbackslash : byte '\\' ∉ s) (hquote : byte '"' ∉ s) (hentity : NoEntity s) (rest : Bytes) :
    characters.run (s ++ byte '"' :: rest) = .ok (s.map fun b => [b]) (byte '"' :: rest) := by
  induction s with
  | nil => exact many_fail (character_quote rest)
  | cons b s ih =>
      rw [List.mem_cons, not_or] at hbackslash hquote
      have hmore := ih (fun c hc => h c (List.mem_cons_of_mem _ hc)) hbackslash.2 hquote.2
        hentity.tail
      refine many_cons advances_character ?_ hmore
      by_cases hamp : b = byte '&'
      · subst hamp
        exact character_ampersand (hentity.ahead rest)
      · exact character_verbatim
          (plainChar_of_printable (h b List.mem_cons_self) (Ne.symm hquote.1)) hamp
          (Ne.symm hbackslash.1)

/-- A printable text is read back from one escaping pass, and from itself where nothing in it
looks like an escape or an entity. -/
theorem parseJson_escapePass {s : Bytes} (h : ∀ b ∈ s, isPrintable b = true) :
    (∀ text, Spaced [[byte '['], literal (escapePass s), [byte ']']] text →
      parseJson text = .ok (.array [.string s])) ∧
    (byte '\\' ∉ s → byte '"' ∉ s → NoEntity s →
      ∀ text, Spaced [[byte '['], literal s, [byte ']']] text →
        parseJson text = .ok (.array [.string s])) := by
  have hflat : (s.map fun b => [b]).flatten = s := by
    rw [← List.flatMap_def, List.flatMap_singleton']
  constructor
  · intro text htext
    have hparsed := parseJson_spelled character_escapeChar (spelled_escapePass h) htext
    rwa [List.flatMap_singleton'] at hparsed
  · intro hbackslash hquote hentity text htext
    refine parseJson_literal (fun input rest hreads => ?_) htext
    have hread := string_closed (characters_printable h hbackslash hquote hentity rest) hreads
    rwa [hflat] at hread

/-- Text that looks like an entity is restored, and a lone ampersand stays. -/
theorem parseJson_escapePass_entity :
    parseJson (ascii "[\"&amp;gt;&lt;\"]") = .ok (.array [.string (ascii "&gt;<")]) ∧
      parseJson (ascii "[\"a&b\"]") = .ok (.array [.string (ascii "a&b")]) := by
  have hbare : NoEntity (ascii "a&b") := by
    intro name hname hinfix
    have hlength := hinfix.length_le
    simp only [entityNames, List.mem_cons, List.not_mem_nil, or_false] at hname
    rcases hname with rfl | rfl | rfl <;> exact absurd hlength (by decide)
  exact ⟨(parseJson_escapePass (by decide)).1 _ (spaced_literal (escapePass (ascii "&gt;<"))),
    (parseJson_escapePass (by decide)).2 (by decide) (by decide) hbare _
      (spaced_literal (ascii "a&b"))⟩

end BlackCircle.Json.Entities
