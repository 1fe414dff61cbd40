import BlackCircle.Json.Escapes

/-!
# Literals that are read or refused

What the rules for strings, values, arrays and objects make of a literal follows
from what `characters` makes of the text between the quotation marks: a
literal is read when `characters` comes to the closing mark, and the whole text
is refused when it stops before, or throws.
-/

namespace BlackCircle.Json.Literals

open BlackCircle.Foundation
open BlackCircle.Foundation.ByteString
open BlackCircle.Foundation.EntryList (inKeyOrder)
open BlackCircle.Foundation.Peg
open BlackCircle.Json
open BlackCircle.Json.Escapes
open BlackCircle.Json.Grammar
open BlackCircle.Json.Print
open BlackCircle.Json.RoundTrip

/-! ## Characters -/

section Characters

variable {b : Byte} {rest : Bytes}

/-- A byte that begins no escape is read by itself, if it is an ASCII character. -/
theorem character_verbatim (hplain : plainChar b = true) (hamp : b ≠ byte '&')
    (hbackslash : b ≠ byte '\\') : character.run (b :: rest) = .ok [b] rest := by
  rw [character, alt_right (escaped_fail hamp hbackslash), bind_ok (satisfy_ok hplain), run_pure]

/-- A quotation mark and a byte that is not ASCII end the characters of a literal. -/
theorem character_stops (hplain : plainChar b = false) (hamp : b ≠ byte '&')
    (hbackslash : b ≠ byte '\\') : character.run (b :: rest) = .fail := by
  rw [character, alt_right (escaped_fail hamp hbackslash)]
  exact bind_fail (satisfy_fail hplain)

/-- The alternatives behind an ampersand. -/
def reference : Parser Byte Bytes :=
  alt (entity (ascii "gt;") (ascii ">"))
    (alt (entity (ascii "lt;") (ascii "<"))
      (alt (entity (ascii "amp;") (ascii "&")) (pure (ascii "&"))))

theorem character_reference {part after : Bytes} (h : reference.run rest = .ok part after) :
    character.run (byte '&' :: rest) = .ok part after := by
  have hlit : (lit (ascii "&")).run (byte '&' :: rest) = .ok () rest := lit_append (ascii "&") rest
  apply alt_left
  apply alt_left
  exact (bind_into hlit rfl).trans h

theorem entity_ok (name part : Bytes) (rest : Bytes) :
    (entity name part).run (name ++ rest) = .ok part rest := by
  rw [entity, bind_ok (lit_append _ _), run_pure]

theorem entity_fail {name part : Bytes} (h : ¬ name <+: rest) :
    (entity name part).run rest = .fail :=
  bind_fail (lit_fail h)

theorem character_gt (rest : Bytes) :
    character.run (ascii "&gt;" ++ rest) = .ok (ascii ">") rest :=
  character_reference (alt_left (entity_ok _ _ rest))

theorem character_lt (rest : Bytes) :
    character.run (ascii "&lt;" ++ rest) = .ok (ascii "<") rest := by
  have hgt : ¬ ascii "gt;" <+: ascii "lt;" ++ rest :=
    fun h => absurd (List.cons_prefix_cons.mp h).1 (by decide)
  exact character_reference ((alt_right (entity_fail hgt)).trans (alt_left (entity_ok _ _ rest)))

theorem character_amp (rest : Bytes) :
    character.run (ascii "&amp;" ++ rest) = .ok (ascii "&") rest := by
  have hgt : ¬ ascii "gt;" <+: ascii "amp;" ++ rest :=
    fun h => absurd (List.cons_prefix_cons.mp h).1 (by decide)
  have hlt : ¬ ascii "lt;" <+: ascii "amp;" ++ rest :=
    fun h => absurd (List.cons_prefix_cons.mp h).1 (by decide)
  exact character_reference ((alt_right (entity_fail hgt)).trans
    ((alt_right (entity_fail hlt)).trans (alt_left (entity_ok _ _ rest))))

/-- The names of the entities. -/
def entityNames : List Bytes := [ascii "gt;", ascii "lt;", ascii "amp;"]

/-- An ampersand that begins no entity stands for itself. -/
theorem character_ampersand (h : ∀ name ∈ entityNames, ¬ name <+: rest) :
    character.run (byte '&' :: rest) = .ok [byte '&'] rest := by
  have hgt : ¬ ascii "gt;" <+: rest := h _ List.mem_cons_self
  have hlt : ¬ ascii "lt;" <+: rest := h _ (List.mem_cons_of_mem _ List.mem_cons_self)
  have hamp : ¬ ascii "amp;" <+: rest :=
    h _ (List.mem_cons_of_mem _ (List.mem_cons_of_mem _ List.mem_cons_self))
  refine character_reference ((alt_right (entity_fail hgt)).trans
    ((alt_right (entity_fail hlt)).trans ?_))
  rw [alt_right (entity_fail hamp)]
  rfl

/-- Behind an ampersand the text is an entity or the ampersand stands for itself. -/
theorem character_ampersand_cases (rest : Bytes) :
    (∃ name ∈ entityNames, ∃ part after, rest = name ++ after ∧
      character.run (byte '&' :: rest) = .ok part after) ∨
    character.run (byte '&' :: rest) = .ok [byte '&'] rest := by
  by_cases h : ∃ name ∈ entityNames, name <+: rest
  · obtain ⟨name, hname, after, rfl⟩ := h
    refine Or.inl ⟨name, hname, ?_⟩
    simp only [entityNames, List.mem_cons, List.not_mem_nil, or_false] at hname
    rcases hname with rfl | rfl | rfl
    · exact ⟨_, after, rfl, character_gt after⟩
    · exact ⟨_, after, rfl, character_lt after⟩
    · exact ⟨_, after, rfl, character_amp after⟩
  · exact Or.inr (character_ampersand fun name hname hprefix => h ⟨name, hname, hprefix⟩)

end Characters

/-! ## Strings -/

section Strings

variable {written input rest : Bytes} {parts : List Bytes}

theorem literal_append (written rest : Bytes) :
    literal written ++ rest = [byte '"'] ++ (written ++ byte '"' :: rest) := by
  simp [literal]

theorem string_closed
    (h : characters.run (written ++ byte '"' :: rest) = .ok parts (byte '"' :: rest))
    (hreads : Reads input (literal written ++ rest)) :
    string_.run input = .ok parts.flatten rest := by
  have hclose : (lit [byte '"']).run (byte '"' :: rest) = .ok () rest := lit_append [byte '"'] rest
  rw [string_, hreads, literal_append, bind_ok (lit_append _ _), must_bind_ok h,
    must_bind_ok hclose, run_pure]

/-- The characters stop at a byte that does not close the literal. -/
theorem string_stopped {b : Byte} {more : Bytes}
    (h : characters.run (written ++ byte '"' :: rest) = .ok parts (b :: more))
    (hne : byte '"' ≠ b) (hreads : Reads input (literal written ++ rest)) :
    string_.run input = .throw .expectation := by
  have hopen : (lit [byte '"']).run (b :: more) = .fail := lit_fail_first rfl hne
  rw [string_, hreads, literal_append, bind_ok (lit_append _ _), must_bind_ok h,
    must_bind_fail hopen]

theorem string_throws {fault : Fault}
    (h : characters.run (written ++ byte '"' :: rest) = .throw fault)
    (hreads : Reads input (literal written ++ rest)) : string_.run input = .throw fault := by
  rw [string_, hreads, literal_append, bind_ok (lit_append _ _), must_bind_throw h]

end Strings

/-! ## Texts that hold a literal -/

section Texts

variable {written text : Bytes} {more : List Bytes} {fault : Fault}

/-- An object whose first member throws. -/
theorem object_throw {recur : Parser Byte Value} {inner : Bytes}
    (hopen : Reads text (byte '\x7b' :: inner)) (h : (valuePair recur).run inner = .throw fault) :
    (object_ recur).run text = .throw fault := by
  have hmark : (mark '\x7b').run text = .ok () inner := mark_ok hopen
  rw [object_, bind_ok hmark, must_bind_throw (opt_throw (sepBy1_throw h))]

/-- An object with one member, whose key is a literal. -/
theorem parseJson_key {s : Bytes} {t : Tree} (hdistinct : t.Distinct)
    (hstring : ∀ input rest, Reads input (literal written ++ rest) →
      string_.run input = .ok s rest)
    (htext : Spaced ([byte '\x7b'] :: literal written :: [byte ':'] :: t.tokens ++
      [[byte '\x7d']]) text) :
    parseJson text = .ok (.object [(s, t.value)]) := by
  have hdepth : t.depth < text.length + 1 := by
    have hlength := Spaced.length_le htext
    have hle := depth_le_length t
    simp only [List.flatten_append, List.flatten_cons, List.length_append] at hlength
    omega
  have hvalue := readsItem_value (text.length + 1) t hdepth hdistinct
  have hmember : ReadsItem (valuePair (value_ (text.length + 1)))
      (literal written :: [byte ':'] :: t.tokens) (s, t.value) :=
    readsItem_named ⟨byte '"', _, rfl, by decide⟩ hstring hvalue
  have hnone : ∀ input rest, Reads input (byte '\x7d' :: rest) →
      (valuePair (value_ (text.length + 1))).run input = .fail :=
    fun input rest hreads => bind_fail (string_fail hreads (by decide))
  obtain ⟨inner, hinner, hopen⟩ := Spaced.reads htext ⟨byte '\x7b', [], rfl, by decide⟩
  have hitems : Spaced (commaSeparated ([()].map fun _ => literal written :: [byte ':'] :: t.tokens)
      ++ [[byte '\x7d']]) inner := by
    rw [List.map_singleton, commaSeparated, List.flatMap_nil, List.append_nil]
    exact hinner
  obtain ⟨found, closing, hlist, hfound, hclosing⟩ :=
    @opt_items _ Unit _ (fun _ => literal written :: [byte ':'] :: t.tokens)
      (fun _ => (s, t.value)) (tame_valuePair (tame_value _)).keeps '\x7d' (Or.inr rfl) [] [()]
      (fun _ _ => hmember) hnone inner hitems
  obtain ⟨rest, -, hclose⟩ := Spaced.reads hclosing (solid_closing (Or.inr (Or.inr rfl)))
  have hmark : (mark '\x7b').run text = .ok () inner := mark_ok hopen
  have hend : (mark '\x7d').run closing = .ok () rest := mark_ok hclose
  have hobject : (object_ (value_ (text.length + 1))).run text = .ok [(s, t.value)] rest := by
    rw [object_, bind_ok hmark, must_bind_ok hlist, must_bind_ok hend, run_pure, hfound]
    rfl
  rw [parseJson, jsonText, alt_left (as_ok hobject)]

/-- A text is refused whose first key is a literal that throws. -/
theorem parseJson_key_throw
    (hstring : ∀ input rest, Reads input (literal written ++ rest) →
      string_.run input = .throw fault)
    (htext : Spaced ([byte '\x7b'] :: literal written :: more) text) :
    parseJson text = .error fault := by
  obtain ⟨inner, hinner, hopen⟩ := Spaced.reads htext ⟨byte '\x7b', [], rfl, by decide⟩
  obtain ⟨rest, -, hreads⟩ := Spaced.reads hinner ⟨byte '"', _, rfl, by decide⟩
  have hpair : (valuePair (value_ (text.length + 1))).run inner = .throw fault :=
    bind_throw (hstring inner rest hreads)
  have hobject : (as (object_ (value_ (text.length + 1))) .object).run text = .throw fault :=
    bind_throw (object_throw hopen hpair)
  rw [parseJson, jsonText, alt_throw hobject]

end Texts

end BlackCircle.Json.Literals
