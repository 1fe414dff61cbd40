import BlackCircle.Json.RoundTrip

/-!
# Places in a text

A place is an array or object with one value left open, at any depth, among
other values that are read wherever they stand.  A word that is read in any
place is read in this one; a word behind whose value something is left that
goes on with no array or object spoils the whole text.
-/

namespace BlackCircle.Json.Places

open BlackCircle.Foundation.ByteString
open BlackCircle.Foundation.Numeral
open BlackCircle.Foundation.Peg
open BlackCircle.Json
open BlackCircle.Json.Grammar
open BlackCircle.Json.Print
open BlackCircle.Json.RoundTrip

/-- How long the tokens are without white space. -/
def size (tokens : List Bytes) : Nat := tokens.flatten.length

/-- A value that is read wherever it stands. -/
structure Item where
  tokens : List Bytes
  value : Value
  reads : ∀ depth, size tokens < depth → ReadsItem (value_ depth) tokens value

/-- A literal that is read as the name of a member. -/
structure Name where
  word : Bytes
  text : Bytes
  solid : Solid word
  reads : ∀ input rest, Reads input (word ++ rest) → string_.run input = .ok text rest

def Name.tokens (name : Name) (tokens : List Bytes) : List Bytes :=
  name.word :: ascii ":" :: tokens

structure Member where
  name : Name
  item : Item

def Member.tokens (member : Member) : List Bytes := member.name.tokens member.item.tokens

def Member.entry (member : Member) : Bytes × Value := (member.name.text, member.item.value)

/-- A printed tree with distinct keys is read wherever it stands. -/
def Item.ofTree (t : Tree) (hdistinct : t.Distinct) : Item where
  tokens := t.tokens
  value := t.value
  reads depth hdepth :=
    readsItem_value depth t (Nat.lt_of_le_of_lt (depth_le_length t) hdepth) hdistinct

/-- Where a value stands. -/
inductive Place where
  | here
  | element (before : List Item) (place : Place) (after : List Item)
  | member (before : List Member) (name : Name) (place : Place) (after : List Member)

namespace Place

/-- The tokens of the text, with `word` in the place. -/
def tokens (word : List Bytes) : Place → List Bytes
  | .here => word
  | .element before place after =>
      ascii "[" :: (commaSeparated
        (before.map Item.tokens ++ place.tokens word :: after.map Item.tokens) ++ [ascii "]"])
  | .member before name place after =>
      ascii "\x7b" :: (commaSeparated
        (before.map Member.tokens ++ name.tokens (place.tokens word) :: after.map Member.tokens) ++
          [ascii "\x7d"])

/-- The value of the text, with `v` in the place. -/
def value (v : Value) : Place → Value
  | .here => v
  | .element before place after =>
      .array (before.map Item.value ++ place.value v :: after.map Item.value)
  | .member before name place after =>
      .object (insertMembers
        (before.map Member.entry ++ (name.text, place.value v) :: after.map Member.entry))

/-- The place is inside an array or object. -/
def IsInside : Place → Prop
  | .here => False
  | .element .. => True
  | .member .. => True

end Place

/-! ## Words that are read -/

section Size

variable {word : List Bytes} {items : List (List Bytes)} {opening closing : Bytes}

/-- What stands between brackets is shorter than the whole. -/
theorem size_lt_brackets (hopening : opening ≠ []) (hword : word ∈ items) :
    size word < size (opening :: (commaSeparated items ++ [closing])) := by
  have hitems : size word ≤ items.flatten.flatten.length := by
    obtain ⟨before, after, rfl⟩ := List.append_of_mem hword
    simp only [size, List.flatten_append, List.flatten_cons, List.length_append]
    omega
  have hcommas := length_le_commaSeparated items
  have hopening : 0 < opening.length := List.length_pos_iff.mpr hopening
  simp only [size, List.flatten_cons, List.flatten_append, List.length_append] at hitems ⊢
  omega

theorem size_le_named (name : Name) (tokens : List Bytes) :
    size tokens ≤ size (name.tokens tokens) := by
  simp only [size, Name.tokens, List.flatten_cons, List.length_append]
  omega

end Size

/-- A word with its value, or a named one with its entry. -/
def Item.pair (item : Item) : List Bytes × Value := (item.tokens, item.value)

def Member.pair (member : Member) : List Bytes × (Bytes × Value) := (member.tokens, member.entry)

section Reading

variable {α : Type} {word : List Bytes} {v : Value} {place : Place} {depth : Nat}
  {more : List Bytes} {text : Bytes}

/-- The items of a list with one more among them. -/
theorem forall_mem_place {items : List α} {middle : α} {before after : List α} (holds : α → Prop)
    (hitems : items = before ++ middle :: after) (hmiddle : holds middle)
    (hothers : ∀ item ∈ before ++ after, holds item) : ∀ item ∈ items, holds item := by
  intro item hitem
  rw [hitems, List.mem_append, List.mem_cons] at hitem
  rcases hitem with hbefore | rfl | hafter
  · exact hothers item (List.mem_append_left _ hbefore)
  · exact hmiddle
  · exact hothers item (List.mem_append_right _ hafter)

/-- An array is read if what stands in the place is. -/
theorem element_run {before after : List Item} (hdepth : 0 < depth)
    (hsize : ∀ item ∈ before ++ after, size item.tokens < depth)
    (hplace : ReadsItem (value_ depth) (place.tokens word) (place.value v))
    (hspaced : Spaced ((Place.element before place after).tokens word ++ more) text) :
    ∃ rest, (as (array_ (value_ depth)) .array).run text =
      .ok ((Place.element before place after).value v) rest ∧ Spaced more rest := by
  obtain ⟨depth, rfl⟩ : ∃ n, depth = n + 1 := ⟨depth - 1, by omega⟩
  have hnone : ∀ text rest, Reads text (byte ']' :: rest) → (value_ (depth + 1)).run text = .fail :=
    fun text rest hreads => value_fail_close hreads
  have htokens : (before.map Item.pair ++ (place.tokens word, place.value v) ::
      after.map Item.pair).map Prod.fst =
        before.map Item.tokens ++ place.tokens word :: after.map Item.tokens := by
    rw [List.map_append, List.map_cons, List.map_map, List.map_map]
    rfl
  have hvalues : (before.map Item.pair ++ (place.tokens word, place.value v) ::
      after.map Item.pair).map Prod.snd =
        before.map Item.value ++ place.value v :: after.map Item.value := by
    rw [List.map_append, List.map_cons, List.map_map, List.map_map]
    rfl
  have hothers : ∀ pair ∈ before.map Item.pair ++ after.map Item.pair,
      ReadsItem (value_ (depth + 1)) pair.1 pair.2 := by
    intro pair hpair
    rw [← List.map_append] at hpair
    obtain ⟨item, hitem, rfl⟩ := List.mem_map.mp hpair
    exact item.reads _ (hsize item hitem)
  have hitems : ∀ pair ∈ before.map Item.pair ++ (place.tokens word, place.value v) ::
      after.map Item.pair, ReadsItem (value_ (depth + 1)) pair.1 pair.2 :=
    forall_mem_place _ rfl hplace hothers
  rw [Place.tokens, ← htokens] at hspaced
  obtain ⟨rest, harray, hrest⟩ :=
    array_items (tame_value _).keeps hnone hitems hspaced
  rw [hvalues] at harray
  exact ⟨rest, as_ok harray, hrest⟩

/-- An object is read if what stands in the place is. -/
theorem member_run {before after : List Member} {name : Name}
    (hsize : ∀ member ∈ before ++ after, size member.tokens < depth)
    (hplace : ReadsItem (value_ depth) (place.tokens word) (place.value v))
    (hspaced : Spaced ((Place.member before name place after).tokens word ++ more) text) :
    ∃ rest, (as (object_ (value_ depth)) .object).run text =
      .ok ((Place.member before name place after).value v) rest ∧ Spaced more rest := by
  have htokens : (before.map Member.pair ++ (name.tokens (place.tokens word),
      (name.text, place.value v)) :: after.map Member.pair).map Prod.fst =
        before.map Member.tokens ++ name.tokens (place.tokens word) ::
          after.map Member.tokens := by
    rw [List.map_append, List.map_cons, List.map_map, List.map_map]
    rfl
  have hentries : (before.map Member.pair ++ (name.tokens (place.tokens word),
      (name.text, place.value v)) :: after.map Member.pair).map Prod.snd =
        before.map Member.entry ++ (name.text, place.value v) :: after.map Member.entry := by
    rw [List.map_append, List.map_cons, List.map_map, List.map_map]
    rfl
  have hothers : ∀ pair ∈ before.map Member.pair ++ after.map Member.pair,
      ReadsItem (valuePair (value_ depth)) pair.1 pair.2 := by
    intro pair hpair
    rw [← List.map_append] at hpair
    obtain ⟨member, hmember, rfl⟩ := List.mem_map.mp hpair
    have hitem := Nat.lt_of_le_of_lt (size_le_named member.name member.item.tokens)
      (hsize member hmember)
    exact readsItem_named member.name.solid member.name.reads (member.item.reads _ hitem)
  have hmiddle : ReadsItem (valuePair (value_ depth)) (name.tokens (place.tokens word))
      (name.text, place.value v) := readsItem_named name.solid name.reads hplace
  have hitems : ∀ pair ∈ before.map Member.pair ++ (name.tokens (place.tokens word),
      (name.text, place.value v)) :: after.map Member.pair,
        ReadsItem (valuePair (value_ depth)) pair.1 pair.2 :=
    forall_mem_place _ rfl hmiddle hothers
  rw [Place.tokens, ← htokens] at hspaced
  obtain ⟨rest, hobject, hrest⟩ := object_items (tame_valuePair (tame_value _)).keeps
    hitems hspaced
  rw [hentries] at hobject
  exact ⟨rest, as_ok hobject, hrest⟩

/-- The other elements of an array are shorter than it is. -/
theorem size_element (before : List Item) (place : Place) (after : List Item)
    (word : List Bytes) :
    (∀ item ∈ before ++ after,
      size item.tokens < size ((Place.element before place after).tokens word)) ∧
    size (place.tokens word) < size ((Place.element before place after).tokens word) := by
  have hbrackets : ∀ tokens ∈ before.map Item.tokens ++ place.tokens word ::
      after.map Item.tokens, size tokens < size ((Place.element before place after).tokens word) :=
    fun tokens hmem => size_lt_brackets (by decide) hmem
  refine ⟨fun item hitem => hbrackets _ ?_, hbrackets _ (by simp)⟩
  rw [List.mem_append] at hitem ⊢
  rw [List.mem_cons]
  exact hitem.imp List.mem_map_of_mem fun hafter => Or.inr (List.mem_map_of_mem hafter)

theorem size_member (before : List Member) (name : Name) (place : Place) (after : List Member)
    (word : List Bytes) :
    (∀ member ∈ before ++ after,
      size member.tokens < size ((Place.member before name place after).tokens word)) ∧
    size (place.tokens word) < size ((Place.member before name place after).tokens word) := by
  have hbraces : ∀ tokens ∈ before.map Member.tokens ++ name.tokens (place.tokens word) ::
      after.map Member.tokens,
        size tokens < size ((Place.member before name place after).tokens word) :=
    fun tokens hmem => size_lt_brackets (by decide) hmem
  refine ⟨fun member hmember => hbraces _ ?_,
    Nat.lt_of_le_of_lt (size_le_named name _) (hbraces _ (by simp))⟩
  rw [List.mem_append] at hmember ⊢
  rw [List.mem_cons]
  exact hmember.imp List.mem_map_of_mem fun hafter => Or.inr (List.mem_map_of_mem hafter)

/-- What is read in any place is read in this one. -/
theorem readsItem_place (hword : ∀ depth, size word < depth → ReadsItem (value_ depth) word v)
    (place : Place) :
    ∀ depth, size (place.tokens word) < depth →
      ReadsItem (value_ depth) (place.tokens word) (place.value v) := by
  induction place with
  | here => exact hword
  | element before place after ih =>
      intro depth hdepth more text hcloses hspaced
      obtain ⟨hothers, hplace⟩ := size_element before place after word
      obtain ⟨depth, rfl⟩ : ∃ n, depth = n + 1 := ⟨depth - 1, by omega⟩
      obtain ⟨rest, harray, hrest⟩ := element_run (by omega)
        (fun item hitem => by have hlt := hothers item hitem; omega)
        (ih depth (by omega)) hspaced
      exact ⟨rest, alt_left harray, hrest⟩
  | member before name place after ih =>
      intro depth hdepth more text hcloses hspaced
      obtain ⟨hothers, hplace⟩ := size_member before name place after word
      obtain ⟨depth, rfl⟩ : ∃ n, depth = n + 1 := ⟨depth - 1, by omega⟩
      obtain ⟨rest, hobject, hrest⟩ := member_run
        (fun member hmember => by have hlt := hothers member hmember; omega)
        (ih depth (by omega)) hspaced
      obtain ⟨inner, -, hreads⟩ := Spaced.reads hspaced ⟨byte '\x7b', [], rfl, by decide⟩
      refine ⟨rest, ?_, hrest⟩
      exact (valueRule_late hreads (by decide)).trans (alt_left hobject)

/-- A text with a word that is read in any place. -/
theorem parseJson_place (hword : ∀ depth, size word < depth → ReadsItem (value_ depth) word v)
    {place : Place} (hinside : place.IsInside) (hspaced : Spaced (place.tokens word) text) :
    parseJson text = .ok (place.value v) := by
  have hlength : size (place.tokens word) ≤ text.length := Spaced.length_le hspaced
  rw [← List.append_nil (place.tokens word)] at hspaced
  cases place with
  | here => cases hinside
  | element before place after =>
      obtain ⟨hothers, hplace⟩ := size_element before place after word
      obtain ⟨rest, harray, -⟩ := element_run (by omega)
        (fun item hitem => by have hlt := hothers item hitem; omega)
        (readsItem_place hword place (text.length + 1) (by omega)) hspaced
      obtain ⟨inner, -, hreads⟩ := Spaced.reads hspaced ⟨byte '[', [], rfl, by decide⟩
      rw [parseJson, jsonText, alt_right (object_fail hreads (by decide)), harray]
  | member before name place after =>
      obtain ⟨hothers, hplace⟩ := size_member before name place after word
      obtain ⟨rest, hobject, -⟩ := member_run
        (fun member hmember => by have hlt := hothers member hmember; omega)
        (readsItem_place hword place (text.length + 1) (by omega)) hspaced
      rw [parseJson, jsonText, alt_left hobject]

end Reading

/-! ## Words that are not read to their end -/

/-- A byte that goes on with no number, array or object. -/
structure Stray (b : Byte) : Prop where
  space : isSpace b = false
  digit : isDigit 10 b = false
  point : byte '.' ≠ b
  comma : byte ',' ≠ b
  bracket : byte ']' ≠ b
  brace : byte '\x7d' ≠ b

/-- A throw, or a match in front of a stray byte. -/
def Spoiled {α : Type} (reply : Reply Byte α) : Prop :=
  reply = .throw .expectation ∨ ∃ value b tail, reply = .ok value (b :: tail) ∧ Stray b

/-- A parser that is spoiled by some tokens, whatever closes them. -/
def Spoils {α : Type} (p : Parser Byte α) (tokens : List Bytes) : Prop :=
  ∀ more text, Closes more → Spaced (tokens ++ more) text → Spoiled (p.run text)

section Spoiling

variable {α β ι : Type} {p : Parser Byte α} {text : Bytes}

/-- What is done with the value does not matter. -/
theorem Spoiled.map {reply : Reply Byte α} (h : Spoiled reply) {next : α → Parser Byte β}
    {f : α → β} (hnext : ∀ value, next value = pure (f value)) : Spoiled (reply.bind next) := by
  rcases h with hthrow | ⟨value, b, tail, hok, hstray⟩
  · left
    rw [hthrow, Reply.bind_throw]
  · right
    refine ⟨f value, b, tail, ?_, hstray⟩
    rw [hok, Reply.bind_ok, hnext, run_pure]

theorem Spoiled.opt (h : Spoiled (p.run text)) : Spoiled ((opt p).run text) := by
  rcases h with hthrow | ⟨value, b, tail, hok, hstray⟩
  · exact Or.inl (opt_throw hthrow)
  · exact Or.inr ⟨some value, b, tail, opt_ok hok, hstray⟩

/-- No further item follows a stray byte. -/
theorem Spoiled.many (hadvances : Advances (do mark ','; p))
    (h : Spoiled ((do mark ','; p).run text)) : Spoiled ((many (do mark ','; p)).run text) := by
  rcases h with hthrow | ⟨value, b, tail, hok, hstray⟩
  · exact Or.inl (many_throw hthrow)
  · have hcomma : (mark ',').run (b :: tail) = .fail :=
      mark_fail (reads_solid hstray.space) hstray.comma
    exact Or.inr ⟨[value], b, tail, many_cons hadvances hok (many_fail (bind_fail hcomma)), hstray⟩

/-- The closing mark does not follow a stray byte. -/
theorem Spoiled.close (h : Spoiled (p.run text)) {c : Char}
    (hclose : ∀ b, Stray b → byte c ≠ b) (next : α → Parser Byte β) :
    (do let items ← must p
        must (mark c)
        next items).run text = .throw .expectation := by
  rcases h with hthrow | ⟨value, b, tail, hok, hstray⟩
  · exact must_bind_throw hthrow
  · have hfail : (mark c).run (b :: tail) = .fail :=
      mark_fail (reads_solid hstray.space) (hclose b hstray)
    rw [must_bind_ok hok]
    exact must_bind_fail hfail

variable {tokens : ι → List Bytes} {result : ι → α} {word : List Bytes}

/-- A spoiled item behind others that are read, each behind its comma. -/
theorem many_spoiled (hkeeps : Keeps p) (hword : Spoils p word) {behind : List Bytes}
    (hbehind : Closes behind) (before : List ι)
    (hbefore : ∀ item ∈ before, ReadsItem p (tokens item) (result item)) (text : Bytes)
    (hspaced : Spaced ((before.flatMap fun item => ascii "," :: tokens item) ++
      (ascii "," :: word ++ behind)) text) :
    Spoiled ((many (do mark ','; p)).run text) := by
  have hadvances : Advances (do mark ','; p) := (advances_mark ',').bind fun _ => hkeeps
  induction before generalizing text with
  | nil =>
      obtain ⟨after, hafter, hreads⟩ :=
        Spaced.reads hspaced (solid_closing (Or.inl rfl) : Solid [byte ','])
      have hcomma : (mark ',').run text = .ok () after := mark_ok hreads
      refine Spoiled.many hadvances ?_
      rw [bind_ok hcomma]
      exact hword behind after hbehind hafter
  | cons item before ih =>
      rw [List.flatMap_cons, List.append_assoc, List.cons_append] at hspaced
      obtain ⟨after, hafter, hreads⟩ :=
        Spaced.reads hspaced (solid_closing (Or.inl rfl) : Solid [byte ','])
      have hcomma : Closes (ascii "," :: word ++ behind) := closes_cons (Or.inl rfl) _
      have hcloses := hcomma.items tokens before
      obtain ⟨rest, hitem, hrest⟩ := hbefore item List.mem_cons_self _ after hcloses hafter
      have hcomma : (mark ',').run text = .ok () after := mark_ok hreads
      have hround : (do mark ','; p).run text = .ok (result item) rest :=
        (bind_ok hcomma).trans hitem
      rw [many_round hadvances hround]
      exact (ih (fun other hmem => hbefore other (List.mem_cons_of_mem _ hmem)) rest hrest).map
        fun _ => rfl

/-- A spoiled item among others between brackets. -/
theorem opt_spoiled (hkeeps : Keeps p) (hword : Spoils p word) {close : Char}
    (hclose : close = ']' ∨ close = '\x7d') {more : List Bytes} (before : List ι)
    (hbefore : ∀ item ∈ before, ReadsItem p (tokens item) (result item))
    (after : List (List Bytes)) (text : Bytes)
    (hspaced : Spaced (commaSeparated (before.map tokens ++ word :: after) ++
      [byte close] :: more) text) :
    Spoiled ((opt (sepBy1 p (mark ','))).run text) := by
  have hbehind : Closes ((after.flatMap fun tokens => ascii "," :: tokens) ++
      [byte close] :: more) := (closes_cons (Or.inr hclose) more).items id after
  apply Spoiled.opt
  cases before with
  | nil =>
      rw [List.map_nil, List.nil_append, commaSeparated, List.append_assoc] at hspaced
      rw [sepBy1, run_bind]
      rcases hword _ text hbehind hspaced with hthrow | ⟨value, b, tail, hok, hstray⟩
      · left
        rw [hthrow, Reply.bind_throw]
      · have hcomma : (mark ',').run (b :: tail) = .fail :=
          mark_fail (reads_solid hstray.space) hstray.comma
        right
        refine ⟨[value], b, tail, ?_, hstray⟩
        rw [hok, Reply.bind_ok, bind_ok (many_fail (bind_fail hcomma)), run_pure]
  | cons item before =>
      rw [List.map_cons, List.cons_append, commaSeparated, List.flatMap_append, List.flatMap_map,
        List.flatMap_cons, List.append_assoc, List.append_assoc, List.append_assoc] at hspaced
      have hcomma : Closes (ascii "," :: word ++
          ((after.flatMap fun tokens => ascii "," :: tokens) ++ [byte close] :: more)) :=
        closes_cons (Or.inl rfl) _
      have hcloses := hcomma.items tokens before
      obtain ⟨rest, hitem, hrest⟩ := hbefore item List.mem_cons_self _ text hcloses hspaced
      rw [sepBy1, bind_ok hitem, run_bind]
      exact (many_spoiled hkeeps hword hbehind before
        (fun other hmem => hbefore other (List.mem_cons_of_mem _ hmem)) rest hrest).map fun _ => rfl

/-- A member whose value is spoiled. -/
theorem spoils_named {recur : Parser Byte Value} (name : Name) (h : Spoils recur word) :
    Spoils (valuePair recur) (name.tokens word) := by
  intro more text hcloses hspaced
  obtain ⟨behindName, hbehindName, hreads⟩ := Spaced.reads hspaced name.solid
  obtain ⟨inner, hinner, hcolon⟩ := Spaced.reads hbehindName ⟨byte ':', [], rfl, by decide⟩
  have hname := name.reads text _ hreads
  have hmark : (mark ':').run behindName = .ok () inner := mark_ok hcolon
  rw [valuePair, bind_ok hname, must_bind_ok hmark, run_bind]
  rcases h more inner hcloses hinner with hthrow | ⟨value, b, tail, hok, hstray⟩
  · left
    rw [must_throw hthrow, Reply.bind_throw]
  · right
    refine ⟨(name.text, value), b, tail, ?_, hstray⟩
    rw [must_ok hok, Reply.bind_ok, run_pure]

end Spoiling

section Throwing

variable {word : List Bytes} {place : Place} {depth : Nat} {more : List Bytes} {text : Bytes}

/-- A spoiled element spoils its array. -/
theorem element_throw {before after : List Item}
    (hsize : ∀ item ∈ before ++ after, size item.tokens < depth)
    (hplace : Spoils (value_ depth) (place.tokens word))
    (hspaced : Spaced ((Place.element before place after).tokens word ++ more) text) :
    (as (array_ (value_ depth)) .array).run text = .throw .expectation := by
  rw [Place.tokens, List.cons_append, List.append_assoc] at hspaced
  obtain ⟨inner, hinner, hopen⟩ := Spaced.reads hspaced ⟨byte '[', [], rfl, by decide⟩
  have hmark : (mark '[').run text = .ok () inner := mark_ok hopen
  have hlist := opt_spoiled (tame_value depth).keeps hplace (Or.inl rfl) before
    (fun item hitem => item.reads depth (hsize item (List.mem_append_left _ hitem))) _ inner hinner
  refine bind_throw ?_
  rw [array_, bind_ok hmark]
  exact hlist.close (fun b hstray => hstray.bracket) _

/-- A spoiled member spoils its object. -/
theorem member_throw {before after : List Member} {name : Name}
    (hsize : ∀ member ∈ before ++ after, size member.tokens < depth)
    (hplace : Spoils (value_ depth) (place.tokens word))
    (hspaced : Spaced ((Place.member before name place after).tokens word ++ more) text) :
    (as (object_ (value_ depth)) .object).run text = .throw .expectation := by
  rw [Place.tokens, List.cons_append, List.append_assoc] at hspaced
  obtain ⟨inner, hinner, hopen⟩ := Spaced.reads hspaced ⟨byte '\x7b', [], rfl, by decide⟩
  have hmark : (mark '\x7b').run text = .ok () inner := mark_ok hopen
  have hbefore : ∀ member ∈ before,
      ReadsItem (valuePair (value_ depth)) member.tokens member.entry := by
    intro member hmember
    have hitem := Nat.lt_of_le_of_lt (size_le_named member.name member.item.tokens)
      (hsize member (List.mem_append_left _ hmember))
    exact readsItem_named member.name.solid member.name.reads (member.item.reads _ hitem)
  have hlist := opt_spoiled (tame_valuePair (tame_value depth)).keeps (spoils_named name hplace)
    (Or.inr rfl) before hbefore _ inner hinner
  refine bind_throw ?_
  rw [object_, bind_ok hmark]
  exact hlist.close (fun b hstray => hstray.brace) _

/-- What spoils any place spoils the values around this one. -/
theorem spoils_place (hword : ∀ depth, size word < depth → Spoils (value_ depth) word)
    (place : Place) :
    ∀ depth, size (place.tokens word) < depth → Spoils (value_ depth) (place.tokens word) := by
  induction place with
  | here => exact hword
  | element before place after ih =>
      intro depth hdepth more text hcloses hspaced
      obtain ⟨hothers, hplace⟩ := size_element before place after word
      obtain ⟨depth, rfl⟩ : ∃ n, depth = n + 1 := ⟨depth - 1, by omega⟩
      left
      exact alt_throw (element_throw
        (fun item hitem => by have hlt := hothers item hitem; omega)
        (ih depth (by omega)) hspaced)
  | member before name place after ih =>
      intro depth hdepth more text hcloses hspaced
      obtain ⟨hothers, hplace⟩ := size_member before name place after word
      obtain ⟨depth, rfl⟩ : ∃ n, depth = n + 1 := ⟨depth - 1, by omega⟩
      have hobject := member_throw
        (fun member hmember => by have hlt := hothers member hmember; omega)
        (ih depth (by omega)) hspaced
      obtain ⟨inner, -, hreads⟩ := Spaced.reads hspaced ⟨byte '\x7b', [], rfl, by decide⟩
      left
      exact (valueRule_late hreads (by decide)).trans (alt_throw hobject)

/-- A text with a word that spoils any place. -/
theorem parseJson_spoiled (hword : ∀ depth, size word < depth → Spoils (value_ depth) word)
    {place : Place} (hinside : place.IsInside) (hspaced : Spaced (place.tokens word) text) :
    parseJson text = .error .expectation := by
  have hlength : size (place.tokens word) ≤ text.length := Spaced.length_le hspaced
  rw [← List.append_nil (place.tokens word)] at hspaced
  cases place with
  | here => cases hinside
  | element before place after =>
      obtain ⟨hothers, hplace⟩ := size_element before place after word
      have harray := element_throw
        (fun item hitem => by have hlt := hothers item hitem; omega)
        (spoils_place hword place (text.length + 1) (by omega)) hspaced
      obtain ⟨inner, -, hreads⟩ := Spaced.reads hspaced ⟨byte '[', [], rfl, by decide⟩
      rw [parseJson, jsonText, alt_right (object_fail hreads (by decide)), harray]
  | member before name place after =>
      obtain ⟨hothers, hplace⟩ := size_member before name place after word
      have hobject := member_throw
        (fun member hmember => by have hlt := hothers member hmember; omega)
        (spoils_place hword place (text.length + 1) (by omega)) hspaced
      rw [parseJson, jsonText, alt_throw hobject]

end Throwing

end BlackCircle.Json.Places
