import BlackCircle.Json.Numbers

/-!
# Texts that grow with their objects

`insert_object_t` puts a value into an object and what the value is written as
into the text of the object, in front of the closing brace.  The value may be a
clone of the object itself.
-/

namespace BlackCircle.Json.Insertions

open BlackCircle.Foundation
open BlackCircle.Foundation.ByteString
open BlackCircle.Foundation.EntryList (sorted_inKeyOrder)
open BlackCircle.Foundation.Numeral
open BlackCircle.Foundation.Peg
open BlackCircle.Json
open BlackCircle.Json.Grammar
open BlackCircle.Json.Numbers
open BlackCircle.Json.Places
open BlackCircle.Json.Print
open BlackCircle.Json.RoundTrip

/-! ## Insertions -/

/-- `insert_object_t`, with the object and the text that it refers to. -/
structure InsertObject where
  obj : List (Bytes × Value)
  jstr : Bytes
  n : UInt32

/-- The keys are numbered; so is the first one, after `++n`. -/
def key (n : UInt32) : Bytes := ascii "val" ++ decimal n.toNat

/-- `operator ()`. -/
def InsertObject.call (ins : InsertObject) (val : Value) (vstr : Bytes) : InsertObject :=
  let n := ins.n + 1
  { obj := EntryList.place (fun _ => val) (key n) val ins.obj
    jstr := ins.jstr.take (ins.jstr.length - 1) ++
      (ascii ",\"" ++ key n ++ ascii "\":" ++ vstr) ++ ins.jstr.drop (ins.jstr.length - 1)
    n := n }

/-- What the tests begin with. -/
def start : InsertObject := ⟨[(ascii "null", .null)], ascii "\x7b\"null\":null\x7d", 0⟩

/-- What is inserted: a value as it may be written, a number, one with a dot behind it, or a clone
of the object with its text. -/
inductive Insertion where
  | tree (t : Tree) (hdistinct : t.Distinct) (vstr : Bytes) (hspaced : Spaced t.tokens vstr)
  | number (n : Number) (hseparate : n.Separate)
  | pointed (n : Number) (hfraction : n.fraction = none) (hexponent : n.exponent = none)
  | clone

def Insertion.val (ins : InsertObject) : Insertion → Value
  | .tree t _ _ _ => t.value
  | .number n _ => n.value
  | .pointed n _ _ => .real (.decimal n.negative (mantissa n.whole n.fraction) 0)
  | .clone => .object ins.obj

def Insertion.vstr (ins : InsertObject) : Insertion → Bytes
  | .tree _ _ vstr _ => vstr
  | .number n _ => n.text
  | .pointed n _ _ => n.text ++ ascii "."
  | .clone => ins.jstr

def InsertObject.insert (ins : InsertObject) (insertion : Insertion) : InsertObject :=
  ins.call (insertion.val ins) (insertion.vstr ins)

def insertAll (insertions : List Insertion) : InsertObject := insertions.foldl .insert start

theorem insertAll_concat (insertions : List Insertion) (insertion : Insertion) :
    insertAll (insertions ++ [insertion]) = (insertAll insertions).insert insertion := by
  rw [insertAll, List.foldl_append]
  rfl

/-! ## A dot behind a number -/

section Pointed

variable {n : Number} {recur : Parser Byte Value} {text rest : Bytes}

theorem text_whole (hfraction : n.fraction = none) (hexponent : n.exponent = none)
    (rest : Bytes) : n.text ++ rest = n.sign.toList ++ n.whole ++ rest := by
  rw [Number.text, Number.fractionText, Number.exponentText, hfraction, hexponent]
  simp

/-- A dot keeps the integer alternative from a number. -/
theorem integer_pointed (hfraction : n.fraction = none) (hexponent : n.exponent = none)
    (hreads : Reads text (n.text ++ byte '.' :: rest)) : integer.run text = .fail := by
  rw [text_whole hfraction hexponent] at hreads
  have hnumeral := @signedNumeral_run (-2 ^ 63) (2 ^ 63 - 1) _ _ _ (isSign_sign n) n.numeral
    (terminates_cons (by decide : isDigit 10 (byte '.') = false) : Terminates 10 (byte '.' :: rest))
  have hint : (token int64).run text = int64.run _ := hreads int64
  by_cases hfits : n.Fits
  · have hread : (token int64).run text = .ok (Int64.ofInt n.wholePart) (byte '.' :: rest) := by
      rw [hint, int64, bind_ok (hnumeral.trans (if_pos hfits)), run_pure]
      rfl
    have hpoint : (mark '.').run (byte '.' :: rest) = .ok () rest :=
      mark_ok (reads_solid (by decide))
    rw [integer, bind_ok hread]
    exact bind_fail (notAhead_fail hpoint)
  · have hread : (token int64).run text = .fail := by
      rw [hint, int64, bind_fail (hnumeral.trans (if_neg hfits))]
    rw [integer, bind_fail hread]

/-- `double_` takes the dot, and no digits behind it. -/
theorem double_pointed (hfraction : n.fraction = none) (hexponent : n.exponent = none)
    (h : Ends rest) : double_.run (n.text ++ byte '.' :: rest) =
      .ok (.decimal n.negative (mantissa n.whole n.fraction) 0) rest := by
  have hnegative : (n.sign == some (byte '-')) = n.negative := by
    rw [Number.sign]
    cases n.negative <;> rfl
  have hwhole := digitRun_append n.numeral
    (terminates_cons (by decide : isDigit 10 (byte '.') = false) : Terminates 10 (byte '.' :: rest))
  have hnone : (digitRun 10).run rest = .fail := by
    cases rest with
    | nil => exact many1_fail (satisfy_nil _)
    | cons b tail => exact digitRun_fail (h.digit b tail rfl)
  have hdigits : fractionDigits.run (byte '.' :: rest) = .ok none rest := by
    have hpoint : (lit [byte '.']).run (byte '.' :: rest) = .ok () rest := lit_append [byte '.'] _
    rw [fractionDigits]
    exact (bind_into (opt_ok hpoint) rfl).trans (opt_fail hnone)
  rw [text_whole hfraction hexponent, double_, bind_ok (sign_run (isSign_sign n) n.numeral _)]
  simp only
  rw [bind_ok (opt_ok hwhole)]
  simp only [hnegative, fraction]
  rw [bind_ok hdigits]
  simp only [reduceCtorEq, false_and, if_false]
  rw [bind_ok (exponent_none h), run_pure, hfraction]
  rfl

theorem readsItem_pointed (hfraction : n.fraction = none) (hexponent : n.exponent = none)
    (depth : Nat) (hdepth : 0 < depth) : ReadsItem (value_ depth) [n.text ++ ascii "."]
      (.real (.decimal n.negative (mantissa n.whole n.fraction) 0)) := by
  intro more text hcloses hspaced
  obtain ⟨depth, rfl⟩ : ∃ d, depth = d + 1 := ⟨depth - 1, by omega⟩
  have hsolid : Solid (n.text ++ ascii ".") := by
    obtain ⟨b, tail, hcons, hb⟩ := solid_number n
    exact ⟨b, tail ++ ascii ".", by rw [hcons]; rfl, hb⟩
  obtain ⟨rest, hrest, hreads⟩ := Spaced.reads hspaced hsolid
  have hends : Ends rest := ends_of_closes hcloses hrest
  rw [List.append_assoc] at hreads
  change Reads text (n.text ++ byte '.' :: rest) at hreads
  have hdouble := (hreads double_).trans (double_pointed hfraction hexponent hends)
  refine ⟨rest, ?_, hrest⟩
  change (valueRule (value_ depth)).run text = .ok _ rest
  rw [Numbers.valueRule_number n hreads,
    alt_right (as_fail (integer_pointed hfraction hexponent hreads)), alt_left (as_ok hdouble)]

end Pointed

/-! ## Objects in braces -/

/-- A member and a text that it is written as. -/
structure Written where
  member : Member
  text : Bytes
  spaced : Spaced member.tokens text

/-- A text behind a text. -/
theorem Spaced.append {tokens others : List Bytes} {text more : Bytes} (h : Spaced tokens text)
    (hmore : Spaced others more) : Spaced (tokens ++ others) (text ++ more) := by
  induction h with
  | nil hgap =>
      have hbehind := Spaced.surround hmore hgap (List.forall_mem_nil _)
      rwa [List.append_nil] at hbehind
  | cons hgap _ ih =>
      rw [List.append_assoc, List.append_assoc]
      exact .cons hgap ih

theorem spaced_token (token : Bytes) : Spaced [token] token := by
  have hspaced : Spaced [token] ([] ++ (token ++ [])) :=
    .cons (List.forall_mem_nil _) (.nil (List.forall_mem_nil _))
  rwa [List.nil_append, List.append_nil] at hspaced

/-- The place of the first member. -/
def place (first : Written) (others : List Written) : Place :=
  .member [] first.member.name .here (others.map Written.member)

def braced (first : Written) (others : List Written) : List Bytes :=
  (place first others).tokens first.member.item.tokens

def entries (first : Written) (others : List Written) : List (Bytes × Value) :=
  (first :: others).map fun written => written.member.entry

/-- What is written up to the closing brace. -/
def inner (first : Written) (others : List Written) : Bytes :=
  ascii "\x7b" ++ first.text ++ others.flatMap fun written => ascii "," ++ written.text

theorem spaced_braced (first : Written) (others : List Written) :
    Spaced (braced first others) (inner first others ++ ascii "\x7d") := by
  have hothers : Spaced (others.flatMap fun written => ascii "," :: written.member.tokens)
      (others.flatMap fun written => ascii "," ++ written.text) := by
    induction others with
    | nil => exact .nil (List.forall_mem_nil _)
    | cons written others ih =>
        exact Spaced.append (Spaced.append (spaced_token (ascii ",")) written.spaced) ih
  have hall := Spaced.append (Spaced.append (Spaced.append (spaced_token (ascii "\x7b"))
    first.spaced) hothers) (spaced_token (ascii "\x7d"))
  have htokens : braced first others = [ascii "\x7b"] ++ first.member.tokens ++
      (others.flatMap fun written => ascii "," :: written.member.tokens) ++ [ascii "\x7d"] := by
    simp [braced, place, Place.tokens, commaSeparated, Member.tokens, List.flatMap_map]
  rw [htokens]
  exact hall

theorem value_braced (first : Written) (others : List Written) :
    (place first others).value first.member.item.value =
      .object (insertMembers (entries first others)) := by
  simp [place, Place.value, entries, Member.entry]
  rfl

/-- An object in braces is read wherever it stands. -/
def braces (first : Written) (others : List Written) : Item where
  tokens := braced first others
  value := .object (insertMembers (entries first others))
  reads := by
    rw [← value_braced]
    exact readsItem_place first.member.item.reads _

/-! ## The text is the text of the object -/

theorem isPlain_of_digit {b : Byte} (h : isDigit 10 b = true) : isPlain b = true := by
  have hrange : 48 ≤ b.toNat ∧ b.toNat < 58 := by
    rw [isDigit, decide_eq_true_eq, digitValue] at h
    split_ifs at h <;> omega
  simp only [isPlain, Bool.and_eq_true, decide_eq_true_eq, bne_iff_ne, ne_eq, UInt8.le_iff_toNat_le,
    UInt8.lt_iff_toNat_lt, ← UInt8.toNat_inj]
  have hquote : (byte '"').toNat = 34 := rfl
  have hbackslash : (byte '\\').toNat = 92 := rfl
  have hamp : (byte '&').toNat = 38 := rfl
  have hspace : (32 : Byte).toNat = 32 := rfl
  have hdelete : (127 : Byte).toNat = 127 := rfl
  omega

theorem isPlain_key (n : UInt32) : ∀ b ∈ key n, isPlain b = true := by
  intro b hb
  rcases List.mem_append.mp hb with hval | hdigit
  · have hletters : ∀ b ∈ ascii "val", isPlain b = true := by decide
    exact hletters b hval
  · exact isPlain_of_digit ((isNumeral_decimal n.toNat).digits b hdigit)

/-- A name of plain characters. -/
def plainName (s : Plain) : Name where
  word := quoted s
  text := s.bytes
  solid := ⟨byte '"', _, rfl, by decide⟩
  reads _ _ hreads := string_quoted s hreads

def keyName (n : UInt32) : Name := plainName ⟨key n, isPlain_key n⟩

/-- Different numbers give different keys. -/
theorem key_injective : Function.Injective key := by
  intro m n h
  have hdecimal : decimal m.toNat = decimal n.toNat := List.append_cancel_left h
  have hvalue := congrArg (Numeral.value 10) hdecimal
  rw [value_decimal, value_decimal] at hvalue
  exact UInt32.toNat_inj.mp hvalue

theorem key_ne_null (n : UInt32) : key n ≠ ascii "null" := by
  intro h
  have hfirst := congrArg List.head? h
  revert hfirst
  simp [key, ascii, byte]

/-- After some insertions, the object is made of the members that the text is written of. -/
structure Built (ins : InsertObject) (count : Nat) (first : Written) (others : List Written) :
    Prop where
  text : ins.jstr = inner first others ++ ascii "\x7d"
  object : ins.obj = insertMembers (entries first others)
  keys : (entries first others).map Prod.fst =
    ascii "null" :: (List.range count).map fun i => key (UInt32.ofNat (i + 1))
  counted : ins.n = UInt32.ofNat count

section Building

variable {ins : InsertObject} {count : Nat} {first : Written} {others : List Written}

theorem Built.counted_succ (h : Built ins count first others) :
    ins.n + 1 = UInt32.ofNat (count + 1) := by
  rw [h.counted, UInt32.ofNat_add]
  rfl

/-- The keys do not come again before the number of the last one does. -/
theorem nodup_keys (hcount : count ≤ 2 ^ 32) :
    (ascii "null" :: (List.range count).map fun i => key (UInt32.ofNat (i + 1))).Nodup := by
  refine List.nodup_cons.mpr ⟨fun hmem => ?_, List.Nodup.map_on ?_ List.nodup_range⟩
  · obtain ⟨i, -, heq⟩ := List.mem_map.mp hmem
    exact key_ne_null _ heq
  · intro i hi j hj heq
    have hi := List.mem_range.mp hi
    have hj := List.mem_range.mp hj
    have hsame := congrArg UInt32.toNat (key_injective heq)
    rw [UInt32.toNat_ofNat', UInt32.toNat_ofNat'] at hsame
    omega

theorem Built.sorted (h : Built ins count first others) (hcount : count ≤ 2 ^ 32) :
    EntryList.Sorted ins.obj := by
  have hnodup := nodup_keys hcount
  rw [← h.keys] at hnodup
  rw [h.object, insertMembers_eq hnodup]
  exact sorted_inKeyOrder hnodup

/-- The numbers of the first `2 ^ 32` insertions. -/
theorem key_ne_key {i j : Nat} (hne : i ≠ j) (hi : i < 2 ^ 32) (hj : j < 2 ^ 32) :
    key (UInt32.ofNat (i + 1)) ≠ key (UInt32.ofNat (j + 1)) := by
  intro heq
  have hsame := congrArg UInt32.toNat (key_injective heq)
  rw [UInt32.toNat_ofNat', UInt32.toNat_ofNat'] at hsame
  omega

theorem Built.new (h : Built ins count first others) (hcount : count < 2 ^ 32) :
    ∀ entry ∈ ins.obj, entry.1 ≠ key (ins.n + 1) := by
  intro entry hmem heq
  have hnodup := nodup_keys (Nat.le_of_lt hcount)
  rw [← h.keys] at hnodup
  rw [h.object, insertMembers_eq hnodup, (EntryList.perm_inKeyOrder _).mem_iff] at hmem
  have hkey := List.mem_map_of_mem (f := Prod.fst) hmem
  rw [h.keys, heq, h.counted_succ, List.mem_cons, List.mem_map] at hkey
  rcases hkey with hnull | ⟨i, hi, hsame⟩
  · exact key_ne_null _ hnull
  · have hlt := List.mem_range.mp hi
    exact key_ne_key (Nat.ne_of_lt hlt) (by omega) hcount hsame

/-- One more member. -/
theorem Built.call (h : Built ins count first others) (hcount : count < 2 ^ 32) (written : Written)
    (hname : written.member.name = keyName (ins.n + 1)) {vstr : Bytes}
    (htext : written.text = ascii "\"" ++ key (ins.n + 1) ++ ascii "\":" ++ vstr) :
    Built (ins.call written.member.item.value vstr) (count + 1) first (others ++ [written]) := by
  have hentries : entries first (others ++ [written]) =
      entries first others ++ [(key (ins.n + 1), written.member.item.value)] := by
    rw [entries, ← List.cons_append, List.map_append]
    simp only [List.map_cons, List.map_nil, Member.entry, hname]
    rfl
  constructor
  case text =>
    have hlength : ins.jstr.length - 1 = (inner first others).length := by
      rw [h.text, List.length_append]
      rfl
    change ins.jstr.take (ins.jstr.length - 1) ++ _ ++ ins.jstr.drop (ins.jstr.length - 1) = _
    rw [hlength, h.text, List.take_left, List.drop_left]
    simp [inner, htext, ascii]
  case object =>
    have hplaced : insertMembers (entries first (others ++ [written])) =
        EntryList.place id (key (ins.n + 1)) written.member.item.value ins.obj := by
      rw [hentries, h.object, insertMembers, List.foldl_append]
      rfl
    have hsorted := h.sorted (Nat.le_of_lt hcount)
    have hnew := h.new hcount
    rw [hplaced]
    exact (hsorted.place _ _ _).eq_of_perm (hsorted.place _ _ _)
      ((EntryList.perm_place hnew _ _).trans (EntryList.perm_place hnew _ _).symm)
  case keys =>
    rw [hentries, List.map_append, h.keys, List.range_succ, List.map_append, h.counted_succ]
    rfl
  case counted => exact h.counted_succ

/-- Whatever is inserted is read from what it is written as. -/
theorem Built.item (h : Built ins count first others) (insertion : Insertion) :
    ∃ item : Item, item.value = insertion.val ins ∧ Spaced item.tokens (insertion.vstr ins) := by
  cases insertion with
  | tree t hdistinct vstr hspaced => exact ⟨.ofTree t hdistinct, rfl, hspaced⟩
  | number n hseparate =>
      refine ⟨⟨[n.text], n.value, fun depth hdepth => ?_⟩, rfl, spaced_token _⟩
      exact readsItem_number hseparate depth (Nat.zero_lt_of_lt hdepth)
  | pointed n hfraction hexponent =>
      refine ⟨⟨[n.text ++ ascii "."], _, fun depth hdepth => ?_⟩, rfl, spaced_token _⟩
      exact readsItem_pointed hfraction hexponent depth (Nat.zero_lt_of_lt hdepth)
  | clone =>
      refine ⟨braces first others, ?_, ?_⟩
      · rw [Insertion.val, h.object]
        rfl
      · rw [Insertion.vstr, h.text]
        exact spaced_braced first others

/-- One more insertion. -/
theorem Built.insert (h : Built ins count first others) (hcount : count < 2 ^ 32)
    (insertion : Insertion) :
    ∃ written, Built (ins.insert insertion) (count + 1) first (others ++ [written]) := by
  obtain ⟨item, hval, hvstr⟩ := h.item insertion
  have hspaced : Spaced ((keyName (ins.n + 1)).tokens item.tokens)
      (ascii "\"" ++ key (ins.n + 1) ++ ascii "\":" ++ insertion.vstr ins) := by
    have hparts := Spaced.append (spaced_token (keyName (ins.n + 1)).word)
      (Spaced.append (spaced_token (ascii ":")) hvstr)
    simpa [Name.tokens, keyName, plainName, quoted, ascii] using hparts
  have hcall := h.call hcount ⟨⟨keyName (ins.n + 1), item⟩, _, hspaced⟩ rfl rfl
  rw [hval] at hcall
  exact ⟨_, hcall⟩

end Building

theorem built_start : ∃ first, Built start 0 first [] := by
  have hplain : ∀ b ∈ ascii "null", isPlain b = true := by decide
  have hspaced : Spaced ((plainName ⟨ascii "null", hplain⟩).tokens (Tree.tokens .null))
      (ascii "\"null\":null") :=
    Spaced.append (spaced_token (ascii "\"null\""))
      (Spaced.append (spaced_token (ascii ":")) (spaced_token (ascii "null")))
  exact ⟨⟨⟨plainName ⟨ascii "null", hplain⟩, .ofTree .null trivial⟩, _, hspaced⟩,
    rfl, rfl, rfl, rfl⟩

/-- After any number of insertions up to `2 ^ 32`. -/
theorem exists_built (insertions : List Insertion) (hcount : insertions.length ≤ 2 ^ 32) :
    ∃ first others, Built (insertAll insertions) insertions.length first others := by
  induction insertions using List.reverseRecOn with
  | nil =>
      obtain ⟨first, hfirst⟩ := built_start
      exact ⟨first, [], hfirst⟩
  | append_singleton insertions insertion ih =>
      rw [List.length_append, List.length_singleton] at hcount
      obtain ⟨first, others, hbuilt⟩ := ih (by omega)
      obtain ⟨written, hmore⟩ := hbuilt.insert (by omega) insertion
      rw [insertAll_concat, List.length_append, List.length_singleton]
      exact ⟨first, others ++ [written], hmore⟩

/-- What has been inserted stays. -/
theorem find_inserted (before : List Insertion) (insertion : Insertion) (after : List Insertion)
    (hcount : (before ++ insertion :: after).length ≤ 2 ^ 32) :
    EntryList.find (key (UInt32.ofNat (before.length + 1)))
      (insertAll (before ++ insertion :: after)).obj = some (insertion.val (insertAll before)) := by
  induction after using List.reverseRecOn with
  | nil =>
      rw [List.length_append, List.length_singleton] at hcount
      obtain ⟨first, others, hbuilt⟩ := exists_built before (by omega)
      rw [insertAll_concat, ← hbuilt.counted_succ]
      refine (EntryList.find_place_self (hbuilt.sorted (by omega)) _ _ _).trans ?_
      cases EntryList.find (key ((insertAll before).n + 1)) (insertAll before).obj <;> rfl
  | append_singleton after last ih =>
      have hassoc : before ++ insertion :: (after ++ [last]) =
          (before ++ insertion :: after) ++ [last] := by
        rw [List.append_assoc, List.cons_append]
      rw [hassoc] at hcount ⊢
      rw [List.length_append, List.length_singleton] at hcount
      obtain ⟨first, others, hbuilt⟩ := exists_built (before ++ insertion :: after) (by omega)
      have hlength : before.length < (before ++ insertion :: after).length := by
        rw [List.length_append, List.length_cons]
        omega
      rw [insertAll_concat, ← ih (by omega)]
      refine EntryList.find_place_of_ne ?_ _ _ _
      rw [hbuilt.counted_succ]
      exact key_ne_key (Nat.ne_of_lt hlength) (by omega) (by omega)

/-- After any insertions, up to the number at which the keys begin again, the text parses to the
object, in which each value that has been inserted stands under its key. -/
theorem parses_to_object (insertions : List Insertion) (hcount : insertions.length ≤ 2 ^ 32) :
    parseJson (insertAll insertions).jstr = .ok (.object (insertAll insertions).obj) ∧
      ∀ before insertion after, insertions = before ++ insertion :: after →
        EntryList.find (key (UInt32.ofNat (before.length + 1))) (insertAll insertions).obj =
          some (insertion.val (insertAll before)) := by
  obtain ⟨first, others, hbuilt⟩ := exists_built insertions hcount
  constructor
  · have hspaced := spaced_braced first others
    rw [← hbuilt.text] at hspaced
    rw [hbuilt.object, ← value_braced]
    exact parseJson_place first.member.item.reads trivial hspaced
  · rintro before insertion after rfl
    exact find_inserted before insertion after hcount

/-- A whole number, one with a dot, and two clones. -/
def ten : Number where
  negative := false
  whole := ascii "10"
  fraction := none
  exponent := none
  numeral := by decide
  noZeros := by rintro tail ⟨⟩
  fractionNumeral := by rintro digits ⟨⟩
  bounded := by decide +kernel

theorem parses_to_object_ten :
    parseJson (ascii "\x7b\"null\":null,\"val1\":10,\"val2\":10.,\"val3\":" ++
        ascii "\x7b\"null\":null,\"val1\":10,\"val2\":10.\x7d\x7d") =
      .ok (.object (insertAll [.number ten (Or.inl rfl), .pointed ten rfl rfl, .clone]).obj) :=
  (parses_to_object [.number ten (Or.inl rfl), .pointed ten rfl rfl, .clone] (by decide)).1

end BlackCircle.Json.Insertions
