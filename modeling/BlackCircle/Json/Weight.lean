import BlackCircle.Foundation.Worth
import BlackCircle.Json.RoundTrip

/-!
# The weight of a value

The bytes of a text that are no white space are counted.  A value weighs what
its shortest text counts, and no text in which the parser finds the value counts
less: an escape never stands for more bytes than it takes, a repeated key is
dropped, and a number is never shorter than its decimal digits.
-/

namespace BlackCircle.Json.Weight

open BlackCircle.Foundation
open BlackCircle.Foundation.ByteString
open BlackCircle.Foundation.Numeral
open BlackCircle.Foundation.Peg
open BlackCircle.Foundation.Worth
open BlackCircle.Json
open BlackCircle.Json.Grammar
open BlackCircle.Json.Print
open BlackCircle.Json.RoundTrip

/-- The number of bytes that are no white space. -/
def size (text : Bytes) : Nat := text.countP fun b => !isSpace b

@[simp]
theorem size_append (left right : Bytes) : size (left ++ right) = size left + size right :=
  List.countP_append

theorem size_cons (b : Byte) (text : Bytes) : size (b :: text) = size [b] + size text :=
  size_append [b] text

theorem size_le_length (text : Bytes) : size text ≤ text.length :=
  List.countP_le_length

theorem size_eq_zero {text : Bytes} : size text = 0 ↔ ∀ b ∈ text, isSpace b = true := by
  simp [size]

theorem size_flatten (texts : List Bytes) : size texts.flatten = (texts.map size).sum := by
  induction texts with
  | nil => rfl
  | cons text texts ih => rw [List.flatten_cons, size_append, ih, List.map_cons, List.sum_cons]

theorem size_eq_length {text : Bytes} (h : ∀ b ∈ text, isSpace b = false) :
    size text = text.length :=
  List.countP_eq_length.mpr fun b hb => by simp [h b hb]

/-! ## Values -/

/-- A list of items in brackets: one byte an item for the comma or bracket behind it, and the
bracket in front. -/
def bracketed (items : Nat) : Nat := 1 + max 1 items

mutual

/-- A real weighs nothing. -/
def weight : Value → Nat
  | .array elements => bracketed (elementsWeight elements)
  | .string text => size text + 2
  | .int n => (decimalInt n.toInt).length
  | .real _ => 0
  | .object members => bracketed (membersWeight members)
  | .bool b => if b then 4 else 5
  | .null => 4

def elementsWeight : List Value → Nat
  | [] => 0
  | element :: elements => (weight element + 1) + elementsWeight elements

def membersWeight : List (Bytes × Value) → Nat
  | [] => 0
  | member :: members => (memberWeight member + 1) + membersWeight members

def memberWeight : Bytes × Value → Nat
  | (key, value) => size key + 2 + 1 + weight value

end

theorem elementsWeight_eq (elements : List Value) :
    elementsWeight elements = (elements.map fun element => weight element + 1).sum := by
  induction elements with
  | nil => rfl
  | cons element elements ih => rw [elementsWeight, ih, List.map_cons, List.sum_cons]

theorem membersWeight_eq (members : List (Bytes × Value)) :
    membersWeight members = (members.map fun member => memberWeight member + 1).sum := by
  induction members with
  | nil => rfl
  | cons member members ih => rw [membersWeight, ih, List.map_cons, List.sum_cons]

theorem membersWeight_perm {left right : List (Bytes × Value)} (h : left.Perm right) :
    membersWeight left = membersWeight right := by
  rw [membersWeight_eq, membersWeight_eq]
  exact (h.map _).sum_eq

/-- A member that is inserted adds its weight, or nothing if its key is there already. -/
theorem membersWeight_place (key : Bytes) (value : Value) (entries : List (Bytes × Value)) :
    membersWeight (EntryList.place id key value entries) ≤
      (memberWeight (key, value) + 1) + membersWeight entries := by
  induction entries with
  | nil => exact le_refl _
  | cons entry entries ih =>
      obtain ⟨k, v⟩ := entry
      rw [EntryList.place]
      split_ifs
      · exact le_refl _
      · exact Nat.le_add_left _ _
      · simp only [membersWeight]
        omega

theorem membersWeight_insertMembers (members : List (Bytes × Value)) :
    membersWeight (insertMembers members) ≤ membersWeight members := by
  suffices hfold : ∀ entries,
      membersWeight (members.foldl
        (fun entries member => EntryList.place id member.1 member.2 entries) entries) ≤
      membersWeight entries + membersWeight members by
    have hempty := hfold []
    rwa [membersWeight, Nat.zero_add] at hempty
  induction members with
  | nil => intro entries; exact le_refl _
  | cons member members ih =>
      intro entries
      obtain ⟨key, value⟩ := member
      have hplace := membersWeight_place key value entries
      have hrest := ih (EntryList.place id key value entries)
      rw [List.foldl_cons, membersWeight]
      apply hrest.trans
      omega

/-! ## Strings -/

/-- The parsers of this grammar, by the bytes that are no white space. -/
abbrev Pays {α : Type} (credit : Nat) (worth : α → Nat) (p : Parser Byte α) : Prop :=
  Worth.Pays (fun b => !isSpace b) credit worth p

theorem pays_word (word : Bytes) : Pays 0 (fun _ => size word) (lit word) := pays_lit word

theorem pays_byte (accepts : Byte → Bool) : Pays 0 (fun b => size [b]) (satisfy accepts) :=
  pays_satisfy accepts

theorem pays_token {α : Type} {worth : α → Nat} {p : Parser Byte α} (hp : Pays 0 worth p) :
    Pays 0 worth (token p) :=
  (Worth.Pays.of_keeps (tame_skip 0).keeps).bind fun _ => hp

theorem length_trail {rounds : Nat} {code : UInt32} {seq : Bytes} {more : Nat}
    (h : code.toNat < 128 * 64 ^ more) : (trail rounds code seq).length ≤ seq.length + more := by
  induction rounds generalizing code seq more with
  | zero => exact Nat.le_add_right _ _
  | succ rounds ih =>
      rw [trail]
      split_ifs with hlarge
      · have hcode : 128 ≤ code.toNat := by simpa [UInt32.le_iff_toNat_le] using hlarge
        cases more with
        | zero => omega
        | succ more =>
            have hshift : (code >>> 6).toNat = code.toNat / 64 := by
              simp [UInt32.toNat_shiftRight, Nat.shiftRight_eq_div_pow]
            have hless : (code >>> 6).toNat < 128 * 64 ^ more := by
              rw [hshift]
              rw [pow_succ] at h
              omega
            have hrest := @ih _ (((0x80 : UInt32) ||| (code &&& 0x3F)).toUInt8 :: seq) _ hless
            rw [List.length_cons] at hrest
            omega
      · exact Nat.le_add_right _ _

/-- A character takes at most as many bytes as one escape. -/
theorem size_ucnToUtf8 {code : UInt32} {text : Bytes} (h : ucnToUtf8 code = some text) :
    size text ≤ 6 := by
  have hcode : code.toNat < 128 * 64 ^ 5 :=
    lt_of_lt_of_le (UInt32.toNat_lt code) (by norm_num)
  have htrail := @length_trail 6 code [] 5 hcode
  unfold ucnToUtf8 at h
  split_ifs at h
  all_goals
    cases h
    refine (size_le_length _).trans ?_
    rw [List.length_cons]
    exact Nat.succ_le_succ htrail

theorem pays_entity {credit : Nat} {name character : Bytes} (h : size character ≤ credit) :
    Pays credit size (entity name character) :=
  (Worth.Pays.of_keeps (keeps_lit name)).bind fun _ => pays_pure h

theorem pays_pass {α : Type} {credit : Nat} {worth : α → Nat} {result : Option α}
    (h : ∀ value, result = some value → worth value ≤ credit) :
    Pays credit worth (pass result) := by
  cases result with
  | none => exact pays_refuse
  | some value => exact pays_pure (h value rfl)

theorem pays_digit {base : Nat} (hbase : base ≤ 36) :
    Pays 0 (fun _ => 1) (satisfy (isDigit base)) :=
  pays_satisfy_of fun b hb => by simp [isSpace_of_digit hbase hb]

theorem pays_fourHex : Pays 0 (fun _ => 4) fourHex := by
  have hdigit : Pays 0 (fun _ => 1) (satisfy (isDigit 16)) := pays_digit (by omega)
  exact hdigit.bind fun _ => (hdigit.saved _).bind fun _ => (hdigit.saved _).bind fun _ =>
    (hdigit.saved _).bind fun _ => pays_pure (le_refl 4)

theorem pays_ucnCode : Pays 0 (fun _ => 6) ucnCode := by
  have hmark : size (ascii "\\u") = 2 := by decide
  refine (pays_word (ascii "\\u")).bind fun _ => ?_
  rw [hmark]
  exact (pays_fourHex.saved 2).must

/-- An escape takes at least the bytes of what it stands for. -/
theorem pays_escaped : Pays 0 size escaped := by
  refine Worth.Pays.alt ?_ (Worth.Pays.alt ?_ (Worth.Pays.alt ?_ ?_))
  · refine (pays_word _).bind fun _ => ?_
    exact (pays_entity (by decide)).alt ((pays_entity (by decide)).alt
      ((pays_entity (by decide)).alt (pays_pure (le_refl _))))
  · refine (pays_word _).bind fun _ => Worth.Pays.alt ?_ ?_
    · exact (Worth.Pays.of_keeps (advances_satisfy _).keeps).bind fun c =>
        pays_pure (size_le_length _)
    · exact (Worth.Pays.of_keeps (advances_satisfy _).keeps).bind fun c =>
        pays_pure (size_le_length _)
  · exact pays_ucnCode.bind fun _ => pays_pass fun _ => size_ucnToUtf8
  · exact pays_ucnCode.bind fun _ =>
      (Worth.Pays.of_keeps (tame_ucnCode 0).keeps.must).bind fun _ =>
        pays_pass fun _ => size_ucnToUtf8

theorem pays_characters : Pays 0 (fun parts => (parts.map size).sum) characters :=
  (pays_escaped.alt ((pays_byte _).bind fun _ => pays_pure (le_refl _))).many

theorem pays_string : Pays 0 (fun text => size text + 2) string_ := by
  refine pays_token ((pays_word _).bind fun _ => (pays_characters.saved _).must.bind fun parts =>
    ((pays_word _).saved _).must.bind fun _ => pays_pure ?_)
  have hquote : size [byte '"'] = 1 := by decide
  rw [size_flatten, hquote]
  omega

/-! ## Numbers and literals -/

theorem decimal_length_le {text : Bytes} (h : IsNumeral 10 text) :
    (decimal (value 10 text)).length ≤ text.length := by
  have hpos : 0 < text.length := List.length_pos_iff.mpr h.nonempty
  have hdigits : ∀ d ∈ (text.map digitValue).reverse, d < 10 := by
    intro d hd
    obtain ⟨b, hb, rfl⟩ := List.mem_map.mp (List.mem_reverse.mp hd)
    simpa [isDigit] using h.digits b hb
  have hvalue : value 10 text < 10 ^ text.length := by
    rw [value_eq_ofDigits]
    simpa using Nat.ofDigits_lt_base_pow_length (by omega) hdigits
  unfold decimal
  split
  · exact hpos
  · rw [List.length_map, List.length_reverse]
    exact (Nat.digits_length_le_iff (by omega) _).mpr hvalue

theorem pays_digitRun : Pays 0 (fun text => (decimal (value 10 text)).length) (digitRun 10) := by
  intro input text rest hok
  obtain ⟨hnumeral, rfl⟩ := digitRun_eq_ok hok
  have hlength := decimal_length_le hnumeral
  have hsize : size text = text.length :=
    size_eq_length fun b hb => isSpace_of_digit (by omega) (hnumeral.digits b hb)
  have happend : size (text ++ rest) = size text + size rest := size_append text rest
  change size rest + (decimal (value 10 text)).length ≤ size (text ++ rest) + 0
  omega

/-- A minus sign, which is a byte of the number. -/
def minus (sign : Option Byte) : Nat := if sign = some (byte '-') then 1 else 0

theorem pays_sign : Pays 0 minus (opt (satisfy isSign)) := by
  have hsign : ∀ b, isSign b = true → (!isSpace b) = true := by
    intro b hb
    simp only [isSign, Bool.or_eq_true, beq_iff_eq] at hb
    rcases hb with rfl | rfl <;> decide
  refine Worth.Pays.opt ((pays_satisfy_of hsign).mono fun b => ?_) (le_refl 0)
  unfold minus
  split_ifs <;> omega

theorem decimalInt_length_le (sign : Option Byte) (magnitude : Nat) :
    (decimalInt (signed sign magnitude)).length ≤ (decimal magnitude).length + minus sign := by
  unfold decimalInt signed minus
  split_ifs <;> simp only [List.length_cons, Int.natAbs_neg, Int.natAbs_natCast] <;> omega

theorem pays_int64 : Pays 0 (fun n => (decimalInt n.toInt).length) int64 := by
  have hnumeral : Pays 0 (fun n => (decimalInt (Int64.ofInt n).toInt).length)
      (signedNumeral (-2 ^ 63) (2 ^ 63 - 1)) := by
    refine pays_sign.bind fun sign => (pays_digitRun.saved _).bind fun text => ?_
    have hlength := decimalInt_length_le sign (value 10 text)
    simp only
    split_ifs with hrange
    · apply pays_pure
      rw [Int64.toInt_ofInt_of_le (by omega) (by omega)]
      exact hlength
    · exact pays_refuse
  exact hnumeral.bind fun n => pays_pure (le_refl _)

theorem pays_integer : Pays 0 (fun n => (decimalInt n.toInt).length) integer :=
  (pays_token pays_int64).bind fun _ =>
    (Worth.Pays.of_keeps (tame_mark 0 '.').notAhead.keeps).bind fun _ => pays_pure (le_refl _)

theorem pays_bool : Pays 0 (fun b => if b then 4 else 5) bool_ := by
  refine Worth.Pays.alt ?_ ?_
  · exact (pays_word _).bind fun _ => pays_pure (by decide)
  · exact (pays_word _).bind fun _ => pays_pure (by decide)

theorem pays_null : Pays 0 (fun _ => 4) null_ := pays_token (pays_word (ascii "null"))

/-! ## Arrays and objects -/

theorem pays_mark {c : Char} (h : isSpace (byte c) = false) : Pays 0 (fun _ => 1) (mark c) := by
  have hsize : size [byte c] = 1 := size_eq_length (by simpa using h)
  have hpays := pays_token (pays_word [byte c])
  rwa [hsize] at hpays

theorem pays_as {α : Type} {worth : α → Nat} {p : Parser Byte α} {wrap : α → Value}
    (hp : Pays 0 worth p) (h : ∀ x, weight (wrap x) ≤ worth x) : Pays 0 weight (as p wrap) :=
  hp.bind fun x => pays_pure (h x)

section Brackets

variable {recur : Parser Byte Value} (hrecur : Pays 0 weight recur) (hkeeps : Keeps recur)

include hrecur in
theorem pays_valuePair : Pays 0 memberWeight (valuePair recur) := by
  refine pays_string.bind fun key => ((pays_mark (by decide)).saved _).must.bind fun _ =>
    (hrecur.saved _).must.bind fun value => pays_pure ?_
  rw [memberWeight]
  omega

/-- The items of a bracket pay for the commas between them; the opening bracket has paid for one
more. -/
theorem pays_items {α : Type} {worth : α → Nat} {item : Parser Byte α} (hitem : Pays 0 worth item)
    (hitemKeeps : Keeps item) :
    Pays 1 (fun items => max 1 ((items.getD []).map fun x => worth x + 1).sum)
      (opt (sepBy1 item (mark ','))) :=
  Worth.Pays.opt ((hitem.sepBy1 (pays_mark (by decide))).max_credit (hitemKeeps.bind fun _ =>
    (keeps_many ((tame_mark 0 _).keeps.bind fun _ => hitemKeeps)).bind fun _ => keeps_pure _))
    (le_refl 1)

include hrecur hkeeps in
theorem pays_array :
    Pays 0 (fun elements => bracketed (elementsWeight elements)) (array_ recur) := by
  refine (pays_mark (by decide)).bind fun _ => (pays_items hrecur hkeeps).must.bind fun elements =>
    ((pays_mark (by decide)).saved _).must.bind fun _ => pays_pure ?_
  rw [elementsWeight_eq]
  exact le_refl _

include hrecur hkeeps in
theorem pays_object :
    Pays 0 (fun members => bracketed (membersWeight members)) (object_ recur) := by
  have hpair : Keeps (valuePair recur) := (tame_string 0).keeps.bind fun _ =>
    (tame_mark 0 _).keeps.must.bind fun _ => hkeeps.must.bind fun _ => keeps_pure _
  refine (pays_mark (by decide)).bind fun _ =>
    (pays_items (pays_valuePair hrecur) hpair).must.bind fun members =>
    ((pays_mark (by decide)).saved _).must.bind fun _ => pays_pure ?_
  have hinsert := membersWeight_insertMembers (members.getD [])
  rw [membersWeight_eq (members.getD [])] at hinsert
  exact Nat.add_le_add_left (max_le_max (le_refl 1) hinsert) 1

include hrecur hkeeps in
theorem pays_valueRule : Pays 0 weight (valueRule recur) := by
  refine Worth.Pays.alt (pays_as (pays_array hrecur hkeeps) ?_) <|
    Worth.Pays.alt (pays_as pays_string ?_) <| Worth.Pays.alt (pays_as pays_integer ?_) <|
    Worth.Pays.alt (pays_as (Worth.Pays.of_keeps (tame_token 0 (tame_double 0)).keeps) ?_) <|
    Worth.Pays.alt (pays_as (pays_object hrecur hkeeps) ?_) <|
    Worth.Pays.alt (pays_as (pays_token pays_bool) ?_) (pays_as pays_null ?_)
  all_goals
    intro x
    rw [weight]

end Brackets

/-- What the rule for values finds weighs at most what it takes. -/
theorem pays_value (depth : Nat) : Pays 0 weight (value_ depth) := by
  induction depth with
  | zero =>
      intro input value rest hok
      cases hok
  | succ depth ih => exact pays_valueRule ih (tame_value depth).keeps

/-- An object that is found in a text weighs at most as much as the text. -/
theorem weight_le_size {text : Bytes} {members : List (Bytes × Value)}
    (h : parseJson text = .ok (.object members)) : weight (.object members) ≤ size text := by
  have hpays : Pays 0 weight (jsonText (text.length + 1)) := by
    refine Worth.Pays.alt (pays_as (pays_object (pays_value _) (tame_value _).keeps) ?_)
      (pays_as (pays_array (pays_value _) (tame_value _).keeps) ?_)
    all_goals
      intro x
      rw [weight]
  cases hrun : (jsonText (text.length + 1)).run text with
  | ok value rest =>
      have hpaid := hpays text value rest hrun
      simp only [parseJson, hrun, Except.ok.injEq] at h
      rw [← h]
      exact (Nat.le_add_left _ _).trans hpaid
  | fail => simp [parseJson, hrun, default] at h
  | throw fault => simp [parseJson, hrun] at h

/-! ## Printed values -/

theorem size_spaced {tokens : List Bytes} {text : Bytes} (h : Spaced tokens text) :
    size text = size tokens.flatten := by
  have hblank : ∀ {gap : Bytes}, (∀ b ∈ gap, isBlank b = true) → size gap = 0 :=
    fun hgap => size_eq_zero.mpr fun b hb => isSpace_of_isBlank (hgap b hb)
  induction h with
  | nil hgap => exact hblank hgap
  | cons hgap hrest ih =>
      rw [size_append, size_append, List.flatten_cons, size_append, hblank hgap, ih, Nat.zero_add]

theorem size_decimalInt (n : Int) : size (decimalInt n) = (decimalInt n).length := by
  refine size_eq_length fun b hb => ?_
  have hdigits : ∀ m, ∀ c ∈ decimal m, isSpace c = false :=
    fun m c hc => isSpace_of_digit (by omega) ((isNumeral_decimal m).digits c hc)
  unfold decimalInt at hb
  split_ifs at hb
  · rcases List.mem_cons.mp hb with rfl | hb
    · decide
    · exact hdigits _ b hb
  · exact hdigits _ b hb

theorem size_quoted (s : Plain) : size (quoted s) = size s.bytes + 2 := by
  have hquote : size [byte '"'] = 1 := by decide
  rw [quoted, size_cons, size_append, hquote]
  omega

theorem size_commaSeparated (items : List (List Bytes)) :
    size (commaSeparated items).flatten + 1 =
      max 1 (items.map fun tokens => size tokens.flatten + 1).sum := by
  have hcomma : size (ascii ",") = 1 := by decide
  cases items with
  | nil => rfl
  | cons first others =>
      suffices hothers : size (others.flatMap fun tokens => ascii "," :: tokens).flatten =
          (others.map fun tokens => size tokens.flatten + 1).sum by
        rw [commaSeparated, List.flatten_append, size_append, hothers, List.map_cons,
          List.sum_cons]
        omega
      induction others with
      | nil => rfl
      | cons tokens others ih =>
          rw [List.flatMap_cons, List.flatten_append, size_append, ih, List.flatten_cons,
            size_append, hcomma, List.map_cons, List.sum_cons]
          omega

mutual

/-- A printed tree weighs exactly what its tokens count. -/
theorem size_tokens : ∀ t : Tree, t.Distinct → size t.tokens.flatten = weight t.value
  | .null, _ => by decide
  | .bool b, _ => by cases b <;> decide
  | .int n, _ => by
      rw [Tree.tokens, Tree.value, weight, List.flatten_singleton, size_decimalInt]
  | .string s, _ => by rw [Tree.tokens, Tree.value, weight, List.flatten_singleton, size_quoted]
  | .array elements, h => by
      rw [Tree.Distinct] at h
      have hopen : size (ascii "[") = 1 := by decide
      have hclose : size [ascii "]"].flatten = 1 := by decide
      have hinner := size_commaSeparated (Tree.elementTokens elements)
      rw [size_elementTokens elements h] at hinner
      rw [Tree.tokens, Tree.value, weight, bracketed, List.flatten_cons, List.flatten_append,
        size_append, size_append, hopen, hclose, hinner]
  | .object members, h => by
      rw [Tree.Distinct] at h
      have hopen : size (ascii "\x7b") = 1 := by decide
      have hclose : size [ascii "\x7d"].flatten = 1 := by decide
      have hinner := size_commaSeparated (Tree.memberTokens members)
      rw [size_memberTokens members h.2] at hinner
      rw [Tree.tokens, Tree.value, weight, bracketed, List.flatten_cons, List.flatten_append,
        size_append, size_append, hopen, hclose, hinner,
        membersWeight_perm (EntryList.perm_inKeyOrder _)]

theorem size_elementTokens : ∀ elements : List Tree, Tree.AllDistinct elements →
    ((Tree.elementTokens elements).map fun tokens => size tokens.flatten + 1).sum =
      elementsWeight (Tree.values elements)
  | [], _ => rfl
  | element :: elements, h => by
      rw [Tree.AllDistinct] at h
      rw [Tree.elementTokens, Tree.values, elementsWeight, List.map_cons, List.sum_cons,
        size_tokens element h.1, size_elementTokens elements h.2]

theorem size_memberTokens : ∀ members : List (Plain × Tree), Tree.MembersDistinct members →
    ((Tree.memberTokens members).map fun tokens => size tokens.flatten + 1).sum =
      membersWeight (Tree.memberValues members)
  | [], _ => rfl
  | member :: members, h => by
      rw [Tree.MembersDistinct] at h
      rw [Tree.memberTokens, Tree.memberValues, membersWeight, List.map_cons, List.sum_cons,
        size_pairTokens member h.1, size_memberTokens members h.2]

theorem size_pairTokens : ∀ member : Plain × Tree, Tree.MemberDistinct member →
    size (Tree.pairTokens member).flatten = memberWeight (Tree.memberValue member)
  | (key, tree), h => by
      rw [Tree.MemberDistinct] at h
      have hcolon : size (ascii ":") = 1 := by decide
      rw [Tree.pairTokens, Tree.memberValue, memberWeight, List.flatten_cons, List.flatten_cons,
        size_append, size_append, size_quoted, hcolon, size_tokens tree h]
      omega

end

end BlackCircle.Json.Weight
