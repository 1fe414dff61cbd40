import BlackCircle.Json.Lexemes

/-!
# Texts that the grammar derives

A derivation relates the text at some position to the value that stands there
and to what is left behind it.  The parser follows the derivations: what it
returns is derived, and what is derived at the front of a text is returned,
whatever stands behind.  It does not look at what is left, and it returns the
default value where nothing begins.
-/

namespace BlackCircle.Json.Derivations

open BlackCircle.Foundation.ByteString
open BlackCircle.Foundation.Numeral
open BlackCircle.Foundation.Peg
open BlackCircle.Json
open BlackCircle.Json.Grammar
open BlackCircle.Json.Lexemes
open BlackCircle.Json.RoundTrip

/-! ## Derivations -/

/-- What a derivation may be of. -/
inductive Node where
  | value (v : Value)
  | elements (vs : List Value)
  | members (ms : List (Bytes × Value))

/-- An integer literal that is not continued by a dot. -/
def WholeNumber (text : Bytes) (n : Int64) (rest : Bytes) : Prop :=
  Behind int64.Matches text n rest ∧ ¬ ∃ more, Marked '.' rest more

/-- The rules for values, and for the lists between brackets and braces. -/
inductive Derives : Node → Bytes → Bytes → Prop where
  | emptyArray {text inner rest : Bytes} (hopen : Marked '[' text inner)
      (hclose : Marked ']' inner rest) : Derives (.value (.array [])) text rest
  | array {text inner closing rest : Bytes} {vs : List Value} (hopen : Marked '[' text inner)
      (helements : Derives (.elements vs) inner closing) (hclose : Marked ']' closing rest) :
      Derives (.value (.array vs)) text rest
  | string {text s rest : Bytes} (h : Behind Literal text s rest) :
      Derives (.value (.string s)) text rest
  | int {text rest : Bytes} {n : Int64} (h : WholeNumber text n rest) :
      Derives (.value (.int n)) text rest
  | real {text rest : Bytes} {x : Real} (hwhole : ¬ ∃ n more, WholeNumber text n more)
      (h : Behind double_.Matches text x rest) : Derives (.value (.real x)) text rest
  | emptyObject {text inner rest : Bytes} (hopen : Marked '\x7b' text inner)
      (hclose : Marked '\x7d' inner rest) : Derives (.value (.object [])) text rest
  | object {text inner closing rest : Bytes} {ms : List (Bytes × Value)}
      (hopen : Marked '\x7b' text inner) (hmembers : Derives (.members ms) inner closing)
      (hclose : Marked '\x7d' closing rest) :
      Derives (.value (.object (insertMembers ms))) text rest
  | true {text rest : Bytes} (h : Behind (Word (ascii "true")) text () rest) :
      Derives (.value (.bool true)) text rest
  | false {text rest : Bytes} (h : Behind (Word (ascii "false")) text () rest) :
      Derives (.value (.bool false)) text rest
  | null {text rest : Bytes} (h : Behind (Word (ascii "null")) text () rest) :
      Derives (.value .null) text rest
  | lastElement {text rest : Bytes} {v : Value} (h : Derives (.value v) text rest) :
      Derives (.elements [v]) text rest
  | element {text behind after rest : Bytes} {v : Value} {vs : List Value}
      (h : Derives (.value v) text behind) (hcomma : Marked ',' behind after)
      (hmore : Derives (.elements vs) after rest) : Derives (.elements (v :: vs)) text rest
  | lastMember {text behind inner s rest : Bytes} {v : Value} (hname : Behind Literal text s behind)
      (hcolon : Marked ':' behind inner) (h : Derives (.value v) inner rest) :
      Derives (.members [(s, v)]) text rest
  | member {text behindName inner s behind after rest : Bytes} {v : Value}
      {ms : List (Bytes × Value)} (hname : Behind Literal text s behindName)
      (hcolon : Marked ':' behindName inner) (h : Derives (.value v) inner behind)
      (hcomma : Marked ',' behind after) (hmore : Derives (.members ms) after rest) :
      Derives (.members ((s, v) :: ms)) text rest

/-- Arrays and objects may stand at the root of a text. -/
def IsRoot : Value → Prop
  | .array _ => True
  | .string _ => False
  | .int _ => False
  | .real _ => False
  | .object _ => True
  | .bool _ => False
  | .null => False

/-- `json_text`. -/
structure DerivesText (text : Bytes) (v : Value) (rest : Bytes) : Prop where
  derives : Derives (.value v) text rest
  root : IsRoot v

/-! ## What is returned is derived -/

section Soundness

variable {recur : Parser Byte Value} {text rest : Bytes} {v : Value}

/-- What a parser for values matches is derived. -/
def Sound (recur : Parser Byte Value) : Prop :=
  ∀ text v rest, recur.run text = .ok v rest → Derives (.value v) text rest

theorem as_eq_ok {α : Type} {p : Parser Byte α} {wrap : α → Value}
    (h : (as p wrap).run text = .ok v rest) : ∃ x, v = wrap x ∧ p.run text = .ok x rest := by
  obtain ⟨x, middle, hp, hpure⟩ := bind_eq_ok h
  cases hpure
  exact ⟨x, rfl, hp⟩

theorem round_eq_ok {α : Type} {p : Parser Byte α} {x : α}
    (h : (do mark ','; p).run text = .ok x rest) :
    ∃ after, Marked ',' text after ∧ p.run after = .ok x rest := by
  obtain ⟨⟨⟩, after, hcomma, hp⟩ := bind_eq_ok h
  exact ⟨after, mark_iff.mp hcomma, hp⟩

theorem elements_eq_ok (hrecur : Sound recur) {vs : List Value}
    (h : (sepBy1 recur (mark ',')).run text = .ok vs rest) : Derives (.elements vs) text rest := by
  obtain ⟨first, middle, hfirst, hothers⟩ := bind_eq_ok h
  obtain ⟨others, last, hmany, hpure⟩ := bind_eq_ok hothers
  cases hpure
  obtain ⟨hrepeats, -⟩ := many_eq_ok hmany
  clear h hothers hmany
  induction hrepeats generalizing text first with
  | nil input => exact .lastElement (hrecur _ _ _ hfirst)
  | cons hstep _ ih =>
      obtain ⟨after, hcomma, hnext⟩ := round_eq_ok hstep
      exact .element (hrecur _ _ _ hfirst) hcomma (ih _ hnext)

theorem pair_eq_ok (hrecur : Sound recur) {m : Bytes × Value}
    (h : (valuePair recur).run text = .ok m rest) :
    ∃ behind inner, Behind Literal text m.1 behind ∧ Marked ':' behind inner ∧
      Derives (.value m.2) inner rest := by
  obtain ⟨s, behind, hname, h⟩ := bind_eq_ok h
  obtain ⟨⟨⟩, inner, hcolon, h⟩ := bind_eq_ok h
  obtain ⟨v, last, hvalue, hpure⟩ := bind_eq_ok h
  cases hpure
  exact ⟨behind, inner, string_eq_ok hname, mark_iff.mp (must_eq_ok hcolon),
    hrecur _ _ _ (must_eq_ok hvalue)⟩

theorem members_eq_ok (hrecur : Sound recur) {ms : List (Bytes × Value)}
    (h : (sepBy1 (valuePair recur) (mark ',')).run text = .ok ms rest) :
    Derives (.members ms) text rest := by
  obtain ⟨first, middle, hfirst, hothers⟩ := bind_eq_ok h
  obtain ⟨others, last, hmany, hpure⟩ := bind_eq_ok hothers
  cases hpure
  obtain ⟨hrepeats, -⟩ := many_eq_ok hmany
  clear h hothers hmany
  induction hrepeats generalizing text first with
  | nil input =>
      obtain ⟨behind, inner, hname, hcolon, hvalue⟩ := pair_eq_ok hrecur hfirst
      exact .lastMember hname hcolon hvalue
  | cons hstep _ ih =>
      obtain ⟨behind, inner, hname, hcolon, hvalue⟩ := pair_eq_ok hrecur hfirst
      obtain ⟨after, hcomma, hnext⟩ := round_eq_ok hstep
      exact .member hname hcolon hvalue hcomma (ih _ hnext)

theorem array_eq_ok (hrecur : Sound recur) {vs : List Value}
    (h : (array_ recur).run text = .ok vs rest) : Derives (.value (.array vs)) text rest := by
  obtain ⟨⟨⟩, inner, hopen, h⟩ := bind_eq_ok h
  obtain ⟨found, closing, hlist, h⟩ := bind_eq_ok h
  obtain ⟨⟨⟩, behind, hclose, hpure⟩ := bind_eq_ok h
  cases hpure
  have hopen := mark_iff.mp hopen
  have hclose := mark_iff.mp (must_eq_ok hclose)
  rcases opt_eq_ok (must_eq_ok hlist) with ⟨vs, rfl, helements⟩ | ⟨rfl, rfl, -⟩
  · exact .array hopen (elements_eq_ok hrecur helements) hclose
  · exact .emptyArray hopen hclose

theorem object_eq_ok (hrecur : Sound recur) {ms : List (Bytes × Value)}
    (h : (object_ recur).run text = .ok ms rest) : Derives (.value (.object ms)) text rest := by
  obtain ⟨⟨⟩, inner, hopen, h⟩ := bind_eq_ok h
  obtain ⟨found, closing, hlist, h⟩ := bind_eq_ok h
  obtain ⟨⟨⟩, behind, hclose, hpure⟩ := bind_eq_ok h
  cases hpure
  have hopen := mark_iff.mp hopen
  have hclose := mark_iff.mp (must_eq_ok hclose)
  rcases opt_eq_ok (must_eq_ok hlist) with ⟨ms, rfl, hmembers⟩ | ⟨rfl, rfl, -⟩
  · exact .object hopen (members_eq_ok hrecur hmembers) hclose
  · exact .emptyObject hopen hclose

theorem integer_iff {n : Int64} : integer.run text = .ok n rest ↔ WholeNumber text n rest := by
  constructor
  · intro h
    obtain ⟨n, middle, hint, h⟩ := bind_eq_ok h
    obtain ⟨⟨⟩, behind, hpoint, hpure⟩ := bind_eq_ok h
    cases hpure
    obtain ⟨rfl, hnone⟩ := notAhead_eq_ok hpoint
    refine ⟨token_iff.mp hint, ?_⟩
    rintro ⟨more, hmore⟩
    cases hnone.symm.trans (mark_iff.mpr hmore)
  · rintro ⟨hint, hpoint⟩
    rw [integer, bind_ok (token_iff.mpr hint), bind_ok (notAhead_ok (mark_refuses hpoint)),
      run_pure]

theorem bool_eq_ok {b : Bool} (h : (token bool_).run text = .ok b rest) :
    Derives (.value (.bool b)) text rest := by
  obtain ⟨input, hreads, hstep⟩ := (token_iff.mp h).reads
  rcases alt_eq_ok hstep with htrue | ⟨-, hfalse⟩
  · obtain ⟨⟨⟩, middle, hlit, hpure⟩ := bind_eq_ok htrue
    cases hpure
    exact .true (word_iff.mp ((hreads _).trans hlit))
  · obtain ⟨⟨⟩, middle, hlit, hpure⟩ := bind_eq_ok hfalse
    cases hpure
    exact .false (word_iff.mp ((hreads _).trans hlit))

/-- One case for each alternative of `value_`. -/
theorem sound_valueRule (hrecur : Sound recur) : Sound (valueRule recur) := by
  intro text v rest h
  rcases alt_eq_ok h with harray | ⟨-, h⟩
  · obtain ⟨vs, rfl, hrun⟩ := as_eq_ok harray
    exact array_eq_ok hrecur hrun
  rcases alt_eq_ok h with hstring | ⟨-, h⟩
  · obtain ⟨s, rfl, hrun⟩ := as_eq_ok hstring
    exact .string (string_eq_ok hrun)
  rcases alt_eq_ok h with hint | ⟨hint, h⟩
  · obtain ⟨n, rfl, hrun⟩ := as_eq_ok hint
    exact .int (integer_iff.mp hrun)
  rcases alt_eq_ok h with hreal | ⟨-, h⟩
  · obtain ⟨x, rfl, hrun⟩ := as_eq_ok hreal
    refine .real ?_ (token_iff.mp hrun)
    rintro ⟨n, more, hwhole⟩
    cases hint.symm.trans (as_ok (integer_iff.mpr hwhole))
  rcases alt_eq_ok h with hobject | ⟨-, h⟩
  · obtain ⟨ms, rfl, hrun⟩ := as_eq_ok hobject
    exact object_eq_ok hrecur hrun
  rcases alt_eq_ok h with hbool | ⟨-, hnull⟩
  · obtain ⟨b, rfl, hrun⟩ := as_eq_ok hbool
    exact bool_eq_ok hrun
  · obtain ⟨⟨⟩, rfl, hrun⟩ := as_eq_ok hnull
    exact .null (word_iff.mp hrun)

theorem sound_value (depth : Nat) : Sound (value_ depth) := by
  induction depth with
  | zero => rintro text v rest ⟨⟩
  | succ depth ih => exact sound_valueRule ih

theorem jsonText_eq_ok {depth : Nat} (h : (jsonText depth).run text = .ok v rest) :
    DerivesText text v rest := by
  rcases alt_eq_ok h with hobject | ⟨-, harray⟩
  · obtain ⟨ms, rfl, hrun⟩ := as_eq_ok hobject
    exact ⟨object_eq_ok (sound_value depth) hrun, trivial⟩
  · obtain ⟨vs, rfl, hrun⟩ := as_eq_ok harray
    exact ⟨array_eq_ok (sound_value depth) hrun, trivial⟩

end Soundness

/-! ## What is derived is returned -/

section Completeness

variable {text inner closing rest : Bytes} {depth : Nat}

/-- A bound on the nesting depth that is greater than the length of the text is enough for the
parser to follow a derivation. -/
def Followed : Node → Bytes → Bytes → Prop
  | .value v, text, rest => ∀ depth, text.length < depth → (value_ depth).run text = .ok v rest
  | .elements vs, text, rest => ∀ depth, text.length < depth → (mark ',').run rest = .fail →
      (sepBy1 (value_ depth) (mark ',')).run text = .ok vs rest
  | .members ms, text, rest => ∀ depth, text.length < depth → (mark ',').run rest = .fail →
      (sepBy1 (valuePair (value_ depth)) (mark ',')).run text = .ok ms rest

theorem array_empty (hopen : Marked '[' text inner) (hclose : Marked ']' inner rest)
    (hdepth : 0 < depth) : (array_ (value_ depth)).run text = .ok [] rest := by
  obtain ⟨depth, rfl⟩ : ∃ d, depth = d + 1 := ⟨depth - 1, by omega⟩
  have hnone : (value_ (depth + 1)).run inner = .fail := value_fail_close hclose.reads
  have hlist : (sepBy1 (value_ (depth + 1)) (mark ',')).run inner = .fail := bind_fail hnone
  rw [array_, bind_ok (mark_iff.mpr hopen), must_bind_ok (opt_fail hlist),
    must_bind_ok (mark_iff.mpr hclose), run_pure]
  rfl

theorem array_followed {vs : List Value} (hopen : Marked '[' text inner)
    (helements : Followed (.elements vs) inner closing) (hclose : Marked ']' closing rest)
    (hdepth : inner.length < depth) : (array_ (value_ depth)).run text = .ok vs rest := by
  have hcomma : (mark ',').run closing = .fail := mark_fail hclose.reads (by decide)
  have hlist := helements depth hdepth hcomma
  rw [array_, bind_ok (mark_iff.mpr hopen), must_bind_ok (opt_ok hlist),
    must_bind_ok (mark_iff.mpr hclose), run_pure]
  rfl

theorem object_empty (hopen : Marked '\x7b' text inner) (hclose : Marked '\x7d' inner rest) :
    (object_ (value_ depth)).run text = .ok [] rest := by
  have hnone : (valuePair (value_ depth)).run inner = .fail :=
    bind_fail (string_fail hclose.reads (by decide))
  have hlist : (sepBy1 (valuePair (value_ depth)) (mark ',')).run inner = .fail := bind_fail hnone
  rw [object_, bind_ok (mark_iff.mpr hopen), must_bind_ok (opt_fail hlist),
    must_bind_ok (mark_iff.mpr hclose), run_pure]
  rfl

theorem object_followed {ms : List (Bytes × Value)} (hopen : Marked '\x7b' text inner)
    (hmembers : Followed (.members ms) inner closing) (hclose : Marked '\x7d' closing rest)
    (hdepth : inner.length < depth) :
    (object_ (value_ depth)).run text = .ok (insertMembers ms) rest := by
  have hcomma : (mark ',').run closing = .fail := mark_fail hclose.reads (by decide)
  have hlist := hmembers depth hdepth hcomma
  rw [object_, bind_ok (mark_iff.mpr hopen), must_bind_ok (opt_ok hlist),
    must_bind_ok (mark_iff.mpr hclose), run_pure]
  rfl

section Rule

variable {recur : Parser Byte Value}

/-- What is read as a number begins neither an array nor a string. -/
theorem number_first {input : Bytes} (hreads : Reads text input)
    (hnumber : integer.run text ≠ .fail ∨ (token double_).run text ≠ .fail) :
    ∃ b tail, input = b :: tail ∧ byte '[' ≠ b ∧ byte '"' ≠ b := by
  have hnot : ∀ b tail, isSign b = false → isDigit 10 b = false → byte '.' ≠ b →
      (special false).run (b :: tail) = .fail → input ≠ b :: tail := by
    rintro b tail hsign hdigit hpoint hspecial rfl
    rcases hnumber with hinteger | hdouble
    · exact hinteger (integer_fail hreads hsign hdigit)
    · exact hdouble (double_fail hreads hsign hdigit hpoint hspecial)
  cases input with
  | nil =>
      exfalso
      rcases hnumber with hinteger | hdouble
      · exact hinteger (bind_fail (hreads int64))
      · exact hdouble (hreads double_)
  | cons b tail =>
      refine ⟨b, tail, rfl, ?_, ?_⟩
      · rintro rfl
        exact hnot _ tail (by decide) (by decide) (by decide)
          (special_fail (by decide) (by decide) (by decide) (by decide)) rfl
      · rintro rfl
        exact hnot _ tail (by decide) (by decide) (by decide)
          (special_fail (by decide) (by decide) (by decide) (by decide)) rfl

/-- A number is neither an array nor a string. -/
theorem valueRule_number {α : Type} {step : Bytes → α → Bytes → Prop} {x : α}
    (hbehind : Behind step text x rest)
    (hnumber : integer.run text ≠ .fail ∨ (token double_).run text ≠ .fail) :
    (valueRule recur).run text = (alt (as integer .int) (alt (as (token double_) .real)
      (alt (as (object_ recur) .object)
        (alt (as (token bool_) .bool) (as null_ fun _ => .null))))).run text := by
  obtain ⟨input, hreads, -⟩ := hbehind.reads
  obtain ⟨b, tail, rfl, hbracket, hquote⟩ := number_first hreads hnumber
  rw [valueRule, alt_right (array_fail hreads hbracket),
    alt_right (as_fail (string_fail hreads hquote))]

theorem value_whole {n : Int64} (h : WholeNumber text n rest) :
    (valueRule recur).run text = .ok (.int n) rest := by
  have hinteger := integer_iff.mpr h
  have hread : integer.run text ≠ .fail := by
    rw [hinteger]
    rintro ⟨⟩
  rw [valueRule_number h.1 (Or.inl hread), alt_left (as_ok hinteger)]

theorem quiet_integer : Quiet integer :=
  (quiet_token ((quiet_signedNumeral _ _).bind fun _ => quiet_pure _)).bind fun _ =>
    (quiet_mark '.').notAhead.bind fun _ => quiet_pure _

theorem value_real {x : Real} (hwhole : ¬ ∃ n more, WholeNumber text n more)
    (h : Behind double_.Matches text x rest) :
    (valueRule recur).run text = .ok (.real x) rest := by
  have hdouble := token_iff.mpr h
  have hread : (token double_).run text ≠ .fail := by
    rw [hdouble]
    rintro ⟨⟩
  have hinteger : integer.run text = .fail := by
    cases hrun : integer.run text with
    | ok n more => exact absurd ⟨n, more, integer_iff.mp hrun⟩ hwhole
    | fail => rfl
    | throw fault => exact absurd hrun (quiet_integer text fault)
  rw [valueRule_number h (Or.inr hread), alt_right (as_fail hinteger), alt_left (as_ok hdouble)]

theorem value_literal {s : Bytes} (h : Behind Literal text s rest) :
    (valueRule recur).run text = .ok (.string s) rest := by
  obtain ⟨input, hreads, inner, parts, rfl, -, -⟩ := h.reads
  rw [valueRule, alt_right (array_fail hreads (by decide)), alt_left (as_ok (string_run h))]

end Rule

theorem pair_followed {s behind : Bytes} {v : Value} (hname : Behind Literal text s behind)
    (hcolon : Marked ':' behind inner) (h : Followed (.value v) inner rest)
    (hdepth : text.length < depth) :
    (valuePair (value_ depth)).run text = .ok (s, v) rest := by
  have hstring := string_run hname
  have hshorter := ((tame_string 0).keeps text s behind hstring).length_le
  have hvalue := h depth (by have hlength := hcolon.length; omega)
  rw [valuePair, bind_ok hstring, must_bind_ok (mark_iff.mpr hcolon), must_bind_ok hvalue, run_pure]

theorem followed_value {v : Value}
    (h : ∀ depth, text.length ≤ depth → (valueRule (value_ depth)).run text = .ok v rest) :
    Followed (.value v) text rest := by
  intro depth hdepth
  obtain ⟨depth, rfl⟩ : ∃ d, depth = d + 1 := ⟨depth - 1, by omega⟩
  exact h depth (Nat.le_of_lt_succ hdepth)

/-- One case for each rule of the grammar. -/
theorem followed {node : Node} (h : Derives node text rest) : Followed node text rest := by
  induction h with
  | emptyArray hopen hclose =>
      refine followed_value fun depth hdepth => value_array (array_empty hopen hclose ?_)
      exact Nat.lt_of_lt_of_le (Nat.zero_lt_of_lt hopen.length) hdepth
  | array hopen _ hclose ih =>
      refine followed_value fun depth hdepth => value_array (array_followed hopen ih hclose ?_)
      exact Nat.lt_of_lt_of_le hopen.length hdepth
  | string h => exact followed_value fun depth _ => value_literal h
  | int h => exact followed_value fun depth _ => value_whole h
  | real hwhole h => exact followed_value fun depth _ => value_real hwhole h
  | emptyObject hopen hclose =>
      exact followed_value fun depth _ => value_object hopen.reads (object_empty hopen hclose)
  | object hopen _ hclose ih =>
      refine followed_value fun depth hdepth =>
        value_object hopen.reads (object_followed hopen ih hclose ?_)
      exact Nat.lt_of_lt_of_le hopen.length hdepth
  | true h =>
      obtain ⟨input, hreads, rfl⟩ := h.reads
      exact followed_value fun depth _ => value_true hreads
  | false h =>
      obtain ⟨input, hreads, rfl⟩ := h.reads
      exact followed_value fun depth _ => value_false hreads
  | null h =>
      obtain ⟨input, hreads, rfl⟩ := h.reads
      exact followed_value fun depth _ => value_null hreads
  | lastElement _ ih =>
      intro depth hdepth hcomma
      rw [sepBy1, bind_ok (ih depth hdepth), bind_ok (many_fail (bind_fail hcomma)), run_pure]
  | element _ hcomma _ ihValue ihMore =>
      intro depth hdepth hlast
      have hvalue := ihValue depth hdepth
      have hshorter := ((tame_value depth).keeps _ _ _ hvalue).length_le
      have hlength := hcomma.length
      exact sepBy1_cons ((advances_mark ',').bind fun _ => (tame_value depth).keeps) hvalue
        (mark_iff.mpr hcomma) (ihMore depth (by omega) hlast)
  | lastMember hname hcolon _ ih =>
      intro depth hdepth hcomma
      rw [sepBy1, bind_ok (pair_followed hname hcolon ih hdepth),
        bind_ok (many_fail (bind_fail hcomma)), run_pure]
  | member hname hcolon _ hcomma _ ihValue ihMore =>
      intro depth hdepth hlast
      have hkeeps := (tame_valuePair (tame_value depth)).keeps
      have hpair := pair_followed hname hcolon ihValue hdepth
      have hshorter := (hkeeps _ _ _ hpair).length_le
      have hlength := hcomma.length
      exact sepBy1_cons ((advances_mark ',').bind fun _ => hkeeps) hpair
        (mark_iff.mpr hcomma) (ihMore depth (by omega) hlast)

/-- A derived text is returned, whatever stands behind it. -/
theorem jsonText_followed {v : Value} (h : DerivesText text v rest)
    (hdepth : text.length ≤ depth) : (jsonText depth).run text = .ok v rest := by
  obtain ⟨hderives, hroot⟩ := h
  cases hderives with
  | emptyArray hopen hclose =>
      have hlength := hopen.length
      rw [jsonText, alt_right (object_fail hopen.reads (by decide)),
        as_ok (array_empty hopen hclose (by omega))]
  | array hopen helements hclose =>
      have hlength := hopen.length
      rw [jsonText, alt_right (object_fail hopen.reads (by decide)),
        as_ok (array_followed hopen (followed helements) hclose (by omega))]
  | emptyObject hopen hclose => rw [jsonText, alt_left (as_ok (object_empty hopen hclose))]
  | object hopen hmembers hclose =>
      have hlength := hopen.length
      rw [jsonText,
        alt_left (as_ok (object_followed hopen (followed hmembers) hclose (by omega)))]
  | string h => cases hroot
  | int h => cases hroot
  | real hwhole h => cases hroot
  | true h => cases hroot
  | false h => cases hroot
  | null h => cases hroot

end Completeness

/-! ## The answers of `parse_json` -/

section Answers

variable {s rest : Bytes} {v : Value}

/-- Nothing but white space. -/
def Blank (text : Bytes) : Prop := ∀ b ∈ text, isSpace b = true

/-- Where the parser returns, the whole text is derived, up to white space, and what is returned
is its value. -/
def AnswersTexts (s : Bytes) : Prop :=
  ∀ v, parseJson s = .ok v → ∃ rest, DerivesText s v rest ∧ Blank rest

/-- The text begins with a brace or a bracket. -/
def Opens (s : Bytes) : Prop := (∃ inner, Marked '\x7b' s inner) ∨ ∃ inner, Marked '[' s inner

/-- Nothing stands behind what is derived at the front. -/
def Alone (s : Bytes) : Prop := ∀ v rest, DerivesText s v rest → Blank rest

theorem DerivesText.opens (h : DerivesText s v rest) : Opens s := by
  obtain ⟨hderives, hroot⟩ := h
  cases hderives with
  | emptyArray hopen _ => exact Or.inr ⟨_, hopen⟩
  | array hopen _ _ => exact Or.inr ⟨_, hopen⟩
  | emptyObject hopen _ => exact Or.inl ⟨_, hopen⟩
  | object hopen _ _ => exact Or.inl ⟨_, hopen⟩
  | string h => cases hroot
  | int h => cases hroot
  | real hwhole h => cases hroot
  | true h => cases hroot
  | false h => cases hroot
  | null h => cases hroot

theorem parseJson_derived (h : DerivesText s v rest) : parseJson s = .ok v := by
  rw [parseJson, jsonText_followed h (Nat.le_succ _)]

/-- At the front of a text at most one value is derived. -/
theorem DerivesText.unique {other : Value} {more : Bytes} (h : DerivesText s v rest)
    (hother : DerivesText s other more) : v = other ∧ rest = more := by
  have hrun := jsonText_followed h (Nat.le_refl _)
  rw [jsonText_followed hother (Nat.le_refl _)] at hrun
  cases hrun
  exact ⟨rfl, rfl⟩

theorem as_eq_fail {α : Type} {p : Parser Byte α} {wrap : α → Value} {text : Bytes}
    (h : (as p wrap).run text = .fail) : p.run text = .fail := by
  cases hrun : p.run text with
  | ok x rest => cases h.symm.trans (as_ok hrun)
  | fail => rfl
  | throw fault => cases h.symm.trans (bind_throw hrun)

theorem array_settled {recur : Parser Byte Value} {inner : Bytes} (hopen : Marked '[' s inner) :
    (array_ recur).run s ≠ .fail := by
  rw [array_, bind_ok (mark_iff.mpr hopen)]
  exact (settles_must _).bind (fun _ => (settles_must _).bind fun _ => settles_pure _) inner

theorem object_settled {recur : Parser Byte Value} {inner : Bytes}
    (hopen : Marked '\x7b' s inner) : (object_ recur).run s ≠ .fail := by
  rw [object_, bind_ok (mark_iff.mpr hopen)]
  exact (settles_must _).bind (fun _ => (settles_must _).bind fun _ => settles_pure _) inner

/-- Behind a brace or a bracket nothing is refused softly. -/
theorem jsonText_settled {depth : Nat} (h : Opens s) : (jsonText depth).run s ≠ .fail := by
  intro hfail
  obtain ⟨hobject, harray⟩ := alt_eq_fail hfail
  rcases h with ⟨inner, hopen⟩ | ⟨inner, hopen⟩
  · exact object_settled hopen (as_eq_fail hobject)
  · exact array_settled hopen (as_eq_fail harray)

/-- Without them everything is, and the default value is returned. -/
theorem parseJson_default (h : ¬ Opens s) : parseJson s = .ok default := by
  rw [Opens, not_or] at h
  have hobject : (as (object_ (value_ (s.length + 1))) .object).run s = .fail :=
    as_fail (bind_fail (mark_refuses h.1))
  have harray : (as (array_ (value_ (s.length + 1))) .array).run s = .fail :=
    as_fail (bind_fail (mark_refuses h.2))
  rw [parseJson, jsonText, alt_right hobject, harray]

/-- The parser answers for texts only, just when the input begins like a text and nothing stands
behind the text that it begins with. -/
theorem answersTexts_iff (s : Bytes) : AnswersTexts s ↔ Opens s ∧ Alone s := by
  constructor
  · intro hanswers
    have hopens : Opens s := by
      by_contra hnot
      obtain ⟨rest, hderives, -⟩ := hanswers _ (parseJson_default hnot)
      exact hnot hderives.opens
    refine ⟨hopens, fun v rest hderives => ?_⟩
    obtain ⟨more, hwhole, hblank⟩ := hanswers v (parseJson_derived hderives)
    rw [(hderives.unique hwhole).2]
    exact hblank
  · rintro ⟨hopens, halone⟩ v hparsed
    rw [parseJson] at hparsed
    cases hrun : (jsonText (s.length + 1)).run s with
    | ok found rest =>
        rw [hrun] at hparsed
        cases hparsed
        have hderives := jsonText_eq_ok hrun
        exact ⟨rest, hderives, halone v rest hderives⟩
    | fail => exact absurd hrun (jsonText_settled hopens)
    | throw fault =>
        rw [hrun] at hparsed
        cases hparsed

theorem marked_cons {c : Char} (h : isSpace (byte c) = false) (rest : Bytes) :
    Marked c (byte c :: rest) rest := by
  refine ⟨[], byte c :: rest, by rintro b ⟨⟩, ?_, rfl, rfl⟩
  rintro b tail hcons
  cases hcons
  exact h

/-- For an empty input an empty array is returned, and behind an array anything may stand. -/
theorem not_answersTexts : ¬ AnswersTexts [] ∧ ¬ AnswersTexts (ascii "[]x") := by
  constructor
  · intro hanswers
    obtain ⟨rest, hderives, -⟩ := hanswers (.array []) rfl
    rcases hderives.opens with ⟨inner, hopen⟩ | ⟨inner, hopen⟩
    · exact absurd hopen.length (Nat.not_lt_zero _)
    · exact absurd hopen.length (Nat.not_lt_zero _)
  · intro hanswers
    have hderives : DerivesText (ascii "[]x") (.array []) (ascii "x") :=
      ⟨.emptyArray (marked_cons (by decide) _) (marked_cons (by decide) _), trivial⟩
    obtain ⟨rest, hwhole, hblank⟩ := hanswers _ (parseJson_derived hderives)
    rw [← (hderives.unique hwhole).2] at hblank
    exact absurd (hblank (byte 'x') (List.mem_singleton.mpr rfl)) (by decide)

end Answers

end BlackCircle.Json.Derivations
