import BlackCircle.Console.LineEditor
import Mathlib.Computability.StateTransition

/-!
# The loop over the backspaces

The `while` loop of `in_handler` by itself, for conversions that are exact
inverses of each other.  Its meaning is the line that the keys leave when they are
processed from left to right.  The handler of `LineEditor` bounds the loop; where it
returns, it returns what the loop does (`loop_of_eraseAll`).
-/

namespace BlackCircle.Console.Backspaces

open BlackCircle.Foundation.ByteString
open BlackCircle.Foundation.InputStream
open BlackCircle.Foundation.Unicode
open BlackCircle.Console.Conversion (Platform)
open BlackCircle.Console.LineEditor (BS BS_lt)
open StateTransition

/-! ## The loop -/

section Loop

variable {ω : Type} (externToWide : Bytes → List ω) (wideToExtern : List ω → Bytes)

/-- The body of the loop; `pop_back` of an empty vector is undefined. -/
def erase (lastline : Bytes) : Option Bytes :=
  let ws := externToWide (lastline.takeWhile (· ≠ BS))
  if ws.length = 0 then none
  else some (wideToExtern ws.dropLast ++ (lastline.dropWhile (· ≠ BS)).tail)

/-- The body once more, while there is a backspace. -/
def again : Option Bytes → Option (Option Bytes)
  | none => none
  | some lastline =>
      if lastline.contains BS then some (erase externToWide wideToExtern lastline) else none

/-- What the loop leaves in `lastline`. -/
def loop (lastline : Bytes) : Part (Option Bytes) :=
  eval (again externToWide wideToExtern) (some lastline)

end Loop

/-- Conversions that are exact inverses on texts, with one element for each character. -/
structure Conversions where
  externToWide : Bytes → List UInt32
  wideToExtern : List UInt32 → Bytes
  wide_encode : ∀ text, externToWide (encode text) = text.map Char.val
  extern_wide : ∀ text : List Char, wideToExtern (text.map Char.val) = encode text

/-- Backspace as a character. -/
def backspace : Char := Char.ofNat 8

/-- A key typed behind a line. -/
def press (line : List Char) (key : Char) : List Char :=
  if key = backspace then line.dropLast else line ++ [key]

/-- The line that the keys leave. -/
def typed (keys : List Char) : List Char := keys.foldl press []

/-- No backspace is typed while the line is empty. -/
def HasText (keys : List Char) : Prop :=
  ∀ front later, keys = front ++ backspace :: later → typed front ≠ []

/-! ## Keys -/

section Keys

variable {keys front later : List Char} {c : Char}

theorem typed_append (front later : List Char) :
    typed (front ++ later) = later.foldl press (typed front) := List.foldl_append

/-- Without backspaces the line is what was typed. -/
theorem typed_of_notMem (h : backspace ∉ keys) : typed keys = keys := by
  induction keys using List.reverseRecOn with
  | nil => rfl
  | append_singleton keys key ih =>
      rw [List.mem_append, List.mem_singleton, not_or] at h
      rw [typed_append, ih h.1, List.foldl_cons, press, if_neg (Ne.symm h.2)]
      rfl

/-- The keys up to the first backspace leave the same line without it and the character in front
of it. -/
theorem typed_erase (h : backspace ∉ front ++ [c]) :
    typed (front ++ [c] ++ [backspace]) = typed front := by
  have hfront : backspace ∉ front := fun hmem => h (List.mem_append_left _ hmem)
  rw [typed_append, typed_of_notMem h, typed_of_notMem hfront, List.foldl_cons, press, if_pos rfl,
    List.dropLast_concat]
  rfl

theorem typed_erase_append (h : backspace ∉ front ++ [c]) (later : List Char) :
    typed (front ++ [c] ++ backspace :: later) = typed (front ++ later) := by
  have hsplit : front ++ [c] ++ backspace :: later = (front ++ [c] ++ [backspace]) ++ later := by
    simp
  rw [hsplit, typed_append, typed_erase h, ← typed_append]

/-- Behind keys without backspaces. -/
theorem hasText_append_iff (h : backspace ∉ front) :
    HasText (front ++ later) ↔
      ∀ between behind, later = between ++ backspace :: behind → typed (front ++ between) ≠ [] := by
  constructor
  · rintro htext between behind rfl
    exact htext (front ++ between) behind (List.append_assoc front between _).symm
  · intro htext before behind hkeys
    rcases List.append_eq_append_iff.mp hkeys with
      ⟨between, hbefore, hlater⟩ | ⟨more, hfront, hlater⟩
    · rw [hbefore]
      exact htext between behind hlater
    · cases more with
      | nil =>
          rw [List.append_nil] at hfront
          rw [← hfront, ← List.append_nil front]
          exact htext [] behind hlater.symm
      | cons key more =>
          rw [List.cons_append, List.cons.injEq] at hlater
          rw [hfront, hlater.1] at h
          exact absurd (List.mem_append_right before List.mem_cons_self) h

/-- There is text in front of each backspace just when there is without the first of them. -/
theorem hasText_erase (h : backspace ∉ front ++ [c]) (later : List Char) :
    HasText (front ++ [c] ++ backspace :: later) ↔ HasText (front ++ later) := by
  have hfront : backspace ∉ front := fun hmem => h (List.mem_append_left _ hmem)
  rw [hasText_append_iff h, hasText_append_iff hfront]
  constructor
  · rintro htext between behind rfl
    rw [← typed_erase_append h]
    exact htext (backspace :: between) behind rfl
  · intro htext between behind hlater
    cases between with
    | nil =>
        rw [List.append_nil, typed_of_notMem h]
        exact List.concat_ne_nil _ _
    | cons key between =>
        rw [List.cons_append, List.cons.injEq] at hlater
        obtain ⟨rfl, hlater⟩ := hlater
        rw [typed_erase_append h]
        exact htext between behind hlater

theorem BS_notMem_encode {text : List Char} (h : backspace ∉ text) : BS ∉ encode text := by
  intro hmem
  obtain ⟨c, hc, hbyte⟩ := List.mem_flatMap.mp hmem
  have hwhole : encode [c] = encode [backspace] := by
    rw [encode_singleton, utf8EncodeChar_of_mem BS_lt hbyte]
    rfl
  have hchar := congrArg decode hwhole
  rw [decode_encode, decode_encode, List.cons.injEq] at hchar
  exact h (hchar.1 ▸ hc)

theorem encode_backspace (front later : List Char) :
    encode (front ++ backspace :: later) = encode front ++ BS :: encode later := by
  rw [encode_append, encode_cons]
  rfl

end Keys

/-! ## What the loop leaves -/

section Runs

variable (conversions : Conversions) {keys front later : List Char} {c : Char}

/-- The loop rests where there is no backspace. -/
theorem loop_of_notMem (h : backspace ∉ keys) :
    loop conversions.externToWide conversions.wideToExtern (encode keys) =
      Part.some (some (encode keys)) := by
  refine Part.eq_some_iff.mpr (mem_eval.mpr ⟨Relation.ReflTransGen.refl, ?_⟩)
  exact if_neg (mt List.contains_iff_mem.mp (BS_notMem_encode h))

/-- One time through the body. -/
theorem again_encode (h : backspace ∉ front) (later : List Char) :
    again conversions.externToWide conversions.wideToExtern
        (some (encode (front ++ backspace :: later))) =
      some (if front = [] then none else some (encode (front.dropLast ++ later))) := by
  have hnone : ∀ b ∈ encode front, decide (b ≠ BS) = true := ne_of_notMem (BS_notMem_encode h)
  have hmem : (encode front ++ BS :: encode later).contains BS = true := by
    rw [List.contains_iff_mem]
    exact List.mem_append_right _ List.mem_cons_self
  rw [encode_backspace, again, if_pos hmem, erase,
    takeWhile_append_stop hnone (starts_self BS _), dropWhile_append_stop hnone (starts_self BS _),
    conversions.wide_encode, List.length_map, ← List.map_dropLast, conversions.extern_wide,
    encode_append]
  simp only [List.length_eq_zero_iff, List.tail_cons]

/-- A backspace in front of which there is nothing. -/
theorem loop_undefined (later : List Char) :
    loop conversions.externToWide conversions.wideToExtern (encode ([backspace] ++ later)) =
      Part.some none := by
  have hagain := again_encode conversions (@List.not_mem_nil _ backspace) later
  have heval := reaches_eval (Relation.ReflTransGen.single hagain)
  rw [loop]
  exact heval.trans (Part.eq_some_iff.mpr (mem_eval.mpr ⟨Relation.ReflTransGen.refl, rfl⟩))

/-- The loop ends and leaves the line that the keys leave, just when no backspace is typed while
the line is empty. -/
theorem loop_typed_iff (keys : List Char) :
    (∃ lastline, loop conversions.externToWide conversions.wideToExtern (encode keys) =
        Part.some (some lastline) ∧ BS ∉ lastline ∧ lastline = encode (typed keys)) ↔
      HasText keys := by
  generalize hn : keys.count backspace = n
  induction n generalizing keys with
  | zero =>
      have hnone : backspace ∉ keys := List.count_eq_zero.mp hn
      have hloop := loop_of_notMem conversions hnone
      refine iff_of_true ⟨encode keys, hloop, BS_notMem_encode hnone, ?_⟩ ?_
      · rw [typed_of_notMem hnone]
      · rintro front later rfl
        exact absurd (List.mem_append_right front List.mem_cons_self) hnone
  | succ n ih =>
      have hmem : backspace ∈ keys := List.count_pos_iff.mp (by omega)
      obtain ⟨front, later, rfl, hfront⟩ := List.eq_append_cons_of_mem hmem
      rcases List.eq_nil_or_concat' front with rfl | ⟨front, c, rfl⟩
      · have hundefined := loop_undefined conversions later
        refine iff_of_false ?_ fun htext => htext [] later rfl rfl
        rintro ⟨lastline, hloop, -⟩
        rw [List.nil_append, ← List.singleton_append, hundefined] at hloop
        cases Part.some_injective hloop
      · have hcount : (front ++ later).count backspace = n := by
          rw [List.count_append, List.count_eq_zero.mpr hfront, List.count_cons_self] at hn
          rw [List.mem_append, not_or] at hfront
          rw [List.count_append, List.count_eq_zero.mpr hfront.1]
          omega
        have hagain := again_encode conversions hfront later
        have heval := reaches_eval (Relation.ReflTransGen.single hagain)
        rw [loop, heval, if_neg (List.concat_ne_nil c front), List.dropLast_concat,
          typed_erase_append hfront, hasText_erase hfront]
        exact ih (front ++ later) hcount

end Runs

/-- Conversions of a text as a whole. -/
def Conversions.whole : Conversions where
  externToWide := fun seq => (decode seq).map Char.val
  wideToExtern := fun ws => encode (ws.map fun code => Char.ofNat code.toNat)
  wide_encode := fun text => congrArg (List.map Char.val) (decode_encode text)
  extern_wide := fun text => by
    have hchar : ∀ c : Char, Char.ofNat c.val.toNat = c := Char.ofNat_toNat
    rw [List.map_map]
    simp only [Function.comp_def, hchar, List.map_id']

/-- A backspace at the start of a line. -/
theorem not_loop_typed : ¬∀ (conversions : Conversions) (keys : List Char),
    ∃ lastline, loop conversions.externToWide conversions.wideToExtern (encode keys) =
      Part.some (some lastline) ∧ BS ∉ lastline ∧ lastline = encode (typed keys) := by
  intro hall
  obtain ⟨lastline, hloop, -⟩ := hall Conversions.whole [backspace]
  have hundefined := loop_undefined Conversions.whole []
  rw [List.append_nil] at hundefined
  rw [hundefined] at hloop
  cases Part.some_injective hloop

/-! ## The loop with a bound -/

/-- Where the rounds suffice and nothing undefined is met, this is the loop of the handler. -/
theorem loop_of_eraseAll {platform : Platform} {rounds : Nat} {lastline line : Bytes}
    (h : LineEditor.eraseAll platform rounds lastline = some line) :
    loop (Conversion.externToWide platform) (Conversion.wideToExtern platform) lastline =
      Part.some (some line) := by
  have hrest : ∀ {lastline : Bytes}, BS ∉ lastline →
      loop (Conversion.externToWide platform) (Conversion.wideToExtern platform) lastline =
        Part.some (some lastline) := fun hnone =>
    Part.eq_some_iff.mpr (mem_eval.mpr ⟨Relation.ReflTransGen.refl,
      if_neg (mt List.contains_iff_mem.mp hnone)⟩)
  induction rounds generalizing lastline with
  | zero =>
      rw [LineEditor.eraseAll, Option.ite_none_left_eq_some] at h
      rw [← Option.some.inj h.2]
      exact hrest fun hmem => h.1 (List.contains_iff_mem.mpr hmem)
  | succ rounds ih =>
      by_cases hmem : BS ∈ lastline
      · obtain ⟨front, later, rfl, hfront⟩ := List.eq_append_cons_of_mem hmem
        have hnone : ∀ b ∈ front, decide (b ≠ BS) = true := ne_of_notMem hfront
        rw [LineEditor.eraseAll, dropWhile_append_stop hnone (starts_self BS later),
          takeWhile_append_stop hnone (starts_self BS later)] at h
        obtain ⟨front', herase, hmore⟩ := Option.bind_eq_some_iff.mp h
        rw [LineEditor.eraseLast, Option.ite_none_left_eq_some] at herase
        obtain ⟨hwide, hextern⟩ := herase
        have hagain : again (Conversion.externToWide platform) (Conversion.wideToExtern platform)
            (some (front ++ BS :: later)) = some (some (front' ++ later)) := by
          rw [again, if_pos (List.contains_iff_mem.mpr hmem), erase,
            takeWhile_append_stop hnone (starts_self BS later),
            dropWhile_append_stop hnone (starts_self BS later)]
          rw [if_neg (mt List.length_eq_zero_iff.mp hwide), Option.some.inj hextern]
          rfl
        have heval := reaches_eval (Relation.ReflTransGen.single hagain)
        rw [loop, heval]
        exact ih hmore
      · rw [LineEditor.eraseAll_none hmem, Option.some.injEq] at h
        rw [← h]
        exact hrest hmem

end BlackCircle.Console.Backspaces
