import BlackCircle.Console.Iconv

/-!
# Texts that are converted in slices

What becomes of a text in UTF-8 whose characters a charset has or has not.  A
character that it has not is skipped byte by byte.  So is one for which there is
no room left in a slice; the slice is fresh behind a character that is skipped,
for whichever reason.
-/

namespace BlackCircle.Console.Slices

open BlackCircle.Foundation.ByteString
open BlackCircle.Foundation.Transcoding
open BlackCircle.Foundation.Unicode
open BlackCircle.Console.Conversion (wideBytes wideOf wideOf_wideBytes)
open BlackCircle.Console.Iconv

section Texts

variable (write : UInt32 → Option Bytes)

/-- The characters of a text that are taken, where the first slice has so much room. -/
def kept : Nat → List Char → List UInt32
  | _, [] => []
  | room, c :: text =>
      match write c.val with
      | none => kept slice text
      | some seq =>
          if seq.length ≤ room then c.val :: kept (room - seq.length) text else kept slice text

/-- The characters of a text that the charset has, one behind the other. -/
def shown (text : List Char) : Bytes := text.flatMap fun c => (write c.val).getD []

/-- Every character that the charset has finds room. -/
def Fits : Nat → List Char → Prop
  | _, [] => True
  | room, c :: text =>
      match write c.val with
      | none => Fits slice text
      | some seq => seq.length ≤ room ∧ Fits (room - seq.length) text

/-- The characters at the start that the charset has fit into so much room. -/
def PrefixesFit (room : Nat) (text : List Char) : Prop :=
  ∀ stretch, stretch <+: text → (∀ c ∈ stretch, (write c.val).isSome = true) →
    (shown write stretch).length ≤ room

/-- Consecutive characters that the charset has fit into a slice. -/
def StretchesFit (text : List Char) : Prop :=
  ∀ stretch, stretch <:+: text → (∀ c ∈ stretch, (write c.val).isSome = true) →
    (shown write stretch).length ≤ slice

variable {write} {room : Nat} {text : List Char} {c : Char} {seq : Bytes}

theorem utf8Head_encode (c : Char) (text : List Char) :
    utf8Head (encode (c :: text)) = some (c.val, encode text) := by
  rw [utf8Head, encode_cons, decodeHead_encode]
  rfl

/-- The rest of a character that is skipped. -/
theorem reads_continuation {more : Bytes} (hmore : ∀ b ∈ more, isContinuation b = true)
    {input : Bytes} {codes : List UInt32}
    (h : (fromUtf8 write).Reads slice slice input codes) :
    (fromUtf8 write).Reads slice slice (more ++ input) codes := by
  induction more with
  | nil => exact h
  | cons b more ih =>
      obtain ⟨hb, hrest⟩ := List.forall_mem_cons.mp hmore
      refine .drop ?_ (ih hrest)
      rw [Coding.next]
      change (utf8Head (b :: (more ++ input))).bind _ = none
      rw [utf8Head, decodeHead_continuation hb]
      rfl

/-- A character that is not taken is skipped. -/
theorem reads_skip (hnext : (fromUtf8 write).next room (encode (c :: text)) = none)
    {codes : List UInt32} (h : (fromUtf8 write).Reads slice slice (encode text) codes) :
    (fromUtf8 write).Reads slice room (encode (c :: text)) codes := by
  rw [encode_cons] at hnext ⊢
  rcases utf8EncodeChar_cases c with ⟨-, hc⟩ | ⟨first, more, hc, -, hmore⟩
  · rw [hc] at hnext ⊢
    exact .drop hnext h
  · rw [hc] at hnext ⊢
    exact .drop hnext (reads_continuation hmore h)

/-- What is taken of a text. -/
theorem reads_encode (room : Nat) (text : List Char) :
    (fromUtf8 write).Reads slice room (encode text) (kept write room text) := by
  induction text generalizing room with
  | nil => exact .done room
  | cons c text ih =>
      have hhead : (fromUtf8 write).head (encode (c :: text)) = some (c.val, encode text) :=
        utf8Head_encode c text
      rw [kept]
      cases hwrite : write c.val with
      | none => exact reads_skip (Coding.next_of_write_none hhead hwrite room) (ih slice)
      | some seq =>
          dsimp only
          split
          case isTrue hroom =>
            exact .take (Coding.next_eq_some.mpr ⟨hhead, hwrite, hroom⟩) (ih _)
          case isFalse hroom =>
            exact reads_skip (Coding.next_of_no_room hhead hwrite hroom) (ih slice)

theorem shown_of_none (hwrite : write c.val = none) (text : List Char) :
    shown write (c :: text) = shown write text := by
  rw [shown, List.flatMap_cons, hwrite]
  rfl

theorem shown_of_some (hwrite : write c.val = some seq) (text : List Char) :
    shown write (c :: text) = seq ++ shown write text := by
  rw [shown, List.flatMap_cons, hwrite]
  rfl

/-- Nothing is written that is not to be shown. -/
theorem length_kept_le (room : Nat) (text : List Char) :
    ((fromUtf8 write).written (kept write room text)).length ≤ (shown write text).length := by
  induction text generalizing room with
  | nil => exact Nat.le_refl 0
  | cons c text ih =>
      rw [kept]
      cases hwrite : write c.val with
      | none =>
          rw [shown_of_none hwrite]
          exact ih slice
      | some seq =>
          have hcons := @Coding.written_cons _ _ _ (fromUtf8 write) seq c.val hwrite
          rw [shown_of_some hwrite, List.length_append]
          dsimp only
          split
          · rw [hcons, List.length_append]
            exact Nat.add_le_add_left (ih _) _
          · exact Nat.le_trans (ih slice) (Nat.le_add_left _ _)

/-- All that is to be shown is written just when there is room for it. -/
theorem written_kept_iff
    (nonempty : ∀ {code : UInt32} {seq : Bytes}, write code = some seq → seq ≠ [])
    (room : Nat) (text : List Char) :
    (fromUtf8 write).written (kept write room text) = shown write text ↔ Fits write room text := by
  induction text generalizing room with
  | nil => exact iff_of_true rfl trivial
  | cons c text ih =>
      rw [kept, Fits]
      cases hwrite : write c.val with
      | none =>
          rw [shown_of_none hwrite]
          exact ih slice
      | some seq =>
          have hcons := @Coding.written_cons _ _ _ (fromUtf8 write) seq c.val hwrite
          rw [shown_of_some hwrite]
          dsimp only
          split
          case isTrue hroom =>
            rw [hcons, List.append_cancel_left_eq, ih, and_iff_right hroom]
          case isFalse hroom =>
            refine iff_of_false ?_ fun hfits => hroom hfits.1
            intro heq
            have hpos := List.length_pos_iff.mpr (nonempty hwrite)
            have hle := @length_kept_le write slice text
            rw [heq, List.length_append] at hle
            omega

theorem StretchesFit.prefixesFit (h : StretchesFit write text) : PrefixesFit write slice text :=
  fun stretch hprefix => h stretch hprefix.isInfix

theorem stretchesFit_cons :
    StretchesFit write (c :: text) ↔ PrefixesFit write slice (c :: text) ∧
      StretchesFit write text := by
  constructor
  · intro h
    exact ⟨h.prefixesFit, fun stretch hinfix => h stretch (List.infix_cons hinfix)⟩
  · rintro ⟨hprefixes, hrest⟩ stretch hinfix
    rcases List.infix_cons_iff.mp hinfix with hprefix | hinfix
    · exact hprefixes stretch hprefix
    · exact hrest stretch hinfix

/-- Nothing in front of a character that the charset has not. -/
theorem prefixesFit_of_none (hwrite : write c.val = none) (room : Nat) (text : List Char) :
    PrefixesFit write room (c :: text) := by
  intro stretch hprefix hhas
  cases stretch with
  | nil => exact Nat.zero_le room
  | cons c' stretch =>
      have hc := hhas c' List.mem_cons_self
      rw [(List.cons_prefix_cons.mp hprefix).1, hwrite] at hc
      cases hc

/-- A character takes its room from what is behind it. -/
theorem prefixesFit_of_some (hwrite : write c.val = some seq) (room : Nat) (text : List Char) :
    PrefixesFit write room (c :: text) ↔
      seq.length ≤ room ∧ PrefixesFit write (room - seq.length) text := by
  have hlength : ∀ stretch, (shown write (c :: stretch)).length =
      seq.length + (shown write stretch).length := fun stretch => by
    rw [shown_of_some hwrite, List.length_append]
  have hsome : (write c.val).isSome = true := by
    rw [hwrite]
    rfl
  constructor
  · intro h
    have hbehind : ∀ stretch, stretch <+: text → (∀ c ∈ stretch, (write c.val).isSome = true) →
        seq.length + (shown write stretch).length ≤ room := by
      intro stretch hprefix hhas
      rw [← hlength]
      exact h (c :: stretch) (List.cons_prefix_cons.mpr ⟨rfl, hprefix⟩)
        (List.forall_mem_cons.mpr ⟨hsome, hhas⟩)
    have hone := hbehind [] List.nil_prefix fun _ hmem => absurd hmem List.not_mem_nil
    exact ⟨Nat.le_of_add_right_le hone, fun stretch hprefix hhas =>
      Nat.le_sub_of_add_le' (hbehind stretch hprefix hhas)⟩
  · rintro ⟨hseq, hrest⟩ stretch hprefix hhas
    cases stretch with
    | nil => exact Nat.zero_le room
    | cons c' stretch =>
        obtain ⟨rfl, hbehind⟩ := List.cons_prefix_cons.mp hprefix
        have hle := hrest stretch hbehind (List.forall_mem_cons.mp hhas).2
        rw [hlength]
        omega

/-- Room for everything is room for every stretch. -/
theorem fits_iff (room : Nat) (hroom : room ≤ slice) (text : List Char) :
    Fits write room text ↔ PrefixesFit write room text ∧ StretchesFit write text := by
  induction text generalizing room with
  | nil =>
      refine iff_of_true trivial ⟨?_, ?_⟩
      · intro stretch hprefix _
        rw [List.prefix_nil.mp hprefix]
        exact Nat.zero_le room
      · intro stretch hinfix _
        rw [List.infix_nil.mp hinfix]
        exact Nat.zero_le slice
  | cons c text ih =>
      rw [Fits, stretchesFit_cons]
      cases hwrite : write c.val with
      | none =>
          have hnone := fun room => prefixesFit_of_none hwrite room text
          dsimp only
          rw [ih slice (Nat.le_refl slice), and_iff_right (hnone room), and_iff_right (hnone slice)]
          exact and_iff_right_of_imp StretchesFit.prefixesFit
      | some seq =>
          dsimp only
          rw [ih (room - seq.length) (by omega), prefixesFit_of_some hwrite,
            prefixesFit_of_some hwrite, ← and_assoc]
          refine and_congr_right fun ⟨hseq, hprefixes⟩ => ?_
          refine (and_iff_right ⟨Nat.le_trans hseq hroom, fun stretch hprefix hhas => ?_⟩).symm
          exact Nat.le_trans (hprefixes stretch hprefix hhas) (Nat.sub_le_sub_right hroom _)

theorem fits_slice_iff (text : List Char) : Fits write slice text ↔ StretchesFit write text := by
  rw [fits_iff slice (Nat.le_refl slice)]
  exact and_iff_right_of_imp StretchesFit.prefixesFit

end Texts

/-! ## Output in the encoding of the locale -/

/-- What comes out for a text. -/
theorem utf8ToExtern_encode (w : Nat) (system : System) (text : List Char) :
    utf8ToExtern w system.iconvOpen .encSystem (encode text) =
      Part.some ((fromUtf8 system.charset).written (kept system.charset slice text)) := by
  cases text with
  | nil =>
      have hempty : IoEncoding.encSystem = .encUtf8 ∨ encode [] = [] := Or.inr rfl
      rw [utf8ToExtern, if_pos hempty]
      rfl
  | cons c text =>
      have hnil : encode (c :: text) ≠ [] := by
        intro hnil
        have hhead := utf8Head_encode c text
        rw [hnil] at hhead
        cases hhead
      rw [utf8ToExtern, if_neg (by simpa using hnil), narrowToNarrow,
        loop_id_eq (system.utf8ToLocale (c :: text)) (reads_encode slice (c :: text))]

/-- Just the characters that the charset has come out just when each stretch of them fits into a
slice. -/
theorem utf8ToExtern_shown_iff (w : Nat) (system : System) (text : List Char) :
    utf8ToExtern w system.iconvOpen .encSystem (encode text) =
        Part.some (shown system.charset text) ↔
      StretchesFit system.charset text := by
  rw [utf8ToExtern_encode, Part.some_inj, written_kept_iff system.nonempty, fits_slice_iff]

/-- More characters than find room in a slice. -/
theorem not_utf8ToExtern_shown : ¬∀ (w : Nat) (system : System) (text : List Char),
    utf8ToExtern w system.iconvOpen .encSystem (encode text) =
      Part.some (shown system.charset text) := by
  intro hall
  have heq := hall 64 (System.following asciiWrite asciiWrite_nonempty) (List.replicate 1025 'a')
  rw [utf8ToExtern_encode, Part.some_inj] at heq
  have hfits := (fits_slice_iff _).mp ((written_kept_iff asciiWrite_nonempty _ _).mp heq)
  have hlength := hfits _ List.infix_rfl fun c hc => by
    rw [List.eq_of_mem_replicate hc]
    rfl
  have hwrite : asciiWrite 'a'.val = some [97] := rfl
  have hshown : ∀ n, (shown asciiWrite (List.replicate n 'a')).length = n := by
    intro n
    induction n with
    | zero => rfl
    | succ n ih =>
        rw [List.replicate_succ, shown_of_some hwrite, List.length_append, ih, Nat.add_comm]
        rfl
  rw [hshown] at hlength
  exact absurd hlength (by decide)

/-! ## Wide characters and back -/

/-- The characters of a text fit into a slice of wide characters when there are 256 at most. -/
theorem fits_wide_iff (text : List Char) : Fits wideWrite slice text ↔ text.length ≤ 256 := by
  have hlength : ∀ stretch : List Char,
      (shown wideWrite stretch).length = 4 * stretch.length := by
    intro stretch
    induction stretch with
    | nil => rfl
    | cons c stretch ih =>
        have hwrite : wideWrite c.val = some (bytesOf c.val) := rfl
        rw [shown_of_some hwrite, List.length_append, length_bytesOf, ih, List.length_cons]
        omega
  rw [fits_slice_iff]
  constructor
  · intro hfits
    have hall := hfits text List.infix_rfl fun _ _ => rfl
    rw [hlength, slice] at hall
    omega
  · intro hle stretch hinfix _
    have hstretch := hinfix.length_le
    rw [hlength, slice]
    omega

/-- Where every character is in the charset and finds room, the text itself is taken. -/
theorem kept_of_fits {write : UInt32 → Option Bytes} {room : Nat} {text : List Char}
    (hhas : ∀ c ∈ text, (write c.val).isSome = true) (hfits : Fits write room text) :
    kept write room text = text.map Char.val := by
  induction text generalizing room with
  | nil => rfl
  | cons c text ih =>
      obtain ⟨hc, hrest⟩ := List.forall_mem_cons.mp hhas
      obtain ⟨seq, hwrite⟩ := Option.isSome_iff_exists.mp hc
      rw [Fits, hwrite] at hfits
      rw [kept, hwrite]
      dsimp only
      rw [if_pos hfits.1, ih hrest hfits.2]
      rfl

/-- All characters of a text become wide characters when there are 256 at most. -/
theorem kept_wide_iff (text : List Char) :
    kept wideWrite slice text = text.map Char.val ↔ text.length ≤ 256 := by
  rw [← fits_wide_iff]
  refine ⟨fun hkept => ?_, fun hfits => kept_of_fits (fun _ _ => rfl) hfits⟩
  rw [← @written_kept_iff wideWrite, hkept]
  · exact List.flatMap_map _ _ _
  · intro code seq hwrite
    obtain rfl := Option.some.inj hwrite
    exact List.cons_ne_nil _ _

theorem wides_written (codes : List UInt32) (more : Bytes) :
    wides ((fromUtf8 wideWrite).written codes ++ more) = codes ++ wides more := by
  induction codes with
  | nil => rfl
  | cons code codes ih =>
      have hcons := @Coding.written_cons _ _ _ (fromUtf8 wideWrite) _ code rfl codes
      rw [hcons, List.append_assoc, wides_bytesOf, ih]
      rfl

/-- What the wide characters of a text are. -/
theorem externToWide_encode (w : Nat) (system : System) (text : List Char) :
    externToWide w system.iconvOpen .encUtf8 (encode text) =
      Part.some (kept wideWrite slice text) := by
  have hnil : ∀ codes, wides ((fromUtf8 wideWrite).written codes) = codes := fun codes => by
    rw [← List.append_nil ((fromUtf8 wideWrite).written codes), wides_written]
    exact List.append_nil codes
  rw [externToWide, narrowToWide]
  change loop w wides (system.iconvOpen (ascii "wchar_t") (ascii "UTF-8") (encode text)) _ = _
  rw [loop_eq (system.utf8ToWide text) rfl
    (fun codes more => by rw [wides_written, hnil]) (reads_encode slice text), hnil]

/-- Wide characters that the charset has are all taken where there is room for them. -/
theorem reads_wides {write : UInt32 → Option Bytes} {room : Nat} {codes : List UInt32}
    (hhas : ∀ code ∈ codes, (write code).isSome = true)
    (hroom : ((fromWide write).written codes).length ≤ room) :
    (fromWide write).Reads slice room (codes.flatMap bytesOf) codes := by
  induction codes generalizing room with
  | nil => exact .done room
  | cons code codes ih =>
      obtain ⟨hcode, hrest⟩ := List.forall_mem_cons.mp hhas
      obtain ⟨seq, hwrite⟩ := Option.isSome_iff_exists.mp hcode
      have hcons := @Coding.written_cons _ _ _ (fromWide write) seq code hwrite
      rw [hcons, List.length_append] at hroom
      rw [List.flatMap_cons]
      exact .take (Coding.next_eq_some.mpr ⟨wideHead_bytesOf code _, hwrite, by omega⟩)
        (ih hrest (by omega))

theorem written_utf8 (text : List Char) :
    (fromWide utf8Write).written (text.map Char.val) = encode text := by
  induction text with
  | nil => rfl
  | cons c text ih =>
      have hcons := @Coding.written_cons _ _ _ (fromWide utf8Write) _ c.val (utf8Write_char c)
      rw [List.map_cons, hcons, ih, encode_cons]

/-- A text comes back from its wide characters just when it has 256 characters at most. -/
theorem externToWide_wideToExtern_iff (w : Nat) (system : System) (text : List Char) :
    (externToWide w system.iconvOpen .encUtf8 (encode text) = Part.some (text.map Char.val) ∧
        wideToExtern w system.iconvOpen .encUtf8 (text.map Char.val) =
          Part.some (encode text)) ↔
      text.length ≤ 256 := by
  rw [externToWide_encode, Part.some_inj, kept_wide_iff]
  refine and_iff_left_of_imp fun hle => ?_
  have hwritten := written_utf8 text
  have hroom : ((fromWide utf8Write).written (text.map Char.val)).length ≤ slice := by
    have hlength := length_encode_le text
    rw [hwritten, slice]
    omega
  have hhas : ∀ code ∈ text.map Char.val, (utf8Write code).isSome = true := by
    intro code hcode
    obtain ⟨c, -, rfl⟩ := List.mem_map.mp hcode
    rw [utf8Write_char]
    rfl
  rw [wideToExtern_eq w system .encUtf8 (reads_wides hhas hroom)]
  exact congrArg Part.some hwritten

/-- One character more. -/
theorem not_externToWide_wideToExtern : ¬∀ (w : Nat) (system : System) (text : List Char),
    externToWide w system.iconvOpen .encUtf8 (encode text) = Part.some (text.map Char.val) ∧
      wideToExtern w system.iconvOpen .encUtf8 (text.map Char.val) = Part.some (encode text) := by
  intro hall
  obtain ⟨hwide, -⟩ := hall 64 (System.following utf8Write utf8Write_nonempty)
    (List.replicate 257 'a')
  rw [externToWide_encode, Part.some_inj, kept_wide_iff, List.length_replicate] at hwide
  exact absurd hwide (by decide)

end BlackCircle.Console.Slices
