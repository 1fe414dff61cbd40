import BlackCircle.Console.Iconv

/-!
# Wide characters that cannot be written

`wide_to_narrow` drops one byte in front of a wide character that the target has
not, and goes on at the next byte.  From there on every unit that is looked at
straddles two elements of the vector, until one of them can be written or the
reading is back at an element.
-/

namespace BlackCircle.Console.WideUnits

open BlackCircle.Foundation.ByteString
open BlackCircle.Foundation.Transcoding
open BlackCircle.Foundation.Unicode
open BlackCircle.Console.Conversion (wideOf)
open BlackCircle.Console.Iconv
open InformationTheory (UniquelyDecodable)

/-- The unit of the bytes of `front` from the `k`-th on and the first `k` bytes of `back`. -/
def straddle (k : Nat) (front back : UInt32) : UInt32 :=
  UInt32.ofNat (front.toNat / 256 ^ k + back.toNat % 256 ^ k * 256 ^ (4 - k))

/-- The bytes of a unit from the first of these offsets on. -/
def behind (front : UInt32) : List Nat → Bytes
  | [] => []
  | k :: _ => (bytesOf front).drop k

section Units

variable (write : UInt32 → Option Bytes)

/-- What the encodable ones of some wide characters are written as, one by one. -/
def encodings (units : List UInt32) : List Bytes := units.filterMap write

/-- The first of these offsets at which a straddling unit can be written and finds room, with what
is written and the room that it leaves.  The room is a fresh slice behind every attempt. -/
def straddling (front back : UInt32) : Nat → List Nat → Option (Bytes × Nat × List Nat)
  | _, [] => none
  | room, k :: offsets =>
      match (write (straddle k front back)).filter fun seq => decide (seq.length ≤ room) with
      | some seq => some (seq, room - seq.length, k :: offsets)
      | none => straddling front back slice offsets

/-- Reading on at these offsets of the unit in front, a straddling unit that is written is
written as the element that it ends in.  The offsets are none where the reading is at an
element. -/
def OwnOnly : Nat → UInt32 → List Nat → List UInt32 → Prop
  | _, _, _, [] => True
  | room, front, offsets, unit :: units =>
      match straddling write front unit room offsets with
      | some (seq, left, at') => write unit = some seq ∧ OwnOnly left unit at' units
      | none => OwnOnly slice unit (if (write unit).isSome then [] else [1, 2, 3]) units

/-- No wide character is spoilt by one that cannot be encoded. -/
def Unspoilt (units : List UInt32) : Prop := OwnOnly write slice 0 [] units

variable {write} {room : Nat} {front unit : UInt32} {units codes : List UInt32}
  {offsets : List Nat} {seq : Bytes}

/-- The room is of no account where the reading is at an element. -/
theorem ownOnly_nil (room' : Nat) (front' : UInt32) :
    OwnOnly write room front [] units ↔ OwnOnly write room' front' [] units := by
  cases units <;> rfl

theorem encodings_of_some (hwrite : write unit = some seq) (units : List UInt32) :
    encodings write (unit :: units) = seq :: encodings write units :=
  List.filterMap_cons_some hwrite

theorem encodings_of_none (hwrite : write unit = none) (units : List UInt32) :
    encodings write (unit :: units) = encodings write units :=
  List.filterMap_cons_none hwrite

theorem written_eq (codes : List UInt32) :
    (fromWide write).written codes = (encodings write codes).flatten := by
  induction codes with
  | nil => rfl
  | cons code codes ih =>
      rw [Coding.written, List.flatMap_cons]
      change (write code).getD [] ++ (fromWide write).written codes = _
      cases hwrite : write code with
      | none =>
          rw [encodings_of_none hwrite, ih]
          rfl
      | some seq =>
          rw [encodings_of_some hwrite, List.flatten_cons, ih]
          rfl

/-! ## Units at an offset -/

theorem wideHead_straddle {k : Nat} (hk : k = 1 ∨ k = 2 ∨ k = 3) (front back : UInt32)
    (rest : Bytes) :
    wideHead ((bytesOf front).drop k ++ (bytesOf back ++ rest)) =
      some (straddle k front back, (bytesOf back).drop k ++ rest) := by
  have hfront := front.toNat_lt
  have hback := back.toNat_lt
  rcases hk with rfl | rfl | rfl
  all_goals
    change some (UInt32.ofNat (wideOf _ _ _ _), _) = some (UInt32.ofNat _, _)
    congr 3
    simp only [wideOf, UInt8.toNat_ofNat', Nat.reducePow, Nat.reduceSub]
    omega

/-- Fewer bytes than a unit has are all dropped. -/
theorem reads_short {input : Bytes} (hshort : input.length < 4) (room : Nat) :
    (fromWide write).Reads slice room input [] := by
  induction input generalizing room with
  | nil => exact .done room
  | cons b input ih =>
      rw [List.length_cons] at hshort
      refine .drop ?_ (ih (by omega) slice)
      match input, hshort with
      | [], _ => rfl
      | [_], _ => rfl
      | [_, _], _ => rfl

theorem length_behind_lt (hoffsets : offsets <:+ [1, 2, 3]) :
    (behind front offsets).length < 4 := by
  cases offsets with
  | nil => exact Nat.succ_pos 3
  | cons k offsets =>
      have hk : k = 1 ∨ k = 2 ∨ k = 3 := by
        have hmem := hoffsets.subset List.mem_cons_self
        simpa using hmem
      rw [behind, List.length_drop, length_bytesOf]
      omega

/-- A byte is dropped where the straddling unit is not taken. -/
theorem reads_drop {k : Nat} (hk : k :: offsets <:+ [1, 2, 3]) {rest : Bytes}
    (hnext : (fromWide write).next room (behind front (k :: offsets) ++ rest) = none)
    (h : (fromWide write).Reads slice slice (behind front offsets ++ rest) codes) :
    (fromWide write).Reads slice room (behind front (k :: offsets) ++ rest) codes := by
  have hcases : k = 1 ∧ offsets = [2, 3] ∨ k = 2 ∧ offsets = [3] ∨ k = 3 ∧ offsets = [] := by
    simpa [List.suffix_cons_iff] using hk
  rcases hcases with ⟨rfl, rfl⟩ | ⟨rfl, rfl⟩ | ⟨rfl, rfl⟩
  all_goals exact .drop hnext h

theorem next_straddle (hoffsets : offsets <:+ [1, 2, 3]) {k : Nat} (hk : k ∈ offsets.head?)
    (room : Nat) (rest : Bytes) :
    (fromWide write).next room (behind front offsets ++ (bytesOf unit ++ rest)) =
      ((write (straddle k front unit)).filter fun seq => decide (seq.length ≤ room)).map
        fun seq => (straddle k front unit, seq, behind unit offsets ++ rest) := by
  obtain ⟨offsets, rfl⟩ := List.head?_eq_some_iff.mp hk
  have hthree : k = 1 ∨ k = 2 ∨ k = 3 := by
    have hmem := hoffsets.subset List.mem_cons_self
    simpa using hmem
  have hhead : (fromWide write).head (behind front (k :: offsets) ++ (bytesOf unit ++ rest)) =
      some (straddle k front unit, behind unit (k :: offsets) ++ rest) :=
    wideHead_straddle hthree front unit rest
  exact Coding.next_of_head hhead room

/-- A straddling unit that is written, and the reading behind it. -/
theorem reads_taken (hoffsets : offsets <:+ [1, 2, 3]) {left : Nat} {at' : List Nat}
    (h : straddling write front unit room offsets = some (seq, left, at')) (rest : Bytes) :
    at' <:+ [1, 2, 3] ∧ at' ≠ [] ∧ ∃ code, write code = some seq ∧
      ∀ codes, (fromWide write).Reads slice left (behind unit at' ++ rest) codes →
        (fromWide write).Reads slice room (behind front offsets ++ (bytesOf unit ++ rest))
          (code :: codes) := by
  induction offsets generalizing room with
  | nil => cases h
  | cons k offsets ih =>
      have hnext := @next_straddle write front unit _ hoffsets k rfl room rest
      rw [straddling] at h
      cases hfilter : (write (straddle k front unit)).filter
          fun seq => decide (seq.length ≤ room) with
      | some found =>
          rw [hfilter] at h hnext
          obtain ⟨hwrite, -⟩ := Option.filter_eq_some_iff.mp hfilter
          rw [Option.some.injEq, Prod.mk.injEq, Prod.mk.injEq] at h
          obtain ⟨rfl, rfl, rfl⟩ := h
          exact ⟨hoffsets, List.cons_ne_nil _ _, _, hwrite, fun codes => .take hnext⟩
      | none =>
          rw [hfilter] at h hnext
          obtain ⟨hat, hne, code, hwrite, hreads⟩ := ih ((List.suffix_cons k _).trans hoffsets) h
          exact ⟨hat, hne, code, hwrite, fun codes more =>
            reads_drop hoffsets hnext (hreads codes more)⟩

/-- Where no straddling unit is written, the reading comes to the element behind. -/
theorem reads_passed (hoffsets : offsets <:+ [1, 2, 3])
    (h : straddling write front unit room offsets = none) {rest : Bytes}
    (more : (fromWide write).Reads slice (if offsets = [] then room else slice)
      (bytesOf unit ++ rest) codes) :
    (fromWide write).Reads slice room (behind front offsets ++ (bytesOf unit ++ rest)) codes := by
  induction offsets generalizing room with
  | nil => exact more
  | cons k offsets ih =>
      have hnext := @next_straddle write front unit _ hoffsets k rfl room rest
      rw [straddling] at h
      rw [if_neg (List.cons_ne_nil _ _)] at more
      cases hfilter : (write (straddle k front unit)).filter
          fun seq => decide (seq.length ≤ room) with
      | some found =>
          rw [hfilter] at h
          cases h
      | none =>
          rw [hfilter] at h hnext
          refine reads_drop hoffsets hnext (ih ((List.suffix_cons k _).trans hoffsets) h ?_)
          rwa [ite_self]

variable (write) in
/-- What is read of some units, from these offsets of the unit in front on: at least one for each
that can be encoded, and just those where each is written for itself. -/
def Counted (room : Nat) (front : UInt32) (offsets : List Nat) (units : List UInt32) : Prop :=
  ∃ codes, (fromWide write).Reads slice room
      (behind front offsets ++ units.flatMap bytesOf) codes ∧
    (encodings write units).length ≤ (encodings write codes).length ∧
    (encodings write codes = encodings write units ↔ OwnOnly write room front offsets units)

/-- Behind a straddling unit that is written. -/
theorem counted_taken (hoffsets : offsets <:+ [1, 2, 3]) {left : Nat} {at' : List Nat}
    (hstraddling : straddling write front unit room offsets = some (seq, left, at'))
    (h : Counted write left unit at' units) : Counted write room front offsets (unit :: units) := by
  obtain ⟨codes, hcodes, hlength, hiff⟩ := h
  obtain ⟨-, -, code, hcode, hreads⟩ :=
    reads_taken hoffsets hstraddling (units.flatMap bytesOf)
  refine ⟨code :: codes, hreads codes hcodes, ?_⟩
  rw [encodings_of_some hcode, OwnOnly, hstraddling]
  dsimp only
  cases hwrite : write unit with
  | none =>
      -- one more than there are elements to be written
      rw [encodings_of_none hwrite, List.length_cons]
      refine ⟨Nat.le_succ_of_le hlength, iff_of_false (fun heq => ?_) fun h => ?_⟩
      · rw [← heq, List.length_cons] at hlength
        exact absurd hlength (Nat.not_succ_le_self _)
      · cases h.1
  | some own =>
      rw [encodings_of_some hwrite, List.length_cons, List.length_cons]
      refine ⟨Nat.succ_le_succ hlength, ?_⟩
      rw [List.cons.injEq, hiff, Option.some.injEq, eq_comm]

/-- Behind an element that cannot be encoded; a byte is dropped in front of it. -/
theorem counted_dropped (hoffsets : offsets <:+ [1, 2, 3])
    (hstraddling : straddling write front unit room offsets = none) (hwrite : write unit = none)
    (h : Counted write slice unit [1, 2, 3] units) :
    Counted write room front offsets (unit :: units) := by
  obtain ⟨codes, hcodes, hlength, hiff⟩ := h
  have hhead : (fromWide write).head (bytesOf unit ++ units.flatMap bytesOf) =
      some (unit, units.flatMap bytesOf) := wideHead_bytesOf unit _
  rw [Counted, List.flatMap_cons, encodings_of_none hwrite, OwnOnly, hstraddling, hwrite]
  exact ⟨codes, reads_passed hoffsets hstraddling
    (.drop (Coding.next_of_write_none hhead hwrite _) hcodes), hlength, hiff⟩

/-- Behind an element that is written. -/
theorem counted_own (hoffsets : offsets <:+ [1, 2, 3])
    (hstraddling : straddling write front unit room offsets = none) (hwrite : write unit = some seq)
    (hseq : seq.length ≤ if offsets = [] then room else slice)
    (h : Counted write ((if offsets = [] then room else slice) - seq.length) unit [] units) :
    Counted write room front offsets (unit :: units) := by
  obtain ⟨codes, hcodes, hlength, hiff⟩ := h
  have hhead : (fromWide write).head (bytesOf unit ++ units.flatMap bytesOf) =
      some (unit, units.flatMap bytesOf) := wideHead_bytesOf unit _
  have hnext := Coding.next_eq_some.mpr ⟨hhead, hwrite, hseq⟩
  rw [Counted, List.flatMap_cons, OwnOnly, hstraddling, hwrite]
  refine ⟨unit :: codes, reads_passed hoffsets hstraddling (.take hnext hcodes), ?_⟩
  rw [encodings_of_some hwrite, encodings_of_some hwrite, List.length_cons, List.length_cons]
  refine ⟨Nat.succ_le_succ hlength, ?_⟩
  rw [List.cons.injEq, and_iff_right rfl, hiff]
  exact ownOnly_nil _ _

/-- Where there is room for all encodings, at the elements and behind any straddling unit. -/
theorem counted_units (hoffsets : offsets <:+ [1, 2, 3])
    (hsize : (encodings write units).flatten.length ≤ slice)
    (hroom : offsets = [] → (encodings write units).flatten.length ≤ room) :
    Counted write room front offsets units := by
  induction units generalizing room front offsets with
  | nil =>
      refine ⟨[], ?_, Nat.le_refl 0, iff_of_true rfl trivial⟩
      rw [List.flatMap_nil, List.append_nil]
      exact reads_short (length_behind_lt hoffsets) room
  | cons unit units ih =>
      have hrest : (encodings write units).flatten.length ≤ slice := by
        refine Nat.le_trans ?_ hsize
        cases hwrite : write unit with
        | none => rw [encodings_of_none hwrite]
        | some seq =>
            rw [encodings_of_some hwrite, List.flatten_cons, List.length_append]
            exact Nat.le_add_left _ _
      cases hstraddling : straddling write front unit room offsets with
      | some found =>
          obtain ⟨seq, left, at'⟩ := found
          obtain ⟨hat, hne, -⟩ := reads_taken hoffsets hstraddling []
          exact counted_taken hoffsets hstraddling (ih hat hrest fun hnil => absurd hnil hne)
      | none =>
          cases hwrite : write unit with
          | none =>
              exact counted_dropped hoffsets hstraddling hwrite
                (ih List.suffix_rfl hrest fun hnil => by cases hnil)
          | some own =>
              rw [encodings_of_some hwrite, List.flatten_cons, List.length_append] at hsize hroom
              have hown : own.length + (encodings write units).flatten.length ≤
                  if offsets = [] then room else slice := by
                split
                case isTrue hnil => exact hroom hnil
                case isFalse => exact hsize
              exact counted_own hoffsets hstraddling hwrite (by omega)
                (ih List.nil_suffix hrest fun _ => by omega)

end Units

/-! ## Output of wide characters -/

theorem mem_encodings {write : UInt32 → Option Bytes} {codes : List UInt32} {seq : Bytes}
    (h : seq ∈ encodings write codes) : seq ∈ {seq | ∃ code, write code = some seq} := by
  obtain ⟨code, -, hcode⟩ := List.mem_filterMap.mp h
  exact ⟨code, hcode⟩

/-- UTF-8 can be read back. -/
theorem uniquelyDecodable_utf8 : UniquelyDecodable {seq | ∃ code, utf8Write code = some seq} := by
  apply @uniquelyDecodable_of_leads _ isContinuation
  rintro seq ⟨code, hcode⟩
  rw [utf8Write, Option.ite_none_left_eq_some] at hcode
  rw [← Option.some.inj hcode.2]
  exact utf8Bytes_cases code.toNat

/-- What comes out is written piece by piece, and the pieces are those of the encodable elements
just where none is spoilt. -/
theorem wideToExtern_pieces (w : Nat) (system : System) (coding : IoEncoding)
    {units : List UInt32}
    (hsize : (encodings (system.target coding) units).flatten.length ≤ slice) :
    ∃ codes, wideToExtern w system.iconvOpen coding units =
        Part.some (encodings (system.target coding) codes).flatten ∧
      (encodings (system.target coding) codes = encodings (system.target coding) units ↔
        Unspoilt (system.target coding) units) := by
  obtain ⟨codes, hreads, -, hiff⟩ := @counted_units (system.target coding) slice 0 units []
    List.nil_suffix hsize fun _ => hsize
  exact ⟨codes, by rw [wideToExtern_eq w system coding hreads, written_eq], hiff⟩

/-- Each encodable element is written, and nothing else, where no straddling unit takes the place
of an element; for an encoding that can be read back, just then. -/
theorem wideToExtern_encodings_iff (w : Nat) (system : System) (coding : IoEncoding)
    (units : List UInt32)
    (hsize : (encodings (system.target coding) units).flatten.length ≤ slice) :
    (Unspoilt (system.target coding) units →
        wideToExtern w system.iconvOpen coding units =
          Part.some (encodings (system.target coding) units).flatten) ∧
      (UniquelyDecodable {seq | ∃ code, system.target coding code = some seq} →
        wideToExtern w system.iconvOpen coding units =
            Part.some (encodings (system.target coding) units).flatten →
          Unspoilt (system.target coding) units) := by
  obtain ⟨codes, hout, hiff⟩ := wideToExtern_pieces w system coding hsize
  rw [hout, Part.some_inj]
  refine ⟨fun hunspoilt => congrArg List.flatten (hiff.mpr hunspoilt), fun hdecodable heq => ?_⟩
  exact hiff.mp (hdecodable _ _ (fun _ => mem_encodings) (fun _ => mem_encodings) heq)

/-- A Japanese letter in front of a Latin one, in the locale `C`. -/
theorem wideToExtern_encodings_kana :
    wideToExtern 64 (System.following asciiWrite asciiWrite_nonempty).iconvOpen .encSystem
      [0x3042, 0x41] = Part.some [0x41] :=
  (wideToExtern_encodings_iff 64 (System.following asciiWrite asciiWrite_nonempty) .encSystem
    [0x3042, 0x41] (by decide)).1 (by
      have hpassed : straddling asciiWrite 0x3042 0x41 slice [1, 2, 3] = none := by decide
      change OwnOnly asciiWrite slice 0x3042 [1, 2, 3] [0x41]
      rw [OwnOnly, hpassed]
      exact trivial)

/-- A surrogate in front of a Latin letter. -/
theorem not_wideToExtern_encodings :
    ¬∀ (w : Nat) (system : System) (coding : IoEncoding) (units : List UInt32),
      (encodings (system.target coding) units).flatten.length ≤ slice →
        wideToExtern w system.iconvOpen coding units =
          Part.some (encodings (system.target coding) units).flatten := by
  intro hall
  have hsize : (encodings utf8Write [0xD800, 0x41]).flatten.length ≤ slice := by decide
  obtain ⟨codes, hout, hiff⟩ := wideToExtern_pieces 64
    (System.following asciiWrite asciiWrite_nonempty) .encUtf8 hsize
  have heq := hall 64 (System.following asciiWrite asciiWrite_nonempty) .encUtf8 _ hsize
  rw [hout, Part.some_inj] at heq
  have hunspoilt := hiff.mp (uniquelyDecodable_utf8 _ _ (fun _ => mem_encodings)
    (fun _ => mem_encodings) heq)
  have htaken : straddling utf8Write 0xD800 0x41 slice [1, 2, 3] =
      some ([0xFD, 0x81, 0x80, 0x80, 0x83, 0x98], 1018, [1, 2, 3]) := by decide
  change OwnOnly utf8Write slice 0xD800 [1, 2, 3] [0x41] at hunspoilt
  rw [OwnOnly, htaken] at hunspoilt
  have hown : utf8Write 0x41 ≠ some [0xFD, 0x81, 0x80, 0x80, 0x83, 0x98] := by decide
  exact hown hunspoilt.1

end BlackCircle.Console.WideUnits
