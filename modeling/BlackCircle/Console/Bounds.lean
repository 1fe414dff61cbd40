import BlackCircle.Console.Iconv
import BlackCircle.Foundation.ReadLoop

/-!
# The bounds of the loops around `iconv`

What the loops do on any system.  A call on a descriptor that has been opened fails only
where it leaves a byte of the input, and this byte is dropped.  A call on what a
failed `iconv_open` returns fails on an empty input as well; then there is no
byte to be dropped, the count wraps around and the pointer leaves the input.
-/

namespace BlackCircle.Console.Bounds

open BlackCircle.Foundation.ByteString
open BlackCircle.Foundation.ReadLoop (reaches_invariant eval_dom_of_descent)
open BlackCircle.Foundation.Transcoding
open BlackCircle.Console.Iconv
open StateTransition

/-! ## What POSIX allows -/

/-- A call on a descriptor that has been opened, with so many bytes left: all of them are
converted, or the call fails and leaves some. -/
def Converts (inbytesleft : Nat) (r : Outcome) : Prop :=
  if r.failed then r.consumed < inbytesleft else r.consumed = inbytesleft

/-- A call on what is returned where `iconv_open` fails. -/
def Refuses (r : Outcome) : Prop := r.failed = true ∧ r.consumed = 0

/-- The calls on a descriptor, for an input of this length, where `iconv_open` has or has not
succeeded. -/
def Allowed (length : Nat) (cd : Descriptor) : Bool → Prop
  | true => ∀ calls inbuf inbytesleft, inbuf + inbytesleft = length →
      Converts inbytesleft (cd calls inbuf inbytesleft)
  | false => ∀ calls inbuf inbytesleft, Refuses (cd calls inbuf inbytesleft)

/-- Any system: which conversions can be opened, and calls that POSIX allows on them. -/
structure Posix where
  iconvOpen : Bytes → Bytes → Bytes → Descriptor
  opened : Bytes → Bytes → Bytes → Bool
  allowed : ∀ target source input,
    Allowed input.length (iconvOpen target source input) (opened target source input)

/-- A system on which nothing can be opened. -/
def Posix.closed : Posix where
  iconvOpen := fun _ _ _ _ _ _ => ⟨[], 0, true⟩
  opened := fun _ _ _ => false
  allowed := fun _ _ _ _ _ _ => ⟨rfl, rfl⟩

/-- Calls that follow a coding are allowed. -/
theorem allowed_of_follows {coding : Coding Byte Byte UInt32} {input : Bytes} {cd : Descriptor}
    (h : Follows coding input cd) : Allowed input.length cd true := by
  intro calls inbuf inbytesleft hlength
  obtain rfl : inbytesleft = input.length - inbuf := by omega
  obtain ⟨left, -, hconsumed, hfailed⟩ := h calls inbuf (by omega)
  rw [Converts]
  split
  case isTrue hreturned =>
    have hpos := List.length_pos_iff.mpr (hfailed.mp hreturned)
    omega
  case isFalse hreturned =>
    obtain rfl : left = [] := by
      by_contra hnil
      exact hreturned (hfailed.mpr hnil)
    exact hconsumed

/-! ## Bounds -/

/-- The pointer is in the input or at its end, and the count is that of the bytes from it on. -/
structure InBounds {β : Type} (length : Nat) (v : Variables β) : Prop where
  pointer : v.inbuf ≤ length
  counter : v.inbytesleft = length - v.inbuf

/-- Behind every round of the loop the variables are in bounds. -/
def StaysInBounds {β : Type} (w : Nat) (insert : Bytes → List β) (cd : Descriptor)
    (length : Nat) : Prop :=
  ∀ v, Reaches (again w insert cd) (round w insert cd (entered length)) v → InBounds length v

section Rounds

variable {β : Type} {w length : Nat} {insert : Bytes → List β} {cd : Descriptor}
  {opened : Bool} {v v' : Variables β}

theorem inBounds_entered (length : Nat) : InBounds length (entered length : Variables β) where
  pointer := Nat.zero_le length
  counter := rfl

theorem again_eq_some (h : again w insert cd v = some v') :
    0 < v.inbytesleft ∧ v' = round w insert cd v := by
  rw [again, Option.ite_none_right_eq_some, Option.some.injEq] at h
  exact ⟨h.1, h.2.symm⟩

/-- Where there is a byte left, a call on any descriptor leaves none or fails in front of one. -/
theorem converts_of_allowed (h : Allowed length cd opened) (hv : InBounds length v)
    (hdrop : v.inbytesleft = 0 → opened = true) :
    Converts v.inbytesleft (cd v.calls v.inbuf v.inbytesleft) := by
  obtain ⟨hpointer, hcounter⟩ := hv
  cases opened with
  | true => exact h v.calls v.inbuf v.inbytesleft (by omega)
  | false =>
      obtain ⟨hfailed, hconsumed⟩ := h v.calls v.inbuf v.inbytesleft
      rw [Converts, if_pos hfailed, hconsumed]
      exact Nat.pos_of_ne_zero fun hzero => Bool.noConfusion (hdrop hzero)

/-- A round whose call fails drops a byte. -/
theorem round_of_failed {r : Outcome} (hr : cd v.calls v.inbuf v.inbytesleft = r)
    (hfailed : r.failed = true) :
    (round w insert cd v).inbuf = v.inbuf + r.consumed + 1 ∧
      (round w insert cd v).inbytesleft = decrement w (v.inbytesleft - r.consumed) := by
  rw [Iconv.round, hr, if_pos hfailed]
  exact ⟨rfl, rfl⟩

theorem round_of_returned {r : Outcome} (hr : cd v.calls v.inbuf v.inbytesleft = r)
    (hreturned : ¬r.failed = true) :
    (round w insert cd v).inbuf = v.inbuf + r.consumed ∧
      (round w insert cd v).inbytesleft = v.inbytesleft - r.consumed := by
  rw [Iconv.round, hr, if_neg hreturned]
  exact ⟨rfl, rfl⟩

/-- A round keeps the bounds, and moves the pointer if it can. -/
theorem round_inBounds {r : Outcome} (hr : cd v.calls v.inbuf v.inbytesleft = r)
    (hconverts : Converts v.inbytesleft r) (hv : InBounds length v) :
    InBounds length (round w insert cd v) ∧
      (0 < v.inbytesleft → (round w insert cd v).inbytesleft < v.inbytesleft) := by
  obtain ⟨hpointer, hcounter⟩ := hv
  rw [Converts] at hconverts
  by_cases hfailed : r.failed = true
  · obtain ⟨hinbuf, hleft⟩ := @round_of_failed β w insert cd v r hr hfailed
    rw [if_pos hfailed] at hconverts
    rw [decrement, if_neg (by omega)] at hleft
    exact ⟨⟨by omega, by omega⟩, fun _ => by omega⟩
  · obtain ⟨hinbuf, hleft⟩ := @round_of_returned β w insert cd v r hr hfailed
    rw [if_neg hfailed] at hconverts
    exact ⟨⟨by omega, by omega⟩, fun _ => by omega⟩

/-- A round on a descriptor that has not been opened drops a byte, be there one or not. -/
theorem round_refused (h : Allowed length cd false) (v : Variables β) :
    (round w insert cd v).inbuf = v.inbuf + 1 ∧
      (round w insert cd v).inbytesleft = decrement w v.inbytesleft := by
  obtain ⟨hfailed, hconsumed⟩ := h v.calls v.inbuf v.inbytesleft
  obtain ⟨hinbuf, hleft⟩ := @round_of_failed β w insert cd v _ rfl hfailed
  rw [hconsumed] at hinbuf hleft
  exact ⟨hinbuf, hleft⟩

/-- There the loop comes to rest when the count has come down to zero. -/
theorem refused_rests (h : Allowed length cd false) (v : Variables β) :
    ∃ final, Reaches (again w insert cd) v final ∧ again w insert cd final = none ∧
      final.inbuf = v.inbuf + v.inbytesleft := by
  generalize hn : v.inbytesleft = n
  induction n generalizing v with
  | zero => exact ⟨v, Relation.ReflTransGen.refl, if_neg (by omega), rfl⟩
  | succ n ih =>
      obtain ⟨hinbuf, hcounter⟩ := @round_refused β w length insert cd h v
      rw [decrement, if_neg (by omega), hn, Nat.add_sub_cancel] at hcounter
      obtain ⟨final, hreach, hrest, hfinal⟩ := ih (round w insert cd v) hcounter
      have hagain : again w insert cd v = some (round w insert cd v) := if_pos (by omega)
      refine ⟨final, hreach.head hagain, hrest, ?_⟩
      rw [hfinal, hinbuf]
      omega

/-- On an empty input the pointer runs over as many bytes as a `size_t` can count. -/
theorem refused_overruns (h : Allowed 0 cd false) :
    ∃ final, Reaches (again w insert cd) (round w insert cd (entered 0)) final ∧
      again w insert cd final = none ∧ final.inbuf = 2 ^ w := by
  obtain ⟨final, hreach, hrest, hfinal⟩ :=
    @refused_rests β w 0 insert cd h (round w insert cd (entered 0))
  obtain ⟨hinbuf, hcounter⟩ := @round_refused β w 0 insert cd h (entered 0)
  have hpow := Nat.two_pow_pos w
  refine ⟨final, hreach, hrest, ?_⟩
  rw [hfinal, hinbuf, hcounter]
  change 0 + 1 + (2 ^ w - 1) = 2 ^ w
  omega

/-- A step of the loop keeps the bounds; there is a byte left to be dropped. -/
theorem again_inBounds (h : Allowed length cd opened) (hv : InBounds length v)
    (hagain : again w insert cd v = some v') :
    InBounds length v' ∧ v'.inbytesleft < v.inbytesleft := by
  obtain ⟨hpos, rfl⟩ := again_eq_some hagain
  have hconverts := converts_of_allowed h hv fun hzero => absurd hzero hpos.ne'
  obtain ⟨hbounds, hless⟩ := @round_inBounds β w length insert cd v _ rfl hconverts hv
  exact ⟨hbounds, hless hpos⟩

/-- The loop stays in bounds, unless it starts with nothing and on nothing. -/
theorem staysInBounds_iff (h : Allowed length cd opened) :
    StaysInBounds w insert cd length ↔ (length = 0 → opened = true) := by
  constructor
  · rintro hstays rfl
    by_contra hclosed
    rw [Bool.not_eq_true] at hclosed
    subst hclosed
    have hpointer := (hstays _ Relation.ReflTransGen.refl).pointer
    rw [(round_refused h _).1] at hpointer
    exact absurd hpointer (Nat.not_succ_le_zero _)
  · intro hdrop v hreach
    have hentered := @inBounds_entered β length
    have hconverts := converts_of_allowed h hentered hdrop
    exact reaches_invariant (fun _ _ hv hagain => (again_inBounds h hv hagain).1) hreach
      (round_inBounds rfl hconverts hentered).1

/-- The loop ends in any case. -/
theorem loop_dom (h : Allowed length cd opened) : (loop w insert cd length).Dom := by
  change (eval (again w insert cd) (round w insert cd (entered length))).Dom
  cases opened with
  | true =>
      have hstays := (@staysInBounds_iff β w length insert cd true h).mpr fun _ => rfl
      refine @eval_dom_of_descent _ _ (InBounds length) _
        (InvImage.wf Variables.inbytesleft wellFounded_lt) ?_ _
        (hstays _ Relation.ReflTransGen.refl)
      exact fun v v' hv hagain => again_inBounds h hv hagain
  | false =>
      obtain ⟨final, hreach, hrest, -⟩ :=
        @refused_rests β w length insert cd h (round w insert cd (entered length))
      exact Part.dom_iff_mem.mpr ⟨final, mem_eval.mpr ⟨hreach, hrest⟩⟩

theorem ends_inBounds_iff (h : Allowed length cd opened) :
    (loop w insert cd length).Dom ∧ StaysInBounds w insert cd length ↔
      (length = 0 → opened = true) := by
  rw [and_iff_right (loop_dom h)]
  exact staysInBounds_iff h

end Rounds

/-! ## The three loops -/

/-- The loops end and stay in bounds just when the input is not empty or the conversion can be
opened. -/
theorem loops_end_iff (w : Nat) (posix : Posix) :
    (∀ str enc, (narrowToWide w posix.iconvOpen str enc).Dom ∧
          StaysInBounds w wides (posix.iconvOpen (ascii "wchar_t") enc str) str.length ↔
        (str = [] → posix.opened (ascii "wchar_t") enc str = true)) ∧
      (∀ seq enc, (wideToNarrow w posix.iconvOpen seq enc).Dom ∧
          StaysInBounds w id (posix.iconvOpen enc (ascii "wchar_t") (seq.flatMap bytesOf))
            (seq.length * 4) ↔
        (seq = [] → posix.opened enc (ascii "wchar_t") (seq.flatMap bytesOf) = true)) ∧
      ∀ str source target, (narrowToNarrow w posix.iconvOpen str source target).Dom ∧
          StaysInBounds w id (posix.iconvOpen target source str) str.length ↔
        (str = [] → posix.opened target source str = true) := by
  refine ⟨fun str enc => ?_, fun seq enc => ?_, fun str source target => ?_⟩
  · have hallowed := posix.allowed (ascii "wchar_t") enc str
    rw [narrowToWide, ends_inBounds_iff hallowed, List.length_eq_zero_iff]
  · have hallowed := posix.allowed enc (ascii "wchar_t") (seq.flatMap bytesOf)
    rw [length_units] at hallowed
    have hempty : seq.length * 4 = 0 ↔ seq = [] := by
      rw [← List.length_eq_zero_iff]
      omega
    rw [wideToNarrow, ends_inBounds_iff hallowed, hempty]
  · have hallowed := posix.allowed target source str
    rw [narrowToNarrow, ends_inBounds_iff hallowed, List.length_eq_zero_iff]

/-- An empty string, where nothing can be opened. -/
theorem not_loops_end : ¬∀ (w : Nat) (posix : Posix) (str enc : Bytes),
    (narrowToWide w posix.iconvOpen str enc).Dom ∧
      StaysInBounds w wides (posix.iconvOpen (ascii "wchar_t") enc str) str.length := by
  intro hall
  obtain ⟨-, hstays⟩ := hall 64 Posix.closed [] []
  have hopened := (staysInBounds_iff (Posix.closed.allowed _ _ _)).mp hstays rfl
  cases hopened

end BlackCircle.Console.Bounds
