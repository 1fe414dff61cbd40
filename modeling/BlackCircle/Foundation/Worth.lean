import BlackCircle.Foundation.Peg
import Mathlib.Algebra.GroupWithZero.Nat

/-!
# What a match is worth

Some tokens count and others do not.  A value has a worth, and a parser pays if
a match takes at least that many counted tokens from its input.  A credit is
what was taken before and is not spent yet: one operand of a sequence earns the
credit of the next.
-/

namespace BlackCircle.Foundation.Worth

open BlackCircle.Foundation.Peg

variable {τ α β : Type} {counts : τ → Bool} {credit : Nat}

/-- With `credit` in hand, every match takes what its value is worth. -/
def Pays (counts : τ → Bool) (credit : Nat) (worth : α → Nat) (p : Parser τ α) : Prop :=
  ∀ input value rest, p.run input = .ok value rest →
    rest.countP counts + worth value ≤ input.countP counts + credit

section Rules

variable {p q : Parser τ α} {worth earned : α → Nat} {next : α → Parser τ β}

theorem pays_pure {value : α} (h : worth value ≤ credit) :
    Pays counts credit worth (pure value : Parser τ α) := by
  intro input value' rest hok
  cases hok
  omega

theorem pays_refuse : Pays counts credit worth (refuse : Parser τ α) := by
  intro input value rest hok
  cases hok

/-- The credit may grow together with the worth. -/
theorem Pays.mono {credit' : Nat} {worth' : α → Nat} (hp : Pays counts credit worth p)
    (h : ∀ value, worth' value + credit ≤ worth value + credit') :
    Pays counts credit' worth' p := by
  intro input value rest hok
  have hpaid := hp input value rest hok
  have hless := h value
  omega

/-- What a parser takes is added to a credit. -/
theorem Pays.saved (hp : Pays counts 0 worth p) (credit : Nat) :
    Pays counts credit (fun value => worth value + credit) p :=
  hp.mono fun _ => le_refl _

/-- A parser that puts nothing back keeps a credit. -/
theorem Pays.of_keeps (hp : Keeps p) : Pays counts credit (fun _ => credit) p := by
  intro input value rest hok
  have hle : rest.countP counts ≤ input.countP counts :=
    (hp input value rest hok).sublist.countP_le
  exact Nat.add_le_add_right hle credit

theorem Pays.bind {worth : β → Nat} (hp : Pays counts credit earned p)
    (hnext : ∀ value, Pays counts (earned value) worth (next value)) :
    Pays counts credit worth (p >>= next) := by
  intro input value rest hok
  obtain ⟨first, middle, hfirst, hrest⟩ := bind_eq_ok hok
  have hearned := hp input first middle hfirst
  have hspent := hnext first middle value rest hrest
  omega

theorem Pays.must (hp : Pays counts credit worth p) : Pays counts credit worth (must p) :=
  fun input value rest hok => hp input value rest (must_eq_ok hok)

theorem Pays.alt (hp : Pays counts credit worth p) (hq : Pays counts credit worth q) :
    Pays counts credit worth (alt p q) := by
  intro input value rest hok
  cases hfirst : p.run input with
  | ok first middle =>
      rw [alt_left hfirst] at hok
      cases hok
      exact hp input value rest hfirst
  | fail =>
      rw [alt_right hfirst] at hok
      exact hq input value rest hok
  | throw fault => simp [Peg.alt, hfirst] at hok

theorem Pays.opt {worth : Option α → Nat}
    (hp : Pays counts credit (fun value => worth (some value)) p) (hnone : worth none ≤ credit) :
    Pays counts credit worth (opt p) := by
  intro input value rest hok
  cases hfirst : p.run input with
  | ok first middle =>
      rw [opt_ok hfirst] at hok
      cases hok
      exact hp input first rest hfirst
  | fail =>
      rw [opt_fail hfirst] at hok
      cases hok
      omega
  | throw fault => simp [Peg.opt, hfirst] at hok

/-- A parser that puts nothing back may keep its credit instead. -/
theorem Pays.max_credit (hp : Pays counts credit worth p) (hkeeps : Keeps p) :
    Pays counts credit (fun value => max credit (worth value)) p := by
  intro input value rest hok
  have hpaid := hp input value rest hok
  have hkept : rest.countP counts + credit ≤ input.countP counts + credit :=
    Pays.of_keeps hkeeps input value rest hok
  show rest.countP counts + max credit (worth value) ≤ input.countP counts + credit
  omega

theorem pays_satisfy (accepts : τ → Bool) :
    Pays counts 0 (fun token => [token].countP counts) (satisfy accepts) := by
  intro input token rest hok
  obtain ⟨-, rfl⟩ := satisfy_eq_ok hok
  rw [← List.singleton_append, List.countP_append, Nat.add_comm]
  exact le_refl _

theorem pays_satisfy_of {accepts : τ → Bool}
    (h : ∀ token, accepts token = true → counts token = true) :
    Pays counts 0 (fun _ => 1) (satisfy accepts) := by
  intro input token rest hok
  obtain ⟨haccepts, rfl⟩ := satisfy_eq_ok hok
  rw [List.countP_cons_of_pos (h token haccepts)]
  exact le_refl _

theorem pays_lit [DecidableEq τ] (word : List τ) :
    Pays counts 0 (fun _ => word.countP counts) (lit word) := by
  intro input value rest hok
  rw [lit_eq_ok hok, List.countP_append, Nat.add_comm]
  exact le_refl _

/-- A repetition is worth what its rounds are worth together. -/
theorem Pays.many (hp : Pays counts 0 worth p) :
    Pays counts 0 (fun values => (values.map worth).sum) (many p) := by
  suffices hwithin : ∀ bound input values rest, manyWithin p bound input = .ok values rest →
      rest.countP counts + (values.map worth).sum ≤ input.countP counts from
    fun input values rest hok => hwithin _ input values rest hok
  intro bound
  induction bound with
  | zero => intro input values rest hok; cases hok
  | succ bound ih =>
      intro input values rest hok
      cases hround : p.run input with
      | fail =>
          simp only [manyWithin, hround, Reply.ok.injEq] at hok
          simp [← hok.1, hok.2]
      | throw fault => simp [manyWithin, hround] at hok
      | ok value middle =>
          have hpaid := hp input value middle hround
          simp only [manyWithin, hround] at hok
          cases hlater : manyWithin p bound middle with
          | ok later last =>
              have hmore := ih middle later last hlater
              simp only [hlater, Reply.bind_ok, run_pure, Reply.ok.injEq] at hok
              rw [← hok.1, ← hok.2, List.map_cons, List.sum_cons]
              omega
          | fail => simp [hlater] at hok
          | throw fault => simp [hlater] at hok

/-- In a separated list every item but one pays for its separator; the credit is for that one. -/
theorem Pays.sepBy1 {sep : Parser τ β} {price : Nat} (hp : Pays counts 0 worth p)
    (hsep : Pays counts 0 (fun _ => price) sep) :
    Pays counts price (fun values => (values.map fun value => worth value + price).sum)
      (sepBy1 p sep) := by
  have hround : Pays counts 0 (fun value => worth value + price) (do let _ ← sep; p) :=
    hsep.bind fun _ => hp.saved price
  refine (hp.saved price).bind fun first => ((hround.many).saved _).bind fun others => ?_
  apply pays_pure
  rw [List.map_cons, List.sum_cons]
  omega

end Rules

end BlackCircle.Foundation.Worth
