import Mathlib.Data.List.Infix

/-!
# Parsing expressions with expectation points

A parser reads a token list from the front.  It matches and leaves a rest, it
refuses softly, or it throws.  Choice and repetition recover from a soft
refusal only; `must` turns a refusal into a throw, so that `a` followed by
`must b` is the operator that throws when `b` does not follow a matched `a`.

Repetition and recursive grammars are bounded by a count.  A bound that is used
up throws `exhausted`; the lemmas on `Advances` show that a bound taken from
the input is never used up.
-/

namespace BlackCircle.Foundation.Peg

/-- What a parser throws: an unmet expectation, or an exhausted bound. -/
inductive Fault where
  | expectation
  | exhausted
  deriving DecidableEq, Repr

/-- The three answers of a parser. -/
inductive Reply (τ α : Type) where
  | ok (value : α) (rest : List τ)
  | fail
  | throw (fault : Fault)
  deriving DecidableEq, Repr

structure Parser (τ α : Type) where
  run : List τ → Reply τ α

variable {τ α β : Type}

def Reply.bind (reply : Reply τ α) (next : α → Parser τ β) : Reply τ β :=
  match reply with
  | .ok value rest => (next value).run rest
  | .fail => .fail
  | .throw fault => .throw fault

instance : Monad (Parser τ) where
  pure value := ⟨fun input => .ok value input⟩
  bind p next := ⟨fun input => (p.run input).bind next⟩

/-- The parser that always refuses. -/
def refuse : Parser τ α := ⟨fun _ => .fail⟩

/-- An operand behind an expectation point: its refusal is thrown. -/
def must (p : Parser τ α) : Parser τ α :=
  ⟨fun input =>
    match p.run input with
    | .ok value rest => .ok value rest
    | .fail => .throw .expectation
    | .throw fault => .throw fault⟩

/-- Ordered choice. -/
def alt (p q : Parser τ α) : Parser τ α :=
  ⟨fun input =>
    match p.run input with
    | .ok value rest => .ok value rest
    | .fail => q.run input
    | .throw fault => .throw fault⟩

/-- Optional operand. -/
def opt (p : Parser τ α) : Parser τ (Option α) :=
  ⟨fun input =>
    match p.run input with
    | .ok value rest => .ok (some value) rest
    | .fail => .ok none input
    | .throw fault => .throw fault⟩

/-- Negative lookahead; nothing is consumed. -/
def notAhead (p : Parser τ α) : Parser τ Unit :=
  ⟨fun input =>
    match p.run input with
    | .ok _ _ => .fail
    | .fail => .ok () input
    | .throw fault => .throw fault⟩

/-- One token of a class. -/
def satisfy (accepts : τ → Bool) : Parser τ τ :=
  ⟨fun input =>
    match input with
    | [] => .fail
    | token :: rest => if accepts token then .ok token rest else .fail⟩

/-- A literal word. -/
def lit [DecidableEq τ] (word : List τ) : Parser τ Unit :=
  ⟨fun input => if word <+: input then .ok () (input.drop word.length) else .fail⟩

/-- At most `bound` rounds of a repetition that ends with the first refusal. -/
def manyWithin (p : Parser τ α) : Nat → List τ → Reply τ (List α)
  | 0, _ => .throw .exhausted
  | bound + 1, input =>
      match p.run input with
      | .ok value rest => (manyWithin p bound rest).bind fun values => pure (value :: values)
      | .fail => .ok [] input
      | .throw fault => .throw fault

/-- Zero or more matches. -/
def many (p : Parser τ α) : Parser τ (List α) :=
  ⟨fun input => manyWithin p (input.length + 1) input⟩

/-- One or more matches. -/
def many1 (p : Parser τ α) : Parser τ (List α) := do
  let value ← p
  let values ← many p
  return value :: values

/-- One or more matches with a separator between two of them. -/
def sepBy1 (p : Parser τ α) (sep : Parser τ β) : Parser τ (List α) := do
  let value ← p
  let values ← many (do let _ ← sep; p)
  return value :: values

/-! ## Evaluation rules -/

section Evaluation

variable {p q : Parser τ α} {next : α → Parser τ β} {input rest : List τ} {value : α}

@[simp]
theorem Reply.bind_ok (next : α → Parser τ β) (value : α) (rest : List τ) :
    (Reply.ok value rest).bind next = (next value).run rest := rfl

@[simp]
theorem Reply.bind_fail (next : α → Parser τ β) :
    (Reply.fail : Reply τ α).bind next = .fail := rfl

@[simp]
theorem Reply.bind_throw (next : α → Parser τ β) (fault : Fault) :
    (Reply.throw fault : Reply τ α).bind next = .throw fault := rfl

@[simp]
theorem run_pure (value : α) (input : List τ) :
    (pure value : Parser τ α).run input = .ok value input := rfl

theorem run_bind (p : Parser τ α) (next : α → Parser τ β) (input : List τ) :
    (p >>= next).run input = (p.run input).bind next := rfl

theorem bind_ok (h : p.run input = .ok value rest) :
    (p >>= next).run input = (next value).run rest := by
  rw [run_bind, h, Reply.bind_ok]

theorem bind_fail (h : p.run input = .fail) : (p >>= next).run input = .fail := by
  rw [run_bind, h, Reply.bind_fail]

theorem bind_throw {fault : Fault} (h : p.run input = .throw fault) :
    (p >>= next).run input = .throw fault := by
  rw [run_bind, h, Reply.bind_throw]

theorem must_ok (h : p.run input = .ok value rest) : (must p).run input = .ok value rest := by
  simp [must, h]

theorem must_fail (h : p.run input = .fail) :
    (must p).run input = .throw .expectation := by
  simp [must, h]

/-- Sequencing behind an expectation point. -/
theorem must_bind_ok (h : p.run input = .ok value rest) :
    (must p >>= next).run input = (next value).run rest :=
  bind_ok (must_ok h)

/-- As `bind_ok`, with the parser that runs next spelled out. -/
theorem bind_into {q : Parser τ β} (h : p.run input = .ok value rest) (hq : next value = q) :
    (p >>= next).run input = q.run rest := by
  rw [bind_ok h, hq]

theorem must_bind_fail (h : p.run input = .fail) :
    (must p >>= next).run input = .throw .expectation := by
  rw [run_bind, must_fail h, Reply.bind_throw]

theorem alt_left (h : p.run input = .ok value rest) :
    (alt p q).run input = .ok value rest := by
  simp [alt, h]

theorem alt_right (h : p.run input = .fail) : (alt p q).run input = q.run input := by
  simp [alt, h]

theorem must_throw {fault : Fault} (h : p.run input = .throw fault) :
    (must p).run input = .throw fault := by
  simp [must, h]

theorem must_bind_throw {fault : Fault} (h : p.run input = .throw fault) :
    (must p >>= next).run input = .throw fault :=
  bind_throw (must_throw h)

theorem alt_throw {fault : Fault} (h : p.run input = .throw fault) :
    (alt p q).run input = .throw fault := by
  simp [alt, h]

theorem opt_throw {fault : Fault} (h : p.run input = .throw fault) :
    (opt p).run input = .throw fault := by
  simp [opt, h]

theorem opt_ok (h : p.run input = .ok value rest) :
    (opt p).run input = .ok (some value) rest := by
  simp [opt, h]

theorem opt_fail (h : p.run input = .fail) : (opt p).run input = .ok none input := by
  simp [opt, h]

theorem notAhead_ok (h : p.run input = .fail) : (notAhead p).run input = .ok () input := by
  simp [notAhead, h]

theorem notAhead_fail (h : p.run input = .ok value rest) : (notAhead p).run input = .fail := by
  simp [notAhead, h]

@[simp]
theorem satisfy_nil (accepts : τ → Bool) : (satisfy accepts).run [] = .fail := rfl

theorem satisfy_ok {accepts : τ → Bool} {token : τ} (h : accepts token = true) :
    (satisfy accepts).run (token :: rest) = .ok token rest := by
  simp [satisfy, h]

theorem satisfy_fail {accepts : τ → Bool} {token : τ} (h : accepts token = false) :
    (satisfy accepts).run (token :: rest) = .fail := by
  simp [satisfy, h]

variable [DecidableEq τ]

@[simp]
theorem lit_append (word rest : List τ) : (lit word).run (word ++ rest) = .ok () rest := by
  simp [lit]

theorem lit_fail {word : List τ} (h : ¬ word <+: input) : (lit word).run input = .fail := by
  simp [lit, h]

end Evaluation

/-! ## Consumption -/

/-- Every match leaves a suffix of the input. -/
def Keeps (p : Parser τ α) : Prop :=
  ∀ input value rest, p.run input = .ok value rest → rest <:+ input

/-- Every match leaves a proper suffix of the input. -/
def Advances (p : Parser τ α) : Prop :=
  ∀ input value rest, p.run input = .ok value rest → rest <:+ input ∧ rest.length < input.length

/-- The parser never refuses softly. -/
def Settles (p : Parser τ α) : Prop :=
  ∀ input, p.run input ≠ .fail

/-- A parser that keeps to its input, and on inputs shorter than `n` never uses up a bound. -/
structure Tame (n : Nat) (p : Parser τ α) : Prop where
  keeps : Keeps p
  bounded : ∀ input, input.length < n → p.run input ≠ .throw .exhausted

theorem Advances.keeps {p : Parser τ α} (h : Advances p) : Keeps p :=
  fun input value rest hok => (h input value rest hok).1

section Consumption

variable {p q : Parser τ α} {next : α → Parser τ β}

/-- A match of a sequence comes from a match of its first operand. -/
theorem bind_eq_ok {input rest : List τ} {value : β}
    (h : (p >>= next).run input = .ok value rest) :
    ∃ first middle, p.run input = .ok first middle ∧
      (next first).run middle = .ok value rest := by
  rw [run_bind] at h
  cases hp : p.run input with
  | ok first middle => exact ⟨first, middle, rfl, by rwa [hp] at h⟩
  | fail => rw [hp] at h; cases h
  | throw fault => rw [hp] at h; cases h

/-- A fault of a sequence is one of its first operand, or one of the second behind a match of
the first. -/
theorem bind_eq_throw {input : List τ} {fault : Fault}
    (h : (p >>= next).run input = .throw fault) :
    p.run input = .throw fault ∨
      ∃ first middle, p.run input = .ok first middle ∧ (next first).run middle = .throw fault := by
  rw [run_bind] at h
  cases hp : p.run input with
  | ok first middle => exact Or.inr ⟨first, middle, rfl, by rwa [hp] at h⟩
  | fail => rw [hp] at h; cases h
  | throw thrown =>
      rw [hp, Reply.bind_throw] at h
      cases h
      exact Or.inl rfl

theorem must_eq_ok {input rest : List τ} {value : α}
    (h : (must p).run input = .ok value rest) : p.run input = .ok value rest := by
  cases hp : p.run input with
  | ok first middle => simpa [must, hp] using h
  | fail => simp [must, hp] at h
  | throw fault => simp [must, hp] at h

/-- A match of a choice is one of the first operand, or one of the second where the first
refuses. -/
theorem alt_eq_ok {input rest : List τ} {value : α} (h : (alt p q).run input = .ok value rest) :
    p.run input = .ok value rest ∨ (p.run input = .fail ∧ q.run input = .ok value rest) := by
  cases hp : p.run input with
  | ok first middle => exact Or.inl (by simpa [alt, hp] using h)
  | fail => exact Or.inr ⟨rfl, by rwa [alt_right hp] at h⟩
  | throw fault => simp [alt, hp] at h

theorem alt_eq_fail {input : List τ} (h : (alt p q).run input = .fail) :
    p.run input = .fail ∧ q.run input = .fail := by
  cases hp : p.run input with
  | ok first middle => simp [alt, hp] at h
  | fail => exact ⟨rfl, by rwa [alt_right hp] at h⟩
  | throw fault => simp [alt, hp] at h

theorem opt_eq_ok {input rest : List τ} {found : Option α}
    (h : (opt p).run input = .ok found rest) :
    (∃ value, found = some value ∧ p.run input = .ok value rest) ∨
      (found = none ∧ rest = input ∧ p.run input = .fail) := by
  cases hp : p.run input with
  | ok value middle =>
      rw [opt_ok hp] at h
      cases h
      exact Or.inl ⟨value, rfl, rfl⟩
  | fail =>
      rw [opt_fail hp] at h
      cases h
      exact Or.inr ⟨rfl, rfl, rfl⟩
  | throw fault => simp [opt, hp] at h

theorem notAhead_eq_ok {input rest : List τ} (h : (notAhead p).run input = .ok () rest) :
    rest = input ∧ p.run input = .fail := by
  cases hp : p.run input with
  | ok value middle => simp [notAhead, hp] at h
  | fail =>
      rw [notAhead_ok hp] at h
      cases h
      exact ⟨rfl, rfl⟩
  | throw fault => simp [notAhead, hp] at h

theorem keeps_pure (value : α) : Keeps (pure value : Parser τ α) := by
  intro input value' rest h
  cases h
  exact List.suffix_rfl

theorem keeps_refuse : Keeps (refuse : Parser τ α) := by
  intro input value rest h
  cases h

theorem Keeps.bind (hp : Keeps p) (hnext : ∀ value, Keeps (next value)) :
    Keeps (p >>= next) := by
  intro input value rest h
  obtain ⟨first, middle, hfirst, hrest⟩ := bind_eq_ok h
  exact (hnext first middle value rest hrest).trans (hp input first middle hfirst)

theorem Advances.bind (hp : Advances p) (hnext : ∀ value, Keeps (next value)) :
    Advances (p >>= next) := by
  intro input value rest h
  obtain ⟨first, middle, hfirst, hrest⟩ := bind_eq_ok h
  have hsuffix := hnext first middle value rest hrest
  have hlt := (hp input first middle hfirst).2
  exact ⟨hsuffix.trans (hp input first middle hfirst).1,
    Nat.lt_of_le_of_lt hsuffix.length_le hlt⟩

theorem Keeps.bind_advances (hp : Keeps p) (hnext : ∀ value, Advances (next value)) :
    Advances (p >>= next) := by
  intro input value rest h
  obtain ⟨first, middle, hfirst, hrest⟩ := bind_eq_ok h
  have hsuffix := hp input first middle hfirst
  obtain ⟨hlater, hlt⟩ := hnext first middle value rest hrest
  exact ⟨hlater.trans hsuffix, Nat.lt_of_lt_of_le hlt hsuffix.length_le⟩

theorem Advances.must (hp : Advances p) : Advances (must p) :=
  fun input value rest h => hp input value rest (must_eq_ok h)

theorem Advances.alt (hp : Advances p) (hq : Advances q) :
    Advances (alt p q) := by
  intro input value rest h
  cases hfirst : p.run input with
  | ok first middle =>
      rw [alt_left hfirst] at h
      cases h
      exact hp input value rest hfirst
  | fail =>
      rw [alt_right hfirst] at h
      exact hq input value rest h
  | throw fault => simp [Peg.alt, hfirst] at h

theorem Keeps.must (hp : Keeps p) : Keeps (must p) :=
  fun input value rest h => hp input value rest (must_eq_ok h)

theorem Keeps.opt (hp : Keeps p) : Keeps (opt p) := by
  intro input value rest h
  cases hp' : p.run input with
  | ok first middle =>
      rw [opt_ok hp'] at h
      cases h
      exact hp input first rest hp'
  | fail =>
      rw [opt_fail hp'] at h
      cases h
      exact List.suffix_rfl
  | throw fault => simp [Peg.opt, hp'] at h

theorem advances_satisfy (accepts : τ → Bool) : Advances (satisfy accepts) := by
  intro input value rest h
  cases input with
  | nil => cases h
  | cons token input =>
      by_cases haccepts : accepts token
      · rw [satisfy_ok haccepts] at h
        cases h
        exact ⟨List.suffix_cons _ _, by simp⟩
      · rw [satisfy_fail (by simpa using haccepts)] at h
        cases h

/-- A literal leaves exactly what stands behind it. -/
theorem lit_eq_ok [DecidableEq τ] {word input rest : List τ} {value : Unit}
    (h : (lit word).run input = .ok value rest) : input = word ++ rest := by
  by_cases hprefix : word <+: input
  · obtain ⟨tail, rfl⟩ := hprefix
    rw [lit_append] at h
    cases h
    rfl
  · rw [lit_fail hprefix] at h
    cases h

theorem keeps_lit [DecidableEq τ] (word : List τ) : Keeps (lit word) := by
  intro input value rest h
  rw [lit_eq_ok h]
  exact List.suffix_append word rest

theorem advances_lit [DecidableEq τ] {word : List τ} (hword : word ≠ []) :
    Advances (lit word) := by
  intro input value rest h
  have hlen : 0 < word.length := List.length_pos_iff.mpr hword
  refine ⟨keeps_lit word input value rest h, ?_⟩
  rw [lit_eq_ok h, List.length_append]
  omega

theorem keeps_many (hp : Keeps p) : Keeps (many p) := by
  suffices hwithin : ∀ bound input values rest,
      manyWithin p bound input = .ok values rest → rest <:+ input from
    fun input values rest h => hwithin _ input values rest h
  intro bound
  induction bound with
  | zero => intro input values rest h; cases h
  | succ bound ih =>
      intro input values rest h
      cases hround : p.run input with
      | fail =>
          simp only [manyWithin, hround, Reply.ok.injEq] at h
          exact h.2 ▸ List.suffix_rfl
      | throw fault => simp [manyWithin, hround] at h
      | ok value middle =>
          simp only [manyWithin, hround] at h
          cases hlater : manyWithin p bound middle with
          | ok later last =>
              simp only [hlater, Reply.bind_ok, run_pure, Reply.ok.injEq] at h
              rw [← h.2]
              exact (ih middle later last hlater).trans (hp input value middle hround)
          | fail => simp [hlater] at h
          | throw fault => simp [hlater] at h

theorem Advances.many1 (hp : Advances p) : Advances (many1 p) :=
  hp.bind fun _ => (keeps_many hp.keeps).bind fun _ => keeps_pure _

/-! ## Settling -/

theorem settles_pure (value : α) : Settles (pure value : Parser τ α) := by
  rintro input ⟨⟩

theorem settles_must (p : Parser τ α) : Settles (must p) := by
  intro input h
  cases hp : p.run input <;> simp [must, hp] at h

theorem settles_opt (p : Parser τ α) : Settles (opt p) := by
  intro input h
  cases hp : p.run input <;> simp [opt, hp] at h

theorem Settles.bind (hp : Settles p) (hnext : ∀ value, Settles (next value)) :
    Settles (p >>= next) := by
  intro input h
  rw [run_bind] at h
  cases hfirst : p.run input with
  | ok value rest =>
      rw [hfirst] at h
      exact hnext value rest h
  | fail => exact hp input hfirst
  | throw fault => simp [hfirst] at h

theorem settles_many (p : Parser τ α) : Settles (many p) := by
  suffices hwithin : ∀ bound input, manyWithin p bound input ≠ .fail from
    fun input => hwithin _ input
  intro bound
  induction bound with
  | zero => rintro input ⟨⟩
  | succ bound ih =>
      intro input h
      cases hround : p.run input with
      | fail => simp [manyWithin, hround] at h
      | throw fault => simp [manyWithin, hround] at h
      | ok value rest =>
          simp only [manyWithin, hround] at h
          cases hlater : manyWithin p bound rest with
          | ok values last => simp [hlater] at h
          | fail => exact ih rest hlater
          | throw fault => simp [hlater] at h

/-! ## Tame parsers -/

variable {n : Nat}

theorem tame_pure (value : α) : Tame n (pure value : Parser τ α) where
  keeps := keeps_pure value
  bounded := by rintro input - ⟨⟩

theorem tame_refuse : Tame n (refuse : Parser τ α) where
  keeps := keeps_refuse
  bounded := by rintro input - ⟨⟩

theorem tame_satisfy (accepts : τ → Bool) : Tame n (satisfy accepts) where
  keeps := (advances_satisfy accepts).keeps
  bounded := by
    intro input _ h
    cases input with
    | nil => cases h
    | cons token input => by_cases haccepts : accepts token <;> simp [satisfy, haccepts] at h

theorem tame_lit [DecidableEq τ] (word : List τ) : Tame n (lit word) where
  keeps := keeps_lit word
  bounded := by
    intro input _ h
    by_cases hprefix : word <+: input <;> simp [lit, hprefix] at h

theorem Tame.bind (hp : Tame n p) (hnext : ∀ value, Tame n (next value)) :
    Tame n (p >>= next) where
  keeps := hp.keeps.bind fun value => (hnext value).keeps
  bounded := by
    intro input hlt h
    obtain hthrow | ⟨value, rest, hfirst, hthrow⟩ := bind_eq_throw h
    · exact hp.bounded input hlt hthrow
    · have hle := (hp.keeps input value rest hfirst).length_le
      exact (hnext value).bounded rest (by omega) hthrow

/-- Behind an operand that consumes something, the input is shorter. -/
theorem Tame.bind_shorter (hp : Tame (n + 1) p) (hadvances : Advances p)
    (hnext : ∀ value, Tame n (next value)) : Tame (n + 1) (p >>= next) where
  keeps := hp.keeps.bind fun value => (hnext value).keeps
  bounded := by
    intro input hlt h
    obtain hthrow | ⟨value, rest, hfirst, hthrow⟩ := bind_eq_throw h
    · exact hp.bounded input hlt hthrow
    · have hless := (hadvances input value rest hfirst).2
      exact (hnext value).bounded rest (by omega) hthrow

theorem Tame.must (hp : Tame n p) : Tame n (must p) where
  keeps := hp.keeps.must
  bounded := by
    intro input hlt h
    cases hfirst : p.run input with
    | ok value rest => simp [Peg.must, hfirst] at h
    | fail => simp [Peg.must, hfirst] at h
    | throw fault => exact hp.bounded input hlt (by simpa [Peg.must, hfirst] using h)

theorem Tame.opt (hp : Tame n p) : Tame n (opt p) where
  keeps := hp.keeps.opt
  bounded := by
    intro input hlt h
    cases hfirst : p.run input with
    | ok value rest => simp [Peg.opt, hfirst] at h
    | fail => simp [Peg.opt, hfirst] at h
    | throw fault => exact hp.bounded input hlt (by simpa [Peg.opt, hfirst] using h)

theorem Tame.alt (hp : Tame n p) (hq : Tame n q) : Tame n (alt p q) where
  keeps := by
    intro input value rest h
    cases hfirst : p.run input with
    | ok first middle =>
        rw [alt_left hfirst] at h
        cases h
        exact hp.keeps input value rest hfirst
    | fail =>
        rw [alt_right hfirst] at h
        exact hq.keeps input value rest h
    | throw fault => simp [Peg.alt, hfirst] at h
  bounded := by
    intro input hlt h
    cases hfirst : p.run input with
    | ok value rest => simp [Peg.alt, hfirst] at h
    | fail =>
        rw [alt_right hfirst] at h
        exact hq.bounded input hlt h
    | throw fault => exact hp.bounded input hlt (by simpa [Peg.alt, hfirst] using h)

theorem Tame.notAhead (hp : Tame n p) : Tame n (notAhead p) where
  keeps := by
    intro input value rest h
    cases hfirst : p.run input with
    | ok first middle => simp [Peg.notAhead, hfirst] at h
    | fail =>
        simp only [Peg.notAhead, hfirst, Reply.ok.injEq] at h
        exact h.2 ▸ List.suffix_rfl
    | throw fault => simp [Peg.notAhead, hfirst] at h
  bounded := by
    intro input hlt h
    cases hfirst : p.run input with
    | ok value rest => simp [Peg.notAhead, hfirst] at h
    | fail => simp [Peg.notAhead, hfirst] at h
    | throw fault => exact hp.bounded input hlt (by simpa [Peg.notAhead, hfirst] using h)

/-- The bound of a repetition whose rounds all consume is never used up. -/
theorem Tame.many (hp : Tame n p) (hadvances : Advances p) : Tame n (many p) where
  keeps := keeps_many hp.keeps
  bounded := by
    suffices hwithin : ∀ bound input, input.length < bound → input.length < n →
        manyWithin p bound input ≠ .throw .exhausted from
      fun input => hwithin _ input (Nat.lt_succ_self _)
    intro bound
    induction bound with
    | zero =>
        intro input hlt
        omega
    | succ bound ih =>
        intro input hlt hn
        cases hround : p.run input with
        | fail => simp [manyWithin, hround]
        | throw fault =>
            have hfault : fault ≠ .exhausted := fun h => hp.bounded input hn (h ▸ hround)
            simpa [manyWithin, hround] using hfault
        | ok value rest =>
            have hless := (hadvances input value rest hround).2
            have hrest := ih rest (by omega) (by omega)
            simp only [manyWithin, hround]
            cases hlater : manyWithin p bound rest with
            | ok values last => simp
            | fail => simp
            | throw fault => simpa [hlater] using hrest

theorem Tame.many1 (hp : Tame n p) (hadvances : Advances p) : Tame n (many1 p) :=
  hp.bind fun _ => (hp.many hadvances).bind fun _ => tame_pure _

theorem Tame.sepBy1 {sep : Parser τ β} (hp : Tame n p) (hsep : Tame n sep)
    (hadvances : Advances sep) : Tame n (sepBy1 p sep) :=
  hp.bind fun _ =>
    ((hsep.bind fun _ => hp).many (hadvances.bind fun _ => hp.keeps)).bind fun _ => tame_pure _

end Consumption

/-! ## Parsers without expectation points -/

/-- The parser never throws. -/
def Quiet (p : Parser τ α) : Prop :=
  ∀ input fault, p.run input ≠ .throw fault

section Quiet

variable {p : Parser τ α} {next : α → Parser τ β}

theorem quiet_pure (value : α) : Quiet (pure value : Parser τ α) := by
  rintro input fault ⟨⟩

theorem quiet_refuse : Quiet (refuse : Parser τ α) := by
  rintro input fault ⟨⟩

theorem quiet_satisfy (accepts : τ → Bool) : Quiet (satisfy accepts) := by
  intro input fault h
  cases input with
  | nil => cases h
  | cons token input => by_cases haccepts : accepts token <;> simp [satisfy, haccepts] at h

theorem quiet_lit [DecidableEq τ] (word : List τ) : Quiet (lit word) := by
  intro input fault h
  by_cases hprefix : word <+: input <;> simp [lit, hprefix] at h

theorem Quiet.bind (hp : Quiet p) (hnext : ∀ value, Quiet (next value)) : Quiet (p >>= next) := by
  intro input fault h
  rw [run_bind] at h
  cases hfirst : p.run input with
  | ok value rest =>
      rw [hfirst] at h
      exact hnext value rest fault h
  | fail => simp [hfirst] at h
  | throw other => exact hp input other hfirst

theorem Quiet.opt (hp : Quiet p) : Quiet (opt p) := by
  intro input fault h
  cases hfirst : p.run input with
  | ok value rest => simp [Peg.opt, hfirst] at h
  | fail => simp [Peg.opt, hfirst] at h
  | throw other => exact hp input other hfirst

theorem Quiet.notAhead (hp : Quiet p) : Quiet (notAhead p) := by
  intro input fault h
  cases hfirst : p.run input with
  | ok value rest => simp [Peg.notAhead, hfirst] at h
  | fail => simp [Peg.notAhead, hfirst] at h
  | throw other => exact hp input other hfirst

theorem Quiet.many (hp : Quiet p) (hadvances : Advances p) : Quiet (many p) := by
  suffices hwithin : ∀ bound input fault, input.length < bound →
      manyWithin p bound input ≠ .throw fault from
    fun input fault => hwithin _ input fault (Nat.lt_succ_self _)
  intro bound
  induction bound with
  | zero =>
      intro input fault hlt
      omega
  | succ bound ih =>
      intro input fault hlt
      cases hround : p.run input with
      | fail => simp [manyWithin, hround]
      | throw other => exact absurd hround (hp input other)
      | ok value rest =>
          have hless := (hadvances input value rest hround).2
          simp only [manyWithin, hround]
          cases hlater : manyWithin p bound rest with
          | ok values last => simp
          | fail => simp
          | throw other => exact absurd hlater (ih rest other (by omega))

theorem Quiet.many1 (hp : Quiet p) (hadvances : Advances p) : Quiet (many1 p) :=
  hp.bind fun _ => (hp.many hadvances).bind fun _ => quiet_pure _

end Quiet

/-! ## Repetition -/

section Repetition

variable {p : Parser τ α}

/-- Past the length of the input the bound does not matter. -/
theorem manyWithin_eq (hp : Advances p) {small large : Nat} (hle : small ≤ large)
    {input : List τ} (hlt : input.length < small) :
    manyWithin p large input = manyWithin p small input := by
  induction large generalizing small input with
  | zero => omega
  | succ large ih =>
      cases small with
      | zero => omega
      | succ small =>
          cases hround : p.run input with
          | fail => simp [manyWithin, hround]
          | throw fault => simp [manyWithin, hround]
          | ok value rest =>
              have hrest := (hp input value rest hround).2
              have hsame : manyWithin p large rest = manyWithin p small rest :=
                ih (by omega) (by omega)
              simp only [manyWithin, hround, hsame]

theorem many_fail {input : List τ} (h : p.run input = .fail) :
    (many p).run input = .ok [] input := by
  simp [many, manyWithin, h]

theorem many_throw {input : List τ} {fault : Fault} (h : p.run input = .throw fault) :
    (many p).run input = .throw fault := by
  simp [many, manyWithin, h]

theorem sepBy1_throw {sep : Parser τ β} {input : List τ} {fault : Fault}
    (h : p.run input = .throw fault) : (sepBy1 p sep).run input = .throw fault :=
  bind_throw h

/-- One round of a repetition. -/
theorem many_round (hp : Advances p) {input rest : List τ} {value : α}
    (h : p.run input = .ok value rest) :
    (many p).run input = ((many p).run rest).bind fun values => pure (value :: values) := by
  have hlt := (hp input value rest h).2
  have hmore : manyWithin p input.length rest = (many p).run rest :=
    manyWithin_eq hp hlt (Nat.lt_succ_self _)
  rw [← hmore]
  simp only [many, manyWithin, h]

theorem many_cons (hp : Advances p) {input rest last : List τ} {value : α} {values : List α}
    (h : p.run input = .ok value rest) (hmore : (many p).run rest = .ok values last) :
    (many p).run input = .ok (value :: values) last := by
  rw [many_round hp h, hmore]
  rfl

/-- A reply without its value. -/
def Reply.outcome (reply : Reply τ α) : Reply τ Unit := reply.bind fun _ => pure ()

theorem Reply.outcome_bind_pure (reply : Reply τ α) (f : α → β) :
    (reply.bind fun value => pure (f value)).outcome = reply.outcome := by
  cases reply <;> rfl

theorem Reply.outcome_eq_ok {reply : Reply τ α} {rest : List τ}
    (h : reply.outcome = .ok () rest) : ∃ value, reply = .ok value rest := by
  cases reply with
  | ok value last =>
      cases h
      exact ⟨value, rfl⟩
  | fail => cases h
  | throw fault => cases h

theorem Reply.outcome_eq_throw {reply : Reply τ α} {fault : Fault}
    (h : reply.outcome = .throw fault) : reply = .throw fault := by
  cases reply with
  | ok value last => cases h
  | fail => cases h
  | throw other =>
      cases h
      rfl

/-- Behind a round, a repetition comes out as it does from there on. -/
theorem many_outcome (hp : Advances p) {input rest : List τ} {value : α}
    (h : p.run input = .ok value rest) :
    ((many p).run input).outcome = ((many p).run rest).outcome := by
  rw [many_round hp h, Reply.outcome_bind_pure]

/-- A run of a token class up to the first token outside of it. -/
theorem many_satisfy_append {accepts : τ → Bool} {run rest : List τ}
    (hrun : ∀ token ∈ run, accepts token = true)
    (hrest : ∀ token tail, rest = token :: tail → accepts token = false) :
    (many (satisfy accepts)).run (run ++ rest) = .ok run rest := by
  induction run with
  | nil =>
      apply many_fail
      cases rest with
      | nil => rfl
      | cons token tail => exact satisfy_fail (hrest token tail rfl)
  | cons token run ih =>
      have hfirst := hrun token List.mem_cons_self
      exact many_cons (advances_satisfy accepts) (satisfy_ok hfirst)
        (ih fun t ht => hrun t (List.mem_cons_of_mem _ ht))

theorem many1_satisfy_append {accepts : τ → Bool} {run rest : List τ} (hne : run ≠ [])
    (hrun : ∀ token ∈ run, accepts token = true)
    (hrest : ∀ token tail, rest = token :: tail → accepts token = false) :
    (many1 (satisfy accepts)).run (run ++ rest) = .ok run rest := by
  cases run with
  | nil => exact absurd rfl hne
  | cons token run =>
      have hfirst := hrun token List.mem_cons_self
      have hmore := many_satisfy_append (fun t ht => hrun t (List.mem_cons_of_mem _ ht)) hrest
      rw [many1, List.cons_append, bind_ok (satisfy_ok hfirst), bind_ok hmore]
      rfl

theorem satisfy_eq_ok {accepts : τ → Bool} {input rest : List τ} {token : τ}
    (h : (satisfy accepts).run input = .ok token rest) :
    accepts token = true ∧ input = token :: rest := by
  cases input with
  | nil => cases h
  | cons first input =>
      by_cases haccepts : accepts first
      · rw [satisfy_ok haccepts] at h
        cases h
        exact ⟨haccepts, rfl⟩
      · rw [satisfy_fail (by simpa using haccepts)] at h
        cases h

/-- What a parser matches, as a relation between a text, a value and what is left. -/
def Parser.Matches (p : Parser τ α) (input : List τ) (value : α) (rest : List τ) : Prop :=
  p.run input = .ok value rest

/-- Steps through a text, one behind the other. -/
inductive Repeats (step : List τ → α → List τ → Prop) : List τ → List α → List τ → Prop where
  | nil (input : List τ) : Repeats step input [] input
  | cons {input middle rest : List τ} {value : α} {values : List α}
      (hstep : step input value middle) (hmore : Repeats step middle values rest) :
      Repeats step input (value :: values) rest

theorem Repeats.imp {step other : List τ → α → List τ → Prop} {input rest : List τ}
    {values : List α} (himp : ∀ input value rest, step input value rest → other input value rest)
    (h : Repeats step input values rest) : Repeats other input values rest := by
  induction h with
  | nil input => exact .nil input
  | cons hstep _ ih => exact .cons (himp _ _ _ hstep) ih

/-- A repetition goes on as long as it can. -/
theorem many_eq_ok {input rest : List τ} {values : List α}
    (h : (many p).run input = .ok values rest) :
    Repeats p.Matches input values rest ∧ p.run rest = .fail := by
  suffices hwithin : ∀ bound input values, manyWithin p bound input = .ok values rest →
      Repeats p.Matches input values rest ∧ p.run rest = .fail from hwithin _ input values h
  clear h
  intro bound
  induction bound with
  | zero => rintro input values ⟨⟩
  | succ bound ih =>
      intro input values h
      cases hround : p.run input with
      | fail =>
          simp only [manyWithin, hround] at h
          cases h
          exact ⟨.nil _, hround⟩
      | throw fault => simp [manyWithin, hround] at h
      | ok value middle =>
          simp only [manyWithin, hround] at h
          cases hlater : manyWithin p bound middle with
          | ok later last =>
              rw [hlater] at h
              cases h
              obtain ⟨hmore, hend⟩ := ih middle later hlater
              exact ⟨.cons hround hmore, hend⟩
          | fail => simp [hlater] at h
          | throw fault => simp [hlater] at h

/-- A repetition that cannot go on behind its last match. -/
theorem many_repeats (hp : Advances p) {input rest : List τ} {values : List α}
    (h : Repeats p.Matches input values rest) (hend : p.run rest = .fail) :
    (many p).run input = .ok values rest := by
  induction h with
  | nil input => exact many_fail hend
  | cons hstep _ ih => exact many_cons hp hstep (ih hend)

/-- A list with one more item and separator in front. -/
theorem sepBy1_cons {sep : Parser τ β} (hsep : Advances (do let _ ← sep; p))
    {input behind after rest : List τ} {value : α} {mark : β} {values : List α}
    (h : p.run input = .ok value behind) (hmark : sep.run behind = .ok mark after)
    (hmore : (sepBy1 p sep).run after = .ok values rest) :
    (sepBy1 p sep).run input = .ok (value :: values) rest := by
  obtain ⟨next, middle, hnext, hothers⟩ := bind_eq_ok hmore
  obtain ⟨others, last, hmany, hlast⟩ := bind_eq_ok hothers
  cases hlast
  have hround : (do let _ ← sep; p).run behind = .ok next middle := (bind_ok hmark).trans hnext
  rw [sepBy1, bind_ok h]
  exact bind_ok (many_cons hsep hround hmany)

/-- What a repetition of a token class has matched is a run of the class. -/
theorem many_satisfy_eq_ok {accepts : τ → Bool} {input run rest : List τ}
    (h : (many (satisfy accepts)).run input = .ok run rest) :
    (∀ token ∈ run, accepts token = true) ∧ input = run ++ rest := by
  obtain ⟨hmatches, -⟩ := many_eq_ok h
  clear h
  induction hmatches with
  | nil input => exact ⟨by simp, rfl⟩
  | cons hstep _ ih =>
      obtain ⟨haccepts, rfl⟩ := satisfy_eq_ok hstep
      obtain ⟨hall, rfl⟩ := ih
      exact ⟨List.forall_mem_cons.mpr ⟨haccepts, hall⟩, rfl⟩

theorem many1_satisfy_eq_ok {accepts : τ → Bool} {input run rest : List τ}
    (h : (many1 (satisfy accepts)).run input = .ok run rest) :
    run ≠ [] ∧ (∀ token ∈ run, accepts token = true) ∧ input = run ++ rest := by
  obtain ⟨first, middle, hfirst, hmore⟩ := bind_eq_ok h
  obtain ⟨others, last, hothers, hlast⟩ := bind_eq_ok hmore
  cases hlast
  obtain ⟨haccepts, rfl⟩ := satisfy_eq_ok hfirst
  obtain ⟨hall, rfl⟩ := many_satisfy_eq_ok hothers
  exact ⟨List.cons_ne_nil _ _, List.forall_mem_cons.mpr ⟨haccepts, hall⟩, rfl⟩

theorem many1_fail {input : List τ} (h : p.run input = .fail) : (many1 p).run input = .fail :=
  bind_fail h

end Repetition

end BlackCircle.Foundation.Peg
