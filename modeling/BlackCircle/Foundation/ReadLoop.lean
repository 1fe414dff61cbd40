import Mathlib.Computability.StateTransition
import Mathlib.Data.List.Infix

/-!
# Chained asynchronous reads over one stream buffer

A reader keeps a buffer, at most one outstanding read, and a completion handler
for it.  A read is either delimited or counted.  It completes at once when the
buffer already satisfies it; otherwise the next network segment is appended to
the buffer; and once the peer has closed it completes with the error flag set
and whatever bytes have arrived.  A completion handler may consume from the
buffer, produce outputs, and issue the next read.

Runs are those of `StateTransition`: `eval step s` is the state in which a
reader started in `s` comes to rest, if it ever does.
-/

namespace BlackCircle.Foundation.ReadLoop

open StateTransition

/-- The two kinds of read: up to a delimiter, or at least so many further tokens. -/
inductive ReadOp (α : Type) where
  | readUntil (delim : List α)
  | readAtLeast (count : Nat)
  deriving DecidableEq, Repr

/-- Whether a read that was issued with `start` tokens buffered may complete. -/
def ReadOp.satisfied {α : Type} [DecidableEq α] (start : Nat) (buffer : List α) :
    ReadOp α → Bool
  | .readUntil delim => decide (delim <:+: buffer)
  | .readAtLeast count => decide (count ≤ buffer.length - start)

@[simp]
theorem ReadOp.satisfied_readUntil {α : Type} [DecidableEq α] (start : Nat)
    (delim buffer : List α) :
    (ReadOp.readUntil delim).satisfied start buffer = decide (delim <:+: buffer) := rfl

@[simp]
theorem ReadOp.satisfied_readAtLeast {α : Type} [DecidableEq α] (start count : Nat)
    (buffer : List α) :
    (ReadOp.readAtLeast count).satisfied start buffer =
      decide (count ≤ buffer.length - start) := rfl

/-- A delimiter of one token has arrived once the token has. -/
theorem ReadOp.satisfied_token {α : Type} [DecidableEq α] {start : Nat} {token : α}
    {buffer : List α} : (ReadOp.readUntil [token]).satisfied start buffer = true ↔
      token ∈ buffer := by
  rw [ReadOp.satisfied_readUntil, decide_eq_true_eq, List.singleton_infix_iff]

/-- A satisfied read stays satisfied when more arrives. -/
theorem ReadOp.satisfied_mono {α : Type} [DecidableEq α] {op : ReadOp α} {start : Nat}
    {small large : List α} (hle : small <+: large) (hsat : op.satisfied start small = true) :
    op.satisfied start large = true := by
  cases op with
  | readUntil delim =>
      have hinfix : delim <:+: small := by simpa using hsat
      simpa using hinfix.trans hle.isInfix
  | readAtLeast count =>
      have hcount : count ≤ small.length - start := by simpa using hsat
      have hlen := hle.length_le
      simp only [satisfied_readAtLeast, decide_eq_true_eq]
      omega

/-- How a completion handler ends: with a new read, with none, or by an exception. -/
inductive Next (α K F : Type) where
  | issue (op : ReadOp α) (handler : K)
  | done
  | throw (fault : F)
  deriving DecidableEq, Repr

/-- What one invocation of a completion handler leaves behind. -/
structure Turn (α K O F : Type) where
  buffer : List α
  outputs : List O
  next : Next α K F
  deriving DecidableEq, Repr

/-- What a reader is doing between two steps. -/
inductive Activity (α K F : Type) where
  | reading (op : ReadOp α) (start : Nat) (handler : K)
  | stopped
  | failed (fault : F)
  deriving DecidableEq, Repr

/-- A reader together with the network segments it has not read yet. -/
structure Session (α K O F : Type) where
  buffer : List α
  activity : Activity α K F
  unread : List (List α)
  closed : Bool
  outputs : List O
  deriving DecidableEq, Repr

variable {α K O F : Type}

/-- Issuing a read records how much is buffered at that moment. -/
def Next.activity (buffered : Nat) : Next α K F → Activity α K F
  | .issue op handler => .reading op buffered handler
  | .done => .stopped
  | .throw fault => .failed fault

/-- Only an exception leads to a failed reader. -/
theorem Next.throw_of_failed {buffered : Nat} {next : Next α K F} {fault : F}
    (h : next.activity buffered = .failed fault) : next = .throw fault := by
  cases next with
  | issue op handler => cases h
  | done => cases h
  | throw fault' =>
      cases h
      rfl

/-- An outstanding read has been issued with what was buffered then. -/
theorem Next.issue_of_reading {buffered start : Nat} {next : Next α K F} {op : ReadOp α}
    {handler : K} (h : next.activity buffered = .reading op start handler) :
    next = .issue op handler ∧ start = buffered := by
  cases next with
  | issue op' handler' =>
      cases h
      exact ⟨rfl, rfl⟩
  | done => cases h
  | throw fault => cases h

namespace Session

/-- Take over what a completion handler has left behind. -/
def resume (s : Session α K O F) (turn : Turn α K O F) : Session α K O F :=
  { s with
    buffer := turn.buffer
    activity := turn.next.activity turn.buffer.length
    outputs := s.outputs ++ turn.outputs }

@[simp]
theorem resume_buffer (s : Session α K O F) (turn : Turn α K O F) :
    (s.resume turn).buffer = turn.buffer := rfl

@[simp]
theorem resume_activity (s : Session α K O F) (turn : Turn α K O F) :
    (s.resume turn).activity = turn.next.activity turn.buffer.length := rfl

@[simp]
theorem resume_unread (s : Session α K O F) (turn : Turn α K O F) :
    (s.resume turn).unread = s.unread := rfl

@[simp]
theorem resume_closed (s : Session α K O F) (turn : Turn α K O F) :
    (s.resume turn).closed = s.closed := rfl

@[simp]
theorem resume_outputs (s : Session α K O F) (turn : Turn α K O F) :
    (s.resume turn).outputs = s.outputs ++ turn.outputs := rfl

/-- All tokens the reader has not consumed, buffered or still on the network. -/
def pending (s : Session α K O F) : List α :=
  s.buffer ++ s.unread.flatten

end Session

/-! ## The fewest segments that are enough -/

section Fewest

variable {β : Type}

/-- `taken` is enough, and no shorter prefix of it is. -/
structure Fewest (enough : List β → Prop) (taken : List β) : Prop where
  holds : enough taken
  minimal : ∀ fewer, fewer <+: taken → fewer ≠ taken → ¬ enough fewer

/-- When a list is enough, some first part of it is so earliest. -/
theorem exists_fewest {enough : List β → Prop} {all : List β} (h : enough all) :
    ∃ taken rest, all = taken ++ rest ∧ Fewest enough taken := by
  induction all generalizing enough with
  | nil =>
      refine ⟨[], [], rfl, h, ?_⟩
      intro fewer hfewer hne
      exact absurd (List.prefix_nil.mp hfewer) hne
  | cons first all ih =>
      by_cases hnow : enough []
      · refine ⟨[], first :: all, rfl, hnow, ?_⟩
        intro fewer hfewer hne
        exact absurd (List.prefix_nil.mp hfewer) hne
      · obtain ⟨taken, rest, rfl, hfewest⟩ := @ih (fun more => enough (first :: more)) h
        refine ⟨first :: taken, rest, rfl, hfewest.holds, ?_⟩
        intro fewer hfewer hne
        cases fewer with
        | nil => exact hnow
        | cons token fewer =>
            obtain ⟨htoken, hrest⟩ := List.cons_prefix_cons.mp hfewer
            subst htoken
            exact hfewest.minimal fewer hrest (by simpa using hne)

namespace Fewest

variable {enough enough' : List β → Prop} {taken : List β}

theorem congr (h : Fewest enough taken)
    (hiff : ∀ part, part <+: taken → (enough part ↔ enough' part)) : Fewest enough' taken where
  holds := (hiff taken List.prefix_rfl).mp h.holds
  minimal := by
    intro fewer hfewer hne hfew
    exact h.minimal fewer hfewer hne ((hiff fewer hfewer).mpr hfew)

/-- Any first part of the list that is enough goes at least as far. -/
theorem prefix_of_enough {rest part : List β} (h : Fewest enough taken)
    (hpart : part <+: taken ++ rest) (henough : enough part) : taken <+: part := by
  rcases List.prefix_or_prefix_of_prefix (List.prefix_append taken rest) hpart with hle | hle
  · exact hle
  · by_cases heq : part = taken
    · rw [heq]
    · exact absurd henough (h.minimal part hle heq)

end Fewest

/-- `taken` are the fewest segments with which `buffered` tokens grow to `needed`. -/
abbrev Fills (buffered needed : Nat) : List (List β) → Prop :=
  Fewest fun taken => needed ≤ buffered + taken.flatten.length

/-- The last segment that is taken ends less than its own length behind the need. -/
theorem Fills.overshoot {buffered needed bound : Nat} {taken : List (List β)}
    (h : Fills buffered needed taken) (hbuffered : buffered < needed + bound)
    (hbound : ∀ segment ∈ taken, segment.length < bound) :
    buffered + taken.flatten.length < needed + bound := by
  rcases List.eq_nil_or_concat' taken with rfl | ⟨fewer, segment, rfl⟩
  · simpa using hbuffered
  · have hfewer := h.minimal fewer (List.prefix_append fewer [segment]) (by simp)
    have hsegment := hbound segment (by simp)
    simp only [List.flatten_append, List.length_append, List.flatten_singleton]
    omega

/-- Segments that fill the buffer up to the length of `word` have brought the whole of it. -/
theorem Fills.split {buffer word tail : List β} {taken more : List (List β)}
    (h : Fills buffer.length word.length taken)
    (hstream : buffer ++ (taken ++ more).flatten = word ++ tail) :
    ∃ behind, buffer ++ taken.flatten = word ++ behind ∧ behind ++ more.flatten = tail ∧
      buffer.length + taken.flatten.length = word.length + behind.length := by
  rw [List.flatten_append, ← List.append_assoc] at hstream
  obtain ⟨behind, hbehind⟩ : word <+: buffer ++ taken.flatten := by
    refine List.prefix_of_prefix_length_le ⟨tail, rfl⟩ ⟨more.flatten, hstream⟩ ?_
    rw [List.length_append]
    exact h.holds
  refine ⟨behind, hbehind.symm, ?_, ?_⟩
  · rw [← hbehind, List.append_assoc] at hstream
    exact List.append_cancel_left hstream
  · rw [← List.length_append, ← hbehind, List.length_append]

/-- The rest of the segments fill what the first ones have left to fill. -/
theorem Fills.later {buffered needed buffered' needed' passed : Nat} {first later : List (List β)}
    (h : Fills buffered needed (first ++ later))
    (hbuffered : buffered + first.flatten.length = passed + buffered')
    (hneeded : needed = passed + needed') : Fills buffered' needed' later where
  holds := by
    have henough := h.holds
    rw [List.flatten_append, List.length_append] at henough
    omega
  minimal := by
    intro fewer hfewer hne
    have hshort := h.minimal (first ++ fewer) ((List.prefix_append_right_inj first).mpr hfewer)
      (by simpa using hne)
    rw [List.flatten_append, List.length_append] at hshort
    omega

end Fewest

section Step

variable [DecidableEq α] (complete : K → Bool → List α → Turn α K O F)

/-- One step: complete the outstanding read, or read one more segment. -/
def step (s : Session α K O F) : Option (Session α K O F) :=
  match s.activity with
  | .stopped => none
  | .failed _ => none
  | .reading op start handler =>
      if op.satisfied start s.buffer then
        some (s.resume (complete handler false s.buffer))
      else
        match s.unread with
        | segment :: unread => some { s with buffer := s.buffer ++ segment, unread := unread }
        | [] =>
            if s.closed then some (s.resume (complete handler true s.buffer))
            else none

variable {complete} {s : Session α K O F} {op : ReadOp α} {start : Nat} {handler : K}

theorem step_satisfied (hact : s.activity = .reading op start handler)
    (hsat : op.satisfied start s.buffer = true) :
    step complete s = some (s.resume (complete handler false s.buffer)) := by
  simp [step, hact, hsat]

theorem step_receive {segment : List α} {unread : List (List α)}
    (hact : s.activity = .reading op start handler)
    (hsat : op.satisfied start s.buffer = false) (hunread : s.unread = segment :: unread) :
    step complete s = some { s with buffer := s.buffer ++ segment, unread := unread } := by
  simp [step, hact, hsat, hunread]

theorem step_closed (hact : s.activity = .reading op start handler)
    (hsat : op.satisfied start s.buffer = false) (hunread : s.unread = [])
    (hclosed : s.closed = true) :
    step complete s = some (s.resume (complete handler true s.buffer)) := by
  simp [step, hact, hsat, hunread, hclosed]

theorem step_waiting (hact : s.activity = .reading op start handler)
    (hsat : op.satisfied start s.buffer = false) (hunread : s.unread = [])
    (hclosed : s.closed = false) : step complete s = none := by
  simp [step, hact, hsat, hunread, hclosed]

/-- Everything a step can be: a completion, with or without the error flag, or the
arrival of one segment. -/
theorem step_cases {next : Session α K O F} (h : step complete s = some next) :
    ∃ op start handler, s.activity = .reading op start handler ∧
      ((op.satisfied start s.buffer = true ∧
          next = s.resume (complete handler false s.buffer)) ∨
        (op.satisfied start s.buffer = false ∧ ∃ segment unread,
          s.unread = segment :: unread ∧
          next = { s with buffer := s.buffer ++ segment, unread := unread }) ∨
        (op.satisfied start s.buffer = false ∧ s.unread = [] ∧ s.closed = true ∧
          next = s.resume (complete handler true s.buffer))) := by
  cases hact : s.activity with
  | stopped => simp [step, hact] at h
  | failed fault => simp [step, hact] at h
  | reading op start handler =>
      refine ⟨op, start, handler, rfl, ?_⟩
      cases hsat : op.satisfied start s.buffer with
      | true =>
          rw [step_satisfied hact hsat, Option.some.injEq] at h
          exact Or.inl ⟨rfl, h.symm⟩
      | false =>
          cases hunread : s.unread with
          | cons segment unread =>
              rw [step_receive hact hsat hunread, Option.some.injEq] at h
              exact Or.inr (Or.inl ⟨rfl, segment, unread, rfl, by rw [← h, hact]⟩)
          | nil =>
              cases hclosed : s.closed with
              | true =>
                  rw [step_closed hact hsat hunread hclosed, Option.some.injEq] at h
                  exact Or.inr (Or.inr ⟨rfl, rfl, rfl, h.symm⟩)
              | false =>
                  rw [step_waiting hact hsat hunread hclosed] at h
                  cases h

theorem closed_step {next : Session α K O F} (h : step complete s = some next) :
    next.closed = s.closed := by
  obtain ⟨op, start, handler, -, hcase⟩ := step_cases h
  rcases hcase with ⟨-, rfl⟩ | ⟨-, segment, unread, -, rfl⟩ | ⟨-, -, -, rfl⟩
  · rfl
  · rfl
  · rfl

/-- On an open connection, a step does not depend on what is still to arrive behind the segments in
flight. -/
theorem step_more {next : Session α K O F} (hclosed : s.closed = false)
    (h : step complete s = some next) (more : List (List α)) :
    step complete { s with unread := s.unread ++ more } =
      some { next with unread := next.unread ++ more } := by
  obtain ⟨op, start, handler, hact, hcase⟩ := step_cases h
  rcases hcase with ⟨hsat, rfl⟩ | ⟨hsat, segment, unread, hunread, rfl⟩ | ⟨-, -, hended, -⟩
  · exact step_satisfied hact hsat
  · refine step_receive hact hsat ?_
    change s.unread ++ more = segment :: (unread ++ more)
    rw [hunread, List.cons_append]
  · rw [hclosed] at hended
    cases hended

/-- A step only adds outputs. -/
theorem outputs_step {next : Session α K O F} (h : step complete s = some next) :
    ∃ new, s.outputs ++ new = next.outputs := by
  obtain ⟨op, start, handler, -, hcase⟩ := step_cases h
  rcases hcase with ⟨-, rfl⟩ | ⟨-, segment, unread, -, rfl⟩ | ⟨-, -, -, rfl⟩
  · exact ⟨_, rfl⟩
  · exact ⟨[], List.append_nil _⟩
  · exact ⟨_, rfl⟩

/-- On a connection that has ended, a reader at rest has no read outstanding. -/
theorem not_reading_of_rest (hclosed : s.closed = true) (hrest : step complete s = none) :
    s.activity = .stopped ∨ ∃ fault, s.activity = .failed fault := by
  cases hact : s.activity with
  | stopped => exact Or.inl rfl
  | failed fault => exact Or.inr ⟨fault, rfl⟩
  | reading op start handler =>
      exfalso
      cases hsat : op.satisfied start s.buffer with
      | true =>
          rw [step_satisfied hact hsat] at hrest
          cases hrest
      | false =>
          cases hunread : s.unread with
          | cons segment unread =>
              rw [step_receive hact hsat hunread] at hrest
              cases hrest
          | nil =>
              rw [step_closed hact hsat hunread hclosed] at hrest
              cases hrest

/-- The segments `taken` are the fewest that satisfy a read. -/
abbrev Earliest (op : ReadOp α) (start : Nat) (buffer : List α) : List (List α) → Prop :=
  Fewest fun taken => op.satisfied start (buffer ++ taken.flatten) = true

/-- While its read is unsatisfied, a reader takes one segment after the other. -/
theorem reaches_receive {taken unread : List (List α)}
    (hact : s.activity = .reading op start handler) (hunread : s.unread = taken ++ unread)
    (hunsat : ∀ fewer, fewer <+: taken → fewer ≠ taken →
      ¬ op.satisfied start (s.buffer ++ fewer.flatten) = true) :
    Reaches (step complete) s
      { s with buffer := s.buffer ++ taken.flatten, unread := unread } := by
  induction taken generalizing s with
  | nil =>
      obtain ⟨buffer, activity, unread', closed, outputs⟩ := s
      obtain rfl : unread' = unread := hunread
      rw [List.flatten_nil, List.append_nil]
      exact Relation.ReflTransGen.refl
  | cons segment taken ih =>
      have hnow : op.satisfied start s.buffer = false := by
        simpa using hunsat [] List.nil_prefix (by simp)
      have hstep : step complete s =
          some { s with buffer := s.buffer ++ segment, unread := taken ++ unread } :=
        step_receive hact hnow hunread
      have hstill : ∀ fewer, fewer <+: taken → fewer ≠ taken →
          ¬ op.satisfied start (s.buffer ++ segment ++ fewer.flatten) = true := by
        intro fewer hfewer hne
        simpa using hunsat (segment :: fewer) (List.cons_prefix_cons.mpr ⟨rfl, hfewer⟩)
          (by simpa using hne)
      have hrest := @ih { s with buffer := s.buffer ++ segment, unread := taken ++ unread }
        hact rfl hstill
      rw [List.flatten_cons, ← List.append_assoc]
      exact hrest.head hstep

/-- The rule for a read that completes: the handler runs once the fewest segments that
satisfy the read have been taken. -/
theorem reaches_earliest {taken unread : List (List α)}
    (hact : s.activity = .reading op start handler) (hunread : s.unread = taken ++ unread)
    (hearliest : Earliest op start s.buffer taken) :
    Reaches (step complete) s
      (({ s with unread := unread } : Session α K O F).resume
        (complete handler false (s.buffer ++ taken.flatten))) :=
  (reaches_receive hact hunread hearliest.minimal).tail
    (step_satisfied hact hearliest.holds)

/-- The same rule where the division into segments does not matter. -/
theorem reaches_complete (hact : s.activity = .reading op start handler)
    (hsat : op.satisfied start s.pending = true) :
    ∃ buffer unread, buffer ++ unread.flatten = s.pending ∧
      op.satisfied start buffer = true ∧
      Reaches (step complete) s
        (({ s with unread := unread } : Session α K O F).resume
          (complete handler false buffer)) := by
  obtain ⟨taken, unread, hunread, hearliest⟩ :=
    @exists_fewest _ (fun taken => op.satisfied start (s.buffer ++ taken.flatten) = true) _ hsat
  refine ⟨s.buffer ++ taken.flatten, unread, ?_, hearliest.holds,
    reaches_earliest hact hunread hearliest⟩
  simp [Session.pending, hunread]

/-- A read that is unsatisfied on all that was delivered has taken it all. -/
theorem reaches_unsatisfied (hact : s.activity = .reading op start handler)
    (hunsat : op.satisfied start s.pending = false) :
    Reaches (step complete) s { s with buffer := s.pending, unread := [] } := by
  refine reaches_receive hact (List.append_nil _).symm ?_
  intro fewer hfewer _ hsat
  have hprefix : s.buffer ++ fewer.flatten <+: s.pending := by
    obtain ⟨rest, hrest⟩ := hfewer
    exact ⟨rest.flatten, by simp [Session.pending, ← hrest]⟩
  rw [ReadOp.satisfied_mono hprefix hsat] at hunsat
  cases hunsat

/-- The rule for a read that does not complete: the reader comes to rest, still
reading, with everything that was delivered in its buffer. -/
theorem eval_waiting (hact : s.activity = .reading op start handler)
    (hopen : s.closed = false) (hunsat : op.satisfied start s.pending = false) :
    { s with buffer := s.pending, unread := [] } ∈ eval (step complete) s :=
  mem_eval.mpr ⟨reaches_unsatisfied hact hunsat, step_waiting hact hunsat rfl hopen⟩

end Step

/-! ## Rules for whole runs -/

section Runs

variable {σ : Type} {f : σ → Option σ}

/-- What holds at the start and is kept by every step holds in every state of the run. -/
theorem reaches_invariant {inv : σ → Prop} (hstep : ∀ s s', inv s → f s = some s' → inv s')
    {s s' : σ} (hreach : Reaches f s s') (hstart : inv s) : inv s' := by
  induction hreach with
  | refl => exact hstart
  | tail _ hlast ih => exact hstep _ _ ih hlast

/-- A run whose steps all descend in a well-founded order comes to rest. -/
theorem eval_dom_of_descent {inv : σ → Prop} {r : σ → σ → Prop} (hwf : WellFounded r)
    (hstep : ∀ s s', inv s → f s = some s' → inv s' ∧ r s' s) {s : σ} (hstart : inv s) :
    (eval f s).Dom := by
  induction s using hwf.induction with
  | h s ih =>
      cases hnext : f s with
      | none => exact Part.dom_iff_mem.mpr ⟨s, mem_eval.mpr ⟨Relation.ReflTransGen.refl, hnext⟩⟩
      | some s' =>
          obtain ⟨hinv, hless⟩ := hstep s s' hstart hnext
          rw [reaches_eval (Relation.ReflTransGen.single hnext)]
          exact ih s' hless hinv

/-- A run that can always take another step within a set of states never comes to rest. -/
theorem not_eval_dom {inv : σ → Prop} (hstep : ∀ s, inv s → ∃ s', f s = some s' ∧ inv s')
    {s : σ} (hstart : inv s) : ¬ (eval f s).Dom := by
  intro hdom
  obtain ⟨last, hlast⟩ := Part.dom_iff_mem.mp hdom
  obtain ⟨hreach, hrest⟩ := mem_eval.mp hlast
  have hinv : inv last := by
    refine reaches_invariant ?_ hreach hstart
    intro s s' hs hnext
    obtain ⟨s'', hnext', hs'⟩ := hstep s hs
    rw [hnext, Option.some.injEq] at hnext'
    rwa [hnext']
  obtain ⟨s', hnext, -⟩ := hstep last hinv
  rw [hrest] at hnext
  cases hnext

/-- The state after at most `n` steps. -/
def stateAfter (f : σ → Option σ) : Nat → σ → σ
  | 0, s => s
  | n + 1, s =>
      match f s with
      | none => s
      | some s' => stateAfter f n s'

theorem reaches_stateAfter (n : Nat) (s : σ) : Reaches f s (stateAfter f n s) := by
  induction n generalizing s with
  | zero => exact Relation.ReflTransGen.refl
  | succ n ih =>
      unfold stateAfter
      split
      · exact Relation.ReflTransGen.refl
      · rename_i s' hs'
        exact (ih s').head hs'

end Runs

end BlackCircle.Foundation.ReadLoop
