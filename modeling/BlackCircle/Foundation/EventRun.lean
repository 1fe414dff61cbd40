import Mathlib.Data.List.Basic

/-!
# Runs over events

A system takes a step for each event, in the order of the events.  An
interleaving of several parties is one list of their events: what holds for all
lists holds for every interleaving.

A reference may take a step for each event as well.  Where each event comes in
states of the two that permit it, the system follows the reference if its steps
exist and keep a relation between the two.
-/

namespace BlackCircle.Foundation.EventRun

variable {ε σ ρ : Type}

/-- There is no run if the step for an event does not exist. -/
def run (step : ε → σ → Option σ) : List ε → σ → Option σ
  | [], s => some s
  | event :: events, s => (step event s).bind (run step events)

/-- Each event comes in states of the system and of the reference that permit it. -/
def Permitted (step : ε → σ → Option σ) (apply : ε → ρ → ρ) (permits : ε → σ → ρ → Prop) :
    List ε → σ → ρ → Prop
  | [], _, _ => True
  | event :: events, s, r =>
      permits event s r ∧
        ∀ s', step event s = some s' → Permitted step apply permits events s' (apply event r)

/-- The reference behind the events. -/
def applyAll (apply : ε → ρ → ρ) (events : List ε) (r : ρ) : ρ :=
  events.foldl (fun r event => apply event r) r

variable {step : ε → σ → Option σ} {event : ε} {events more : List ε} {s s' s'' : σ}

theorem run_cons (h : step event s = some s') (events : List ε) :
    run step (event :: events) s = run step events s' := by
  rw [run, h]
  rfl

theorem run_append (events more : List ε) (s : σ) :
    run step (events ++ more) s = (run step events s).bind (run step more) := by
  induction events generalizing s with
  | nil => rfl
  | cons event events ih =>
      rw [List.cons_append, run, run]
      cases step event s with
      | none => rfl
      | some s' => exact ih s'

/-- The first step of a run, and the run behind it. -/
theorem run_cons_eq_some (h : run step (event :: events) s = some s'') :
    ∃ s', step event s = some s' ∧ run step events s' = some s'' :=
  Option.bind_eq_some_iff.mp h

/-- What holds at the start and is kept by every step holds behind the run. -/
theorem run_invariant {inv : σ → Prop}
    (hstep : ∀ event s s', inv s → step event s = some s' → inv s')
    (h : run step events s = some s') (hstart : inv s) : inv s' := by
  induction events generalizing s with
  | nil =>
      cases h
      exact hstart
  | cons event events ih =>
      obtain ⟨next, hnext, hrest⟩ := run_cons_eq_some h
      exact ih hrest (hstep event s next hstart hnext)

/-- What a step keeps of the events so far and the state, holds behind the run. -/
theorem run_history {inv : List ε → σ → Prop}
    (hstep : ∀ events event s s', inv events s → step event s = some s' →
      inv (events ++ [event]) s')
    (h : run step events s = some s') (hstart : inv [] s) : inv events s' := by
  have hbehind : ∀ past s, inv past s → run step events s = some s' → inv (past ++ events) s' := by
    clear h hstart
    induction events with
    | nil =>
        intro past s hpast h
        cases h
        rwa [List.append_nil]
    | cons event events ih =>
        intro past s hpast h
        obtain ⟨next, hnext, hrest⟩ := run_cons_eq_some h
        rw [List.append_cons]
        exact ih (past ++ [event]) next (hstep past event s next hpast hnext) hrest
  exact hbehind [] s hstart h

section Reference

variable {apply : ε → ρ → ρ} {permits : ε → σ → ρ → Prop} {follows : σ → ρ → Prop} {r : ρ}

/-- The run exists over permitted events, and follows the reference. -/
theorem run_follows
    (hstep : ∀ event s r, follows s r → permits event s r →
      ∃ s', step event s = some s' ∧ follows s' (apply event r))
    (hpermitted : Permitted step apply permits events s r) (hstart : follows s r) :
    ∃ s', run step events s = some s' ∧ follows s' (applyAll apply events r) := by
  induction events generalizing s r with
  | nil => exact ⟨s, rfl, hstart⟩
  | cons event events ih =>
      obtain ⟨hpermits, hrest⟩ := hpermitted
      obtain ⟨s', hnext, hfollows⟩ := hstep event s r hstart hpermits
      obtain ⟨last, hrun, hlast⟩ := ih (hrest s' hnext) hfollows
      exact ⟨last, (run_cons hnext events).trans hrun, hlast⟩

end Reference

/-! ## Interleavings -/

/-- Two interleavings of the same sequences are permutations of each other. -/
theorem perm_of_parties {ι : Type} [DecidableEq ι] {party : ε → ι} {events more : List ε}
    (h : ∀ i, (events.filter fun event => party event = i).Perm
      (more.filter fun event => party event = i)) : events.Perm more := by
  induction events generalizing more with
  | nil =>
      cases more with
      | nil => exact List.Perm.nil
      | cons event more =>
          have hnone := h (party event)
          rw [List.filter_nil, List.filter_cons_of_pos (by simp)] at hnone
          exact absurd hnone.symm (List.not_perm_cons_nil)
  | cons event events ih =>
      have hown := h (party event)
      rw [List.filter_cons_of_pos (by simp)] at hown
      have hmem : event ∈ more := (List.mem_filter.mp (hown.subset List.mem_cons_self)).1
      obtain ⟨before, after, rfl⟩ := List.append_of_mem hmem
      refine (List.Perm.cons event (ih fun i => ?_)).trans List.perm_middle.symm
      have hi := h i
      rw [List.filter_append, List.filter_cons, List.filter_cons] at hi
      rw [List.filter_append]
      split at hi
      · exact (hi.trans List.perm_middle).cons_inv
      · exact hi

end BlackCircle.Foundation.EventRun
