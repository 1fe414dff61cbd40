import Mathlib.Data.List.Pairwise

/-!
# Containers with unique keys

A container whose elements are pairwise apart.  Two elements clash when some
unique key of theirs is equal; an element that clashes with one that is already
there is not inserted.  Insertions only ever add elements, so what is refused
once is refused for ever, and a second insertion of the same list does nothing.
-/

namespace BlackCircle.Foundation

variable {α : Type}

structure Container (clash : α → α → Prop) where
  elements : List α
  apart : elements.Pairwise fun first second => ¬ clash first second

namespace Container

variable {clash : α → α → Prop}

def empty : Container clash := ⟨[], List.Pairwise.nil⟩

/-- Keep the elements for which `p` holds. -/
def keep (s : Container clash) (p : α → Bool) : Container clash :=
  ⟨s.elements.filter p, s.apart.sublist List.filter_sublist⟩

theorem mem_keep {s : Container clash} {p : α → Bool} {a : α} :
    a ∈ (s.keep p).elements ↔ a ∈ s.elements ∧ p a = true :=
  List.mem_filter

variable [DecidableRel clash]

/-- Insert an element behind the others, unless it clashes with one of them. -/
def insert (s : Container clash) (a : α) : Container clash :=
  if h : ∃ b ∈ s.elements, clash b a then s
  else
    ⟨s.elements ++ [a], by
      refine List.pairwise_append.mpr ⟨s.apart, List.pairwise_singleton _ _, ?_⟩
      intro b hb c hc hclash
      rw [List.mem_singleton.mp hc] at hclash
      exact h ⟨b, hb, hclash⟩⟩

theorem insert_of_clash {s : Container clash} {a : α} (h : ∃ b ∈ s.elements, clash b a) :
    s.insert a = s :=
  dif_pos h

theorem elements_insert {s : Container clash} {a : α} (h : ¬ ∃ b ∈ s.elements, clash b a) :
    (s.insert a).elements = s.elements ++ [a] := by
  rw [insert, dif_neg h]

theorem mem_insert_of_mem {s : Container clash} {a b : α} (h : b ∈ s.elements) :
    b ∈ (s.insert a).elements := by
  by_cases hclash : ∃ b ∈ s.elements, clash b a
  · rw [insert_of_clash hclash]
    exact h
  · rw [elements_insert hclash]
    exact List.mem_append_left _ h

theorem mem_of_mem_insert {s : Container clash} {a b : α} (h : b ∈ (s.insert a).elements) :
    b = a ∨ b ∈ s.elements := by
  by_cases hclash : ∃ b ∈ s.elements, clash b a
  · rw [insert_of_clash hclash] at h
    exact Or.inr h
  · rw [elements_insert hclash, List.mem_append, List.mem_singleton] at h
    exact h.symm

/-- Behind an insertion the element is there, or one it clashes with has been there before. -/
theorem mem_insert_or_clash (s : Container clash) (a : α) :
    a ∈ (s.insert a).elements ∨ ∃ b ∈ s.elements, clash b a := by
  by_cases hclash : ∃ b ∈ s.elements, clash b a
  · exact Or.inr hclash
  · rw [elements_insert hclash]
    exact Or.inl (List.mem_append_right _ List.mem_cons_self)

/-! ## Refusals -/

/-- An element that clashes with one that is there. -/
def Refuses (s : Container clash) (a : α) : Prop := ∃ b ∈ s.elements, clash b a

instance (s : Container clash) (a : α) : Decidable (s.Refuses a) :=
  inferInstanceAs (Decidable (∃ b ∈ s.elements, clash b a))

theorem Refuses.insert {s : Container clash} {a : α} (h : s.Refuses a) (b : α) :
    (s.insert b).Refuses a := by
  obtain ⟨c, hmem, hclash⟩ := h
  exact ⟨c, mem_insert_of_mem hmem, hclash⟩

/-- Behind an insertion the element is refused, as long as it clashes with itself. -/
theorem refuses_insert (hrefl : ∀ a, clash a a) (s : Container clash) (a : α) :
    (s.insert a).Refuses a := by
  rcases mem_insert_or_clash s a with hmem | hrefused
  · exact ⟨a, hmem, hrefl a⟩
  · exact Refuses.insert hrefused a

theorem length_le_insert (s : Container clash) (a : α) :
    s.elements.length ≤ (s.insert a).elements.length := by
  by_cases hclash : ∃ b ∈ s.elements, clash b a
  · exact Nat.le_of_eq (by rw [insert_of_clash hclash])
  · rw [elements_insert hclash, List.length_append]
    exact Nat.le_add_right _ _

theorem length_insert_of_not_refuses {s : Container clash} {a : α} (h : ¬ s.Refuses a) :
    (s.insert a).elements.length = s.elements.length + 1 := by
  rw [elements_insert h, List.length_append, List.length_singleton]

/-! ## Lists of insertions -/

def insertAll (s : Container clash) (as : List α) : Container clash := as.foldl insert s

@[simp]
theorem insertAll_nil (s : Container clash) : s.insertAll [] = s := rfl

@[simp]
theorem insertAll_cons (s : Container clash) (a : α) (as : List α) :
    s.insertAll (a :: as) = (s.insert a).insertAll as := rfl

theorem insertAll_append (s : Container clash) (as bs : List α) :
    s.insertAll (as ++ bs) = (s.insertAll as).insertAll bs :=
  List.foldl_append

theorem mem_insertAll_of_mem {s : Container clash} {as : List α} {b : α} (h : b ∈ s.elements) :
    b ∈ (s.insertAll as).elements := by
  induction as generalizing s with
  | nil => exact h
  | cons a as ih => exact ih (mem_insert_of_mem h)

theorem mem_of_mem_insertAll {s : Container clash} {as : List α} {b : α}
    (h : b ∈ (s.insertAll as).elements) : b ∈ s.elements ∨ b ∈ as := by
  induction as generalizing s with
  | nil => exact Or.inl h
  | cons a as ih =>
      rcases ih h with hmem | hmem
      · rcases mem_of_mem_insert hmem with rfl | hmem
        · exact Or.inr List.mem_cons_self
        · exact Or.inl hmem
      · exact Or.inr (List.mem_cons_of_mem _ hmem)

theorem Refuses.insertAll {s : Container clash} {a : α} (h : s.Refuses a) (as : List α) :
    (s.insertAll as).Refuses a := by
  obtain ⟨b, hmem, hclash⟩ := h
  exact ⟨b, mem_insertAll_of_mem hmem, hclash⟩

theorem refuses_insertAll (hrefl : ∀ a, clash a a) {s : Container clash} {as : List α} {a : α}
    (h : a ∈ as) : (s.insertAll as).Refuses a := by
  induction as generalizing s with
  | nil => cases h
  | cons b as ih =>
      rcases List.mem_cons.mp h with rfl | hmem
      · exact (refuses_insert hrefl s a).insertAll as
      · exact ih hmem

theorem length_le_insertAll (s : Container clash) (as : List α) :
    s.elements.length ≤ (s.insertAll as).elements.length := by
  induction as generalizing s with
  | nil => exact Nat.le_refl _
  | cons a as ih => exact Nat.le_trans (length_le_insert s a) (ih (s.insert a))

theorem prefix_insert (s : Container clash) (a : α) : s.elements <+: (s.insert a).elements := by
  by_cases hclash : ∃ b ∈ s.elements, clash b a
  · exact (insert_of_clash hclash).symm ▸ List.prefix_rfl
  · rw [elements_insert hclash]
    exact List.prefix_append _ _

theorem prefix_insertAll (s : Container clash) (as : List α) :
    s.elements <+: (s.insertAll as).elements := by
  induction as generalizing s with
  | nil => exact List.prefix_rfl
  | cons a as ih => exact (prefix_insert s a).trans (ih (s.insert a))

theorem length_insertAll_le (s : Container clash) (as : List α) :
    (s.insertAll as).elements.length ≤ s.elements.length + as.length := by
  induction as generalizing s with
  | nil => exact Nat.le_refl _
  | cons a as ih =>
      have hone : (s.insert a).elements.length ≤ s.elements.length + 1 := by
        by_cases hclash : s.Refuses a
        · rw [insert_of_clash hclash]
          exact Nat.le_succ _
        · exact Nat.le_of_eq (length_insert_of_not_refuses hclash)
      have hrest := ih (s.insert a)
      rw [insertAll_cons, List.length_cons]
      omega

/-- An element that is inserted is told from the outcome, whatever is inserted later. -/
theorem eq_of_insertAll_eq {s : Container clash} {a b : α} {as bs : List α} (ha : ¬ s.Refuses a)
    (hb : ¬ s.Refuses b) (h : (s.insert a).insertAll as = (s.insert b).insertAll bs) : a = b := by
  have hfirst := prefix_insertAll (s.insert a) as
  have hsecond := prefix_insertAll (s.insert b) bs
  rw [elements_insert ha] at hfirst
  rw [elements_insert hb, ← h] at hsecond
  have hlength : (s.elements ++ [a]).length = (s.elements ++ [b]).length := by
    rw [List.length_append, List.length_append, List.length_singleton, List.length_singleton]
  have hbefore := List.prefix_of_prefix_length_le hfirst hsecond (Nat.le_of_eq hlength)
  exact List.singleton_inj.mp (List.append_cancel_left (hbefore.eq_of_length hlength))

/-- A list of insertions changes nothing just when each of them is refused at the start. -/
theorem insertAll_eq_self_iff {s : Container clash} {as : List α} :
    s.insertAll as = s ↔ ∀ a ∈ as, s.Refuses a := by
  induction as generalizing s with
  | nil => exact ⟨fun _ a hmem => (List.not_mem_nil hmem).elim, fun _ => rfl⟩
  | cons a as ih =>
      by_cases hrefused : s.Refuses a
      · rw [insertAll_cons, insert_of_clash hrefused, ih, List.forall_mem_cons]
        exact ⟨fun hrest => ⟨hrefused, hrest⟩, fun hall => hall.2⟩
      · constructor
        · intro heq
          -- the first insertion has made the container longer for good
          have hlonger := length_insert_of_not_refuses hrefused
          have hrest := length_le_insertAll (s.insert a) as
          rw [← insertAll_cons, heq] at hrest
          omega
        · intro hall
          exact absurd (hall a List.mem_cons_self) hrefused

/-- Where the clash is that of one key, the keys of the inserted elements are added. -/
theorem exists_key_insertAll {κ : Type} {key : α → κ} (hkey : ∀ a b, clash a b ↔ key a = key b)
    {s : Container clash} {as : List α} {k : κ} :
    (∃ b ∈ (s.insertAll as).elements, key b = k) ↔
      (∃ b ∈ s.elements, key b = k) ∨ k ∈ as.map key := by
  constructor
  · rintro ⟨b, hmem, rfl⟩
    exact (mem_of_mem_insertAll hmem).imp (fun hstored => ⟨b, hstored, rfl⟩)
      List.mem_map_of_mem
  · rintro (⟨b, hmem, rfl⟩ | hmem)
    · exact ⟨b, mem_insertAll_of_mem hmem, rfl⟩
    · obtain ⟨a, hlisted, rfl⟩ := List.mem_map.mp hmem
      obtain ⟨b, hmem, hclash⟩ :=
        @refuses_insertAll _ _ _ (fun a => (hkey a a).mpr rfl) s as a hlisted
      exact ⟨b, hmem, (hkey b a).mp hclash⟩

/-- The element that is found under a key is the first one that has been there or inserted. -/
theorem find?_insertAll {κ : Type} [DecidableEq κ] {key : α → κ}
    (hkey : ∀ a b, clash a b ↔ key a = key b) (s : Container clash) (as : List α) (k : κ) :
    ((s.insertAll as).elements.find? fun a => key a = k) =
      (s.elements ++ as).find? fun a => key a = k := by
  induction as generalizing s with
  | nil => rw [insertAll_nil, List.append_nil]
  | cons a as ih =>
      rw [insertAll_cons, ih, List.find?_append, List.find?_append, List.find?_cons]
      by_cases hrefused : s.Refuses a
      · rw [insert_of_clash hrefused]
        by_cases hk : key a = k
        · -- the element that refuses it is found before it
          obtain ⟨b, hmem, hclash⟩ := hrefused
          have hfound : (s.elements.find? fun a => key a = k).isSome = true :=
            List.find?_isSome.mpr ⟨b, hmem, decide_eq_true (((hkey b a).mp hclash).trans hk)⟩
          obtain ⟨c, hc⟩ := Option.isSome_iff_exists.mp hfound
          rw [hc]
          rfl
        · simp [hk]
      · rw [elements_insert hrefused, List.find?_append, Option.or_assoc]
        by_cases hk : key a = k <;> simp [hk]

end Container

end BlackCircle.Foundation
