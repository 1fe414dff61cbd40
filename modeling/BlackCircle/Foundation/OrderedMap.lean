import Mathlib.Data.List.Perm.Basic
import Mathlib.Order.Lattice
import Mathlib.Tactic.SplitIfs

/-!
# Ordered maps

A finite map as the list of its entries in ascending key order.  The list
operations come first, because recursive data types can hold only the bare
list; `OrderedMap` packs a list with the proof that it is sorted.
-/

namespace BlackCircle.Foundation

/-! ## Entry lists -/

namespace EntryList

variable {κ ν : Type} [LinearOrder κ]

def Sorted (entries : List (κ × ν)) : Prop :=
  entries.Pairwise fun first second => first.1 < second.1

/-- The value at a key. -/
def find (key : κ) : List (κ × ν) → Option ν
  | [] => none
  | (k, v) :: rest => if key = k then some v else find key rest

/-- Place a value at a key; an entry that is already there is changed by `onClash`. -/
def place (onClash : ν → ν) (key : κ) (value : ν) : List (κ × ν) → List (κ × ν)
  | [] => [(key, value)]
  | (k, v) :: rest =>
      if key < k then (key, value) :: (k, v) :: rest
      else if key = k then (k, onClash v) :: rest
      else (k, v) :: place onClash key value rest

/-- Remove the entry at a key. -/
def remove (key : κ) : List (κ × ν) → List (κ × ν)
  | [] => []
  | (k, v) :: rest => if key = k then rest else (k, v) :: remove key rest

theorem find_eq_none_of_lt {key : κ} {entries : List (κ × ν)}
    (h : ∀ entry ∈ entries, key < entry.1) : find key entries = none := by
  induction entries with
  | nil => rfl
  | cons entry rest ih =>
      have hne : key ≠ entry.1 := ne_of_lt (h entry List.mem_cons_self)
      simpa [find, hne] using ih fun e he => h e (List.mem_cons_of_mem _ he)

theorem find_eq_none_of_notMem {key : κ} {entries : List (κ × ν)}
    (h : key ∉ entries.map Prod.fst) : find key entries = none := by
  induction entries with
  | nil => rfl
  | cons entry rest ih =>
      rw [List.map_cons, List.mem_cons, not_or] at h
      rw [find, if_neg h.1, ih h.2]

/-- An entry whose key is not met before it is found. -/
theorem find_append_of_none {key : κ} {entries more : List (κ × ν)}
    (h : find key entries = none) : find key (entries ++ more) = find key more := by
  induction entries with
  | nil => rfl
  | cons entry rest ih =>
      rw [List.cons_append]
      rw [find] at h ⊢
      split_ifs at h ⊢
      exact ih h

theorem mem_of_find {key : κ} {value : ν} {entries : List (κ × ν)}
    (h : find key entries = some value) : (key, value) ∈ entries := by
  induction entries with
  | nil => cases h
  | cons entry rest ih =>
      obtain ⟨k, v⟩ := entry
      by_cases hkey : key = k
      · simp only [find, if_pos hkey, Option.some.injEq] at h
        simp [hkey, h]
      · simp only [find, if_neg hkey] at h
        exact List.mem_cons_of_mem _ (ih h)

theorem find_of_mem {entries : List (κ × ν)} (hsorted : Sorted entries) {entry : κ × ν}
    (hmem : entry ∈ entries) : find entry.1 entries = some entry.2 := by
  induction entries with
  | nil => cases hmem
  | cons head rest ih =>
      rw [Sorted, List.pairwise_cons] at hsorted
      rcases List.mem_cons.mp hmem with rfl | hrest
      · simp [find]
      · have hne : entry.1 ≠ head.1 := ne_of_gt (hsorted.1 entry hrest)
        simpa [find, hne] using ih hsorted.2 hrest

theorem find_append_of_some {key : κ} {value : ν} {entries more : List (κ × ν)}
    (h : find key entries = some value) : find key (entries ++ more) = some value := by
  induction entries with
  | nil => cases h
  | cons entry rest ih =>
      rw [List.cons_append]
      rw [find] at h ⊢
      split_ifs at h ⊢ with hkey
      · exact h
      · exact ih h

theorem mem_place {onClash : ν → ν} {key : κ} {value : ν} {entries : List (κ × ν)}
    {entry : κ × ν} (h : entry ∈ place onClash key value entries) :
    entry.1 = key ∨ entry ∈ entries := by
  induction entries with
  | nil => exact Or.inl (by simp_all [place])
  | cons head rest ih =>
      rw [place] at h
      split_ifs at h with hlt heq
      · rcases List.mem_cons.mp h with rfl | h
        · exact Or.inl rfl
        · exact Or.inr h
      · rcases List.mem_cons.mp h with rfl | h
        · exact Or.inl heq.symm
        · exact Or.inr (List.mem_cons_of_mem _ h)
      · rcases List.mem_cons.mp h with rfl | h
        · exact Or.inr List.mem_cons_self
        · exact (ih h).imp_right (List.mem_cons_of_mem _)

theorem Sorted.place {entries : List (κ × ν)} (h : Sorted entries) (onClash : ν → ν) (key : κ)
    (value : ν) : Sorted (place onClash key value entries) := by
  induction entries with
  | nil => exact List.pairwise_singleton _ _
  | cons head rest ih =>
      have hrest := List.pairwise_cons.mp h
      rw [EntryList.place]
      split_ifs with hlt heq
      · refine List.pairwise_cons.mpr ⟨fun entry hentry => ?_, h⟩
        rcases List.mem_cons.mp hentry with rfl | hentry
        · exact hlt
        · exact lt_trans hlt (hrest.1 entry hentry)
      · exact List.pairwise_cons.mpr ⟨hrest.1, hrest.2⟩
      · refine List.pairwise_cons.mpr ⟨fun entry hentry => ?_, ih hrest.2⟩
        rcases mem_place hentry with hkey | hentry
        · rw [hkey]
          exact lt_of_le_of_ne (not_lt.mp hlt) (Ne.symm heq)
        · exact hrest.1 entry hentry

theorem find_place_self {entries : List (κ × ν)} (h : Sorted entries) (onClash : ν → ν) (key : κ)
    (value : ν) :
    find key (place onClash key value entries) =
      some ((find key entries).elim value onClash) := by
  induction entries with
  | nil => simp [place, find]
  | cons head rest ih =>
      have hrest := List.pairwise_cons.mp h
      rw [place]
      split_ifs with hlt heq
      · have hnone : find key (head :: rest) = none := by
          refine find_eq_none_of_lt fun entry hentry => ?_
          rcases List.mem_cons.mp hentry with rfl | hentry
          · exact hlt
          · exact lt_trans hlt (hrest.1 entry hentry)
        rw [hnone]
        simp [find]
      · simp [find, heq]
      · simp [find, heq, ih hrest.2]

theorem find_place_of_ne {key other : κ} (hne : other ≠ key) (onClash : ν → ν) (value : ν)
    (entries : List (κ × ν)) :
    find other (place onClash key value entries) = find other entries := by
  induction entries with
  | nil => simp [place, find, hne]
  | cons head rest ih =>
      rw [place]
      split_ifs with hlt heq
      · simp [find, hne]
      · simp [find, ← heq, hne]
      · simp [find, ih]

theorem Sorted.remove {entries : List (κ × ν)} (h : Sorted entries) (key : κ) :
    Sorted (remove key entries) := by
  have hsub : (EntryList.remove key entries).Sublist entries := by
    clear h
    induction entries with
    | nil => exact List.Sublist.refl _
    | cons head rest ih =>
        rw [EntryList.remove]
        split_ifs
        · exact List.sublist_cons_self _ _
        · exact ih.cons_cons _
  exact List.Pairwise.sublist hsub h

theorem find_remove_self {entries : List (κ × ν)} (h : Sorted entries) (key : κ) :
    find key (remove key entries) = none := by
  induction entries with
  | nil => rfl
  | cons head rest ih =>
      have hrest := List.pairwise_cons.mp h
      rw [remove]
      split_ifs with heq
      · exact find_eq_none_of_lt fun entry hentry => heq ▸ hrest.1 entry hentry
      · simpa [find, heq] using ih hrest.2

theorem find_remove_of_ne {key other : κ} (hne : other ≠ key) (entries : List (κ × ν)) :
    find other (remove key entries) = find other entries := by
  induction entries with
  | nil => rfl
  | cons head rest ih =>
      rw [remove]
      split_ifs with heq
      · simp [find, ← heq, hne]
      · simp [find, ih]

/-- Placing a value at a new key adds one entry. -/
theorem perm_place {key : κ} {entries : List (κ × ν)} (hnew : ∀ entry ∈ entries, entry.1 ≠ key)
    (onClash : ν → ν) (value : ν) :
    (place onClash key value entries).Perm ((key, value) :: entries) := by
  induction entries with
  | nil => exact List.Perm.refl _
  | cons head rest ih =>
      have hne : ¬ key = head.1 := Ne.symm (hnew head List.mem_cons_self)
      rw [place]
      split_ifs
      · exact List.Perm.refl _
      · exact ((ih fun entry hmem => hnew entry (List.mem_cons_of_mem _ hmem)).cons head).trans
          (List.Perm.swap _ _ _)

/-- Sorted entry lists with the same entries are equal. -/
theorem Sorted.eq_of_perm {left right : List (κ × ν)} (hleft : Sorted left) (hright : Sorted right)
    (hperm : left.Perm right) : left = right :=
  List.Perm.eq_of_pairwise (fun _ _ _ _ hab hba => absurd hab (lt_asymm hba)) hleft hright hperm

/-! ### Keys left out -/

section Filter

variable [DecidableEq κ]

theorem filter_place (onClash : ν → ν) (key : κ) (value : ν) (entries : List (κ × ν)) :
    (place onClash key value entries).filter (fun entry => entry.1 ≠ key) =
      entries.filter fun entry => entry.1 ≠ key := by
  induction entries with
  | nil => simp [place]
  | cons head rest ih =>
      rw [place]
      split_ifs with hlt heq
      · simp
      · simp [← heq]
      · rw [List.filter_cons, List.filter_cons, ih]

theorem remove_eq_filter {entries : List (κ × ν)} (h : Sorted entries) (key : κ) :
    remove key entries = entries.filter fun entry => entry.1 ≠ key := by
  induction entries with
  | nil => rfl
  | cons head rest ih =>
      have hrest := List.pairwise_cons.mp h
      rw [remove]
      split_ifs with heq
      · subst heq
        have hkeep : rest.filter (fun entry => entry.1 ≠ head.1) = rest :=
          List.filter_eq_self.mpr fun entry hmem => by simpa using ne_of_gt (hrest.1 entry hmem)
        simpa using hkeep.symm
      · have hne : head.1 ≠ key := Ne.symm heq
        rw [List.filter_cons, if_pos (by simpa using hne), ih hrest.2]

theorem filter_of_find_none {entries : List (κ × ν)} {key : κ} (hsorted : Sorted entries)
    (h : find key entries = none) : entries.filter (fun entry => entry.1 ≠ key) = entries := by
  refine List.filter_eq_self.mpr fun entry hmem => ?_
  have hne : entry.1 ≠ key := by
    rintro rfl
    rw [find_of_mem hsorted hmem] at h
    cases h
  simpa using hne

/-- A key's own entry, and the entries of the other keys. -/
theorem perm_of_find {entries : List (κ × ν)} {key : κ} {value : ν} (hsorted : Sorted entries)
    (h : find key entries = some value) :
    entries.Perm ((key, value) :: entries.filter fun entry => entry.1 ≠ key) := by
  induction entries with
  | nil => cases h
  | cons head rest ih =>
      have hrest := List.pairwise_cons.mp hsorted
      rw [find] at h
      split_ifs at h with heq
      · subst heq
        have hkeep : rest.filter (fun entry => entry.1 ≠ head.1) = rest :=
          List.filter_eq_self.mpr fun entry hmem => by simpa using ne_of_gt (hrest.1 entry hmem)
        cases h
        rw [List.filter_cons, if_neg (by simp), hkeep]
      · have hne : head.1 ≠ key := Ne.symm heq
        rw [List.filter_cons, if_pos (by simpa using hne)]
        exact ((ih hrest.2 h).cons head).trans (List.Perm.swap _ _ _)

end Filter

/-! ### Key order -/

/-- Entries with distinct keys, in the order of a map. -/
def inKeyOrder (entries : List (κ × ν)) : List (κ × ν) :=
  entries.mergeSort fun first second => first.1 ≤ second.1

theorem perm_inKeyOrder (entries : List (κ × ν)) : (inKeyOrder entries).Perm entries :=
  List.mergeSort_perm entries _

theorem sorted_inKeyOrder {entries : List (κ × ν)} (hdistinct : (entries.map Prod.fst).Nodup) :
    Sorted (inKeyOrder entries) := by
  have hle : (inKeyOrder entries).Pairwise fun first second =>
      decide (first.1 ≤ second.1) = true :=
    List.pairwise_mergeSort (fun a b c hab hbc => by simp at hab hbc ⊢; exact hab.trans hbc)
      (fun a b => by simpa using le_total a.1 b.1) entries
  have hne : (inKeyOrder entries).Pairwise fun first second => first.1 ≠ second.1 := by
    have hperm : ((inKeyOrder entries).map Prod.fst).Perm (entries.map Prod.fst) :=
      (perm_inKeyOrder entries).map _
    exact List.pairwise_map.mp (hperm.nodup_iff.mpr hdistinct)
  refine (hle.and hne).imp ?_
  rintro first second ⟨hle, hne⟩
  exact lt_of_le_of_ne (by simpa using hle) hne

theorem Sorted.nodup_keys {entries : List (κ × ν)} (h : Sorted entries) :
    (entries.map Prod.fst).Nodup :=
  List.pairwise_map.mpr (h.imp fun hlt => ne_of_lt hlt)

/-- Whatever order the entries of a map are found in, key order restores the map. -/
theorem inKeyOrder_eq_of_perm {entries found : List (κ × ν)} (hsorted : Sorted entries)
    (hperm : found.Perm entries) : inKeyOrder found = entries := by
  have hdistinct : (found.map Prod.fst).Nodup :=
    (hperm.map Prod.fst).nodup_iff.mpr hsorted.nodup_keys
  exact (sorted_inKeyOrder hdistinct).eq_of_perm hsorted ((perm_inKeyOrder found).trans hperm)

end EntryList

/-! ## Maps -/

open EntryList

/-- A finite map in ascending key order. -/
structure OrderedMap (κ ν : Type) [LinearOrder κ] where
  entries : List (κ × ν)
  sorted : Sorted entries
  deriving DecidableEq

namespace OrderedMap

variable {κ ν : Type} [LinearOrder κ]

def empty : OrderedMap κ ν := ⟨[], List.Pairwise.nil⟩

instance : Inhabited (OrderedMap κ ν) := ⟨empty⟩

def find? (m : OrderedMap κ ν) (key : κ) : Option ν := find key m.entries

/-- Store a value at a key, whatever was there. -/
def assign (m : OrderedMap κ ν) (key : κ) (value : ν) : OrderedMap κ ν :=
  ⟨place (fun _ => value) key value m.entries, m.sorted.place _ key value⟩

/-- Store a value at a key that is not taken; an existing entry stays. -/
def insert (m : OrderedMap κ ν) (key : κ) (value : ν) : OrderedMap κ ν :=
  ⟨place id key value m.entries, m.sorted.place _ key value⟩

def erase (m : OrderedMap κ ν) (key : κ) : OrderedMap κ ν :=
  ⟨remove key m.entries, m.sorted.remove key⟩

@[simp]
theorem find?_empty (key : κ) : (empty : OrderedMap κ ν).find? key = none := rfl

@[simp]
theorem find?_assign_self (m : OrderedMap κ ν) (key : κ) (value : ν) :
    (m.assign key value).find? key = some value := by
  rw [find?, assign, find_place_self m.sorted]
  cases find key m.entries <;> rfl

theorem find?_assign_of_ne (m : OrderedMap κ ν) {key other : κ} (hne : other ≠ key) (value : ν) :
    (m.assign key value).find? other = m.find? other :=
  find_place_of_ne hne _ value m.entries

theorem mem_assign {m : OrderedMap κ ν} {key : κ} {value : ν} {entry : κ × ν}
    (h : entry ∈ (m.assign key value).entries) : entry = (key, value) ∨ entry ∈ m.entries := by
  have hentry := find_of_mem (m.assign key value).sorted h
  by_cases hkey : entry.1 = key
  · have hself : find key (m.assign key value).entries = some value := find?_assign_self m key value
    rw [hkey, hself, Option.some.injEq] at hentry
    exact Or.inl (Prod.ext hkey hentry.symm)
  · have hother := find?_assign_of_ne m hkey value
    rw [find?, hentry] at hother
    exact Or.inr (mem_of_find hother.symm)

@[simp]
theorem find?_insert_self (m : OrderedMap κ ν) (key : κ) (value : ν) :
    (m.insert key value).find? key = some ((m.find? key).getD value) := by
  rw [find?, insert, find_place_self m.sorted, find?]
  cases find key m.entries <;> rfl

theorem find?_insert_of_ne (m : OrderedMap κ ν) {key other : κ} (hne : other ≠ key) (value : ν) :
    (m.insert key value).find? other = m.find? other :=
  find_place_of_ne hne _ value m.entries

@[simp]
theorem find?_erase_self (m : OrderedMap κ ν) (key : κ) : (m.erase key).find? key = none :=
  find_remove_self m.sorted key

theorem find?_erase_of_ne (m : OrderedMap κ ν) {key other : κ} (hne : other ≠ key) :
    (m.erase key).find? other = m.find? other :=
  find_remove_of_ne hne m.entries

theorem entries_erase [DecidableEq κ] (m : OrderedMap κ ν) (key : κ) :
    (m.erase key).entries = m.entries.filter fun entry => entry.1 ≠ key :=
  remove_eq_filter m.sorted key

end OrderedMap

end BlackCircle.Foundation
