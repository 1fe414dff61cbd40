import Mathlib.Data.List.Pairwise
import Mathlib.Data.Set.Basic
import Mathlib.Data.Tree.Basic
import Mathlib.Order.RelClasses

/-!
# Search trees under any comparison

A tree that is searched with a comparison of keys, of which nothing is required.
An element is inserted at the leaf that the search for its key comes to; how the
tree is balanced is left open, since that does not change the order in which its
elements are traversed.  Where the comparison is a strict weak order of the keys,
the traversal stays sorted, and elements of equal keys stay in the order in which
they have been added.
-/

namespace BlackCircle.Foundation.SearchTree

section Trees

variable {α κ : Type} (key : α → κ) (lt : κ → κ → Prop)

/-- The elements from the left to the right. -/
def inorder : BinaryTree α → List α
  | .nil => []
  | .node a left right => inorder left ++ a :: inorder right

/-- Insert a leaf, to the left of all elements met whose keys come after its own. -/
def insertLeaf [DecidableRel lt] (a : α) : BinaryTree α → BinaryTree α
  | .nil => .node a .nil .nil
  | .node b left right =>
      if lt (key a) (key b) then .node b (insertLeaf a left) right
      else .node b left (insertLeaf a right)

/-- No key is followed by one that comes before it. -/
def Sorted (elements : List α) : Prop :=
  elements.Pairwise fun first second => ¬lt (key second) (key first)

/-- The comparison is a strict weak order of these keys. -/
def StrictWeakOn (keys : Set κ) : Prop :=
  IsStrictWeakOrder keys fun first second => lt first second

variable {key lt} {keys : Set κ}

/-- Not to come before is transitive. -/
theorem StrictWeakOn.not_lt_trans (h : StrictWeakOn lt keys) {k l m : κ} (hk : k ∈ keys)
    (hl : l ∈ keys) (hm : m ∈ keys) (hkl : ¬lt l k) (hlm : ¬lt m l) : ¬lt m k := by
  intro hmk
  have htrans : ∀ {a b c : κ}, a ∈ keys → b ∈ keys → c ∈ keys → lt a b → lt b c → lt a c :=
    fun ha hb hc hab hbc => h.trans ⟨_, ha⟩ ⟨_, hb⟩ ⟨_, hc⟩ hab hbc
  have hkl' : ¬lt k l := fun hlt => hlm (htrans hm hk hl hmk hlt)
  have hlm' : ¬lt l m := fun hlt => hkl (htrans hl hm hk hlt hmk)
  exact (h.incomp_trans ⟨k, hk⟩ ⟨l, hl⟩ ⟨m, hm⟩ ⟨hkl', hkl⟩ ⟨hlm', hlm⟩).2 hmk

variable [DecidableRel lt]

theorem perm_insertLeaf (a : α) (tree : BinaryTree α) :
    (inorder (insertLeaf key lt a tree)).Perm (a :: inorder tree) := by
  induction tree with
  | nil => exact List.Perm.refl _
  | node b left right ihLeft ihRight =>
      rw [insertLeaf, inorder]
      split
      · rw [inorder]
        exact ihLeft.append_right _
      · rw [inorder]
        have hbehind := (ihRight.cons b).trans (List.Perm.swap a b _)
        exact (hbehind.append_left (inorder left)).trans List.perm_middle

/-- A sorted traversal stays sorted. -/
theorem sorted_insertLeaf (h : StrictWeakOn lt keys) {a : α} (ha : key a ∈ keys)
    {tree : BinaryTree α} (hkeys : ∀ b ∈ inorder tree, key b ∈ keys)
    (hsorted : Sorted key lt (inorder tree)) :
    Sorted key lt (inorder (insertLeaf key lt a tree)) := by
  induction tree with
  | nil => exact List.pairwise_singleton _ _
  | node b left right ihLeft ihRight =>
      rw [inorder] at hkeys hsorted
      obtain ⟨hleftKeys, hbehindKeys⟩ := List.forall_mem_append.mp hkeys
      obtain ⟨hb, hrightKeys⟩ := List.forall_mem_cons.mp hbehindKeys
      obtain ⟨hleft, hbehind, hacross⟩ := List.pairwise_append.mp hsorted
      obtain ⟨hright, hrightSorted⟩ := List.pairwise_cons.mp hbehind
      rw [insertLeaf]
      split
      case isTrue hlt =>
        have hnot : ¬lt (key b) (key a) := fun hreverse =>
          h.irrefl ⟨key a, ha⟩ (h.trans ⟨_, ha⟩ ⟨_, hb⟩ ⟨_, ha⟩ hlt hreverse)
        rw [inorder]
        refine List.pairwise_append.mpr ⟨ihLeft hleftKeys hleft, hbehind, ?_⟩
        intro c hc
        rcases List.mem_cons.mp ((perm_insertLeaf a left).mem_iff.mp hc) with rfl | hold
        · refine List.forall_mem_cons.mpr ⟨hnot, fun d hd => ?_⟩
          exact h.not_lt_trans ha hb (hrightKeys d hd) hnot (hright d hd)
        · exact hacross c hold
      case isFalse hnot =>
        rw [inorder]
        refine List.pairwise_append.mpr
          ⟨hleft, List.pairwise_cons.mpr ⟨?_, ihRight hrightKeys hrightSorted⟩, ?_⟩
        · intro d hd
          rcases List.mem_cons.mp ((perm_insertLeaf a right).mem_iff.mp hd) with rfl | hold
          · exact hnot
          · exact hright d hold
        · intro c hc
          obtain ⟨hcb, hcright⟩ := List.forall_mem_cons.mp (hacross c hc)
          refine List.forall_mem_cons.mpr ⟨hcb, fun d hd => ?_⟩
          rcases List.mem_cons.mp ((perm_insertLeaf a right).mem_iff.mp hd) with rfl | hold
          · exact h.not_lt_trans (hleftKeys c hc) hb ha hcb hnot
          · exact hcright d hold

end Trees

/-! ## Equal keys -/

section Stability

variable {α κ : Type} {key : α → κ} {lt : κ → κ → Prop} {keys : Set κ} {added elements : List α}

/-- Each element is behind those that come before it, and behind those added before it that come
neither before nor after it. -/
def Stable (key : α → κ) (lt : κ → κ → Prop) (added elements : List α) : Prop :=
  elements.Pairwise fun first second =>
    lt (key first) (key second) ∨ ¬lt (key second) (key first) ∧ [first, second].Sublist added

theorem StrictWeakOn.asymm (h : StrictWeakOn lt keys) {k l : κ} (hk : k ∈ keys) (hl : l ∈ keys)
    (hkl : lt k l) : ¬lt l k :=
  fun hlk => h.irrefl ⟨k, hk⟩ (h.trans ⟨_, hk⟩ ⟨_, hl⟩ ⟨_, hk⟩ hkl hlk)

/-- What comes before another comes before all that do not come before that. -/
theorem StrictWeakOn.lt_of_not_lt (h : StrictWeakOn lt keys) {k l m : κ} (hk : k ∈ keys)
    (hl : l ∈ keys) (hm : m ∈ keys) (hkl : lt k l) (hlm : ¬lt m l) : lt k m := by
  by_contra hkm
  exact h.not_lt_trans hl hm hk hlm hkm hkl

theorem Stable.sorted (h : Stable key lt added elements) (hkeys : ∀ b ∈ elements, key b ∈ keys)
    (hlt : StrictWeakOn lt keys) : Sorted key lt elements := by
  refine List.Pairwise.imp_of_mem (fun hfirst hsecond hor => ?_) h
  rcases hor with hbefore | ⟨hnot, -⟩
  · exact hlt.asymm (hkeys _ hfirst) (hkeys _ hsecond) hbefore
  · exact hnot

theorem Stable.filter (h : Stable key lt added elements) (keep : α → Bool) :
    Stable key lt (added.filter keep) (elements.filter keep) := by
  refine List.Pairwise.imp_of_mem (fun hfirst hsecond => ?_)
    (List.Pairwise.sublist List.filter_sublist h)
  refine Or.imp_right (And.imp_right fun hsub => ?_)
  have hkept := hsub.filter keep
  rwa [List.filter_cons_of_pos (List.mem_filter.mp hfirst).2,
    List.filter_cons_of_pos (List.mem_filter.mp hsecond).2, List.filter_nil] at hkept

/-- Of two elements without repetitions only one is in front of the other. -/
theorem not_sublist_swap {first second : α} (h : added.Nodup)
    (hsub : [first, second].Sublist added) : ¬[second, first].Sublist added := by
  induction added with
  | nil => cases hsub
  | cons a added ih =>
      obtain ⟨hnew, hnodup⟩ := List.nodup_cons.mp h
      intro hswap
      cases hsub with
      | cons _ hsub =>
          cases hswap with
          | cons _ hswap => exact ih hnodup hsub hswap
          | cons_cons _ _ => exact hnew (hsub.subset (List.mem_cons_of_mem _ List.mem_cons_self))
      | cons_cons _ hrest =>
          cases hswap with
          | cons _ hswap => exact hnew (hswap.subset (List.mem_cons_of_mem _ List.mem_cons_self))
          | cons_cons _ _ => exact hnew (hrest.subset List.mem_cons_self)

/-- There is one stable order. -/
theorem Stable.unique (h : Stable key lt added elements) {others : List α}
    (hothers : Stable key lt added others) (hlt : StrictWeakOn lt keys)
    (hkeys : ∀ b ∈ elements, key b ∈ keys) (hnodup : added.Nodup) (hperm : elements.Perm others) :
    elements = others := by
  refine List.Perm.eq_of_pairwise (fun a b ha hb hab hba => ?_) h hothers hperm
  have hak := hkeys a ha
  have hbk := hkeys b (hperm.mem_iff.mpr hb)
  rcases hab with hlt' | ⟨hnot, hsub⟩
  · rcases hba with hgt | ⟨hngt, -⟩
    · exact (hlt.asymm hak hbk hlt' hgt).elim
    · exact (hngt hlt').elim
  · rcases hba with hgt | ⟨-, hswap⟩
    · exact (hnot hgt).elim
    · exact (not_sublist_swap hnodup hsub hswap).elim

variable [DecidableRel lt]

/-- In a sorted traversal a new element goes behind all those it does not come before. -/
theorem exists_split_insertLeaf (h : StrictWeakOn lt keys) {a : α} (ha : key a ∈ keys)
    {tree : BinaryTree α} (hkeys : ∀ b ∈ inorder tree, key b ∈ keys)
    (hsorted : Sorted key lt (inorder tree)) :
    ∃ front back, inorder tree = front ++ back ∧
      inorder (insertLeaf key lt a tree) = front ++ a :: back ∧
      (∀ b ∈ front, ¬lt (key a) (key b)) ∧ ∀ b ∈ back, lt (key a) (key b) := by
  induction tree with
  | nil => exact ⟨[], [], rfl, rfl, nofun, nofun⟩
  | node b left right ihLeft ihRight =>
      rw [inorder] at hkeys hsorted
      obtain ⟨hleftKeys, hbehindKeys⟩ := List.forall_mem_append.mp hkeys
      obtain ⟨hb, hrightKeys⟩ := List.forall_mem_cons.mp hbehindKeys
      obtain ⟨hleft, hbehind, hacross⟩ := List.pairwise_append.mp hsorted
      obtain ⟨hright, hrightSorted⟩ := List.pairwise_cons.mp hbehind
      rw [insertLeaf]
      split
      case isTrue hlt =>
        obtain ⟨front, back, hold, hnew, hfront, hback⟩ := ihLeft hleftKeys hleft
        refine ⟨front, back ++ b :: inorder right, ?_, ?_, hfront, ?_⟩
        · rw [inorder, hold, List.append_assoc]
        · rw [inorder, hnew, List.append_assoc, List.cons_append]
        · refine List.forall_mem_append.mpr ⟨hback, List.forall_mem_cons.mpr ⟨hlt, fun c hc => ?_⟩⟩
          exact h.lt_of_not_lt ha hb (hrightKeys c hc) hlt (hright c hc)
      case isFalse hnot =>
        obtain ⟨front, back, hold, hnew, hfront, hback⟩ := ihRight hrightKeys hrightSorted
        refine ⟨inorder left ++ b :: front, back, ?_, ?_, ?_, hback⟩
        · rw [inorder, hold, List.append_assoc, List.cons_append]
        · rw [inorder, hnew, List.append_assoc, List.cons_append]
        · refine List.forall_mem_append.mpr
            ⟨fun c hc => ?_, List.forall_mem_cons.mpr ⟨hnot, hfront⟩⟩
          have hcb : ¬lt (key b) (key c) := hacross c hc b List.mem_cons_self
          exact h.not_lt_trans (hleftKeys c hc) hb ha hcb hnot

/-- A new leaf stays in the order of addition. -/
theorem stable_insertLeaf (h : StrictWeakOn lt keys) {a : α} (ha : key a ∈ keys)
    {tree : BinaryTree α} (hkeys : ∀ b ∈ inorder tree, key b ∈ keys)
    (hadded : ∀ b ∈ inorder tree, b ∈ added) (hstable : Stable key lt added (inorder tree)) :
    Stable key lt (added ++ [a]) (inorder (insertLeaf key lt a tree)) := by
  obtain ⟨front, back, hold, hnew, hfront, hback⟩ :=
    exists_split_insertLeaf h ha hkeys (hstable.sorted hkeys h)
  have hlater : Stable key lt (added ++ [a]) (front ++ back) := by
    rw [← hold]
    exact List.Pairwise.imp (Or.imp_right (And.imp_right fun hsub =>
      hsub.trans (List.sublist_append_left _ _))) hstable
  obtain ⟨hfronts, hbacks, hacross⟩ := List.pairwise_append.mp hlater
  rw [hnew]
  refine List.pairwise_append.mpr ⟨hfronts, List.pairwise_cons.mpr ⟨?_, hbacks⟩, ?_⟩
  · exact fun b hb => Or.inl (hback b hb)
  · intro b hb
    refine List.forall_mem_cons.mpr ⟨Or.inr ⟨hfront b hb, ?_⟩, hacross b hb⟩
    have hmem : b ∈ added := hadded b (hold ▸ List.mem_append_left back hb)
    exact (List.singleton_sublist.mpr hmem).append (List.Sublist.refl [a])

end Stability

end BlackCircle.Foundation.SearchTree
