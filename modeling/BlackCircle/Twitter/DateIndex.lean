import BlackCircle.Foundation.SearchTree
import BlackCircle.Twitter.Integrity

/-!
# The date index

The tweet store with its index by date, as insertions and deletions leave it.  A
date that could not be read is no date: it comes neither before nor after any
other.  The index is a search tree, of whatever shape its balancing gives it.
-/

namespace BlackCircle.Twitter.DateIndex

open BlackCircle.Foundation
open BlackCircle.Foundation.ByteString
open BlackCircle.Foundation.SearchTree
open BlackCircle.Twitter
open BlackCircle.Twitter.Integrity

variable {τ : Type} [LinearOrder τ]

/-! ## Dates -/

/-- `operator <` of dates; none stands for `not_a_date_time`. -/
def before : Option τ → Option τ → Prop
  | some first, some second => first < second
  | _, _ => False

instance : DecidableRel (@before τ _)
  | some first, some second => inferInstanceAs (Decidable (first < second))
  | some _, none => inferInstanceAs (Decidable False)
  | none, _ => inferInstanceAs (Decidable False)

/-- All of these are dates, or those that are dates are one and the same. -/
def Orderly (dates : Set (Option τ)) : Prop :=
  none ∉ dates ∨ ∀ first second, some first ∈ dates → some second ∈ dates → first = second

theorem before_irrefl (date : Option τ) : ¬before date date := by
  cases date with
  | none => exact id
  | some first => exact lt_irrefl first

theorem not_before_none (date : Option τ) : ¬before date none := by
  cases date <;> exact id

theorem before_trans {first second third : Option τ} (h : before first second)
    (h' : before second third) : before first third := by
  match first, second, third, h, h' with
  | some _, some _, some _, h, h' => exact lt_trans h h'

/-- Dates that are ordered weakly are orderly, and conversely. -/
theorem strictWeakOn_iff (dates : Set (Option τ)) : StrictWeakOn before dates ↔ Orderly dates := by
  constructor
  · intro h
    by_contra hnot
    rw [Orderly, not_or, not_not] at hnot
    obtain ⟨hnone, hdiffer⟩ := hnot
    refine hdiffer fun first second hfirst hsecond => ?_
    -- neither of the two is comparable with what is no date
    obtain ⟨hnlt, hngt⟩ := h.incomp_trans ⟨some first, hfirst⟩ ⟨none, hnone⟩
      ⟨some second, hsecond⟩ ⟨id, id⟩ ⟨id, id⟩
    exact le_antisymm (not_lt.mp hngt) (not_lt.mp hnlt)
  · intro h
    refine @IsStrictWeakOrder.mk _ _ (@IsStrictOrder.mk _ _ ⟨fun date => before_irrefl date.1⟩
      ⟨fun _ _ _ => before_trans⟩) ?_
    rintro ⟨first, hfirst⟩ ⟨second, hsecond⟩ ⟨third, hthird⟩ hleft hright
    rcases h with hnone | hone
    · match first, second, third with
      | some a, some b, some c =>
          obtain rfl : a = b := le_antisymm (not_lt.mp hleft.2) (not_lt.mp hleft.1)
          exact hright
      | none, _, _ => exact absurd hfirst hnone
      | _, none, _ => exact absurd hsecond hnone
      | _, _, none => exact absurd hthird hnone
    · match first, third with
      | some a, some c =>
          obtain rfl := hone a c hfirst hthird
          exact ⟨before_irrefl _, before_irrefl _⟩
      | none, _ => exact ⟨id, not_before_none _⟩
      | some _, none => exact ⟨id, id⟩

/-! ## The index -/

/-- The stores, and the tweets in the order of the date index. -/
structure Indexed (τ : Type) where
  stores : Stores (Option τ)
  dateIndex : List (TweetObject (Option τ))

/-- A store operation on the index.  An insertion searches a tree that holds the tweets in the
order they are in. -/
inductive Step : Indexed τ → StoreOp (Option τ) → Indexed τ → Prop where
  | insertUser (s : Indexed τ) (u : TwitterUserObject (Option τ)) :
      Step s (.insertUser u) ⟨(StoreOp.insertUser u).apply s.stores, s.dateIndex⟩
  | refuseTweet (s : Indexed τ) (t : TweetObject (Option τ))
      (h : s.stores.tweetStore.Refuses t) : Step s (.insertTweet t) s
  | insertTweet (s : Indexed τ) (t : TweetObject (Option τ))
      (h : ¬s.stores.tweetStore.Refuses t) (tree : BinaryTree (TweetObject (Option τ)))
      (htree : inorder tree = s.dateIndex) :
      Step s (.insertTweet t) ⟨(StoreOp.insertTweet t).apply s.stores,
        inorder (insertLeaf TweetObject.createdAt before t tree)⟩
  | eraseTweet (s : Indexed τ) (id : UInt64) :
      Step s (.eraseTweet id) ⟨(StoreOp.eraseTweet id).apply s.stores,
        s.dateIndex.filter fun t => t.id != id⟩

/-- Any operations, one after the other. -/
inductive Run : List (StoreOp (Option τ)) → Indexed τ → Prop where
  | start : Run [] ⟨.empty, []⟩
  | step {ops : List (StoreOp (Option τ))} {op : StoreOp (Option τ)} {s s' : Indexed τ}
      (run : Run ops s) (h : Step s op s') : Run (ops ++ [op]) s'

/-- The dates of the tweets that are to be inserted. -/
def insertedDates (ops : List (StoreOp (Option τ))) : Set (Option τ) :=
  {date | ∃ t, .insertTweet t ∈ ops ∧ t.createdAt = date}

/-- No date is shown in front of an earlier one. -/
def InOrder (dateIndex : List (TweetObject (Option τ))) : Prop :=
  Sorted TweetObject.createdAt before dateIndex

section Runs

variable {ops : List (StoreOp (Option τ))} {op : StoreOp (Option τ)} {s s' : Indexed τ}

/-- A step is the operation on the stores. -/
theorem Step.stores (h : Step s op s') : s'.stores = op.apply s.stores := by
  cases h with
  | insertUser => rfl
  | refuseTweet t hrefused =>
      rw [StoreOp.apply, Container.insert_of_clash hrefused]
  | insertTweet => rfl
  | eraseTweet => rfl

/-- The index holds the stored tweets. -/
theorem Step.perm (h : Step s op s') (hperm : s.dateIndex.Perm s.stores.tweetStore.elements) :
    s'.dateIndex.Perm s'.stores.tweetStore.elements := by
  cases h with
  | insertUser => exact hperm
  | refuseTweet => exact hperm
  | insertTweet t hnew tree htree =>
      refine (perm_insertLeaf t tree).trans ?_
      rw [htree]
      change (t :: s.dateIndex).Perm (s.stores.tweetStore.insert t).elements
      rw [Container.elements_insert hnew]
      exact (hperm.cons t).trans (List.perm_append_singleton t _).symm
  | eraseTweet id => exact hperm.filter _

theorem Run.reflects (h : Run ops s) :
    s.stores = applyAll ops .empty ∧ s.dateIndex.Perm s.stores.tweetStore.elements := by
  induction h with
  | start => exact ⟨rfl, List.Perm.refl _⟩
  | step run h ih =>
      refine ⟨?_, h.perm ih.2⟩
      rw [h.stores, ih.1, applyAll, applyAll, List.foldl_append]
      rfl

/-- What is in the index has been inserted. -/
theorem Run.dates (h : Run ops s) : ∀ t ∈ s.dateIndex, t.createdAt ∈ insertedDates ops := by
  induction h with
  | start => exact fun _ hmem => absurd hmem List.not_mem_nil
  | @step ops op s s' run h ih =>
      have hold : insertedDates ops ⊆ insertedDates (ops ++ [op]) := by
        rintro date ⟨t, hmem, rfl⟩
        exact ⟨t, List.mem_append_left _ hmem, rfl⟩
      cases h with
      | insertUser => exact fun t hmem => hold (ih t hmem)
      | refuseTweet => exact fun t hmem => hold (ih t hmem)
      | insertTweet made hnew tree htree =>
          intro t hmem
          rcases List.mem_cons.mp ((perm_insertLeaf made tree).mem_iff.mp hmem) with rfl | hmem
          · exact ⟨t, List.mem_append_right _ List.mem_cons_self, rfl⟩
          · rw [htree] at hmem
            exact hold (ih t hmem)
      | eraseTweet id => exact fun t hmem => hold (ih t (List.mem_of_mem_filter hmem))

/-- A step keeps the order, where what is stored and what is inserted is orderly. -/
theorem Step.inOrder (h : Step s op s') {dates : Set (Option τ)} (horderly : Orderly dates)
    (hstored : ∀ t ∈ s.dateIndex, t.createdAt ∈ dates)
    (hnew : ∀ t, op = .insertTweet t → t.createdAt ∈ dates) (hinOrder : InOrder s.dateIndex) :
    InOrder s'.dateIndex := by
  cases h with
  | insertUser => exact hinOrder
  | refuseTweet => exact hinOrder
  | insertTweet t _ tree htree =>
      rw [← htree] at hstored hinOrder
      exact sorted_insertLeaf ((strictWeakOn_iff dates).mpr horderly) (hnew t rfl) hstored hinOrder
  | eraseTweet id => exact hinOrder.sublist List.filter_sublist

/-- As long as what is inserted is orderly, the index stays in order. -/
theorem Run.inOrder (h : Run ops s) {dates : Set (Option τ)} (horderly : Orderly dates)
    (hdates : insertedDates ops ⊆ dates) : InOrder s.dateIndex := by
  induction h with
  | start => exact List.Pairwise.nil
  | @step ops op s s' run h ih =>
      have hold : insertedDates ops ⊆ dates := by
        rintro date ⟨t, hmem, rfl⟩
        exact hdates ⟨t, List.mem_append_left _ hmem, rfl⟩
      refine h.inOrder horderly (fun t hmem => hold (run.dates t hmem)) ?_ (ih hold)
      rintro t rfl
      exact hdates ⟨t, List.mem_append_right _ List.mem_cons_self, rfl⟩

/-- The insertion of a tweet with a new id. -/
theorem Run.insert (h : Run ops s) (t : TweetObject (Option τ))
    (hfresh : ∀ u ∈ s.dateIndex, u.id ≠ t.id) (tree : BinaryTree (TweetObject (Option τ)))
    (htree : inorder tree = s.dateIndex) :
    ∃ s', Run (ops ++ [.insertTweet t]) s' ∧
      s'.dateIndex = inorder (insertLeaf TweetObject.createdAt before t tree) := by
  refine ⟨_, h.step (.insertTweet s t ?_ tree htree), rfl⟩
  rintro ⟨u, hmem, hsame⟩
  exact hfresh u (h.reflects.2.mem_iff.mpr hmem) hsame

/-- A tweet of that date. -/
def tweetOn (id : UInt64) (date : Option τ) : TweetObject (Option τ) :=
  ⟨0, [], none, none, id, false, false, date, [], none⟩

/-- A late date, what is no date, and the late date once more; balanced, the tree has what is no
date at its root, and an early date goes to the right of it. -/
theorem exists_run_late_early {early late : τ} (hlt : early < late) :
    ∃ s, Run [.insertTweet (tweetOn 1 (some late)), .insertTweet (tweetOn 2 none),
        .insertTweet (tweetOn 3 (some late)), .insertTweet (tweetOn 4 (some early))] s ∧
      s.dateIndex = [tweetOn 1 (some late), tweetOn 2 none, tweetOn 4 (some early),
        tweetOn 3 (some late)] := by
  have hsecond : ¬before (tweetOn 2 none).createdAt (tweetOn 1 (some late)).createdAt := id
  have hthird : ¬before (tweetOn 3 (some late)).createdAt (tweetOn 1 (some late)).createdAt :=
    before_irrefl _
  have hnone : ∀ t : TweetObject (Option τ), ¬before t.createdAt (tweetOn 2 none).createdAt :=
    fun _ => not_before_none _
  have hfourth : before (tweetOn 4 (some early)).createdAt (tweetOn 3 (some late)).createdAt :=
    hlt
  obtain ⟨s₁, run₁, h₁⟩ := Run.start.insert (tweetOn 1 (some late))
    (fun _ hmem => absurd hmem List.not_mem_nil) .nil rfl
  replace h₁ : s₁.dateIndex = [tweetOn 1 (some late)] := h₁
  obtain ⟨s₂, run₂, h₂⟩ := run₁.insert (tweetOn 2 none) (by simp [h₁, tweetOn])
    (.node (tweetOn 1 (some late)) .nil .nil) h₁.symm
  replace h₂ : s₂.dateIndex = [tweetOn 1 (some late), tweetOn 2 none] := by
    rw [h₂, insertLeaf, if_neg hsecond]
    rfl
  obtain ⟨s₃, run₃, h₃⟩ := run₂.insert (tweetOn 3 (some late)) (by simp [h₂, tweetOn])
    (.node (tweetOn 1 (some late)) .nil (.node (tweetOn 2 none) .nil .nil)) h₂.symm
  replace h₃ : s₃.dateIndex =
      [tweetOn 1 (some late), tweetOn 2 none, tweetOn 3 (some late)] := by
    rw [h₃, insertLeaf, if_neg hthird, insertLeaf, if_neg (hnone _)]
    rfl
  obtain ⟨s₄, run₄, h₄⟩ := run₃.insert (tweetOn 4 (some early)) (by simp [h₃, tweetOn])
    (.node (tweetOn 2 none) (.node (tweetOn 1 (some late)) .nil .nil)
      (.node (tweetOn 3 (some late)) .nil .nil)) h₃.symm
  refine ⟨s₄, run₄, ?_⟩
  rw [h₄, insertLeaf, if_neg (hnone _), insertLeaf, if_pos hfourth]
  rfl

/-- Where the dates are not orderly, there is a run that puts one in front of an earlier one. -/
theorem exists_run_not_inOrder {dates : Set (Option τ)} (h : ¬Orderly dates) :
    ∃ ops s, Run ops s ∧ insertedDates ops ⊆ dates ∧ ¬InOrder s.dateIndex := by
  rw [Orderly, not_or, not_not] at h
  obtain ⟨hnone, hdiffer⟩ := h
  obtain ⟨early, late, hearly, hlate, hlt⟩ : ∃ early late : τ,
      some early ∈ dates ∧ some late ∈ dates ∧ early < late := by
    by_contra hall
    refine hdiffer fun first second hfirst hsecond => ?_
    by_contra hne
    rcases lt_or_gt_of_ne hne with hlt | hgt
    · exact hall ⟨first, second, hfirst, hsecond, hlt⟩
    · exact hall ⟨second, first, hsecond, hfirst, hgt⟩
  obtain ⟨s, run, hindex⟩ := exists_run_late_early hlt
  refine ⟨_, s, run, ?_, fun hinOrder => ?_⟩
  · rintro date ⟨t, hmem, rfl⟩
    simp only [List.mem_cons, StoreOp.insertTweet.injEq, List.not_mem_nil, or_false] at hmem
    rcases hmem with rfl | rfl | rfl | rfl
    · exact hlate
    · exact hnone
    · exact hlate
    · exact hearly
  · rw [hindex] at hinOrder
    exact (List.pairwise_cons.mp hinOrder).1 (tweetOn 4 (some early)) (by simp) hlt

end Runs

/-! ## All dates that are read -/

/-- For the dates that are read from some texts: they are ordered weakly, and no traversal shows
one in front of an earlier one, just when they are orderly. -/
theorem dateIndex_lawful_iff (readTime : Bytes → Option τ) (texts : Set Bytes) :
    (StrictWeakOn before (readTime '' texts) ↔ Orderly (readTime '' texts)) ∧
      ((∀ ops s, Run ops s → insertedDates ops ⊆ readTime '' texts → InOrder s.dateIndex) ↔
        Orderly (readTime '' texts)) := by
  refine ⟨strictWeakOn_iff _, fun hall => ?_, fun horderly ops s run hdates =>
    run.inOrder horderly hdates⟩
  by_contra hnot
  obtain ⟨ops, s, run, hdates, hdisorder⟩ := exists_run_not_inOrder hnot
  exact hdisorder (hall ops s run hdates)

/-- Two dates, and anything else. -/
def readTwo (text : Bytes) : Option Nat :=
  if text = ascii "Sat Jan 01 00:00:00 +0000 2011" then some 0
  else if text = ascii "Sun Jan 02 00:00:00 +0000 2011" then some 86400
  else none

/-- The two of them and a text that is no date. -/
theorem not_dateIndex_lawful :
    ¬StrictWeakOn before (readTwo '' Set.univ) ∧
      ∃ ops s, Run ops s ∧ insertedDates ops ⊆ readTwo '' Set.univ ∧ ¬InOrder s.dateIndex := by
  have hdisorderly : ¬Orderly (readTwo '' Set.univ) := by
    rw [Orderly, not_or, not_not]
    refine ⟨⟨ascii "yesterday", trivial, by decide⟩, fun hone => ?_⟩
    have heq := hone 0 86400 ⟨ascii "Sat Jan 01 00:00:00 +0000 2011", trivial, by decide⟩
      ⟨ascii "Sun Jan 02 00:00:00 +0000 2011", trivial, by decide⟩
    exact absurd heq (by decide)
  exact ⟨mt (strictWeakOn_iff _).mp hdisorderly, exists_run_not_inOrder hdisorderly⟩

end BlackCircle.Twitter.DateIndex
