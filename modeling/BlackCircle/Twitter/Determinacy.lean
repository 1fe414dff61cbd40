import BlackCircle.Twitter.Levels

/-!
# What a stored record comes from

Two runs of `insert_new_tweet` on the same message and the same stores, in different
memory.  A member that is neither found nor initialised shows the memory, unless
the record is refused by its store.
-/

namespace BlackCircle.Twitter.Determinacy

open BlackCircle.Foundation
open BlackCircle.Foundation.ByteString
open BlackCircle.Twitter
open BlackCircle.Twitter.Integrity
open BlackCircle.Twitter.Levels
open BlackCircle.Twitter.Processing

variable {Time : Type}

/-! ## Records -/

/-- The numbers of a user that have no default. -/
def userNumbers : List Bytes :=
  [ascii "followers_count", ascii "friends_count", ascii "statuses_count",
    ascii "favourites_count", ascii "id", ascii "utc_offset"]

/-- The flags of a user; none of them has a default. -/
def userFlags : List Bytes :=
  [ascii "notifications", ascii "contributors_enabled", ascii "geo_enabled",
    ascii "profile_background_tile", ascii "protected", ascii "following", ascii "verified"]

/-- All members of a user that have no default are found. -/
structure UserFound (o : Members) : Prop where
  numbers : ∀ name ∈ userNumbers, (setIfFound asInt64 o name).isSome = true
  flags : ∀ name ∈ userFlags, (setIfFound asBool o name).isSome = true

/-- All members of a tweet that have no default are found, the id of its user among them. -/
structure TweetFound (o : Members) : Prop where
  truncated : (setIfFound asBool o (ascii "truncated")).isSome = true
  favorited : (setIfFound asBool o (ascii "favorited")).isSome = true
  userId : ∀ m, setIfFound asObject o (ascii "user") = some m →
    (setIfFound asInt64 m (ascii "id")).isSome = true

/-- Another number. -/
def other {α : Type} [DecidableEq α] [OfNat α 0] [OfNat α 1] (n : α) : α := if n = 0 then 1 else 0

/-- Other memory, at the same time. -/
def stir (here : Surroundings Time) : Surroundings Time where
  user := { here.user with
    followersCount := other here.user.followersCount
    notifications := !here.user.notifications
    friendsCount := other here.user.friendsCount
    statusesCount := other here.user.statusesCount
    favouritesCount := other here.user.favouritesCount
    contributorsEnabled := !here.user.contributorsEnabled
    geoEnabled := !here.user.geoEnabled
    profileBackgroundTile := !here.user.profileBackgroundTile
    protected_ := !here.user.protected_
    following := !here.user.following
    verified := !here.user.verified
    id := other here.user.id
    utcOffset := other here.user.utcOffset }
  tweet := { here.tweet with
    truncated := !here.tweet.truncated
    favorited := !here.tweet.favorited }
  now := here.now

/-- Memory with this number in the place of the user's id. -/
def withId (here : Surroundings Time) (id : UInt64) : Surroundings Time :=
  { here with user := { here.user with id := id } }

section Records

variable {readTime : Bytes → Time} {here here' : Surroundings Time} {o : Members}

theorem getD_of_isSome {α : Type} {m : Option α} (h : m.isSome = true) (a b : α) :
    m.getD a = m.getD b := by
  obtain ⟨found, rfl⟩ := Option.isSome_iff_exists.mp h
  rfl

theorem isSome_of_getD {α : Type} {m : Option α} {a b : α} (hne : a ≠ b)
    (h : m.getD a = m.getD b) : m.isSome = true := by
  cases m with
  | none => exact absurd h hne
  | some found => rfl

theorem other_ne {α : Type} [DecidableEq α] [OfNat α 0] [OfNat α 1] (hne : (1 : α) ≠ 0) (n : α) :
    n ≠ other n := by
  rw [other]
  split
  case isTrue hzero =>
    rw [hzero]
    exact hne.symm
  case isFalse hzero => exact hzero

theorem bool_ne (b : Bool) : b ≠ !b := by
  cases b <;> decide

theorem isSome_asUInt64 (o : Members) (name : Bytes) :
    (setIfFound asUInt64 o name).isSome = (setIfFound asInt64 o name).isSome := by
  have hmap := setIfFound_map Int64.toUInt64 asInt64 o name
  rw [← Option.isSome_map (f := Int64.toUInt64), ← hmap]
  rfl

/-- A user of which all is found. -/
theorem user_eq (h : UserFound o) (hnow : here.now = here'.now) :
    twitterUserObject readTime here o = twitterUserObject readTime here' o := by
  obtain ⟨hnumbers, hflags⟩ := h
  simp only [userNumbers, userFlags, List.forall_mem_cons] at hnumbers hflags
  obtain ⟨hfollowers, hfriends, hstatuses, hfavourites, hid, hoffset, -⟩ := hnumbers
  obtain ⟨hnotifications, hcontributors, hgeo, htile, hprotected, hfollowing, hverified, -⟩ :=
    hflags
  rw [← isSome_asUInt64] at hfollowers hfriends hstatuses hfavourites hid
  rw [twitterUserObject, twitterUserObject, TwitterUserObject.mk.injEq, hnow]
  refine ⟨rfl, rfl, getD_of_isSome hfollowers _ _, rfl, rfl, getD_of_isSome hnotifications _ _,
    getD_of_isSome hfriends _ _, rfl, rfl, getD_of_isSome hstatuses _ _, rfl, rfl, rfl, rfl,
    getD_of_isSome hfavourites _ _, rfl, rfl, getD_of_isSome hcontributors _ _,
    getD_of_isSome hgeo _ _, getD_of_isSome htile _ _, getD_of_isSome hprotected _ _,
    getD_of_isSome hfollowing _ _, rfl, rfl, rfl, getD_of_isSome hverified _ _,
    getD_of_isSome hid _ _, getD_of_isSome hoffset _ _⟩

/-- A user that does not show the memory. -/
theorem userFound_of_eq
    (h : twitterUserObject readTime here o = twitterUserObject readTime (stir here) o) :
    UserFound o := by
  have hword : ∀ {name : Bytes} {n : UInt64}, (setIfFound asUInt64 o name).getD n =
      (setIfFound asUInt64 o name).getD (other n) → (setIfFound asInt64 o name).isSome = true := by
    intro name n hget
    rw [← isSome_asUInt64]
    exact isSome_of_getD (other_ne (by decide) n) hget
  rw [twitterUserObject, twitterUserObject, TwitterUserObject.mk.injEq] at h
  obtain ⟨-, -, hfollowers, -, -, hnotifications, hfriends, -, -, hstatuses, -, -, -, -,
    hfavourites, -, -, hcontributors, hgeo, htile, hprotected, hfollowing, -, -, -, hverified,
    hid, hoffset⟩ := h
  constructor
  · simp only [userNumbers, List.forall_mem_cons]
    exact ⟨hword hfollowers, hword hfriends, hword hstatuses, hword hfavourites, hword hid,
      isSome_of_getD (other_ne (by decide) _) hoffset, List.forall_mem_nil _⟩
  · simp only [userFlags, List.forall_mem_cons]
    exact ⟨isSome_of_getD (bool_ne _) hnotifications, isSome_of_getD (bool_ne _) hcontributors,
      isSome_of_getD (bool_ne _) hgeo, isSome_of_getD (bool_ne _) htile,
      isSome_of_getD (bool_ne _) hprotected, isSome_of_getD (bool_ne _) hfollowing,
      isSome_of_getD (bool_ne _) hverified, List.forall_mem_nil _⟩

/-- The author of a level. -/
theorem author_eq (here : Surroundings Time) (o : Members) :
    setIfFound (asUser readTime here) o (ascii "user") =
      (setIfFound asObject o (ascii "user")).map (twitterUserObject readTime here) :=
  setIfFound_map (twitterUserObject readTime here) asObject o (ascii "user")

/-- A tweet of which all is found. -/
theorem tweet_eq (h : TweetFound o) (retweeted : Option UInt64) :
    tweetMembers readTime here o (setIfFound (asUser readTime here) o (ascii "user")) retweeted =
      tweetMembers readTime here' o (setIfFound (asUser readTime here') o (ascii "user"))
        retweeted := by
  obtain ⟨htruncated, hfavorited, huserId⟩ := h
  rw [author_eq, author_eq]
  cases hobject : setIfFound asObject o (ascii "user") with
  | none => rfl
  | some m =>
      have hid := huserId m hobject
      rw [← isSome_asUInt64] at hid
      have huser : (twitterUserObject readTime here m).id =
          (twitterUserObject readTime here' m).id := getD_of_isSome hid _ _
      simp only [tweetMembers, Option.map_some, Option.bind_eq_bind, Option.bind_some, huser,
        getD_of_isSome htruncated here.tweet.truncated here'.tweet.truncated,
        getD_of_isSome hfavorited here.tweet.favorited here'.tweet.favorited]

/-- A tweet that does not show the memory. -/
theorem tweetFound_of_eq {retweeted : Option UInt64} {t : TweetObject Time}
    (ht : tweetMembers readTime here o (setIfFound (asUser readTime here) o (ascii "user"))
      retweeted = some t)
    (ht' : tweetMembers readTime (stir here) o
      (setIfFound (asUser readTime (stir here)) o (ascii "user")) retweeted = some t) :
    TweetFound o := by
  rw [author_eq] at ht ht'
  simp only [tweetMembers, Option.bind_eq_bind, Option.bind_eq_some_iff, Option.pure_def,
    Option.some.injEq, Option.map_eq_some_iff] at ht ht'
  obtain ⟨u, ⟨m, hobject, rfl⟩, text, htext, id, hid, date, hdate, rfl⟩ := ht
  obtain ⟨u, ⟨m', hobject', rfl⟩, text', -, id', -, date', -, heq⟩ := ht'
  rw [hobject, Option.some.injEq] at hobject'
  obtain rfl := hobject'
  rw [TweetObject.mk.injEq] at heq
  obtain ⟨huserId, -, -, -, -, htruncated, hfavorited, -⟩ := heq
  refine ⟨isSome_of_getD (bool_ne _) htruncated.symm, isSome_of_getD (bool_ne _) hfavorited.symm,
    fun m' hm' => ?_⟩
  rw [hobject, Option.some.injEq] at hm'
  obtain rfl := hm'
  rw [← isSome_asUInt64]
  exact isSome_of_getD (other_ne (by decide) here.user.id) huserId.symm

end Records

/-! ## Levels -/

section Chains

variable {readTime : Bytes → Time} {around around' : Nat → Surroundings Time}
  {o : Members} {outer inner chain : List Members}

/-- The tweets that are made, from the inside out, where every level is complete. -/
def made (readTime : Bytes → Time) :
    (Nat → Surroundings Time) → List Members → List (TweetObject Time)
  | _, [] => []
  | around, o :: inner =>
      made readTime (fun n => around (n + 1)) inner ++
        (tweetMembers readTime (around 0) o
          (setIfFound (asUser readTime (around 0)) o (ascii "user"))
          (inner.head?.bind ownId)).toList

theorem authors_append (around : Nat → Surroundings Time) (outer inner : List Members) :
    authors readTime around (outer ++ inner) =
      authors readTime around outer ++
        authors readTime (fun n => around (n + outer.length)) inner := by
  induction outer generalizing around with
  | nil => rfl
  | cons o outer ih =>
      rw [List.cons_append, authors, authors, ih, List.append_assoc]
      rfl

theorem authors_congr (h : ∀ n, n < chain.length → around n = around' n) :
    authors readTime around chain = authors readTime around' chain := by
  induction chain generalizing around around' with
  | nil => rfl
  | cons o inner ih =>
      have hinner : ∀ n, n < inner.length → around (n + 1) = around' (n + 1) := fun n hn =>
        h (n + 1) (Nat.succ_lt_succ hn)
      rw [authors, authors, h 0 (Nat.succ_pos _), ih hinner]

theorem exists_made_append (around : Nat → Surroundings Time) (outer inner : List Members) :
    ∃ more, made readTime around (outer ++ inner) =
      made readTime (fun n => around (n + outer.length)) inner ++ more := by
  induction outer generalizing around with
  | nil => exact ⟨[], (List.append_nil _).symm⟩
  | cons o outer ih =>
      obtain ⟨more, hmade⟩ := ih fun n => around (n + 1)
      rw [List.cons_append, made, hmade, List.append_assoc]
      exact ⟨_, rfl⟩

/-- A complete level makes a tweet, with its own id. -/
theorem exists_tweet (h : complete o = true) (here : Surroundings Time)
    (retweeted : Option UInt64) :
    ∃ t, tweetMembers readTime here o (setIfFound (asUser readTime here) o (ascii "user"))
      retweeted = some t ∧ ownId o = some t.id := by
  obtain ⟨id, hid⟩ := Option.isSome_iff_exists.mp h
  have hown := @tweetMembers_id _ readTime here o retweeted
  rw [hid, Option.map_eq_some_iff] at hown
  obtain ⟨t, ht, rfl⟩ := hown
  exact ⟨t, ht, hid⟩

/-- The plan for complete levels. -/
theorem planTweet_complete (around : Nat → Surroundings Time) (o : Members)
    (inner : List Members) (h : (o :: inner).all complete = true) :
    ∃ t, ownId o = some t.id ∧
      made readTime around (o :: inner) =
        made readTime (fun n => around (n + 1)) inner ++ [t] ∧
      planTweet readTime (around 0) o (planLevels readTime (fun n => around (n + 1)) inner) =
        ⟨(authors readTime around (o :: inner)).map StoreOp.insertUser ++
          (made readTime (fun n => around (n + 1)) inner).map StoreOp.insertTweet, .ok t⟩ := by
  induction inner generalizing around o with
  | nil =>
      have ho : complete o = true := List.all_eq_true.mp h o List.mem_cons_self
      obtain ⟨t, ht, hid⟩ := @exists_tweet _ readTime o ho (around 0) none
      have hmade : made readTime around [o] = [t] := by
        change ([] : List (TweetObject Time)) ++
          (tweetMembers readTime (around 0) o _ none).toList = _
        rw [ht]
        rfl
      refine ⟨t, hid, hmade, ?_⟩
      change (⟨_, ended (tweetMembers readTime (around 0) o _ none)⟩ : Plan Time _) = _
      rw [ht, authors, authors, List.append_nil, made, List.map_nil, List.append_nil]
      rfl
  | cons o' inner ih =>
      rw [List.all_cons, Bool.and_eq_true] at h
      obtain ⟨t', hid', hmade', hplan'⟩ := ih (fun n => around (n + 1)) o' h.2
      obtain ⟨t, ht, hid⟩ := @exists_tweet _ readTime o h.1 (around 0) (some t'.id)
      refine ⟨t, hid, ?_, ?_⟩
      · have hretweeted : (o' :: inner).head?.bind ownId = some t'.id := hid'
        rw [made, hretweeted, ht]
        rfl
      · have hlevels : planLevels readTime (fun n => around (n + 1)) (o' :: inner) =
            some (planTweet readTime (around 1) o'
              (planLevels readTime (fun n => around (n + 1 + 1)) inner)) := rfl
        rw [hlevels, hplan']
        change (⟨_, ended (tweetMembers readTime (around 0) o _ (some t'.id))⟩ : Plan Time _) = _
        have hauthors : authors readTime around (o :: o' :: inner) =
            (setIfFound (asUser readTime (around 0)) o (ascii "user")).toList ++
              authors readTime (fun n => around (n + 1)) (o' :: inner) := rfl
        rw [ht, hmade', hauthors, List.map_append, List.map_append, List.append_assoc,
          List.append_assoc]
        rfl

/-- What `insert_new_tweet` does to the stores, where every level is complete. -/
theorem exec_insertNewTweet_complete (around : Nat → Surroundings Time) (s : Stores Time)
    (h : (levels o).all complete = true) :
    (exec (insertNewTweet readTime around o) s).2 =
      ⟨s.userStore.insertAll (authors readTime around (levels o)),
        s.tweetStore.insertAll (made readTime around (levels o))⟩ := by
  obtain ⟨t, -, hmade, hplan⟩ := @planTweet_complete _ readTime around o (innerLevels o) h
  rw [← planRetweeted_eq] at hplan
  rw [exec_insertNewTweet s hplan.symm]
  change applyAll (_ ++ [StoreOp.insertTweet t]) s = _
  rw [levels, hmade, List.append_assoc, ← List.map_singleton, ← List.map_append, applyAll_append,
    applyAll_users, applyAll_tweets]

/-- The ids of the tweets are those of the levels. -/
theorem mem_ids_made (around : Nat → Surroundings Time) (h : chain.all complete = true)
    {id : UInt64} : id ∈ (made readTime around chain).map TweetObject.id ↔
      some id ∈ chain.map ownId := by
  induction chain generalizing around with
  | nil => exact iff_of_false List.not_mem_nil List.not_mem_nil
  | cons o inner ih =>
      obtain ⟨t, hid, hmade, -⟩ := @planTweet_complete _ readTime around o inner h
      rw [List.all_cons, Bool.and_eq_true] at h
      rw [hmade, List.map_append, List.mem_append, ih _ h.2]
      simp only [List.map_cons, List.map_nil, List.mem_cons, List.not_mem_nil, or_false, hid,
        Option.some.injEq]
      exact or_comm

theorem length_authors_le (around : Nat → Surroundings Time) (chain : List Members) :
    (authors readTime around chain).length ≤ chain.length := by
  induction chain generalizing around with
  | nil => exact Nat.le_refl 0
  | cons o inner ih =>
      have hone : (setIfFound (asUser readTime (around 0)) o (ascii "user")).toList.length ≤ 1 :=
        Option.length_toList_le
      have hrest := ih fun n => around (n + 1)
      rw [authors, List.length_append, List.length_cons]
      omega

end Chains

/-! ## Two runs -/

/-- The objects are made at the same times. -/
def SameTimes (around around' : Nat → Surroundings Time) : Prop :=
  ∀ n, (around n).now = (around' n).now

/-- At every level, all of the user is found, or the user is refused whatever is in memory. -/
def UsersSettled (readTime : Bytes → Time) (s : Container (@SameUser Time))
    (around : Nat → Surroundings Time) (chain : List Members) : Prop :=
  ∀ outer o inner m, chain = outer ++ o :: inner →
    setIfFound asObject o (ascii "user") = some m →
      UserFound m ∨ ∀ here : Surroundings Time, here.now = (around outer.length).now →
        (s.insertAll (authors readTime around outer)).Refuses (twitterUserObject readTime here m)

/-- At every level, all of the tweet is found, or its id is stored already or further in. -/
def TweetsSettled (s : Container (@SameTweet Time)) (chain : List Members) : Prop :=
  ∀ outer o inner id, chain = outer ++ o :: inner → ownId o = some id →
    TweetFound o ∨ (∃ t ∈ s.elements, t.id = id) ∨ some id ∈ inner.map ownId

section Settled

variable {readTime : Bytes → Time} {around around' : Nat → Surroundings Time}
  {o : Members} {chain : List Members}

theorem users_same {s : Container (@SameUser Time)} (h : UsersSettled readTime s around chain)
    (htimes : SameTimes around around') :
    s.insertAll (authors readTime around' chain) = s.insertAll (authors readTime around chain) := by
  induction chain generalizing s around around' with
  | nil => rfl
  | cons o inner ih =>
      have hone : s.insertAll (setIfFound (asUser readTime (around' 0)) o (ascii "user")).toList =
          s.insertAll (setIfFound (asUser readTime (around 0)) o (ascii "user")).toList := by
        rw [author_eq, author_eq]
        cases hobject : setIfFound asObject o (ascii "user") with
        | none => rfl
        | some m =>
            rcases h [] o inner m rfl hobject with hfound | hrefused
            · rw [Option.map_some, Option.map_some, user_eq hfound (htimes 0)]
            · have hfirst := Container.insert_of_clash (hrefused (around 0) rfl)
              have hsecond := Container.insert_of_clash (hrefused (around' 0) (htimes 0).symm)
              exact hsecond.trans hfirst.symm
      rw [authors, authors, Container.insertAll_append, Container.insertAll_append, hone]
      refine ih ?_ fun n => htimes (n + 1)
      intro outer o' inner' m hchain hobject
      have hlevel := h (o :: outer) o' inner' m (by rw [hchain]; rfl) hobject
      rw [authors, Container.insertAll_append] at hlevel
      exact hlevel

theorem refuses_made_iff {s : Container (@SameTweet Time)} (hall : chain.all complete = true)
    (around : Nat → Surroundings Time) (t : TweetObject Time) :
    (s.insertAll (made readTime around chain)).Refuses t ↔
      (∃ u ∈ s.elements, u.id = t.id) ∨ some t.id ∈ chain.map ownId := by
  rw [← mem_ids_made around hall]
  exact Container.exists_key_insertAll fun _ _ => Iff.rfl

theorem tweets_same {s : Container (@SameTweet Time)} (h : TweetsSettled s chain)
    (hall : chain.all complete = true) :
    s.insertAll (made readTime around' chain) = s.insertAll (made readTime around chain) := by
  induction chain generalizing around around' with
  | nil => rfl
  | cons o inner ih =>
      obtain ⟨t, hid, hmade, -⟩ := @planTweet_complete _ readTime around o inner hall
      obtain ⟨t', hid', hmade', -⟩ := @planTweet_complete _ readTime around' o inner hall
      rw [List.all_cons, Bool.and_eq_true] at hall
      have hinner : s.insertAll (made readTime (fun n => around' (n + 1)) inner) =
          s.insertAll (made readTime (fun n => around (n + 1)) inner) := by
        refine ih ?_ hall.2
        intro outer o' inner' id hchain
        exact h (o :: outer) o' inner' id (by rw [hchain]; rfl)
      rcases h [] o inner t.id rfl hid with hfound | hrefused
      · rw [made, made, Container.insertAll_append, Container.insertAll_append, hinner,
          @tweet_eq _ readTime (around 0) (around' 0) o hfound]
      · have hrefuses : ∀ u : TweetObject Time, u.id = t.id →
            (s.insertAll (made readTime (fun n => around (n + 1)) inner)).Refuses u := by
          intro u hu
          rw [refuses_made_iff hall.2, hu]
          exact hrefused
        rw [hid, Option.some.injEq] at hid'
        have hfirst := Container.insert_of_clash (hrefuses t rfl)
        have hsecond := Container.insert_of_clash (hrefuses t' hid'.symm)
        rw [hmade, hmade', Container.insertAll_append, Container.insertAll_append, hinner]
        exact hsecond.trans hfirst.symm

end Settled

/-! ## What shows the memory -/

section Shown

variable {readTime : Bytes → Time} {around : Nat → Surroundings Time}
  {chain outer inner : List Members} {o m : Members}

/-- Other memory at one level. -/
theorem sameTimes_update {k : Nat} {here : Surroundings Time} (hnow : here.now = (around k).now) :
    SameTimes around (Function.update around k here) := by
  intro n
  by_cases hn : n = k
  · subst hn
    rw [Function.update_self, hnow]
  · rw [Function.update_of_ne hn]

/-- Where the user store does not depend on the memory, no two users can be inserted at one
level. -/
theorem user_told {s : Container (@SameUser Time)}
    (hsame : ∀ around', SameTimes around around' →
      s.insertAll (authors readTime around' (outer ++ o :: inner)) =
        s.insertAll (authors readTime around (outer ++ o :: inner)))
    (hobject : setIfFound asObject o (ascii "user") = some m) {here here' : Surroundings Time}
    (hnow : here.now = (around outer.length).now) (hnow' : here'.now = (around outer.length).now)
    (hnew : ¬(s.insertAll (authors readTime around outer)).Refuses
      (twitterUserObject readTime here m))
    (hnew' : ¬(s.insertAll (authors readTime around outer)).Refuses
      (twitterUserObject readTime here' m)) :
    twitterUserObject readTime here m = twitterUserObject readTime here' m := by
  have hsplit : ∀ here : Surroundings Time, ∃ more,
      authors readTime (Function.update around outer.length here) (outer ++ o :: inner) =
        authors readTime around outer ++ twitterUserObject readTime here m :: more := by
    intro here
    have houter : authors readTime (Function.update around outer.length here) outer =
        authors readTime around outer :=
      authors_congr fun n hn => Function.update_of_ne (Nat.ne_of_lt hn) _ _
    rw [authors_append, houter, authors, author_eq, hobject, Nat.zero_add, Function.update_self]
    exact ⟨_, rfl⟩
  obtain ⟨more, hmore⟩ := hsplit here
  obtain ⟨more', hmore'⟩ := hsplit here'
  have hfirst := hsame _ (sameTimes_update hnow)
  have hsecond := hsame _ (sameTimes_update hnow')
  rw [hmore, Container.insertAll_append, Container.insertAll_cons] at hfirst
  rw [hmore', Container.insertAll_append, Container.insertAll_cons] at hsecond
  exact Container.eq_of_insertAll_eq hnew hnew' (hfirst.trans hsecond.symm)

/-- Fewer ids than there are words do not use up the words. -/
theorem exists_fresh {ids : List UInt64} (h : ids.length < 2 ^ 64) : ∃ id, id ∉ ids := by
  by_contra hall
  push Not at hall
  have hinj : Set.InjOn UInt64.ofNat (Finset.range (ids.length + 1)) := by
    intro m hm n hn heq
    rw [Finset.coe_range, Set.mem_Iio] at hm hn
    have hnat := congrArg UInt64.toNat heq
    rwa [UInt64.toNat_ofNat', UInt64.toNat_ofNat', Nat.mod_eq_of_lt (by omega),
      Nat.mod_eq_of_lt (by omega)] at hnat
  have hcard := Finset.card_image_of_injOn hinj
  have hsub : (Finset.range (ids.length + 1)).image UInt64.ofNat ⊆ ids.toFinset := fun id _ =>
    List.mem_toFinset.mpr (hall id)
  have hle := (Finset.card_le_card hsub).trans ids.toFinset_card_le
  rw [hcard, Finset.card_range] at hle
  omega

/-- Where the user store does not depend on the memory, and does not hold nearly all ids, the
users are settled. -/
theorem usersSettled_of_same {s : Container (@SameUser Time)}
    (hroom : s.elements.length + chain.length + 1 < 2 ^ 64)
    (hsame : ∀ around', SameTimes around around' →
      s.insertAll (authors readTime around' chain) = s.insertAll (authors readTime around chain)) :
    UsersSettled readTime s around chain := by
  rintro outer o inner m rfl hobject
  by_contra hnot
  push Not at hnot
  obtain ⟨hmissing, here, hnow, hnew⟩ := hnot
  cases hid : (setIfFound asInt64 m (ascii "id")).isSome with
  | true =>
      -- the same id and name, and another record
      rw [← isSome_asUInt64] at hid
      have hnew' : ¬(s.insertAll (authors readTime around outer)).Refuses
          (twitterUserObject readTime (stir here) m) := by
        rintro ⟨u, hmem, hclash⟩
        refine hnew ⟨u, hmem, hclash.imp (fun heq => heq.trans ?_) id⟩
        exact getD_of_isSome hid _ _
      exact hmissing (userFound_of_eq (user_told hsame hobject hnow hnow hnew hnew'))
  | false =>
      obtain ⟨id, hid'⟩ : ∃ id, id ∉ (twitterUserObject readTime here m).id ::
          (s.insertAll (authors readTime around outer)).elements.map TwitterUserObject.id := by
        have hlength := Container.length_insertAll_le s (authors readTime around outer)
        have hlevels := @length_authors_le _ readTime around outer
        refine exists_fresh ?_
        rw [List.length_append] at hroom
        rw [List.length_cons, List.length_map]
        omega
      rw [List.mem_cons, not_or] at hid'
      rw [← isSome_asUInt64, Option.isSome_eq_false_iff, Option.isNone_iff_eq_none] at hid
      have hown : (twitterUserObject readTime (withId here id) m).id = id := by
        rw [twitterUserObject, hid]
        rfl
      have hnew' : ¬(s.insertAll (authors readTime around outer)).Refuses
          (twitterUserObject readTime (withId here id) m) := by
        rintro ⟨u, hmem, hclash⟩
        rcases hclash with heq | heq
        · exact hid'.2 (List.mem_map.mpr ⟨u, hmem, heq.trans hown⟩)
        · exact hnew ⟨u, hmem, Or.inr heq⟩
      have hnow' : (withId here id).now = (around outer.length).now := hnow
      have heq := user_told hsame hobject hnow hnow' hnew hnew'
      exact hid'.1 (hown.symm.trans (congrArg TwitterUserObject.id heq.symm))

/-- Where the tweet store does not depend on the memory, the tweets are settled. -/
theorem tweetsSettled_of_same {s : Container (@SameTweet Time)}
    (hall : chain.all complete = true)
    (hsame : ∀ around', SameTimes around around' →
      s.insertAll (made readTime around' chain) = s.insertAll (made readTime around chain)) :
    TweetsSettled s chain := by
  rintro outer o inner id rfl hid
  by_contra hnot
  rw [not_or] at hnot
  obtain ⟨hmissing, hnew⟩ := hnot
  rw [List.all_append, Bool.and_eq_true, List.all_cons, Bool.and_eq_true] at hall
  obtain ⟨-, ho, hinner⟩ := hall
  have hsplit : ∀ here : Surroundings Time, ∃ t more,
      tweetMembers readTime here o (setIfFound (asUser readTime here) o (ascii "user"))
        (inner.head?.bind ownId) = some t ∧ t.id = id ∧
      made readTime (Function.update around outer.length here) (outer ++ o :: inner) =
        made readTime (fun n => around (n + 1 + outer.length)) inner ++ t :: more := by
    intro here
    obtain ⟨t, ht, hown⟩ := @exists_tweet _ readTime o ho here (inner.head?.bind ownId)
    obtain ⟨more, hmade⟩ := @exists_made_append _ readTime
      (Function.update around outer.length here) outer (o :: inner)
    have hlevels : (fun n => Function.update around outer.length here (n + 1 + outer.length)) =
        fun n => around (n + 1 + outer.length) :=
      funext fun n => Function.update_of_ne (by omega) _ _
    rw [hid, Option.some.injEq] at hown
    refine ⟨t, more, ht, hown.symm, ?_⟩
    rw [hmade, made, hlevels, Nat.zero_add, Function.update_self, ht, List.append_assoc]
    rfl
  obtain ⟨t, more, ht, rfl, hmade⟩ := hsplit (around outer.length)
  obtain ⟨t', more', ht', hid', hmade'⟩ := hsplit (stir (around outer.length))
  have hrefuses := fun u : TweetObject Time =>
    @refuses_made_iff _ readTime inner s hinner (fun n => around (n + 1 + outer.length)) u
  have hfirst := hsame _ (sameTimes_update (@rfl _ (around outer.length).now))
  have hsecond := hsame (Function.update around outer.length (stir (around outer.length)))
    (sameTimes_update rfl)
  rw [hmade, Container.insertAll_append, Container.insertAll_cons] at hfirst
  rw [hmade', Container.insertAll_append, Container.insertAll_cons] at hsecond
  have heq : t = t' := by
    refine Container.eq_of_insertAll_eq ?_ ?_ (hfirst.trans hsecond.symm)
    · rw [hrefuses]
      exact hnew
    · rw [hrefuses, hid']
      exact hnew
  rw [← heq] at ht'
  exact hmissing (tweetFound_of_eq ht ht')

end Shown

/-! ## The stores -/

/-- The stores behind `insert_new_tweet` are the same in other memory. -/
def Determined (readTime : Bytes → Time) (around : Nat → Surroundings Time) (o : Members)
    (s : Stores Time) : Prop :=
  ∀ around', SameTimes around around' →
    (exec (insertNewTweet readTime around' o) s).2 = (exec (insertNewTweet readTime around o) s).2

/-- Each of the two stores is the same. -/
theorem determined_stores {readTime : Bytes → Time} {around : Nat → Surroundings Time}
    {o : Members} {s : Stores Time} (hall : (levels o).all complete = true) :
    Determined readTime around o s ↔ ∀ around', SameTimes around around' →
      s.userStore.insertAll (authors readTime around' (levels o)) =
          s.userStore.insertAll (authors readTime around (levels o)) ∧
        s.tweetStore.insertAll (made readTime around' (levels o)) =
          s.tweetStore.insertAll (made readTime around (levels o)) := by
  refine forall₂_congr fun around' _ => ?_
  rw [exec_insertNewTweet_complete around s hall, exec_insertNewTweet_complete around' s hall,
    Stores.mk.injEq]

theorem complete_of_accepted {readTime : Bytes → Time} {around : Nat → Surroundings Time}
    {o : Members} {s : Stores Time} {id : UInt64}
    (h : (exec (insertNewTweet readTime around o) s).1 = .ok id) :
    (levels o).all complete = true := by
  obtain ⟨result, hexec, hends, -⟩ := exec_insertNewTweet_levels readTime around o s
  rw [hexec] at h
  have hresult : result = .ok id := h
  rw [← hends, hresult]
  rfl

/-- What is stored for an accepted message comes from the message and the stores alone, if at every
level the user and the tweet are found entirely or are refused; as long as the user store does not
hold nearly all ids, just then. -/
theorem determined_iff (readTime : Bytes → Time) (around : Nat → Surroundings Time) (o : Members)
    (s : Stores Time) {id : UInt64}
    (haccepted : (exec (insertNewTweet readTime around o) s).1 = .ok id) :
    (UsersSettled readTime s.userStore around (levels o) ∧
        TweetsSettled s.tweetStore (levels o) → Determined readTime around o s) ∧
      (s.userStore.elements.length + (levels o).length + 1 < 2 ^ 64 →
        Determined readTime around o s →
          UsersSettled readTime s.userStore around (levels o) ∧
            TweetsSettled s.tweetStore (levels o)) := by
  have hall := complete_of_accepted haccepted
  rw [determined_stores hall]
  constructor
  · rintro ⟨husers, htweets⟩ around' htimes
    exact ⟨users_same husers htimes, tweets_same htweets hall⟩
  · intro hroom hsame
    exact ⟨usersSettled_of_same hroom fun around' htimes => (hsame around' htimes).1,
      tweetsSettled_of_same hall fun around' htimes => (hsame around' htimes).2⟩

/-- A user with all the members that have no default. -/
def person : Members :=
  (userNumbers.map fun name => (name, .int 1)) ++ userFlags.map fun name => (name, .bool true)

/-- What the constructor of a tweet asks for. -/
def message : Members :=
  [(ascii "user", .object person), (ascii "text", .string (ascii "hi")), (ascii "id", .int 7),
    (ascii "created_at", .string (ascii "Sat Jan 01 00:00:00 +0000 2011"))]

theorem levels_singleton {o o' : Members} {outer inner : List Members}
    (h : [o] = outer ++ o' :: inner) : o' = o ∧ outer = [] ∧ inner = [] := by
  cases outer with
  | nil =>
      cases h
      exact ⟨rfl, rfl, rfl⟩
  | cons o'' outer =>
      rw [List.cons_append, List.cons.injEq] at h
      exact absurd h.2.symm (List.append_ne_nil_of_right_ne_nil _ (List.cons_ne_nil _ _))

/-- Both flags of a tweet. -/
def flags : Members := [(ascii "truncated", .bool false), (ascii "favorited", .bool false)]

theorem userFound_person : UserFound person where
  numbers := by decide
  flags := by decide

theorem user_of_flags {m : Members}
    (h : setIfFound asObject (message ++ flags) (ascii "user") = some m) : m = person := by
  have hperson : setIfFound asObject (message ++ flags) (ascii "user") = some person := rfl
  rw [hperson, Option.some.injEq] at h
  exact h.symm

/-- A message with all members. -/
theorem determined_iff_flags :
    Determined (fun _ => ()) (fun _ => default) (message ++ flags) .empty := by
  refine (@determined_iff _ (fun _ => ()) (fun _ => default) (message ++ flags) .empty 7 rfl).1
    ⟨?_, ?_⟩
  · intro outer o inner m hchain hobject
    obtain ⟨rfl, -, -⟩ := levels_singleton hchain
    rw [user_of_flags hobject]
    exact Or.inl userFound_person
  · intro outer o inner id hchain _
    obtain ⟨rfl, -, -⟩ := levels_singleton hchain
    refine Or.inl ⟨rfl, rfl, fun m hobject => ?_⟩
    rw [user_of_flags hobject]
    rfl

/-- A message without the flags. -/
theorem not_determined :
    ¬∀ (around : Nat → Surroundings Unit) (o : Members) (s : Stores Unit) (id : UInt64),
      (exec (insertNewTweet (fun _ => ()) around o) s).1 = .ok id →
        Determined (fun _ => ()) around o s := by
  intro hall
  have hdetermined := hall (fun _ => default) message .empty 7 rfl
  have hcomplete : (levels message).all complete = true := rfl
  have hsame := (determined_stores hcomplete).mp hdetermined
  have hsettled : TweetsSettled (@Stores.empty Unit).tweetStore (levels message) :=
    tweetsSettled_of_same hcomplete fun around' htimes => (hsame around' htimes).2
  rcases hsettled [] message [] 7 rfl rfl with hfound | ⟨t, hmem, -⟩ | hinner
  · exact absurd hfound.truncated (by decide)
  · exact absurd hmem List.not_mem_nil
  · exact absurd hinner List.not_mem_nil

end BlackCircle.Twitter.Determinacy
