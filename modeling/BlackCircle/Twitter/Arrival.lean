import Mathlib.Data.Set.Basic
import BlackCircle.Twitter.Levels

/-!
# Tweets that arrive

Tweet messages only insert.  Which ids they leave in the store does not depend
on their order, a message that comes again finds all its insertions refused, and
a message that throws has inserted what stood inside the level at fault.
-/

namespace BlackCircle.Twitter.Arrival

open BlackCircle.Foundation
open BlackCircle.Foundation.ByteString
open BlackCircle.Json (Value)
open BlackCircle.Twitter
open BlackCircle.Twitter.Integrity
open BlackCircle.Twitter.Levels
open BlackCircle.Twitter.Processing

variable {Time : Type} {readTime : Bytes → Time} {dateText : Time → Option Bytes}

/-! ## Histories of tweets -/

/-- A JSON object with a text. -/
def IsTweet (t : Value) : Prop := ∃ o, tweetOf t = some o

/-- The authors and the tweets that messages offer to the stores. -/
def authorsOf (readTime : Bytes → Time) (messages : List (Message Time)) :
    List (TwitterUserObject Time) :=
  messages.flatMap fun m => authors readTime m.around (messageLevels m.entity)

def offeredBy (readTime : Bytes → Time) (messages : List (Message Time)) :
    List (TweetObject Time) :=
  messages.flatMap fun m => offered readTime m.around (messageLevels m.entity)

theorem offeredBy_ids (messages : List (Message Time)) :
    (offeredBy readTime messages).map TweetObject.id =
      messages.flatMap fun m => contributed (messageLevels m.entity) := by
  rw [offeredBy, List.map_flatMap]
  simp only [offered_ids]

/-- A history of tweets is a list of insertions into either store. -/
theorem handleAll_tweets {messages : List (Message Time)}
    (htweets : ∀ m ∈ messages, IsTweet m.entity) (s : Stores Time) :
    handleAll readTime dateText messages s =
      ⟨s.userStore.insertAll (authorsOf readTime messages),
        s.tweetStore.insertAll (offeredBy readTime messages)⟩ := by
  induction messages generalizing s with
  | nil => rfl
  | cons m messages ih =>
      obtain ⟨o, htweet⟩ := htweets m List.mem_cons_self
      have hrest := ih (fun other hmem => htweets other (List.mem_cons_of_mem _ hmem))
        (handle readTime dateText m s)
      have hauthors : authorsOf readTime (m :: messages) =
          authors readTime m.around (levels o) ++ authorsOf readTime messages := by
        rw [← messageLevels_of_tweet htweet]
        rfl
      have hoffered : offeredBy readTime (m :: messages) =
          offered readTime m.around (levels o) ++ offeredBy readTime messages := by
        rw [← messageLevels_of_tweet htweet]
        rfl
      change handleAll readTime dateText messages (handle readTime dateText m s) = _
      rw [hrest, handle_tweet htweet, hauthors, hoffered, Container.insertAll_append,
        Container.insertAll_append]

/-! ### The order of arrival -/

def storedIds (s : Stores Time) : Set UInt64 := {id | Stored s id}

/-- The ids that some entity of the list contributes. -/
def contributedIds (entities : List Value) : Set UInt64 :=
  {id | ∃ t ∈ entities, id ∈ contributed (messageLevels t)}

theorem storedIds_handleAll {messages : List (Message Time)}
    (htweets : ∀ m ∈ messages, IsTweet m.entity) (s : Stores Time) :
    storedIds (handleAll readTime dateText messages s) =
      storedIds s ∪ contributedIds (messages.map Message.entity) := by
  ext id
  rw [Set.mem_union]
  change Stored (handleAll readTime dateText messages s) id ↔ Stored s id ∨ _
  rw [handleAll_tweets htweets, stored_insertAll, offeredBy_ids, List.mem_flatMap]
  apply or_congr_right
  constructor
  · rintro ⟨m, hmem, hid⟩
    exact ⟨m.entity, List.mem_map_of_mem hmem, hid⟩
  · rintro ⟨t, hmem, hid⟩
    obtain ⟨m, hlisted, rfl⟩ := List.mem_map.mp hmem
    exact ⟨m, hlisted, hid⟩

theorem contributedIds_perm {entities others : List Value} (hperm : others.Perm entities) :
    contributedIds others = contributedIds entities := by
  ext id
  constructor
  · rintro ⟨t, hmem, hid⟩
    exact ⟨t, hperm.mem_iff.mp hmem, hid⟩
  · rintro ⟨t, hmem, hid⟩
    exact ⟨t, hperm.mem_iff.mpr hmem, hid⟩

/-- The ids behind a list of tweets are the initial ones and those that the tweets contribute,
in whatever order, and in whatever surroundings, they are processed. -/
theorem storedIds_any_order {messages others : List (Message Time)}
    (hperm : (others.map Message.entity).Perm (messages.map Message.entity))
    (htweets : ∀ m ∈ messages, IsTweet m.entity) (s : Stores Time) :
    storedIds (handleAll readTime dateText messages s) =
        storedIds s ∪ contributedIds (messages.map Message.entity) ∧
      storedIds (handleAll readTime dateText others s) =
        storedIds (handleAll readTime dateText messages s) := by
  have hothers : ∀ m ∈ others, IsTweet m.entity := by
    intro m hmem
    have hentity := hperm.mem_iff.mp (List.mem_map_of_mem hmem)
    obtain ⟨m', hmem', heq⟩ := List.mem_map.mp hentity
    rw [← heq]
    exact htweets m' hmem'
  have hforward := @storedIds_handleAll _ readTime dateText _ htweets s
  refine ⟨hforward, ?_⟩
  rw [storedIds_handleAll hothers, hforward, contributedIds_perm hperm]

/-- A message whose tweet lacks an id, around a retweeted status of a user. -/
def incomplete (id user : Int64) (screenName : Bytes) : Message Unit where
  around := fun _ => default
  entity := .object [(ascii "retweeted_status", (post id user screenName).entity),
    (ascii "text", .string [])]

theorem storedIds_any_order_pair :
    storedIds (handleAll (fun _ => ()) newYearText
        [incomplete 2 8 (ascii "y"), post 1 7 (ascii "x")] .empty) =
      storedIds (handleAll (fun _ => ()) newYearText
        [post 1 7 (ascii "x"), incomplete 2 8 (ascii "y")] .empty) := by
  have htweets : ∀ m ∈ [post 1 7 (ascii "x"), incomplete 2 8 (ascii "y")],
      IsTweet m.entity := by
    intro m hmem
    rcases List.mem_pair.mp hmem with rfl | rfl
    · exact ⟨_, rfl⟩
    · exact ⟨_, rfl⟩
  have hperm : ([incomplete 2 8 (ascii "y"), post 1 7 (ascii "x")].map Message.entity).Perm
      ([post 1 7 (ascii "x"), incomplete 2 8 (ascii "y")].map Message.entity) :=
    List.Perm.swap _ _ []
  exact (storedIds_any_order hperm htweets .empty).2

/-! ## Replay -/

/-- Every user object of the chain has an integer for an id. -/
def UsersHaveIds (chain : List Members) : Prop :=
  ∀ o ∈ chain, ∀ user, setIfFound asObject o (ascii "user") = some user →
    (setIfFound asInt64 user (ascii "id")).isSome = true

/-- The two unique keys of a user. -/
def userKeys (u : TwitterUserObject Time) : UInt64 × Bytes := (u.id, u.screenName)

theorem userKeys_eq {here there : Surroundings Time} {user : Members}
    (h : (setIfFound asInt64 user (ascii "id")).isSome = true) :
    userKeys (twitterUserObject readTime here user) =
      userKeys (twitterUserObject readTime there user) := by
  have hid : setIfFound asUInt64 user (ascii "id") =
      (setIfFound asInt64 user (ascii "id")).map Int64.toUInt64 := setIfFound_map _ _ _ _
  obtain ⟨id, hfound⟩ := Option.isSome_iff_exists.mp h
  simp only [userKeys, twitterUserObject, hid, hfound, Option.map_some, Option.getD_some]

/-- The keys of the authors do not depend on the memory they are placed in. -/
theorem userKeys_authors {chain : List Members} (h : UsersHaveIds chain)
    (around around' : Nat → Surroundings Time) :
    (authors readTime around chain).map userKeys =
      (authors readTime around' chain).map userKeys := by
  induction chain generalizing around around' with
  | nil => rfl
  | cons o inner ih =>
      have hinner : UsersHaveIds inner := fun o' hmem => h o' (List.mem_cons_of_mem _ hmem)
      have huser : ∀ here : Surroundings Time, setIfFound (asUser readTime here) o (ascii "user") =
          (setIfFound asObject o (ascii "user")).map (twitterUserObject readTime here) :=
        fun here => setIfFound_map _ _ _ _
      simp only [authors, List.map_append]
      rw [ih hinner (fun n => around (n + 1)) (fun n => around' (n + 1)), huser, huser]
      apply congrArg (· ++ _)
      cases hfound : setIfFound asObject o (ascii "user") with
      | none => rfl
      | some user =>
          have hkeys := @userKeys_eq _ readTime (around 0) (around' 0) user
            (h o List.mem_cons_self user hfound)
          simp only [Option.map_some, Option.toList_some, List.map_cons, List.map_nil, hkeys]

theorem sameUser_refl (u : TwitterUserObject Time) : SameUser u u := Or.inl rfl

theorem sameTweet_refl (t : TweetObject Time) : SameTweet t t := rfl

/-- Users with the keys of users that have been offered are refused. -/
theorem refuses_users {store : Container (@SameUser Time)}
    {users again : List (TwitterUserObject Time)}
    (hkeys : again.map userKeys = users.map userKeys) :
    ∀ u ∈ again, (store.insertAll users).Refuses u := by
  intro u hmem
  have hkey : userKeys u ∈ users.map userKeys := hkeys ▸ List.mem_map_of_mem hmem
  obtain ⟨v, hlisted, hsame⟩ := List.mem_map.mp hkey
  obtain ⟨w, hstored, hclash⟩ :=
    @Container.refuses_insertAll _ _ _ sameUser_refl store users v hlisted
  rw [userKeys, userKeys, Prod.mk.injEq] at hsame
  rw [SameUser, hsame.1, hsame.2] at hclash
  exact ⟨w, hstored, hclash⟩

theorem refuses_tweets {store : Container (@SameTweet Time)}
    {tweets again : List (TweetObject Time)}
    (hids : again.map TweetObject.id = tweets.map TweetObject.id) :
    ∀ t ∈ again, (store.insertAll tweets).Refuses t := by
  intro t hmem
  have hid : t.id ∈ tweets.map TweetObject.id := hids ▸ List.mem_map_of_mem hmem
  obtain ⟨v, hlisted, hsame⟩ := List.mem_map.mp hid
  obtain ⟨w, hstored, hclash⟩ :=
    @Container.refuses_insertAll _ _ _ sameTweet_refl store tweets v hlisted
  exact ⟨w, hstored, hclash.trans hsame⟩

/-- What is found under an id behind insertions. -/
theorem find_insertAll (store : Container (@SameTweet Time)) (tweets : List (TweetObject Time))
    (id : UInt64) : ((store.insertAll tweets).elements.find? fun t => t.id = id) =
      (store.elements ++ tweets).find? fun t => t.id = id :=
  Container.find?_insertAll (fun _ _ => Iff.rfl) store tweets id

theorem dated_insertAll {store : Container (@SameTweet Time)} {id : UInt64}
    (h : ∃ t ∈ store.elements, t.id = id) (tweets : List (TweetObject Time)) :
    Dated dateText (store.insertAll tweets).elements id ↔ Dated dateText store.elements id := by
  obtain ⟨t, hmem, htid⟩ := h
  obtain ⟨found, hfind⟩ : ∃ found, (store.elements.find? fun t => t.id = id) = some found :=
    Option.isSome_iff_exists.mp (List.find?_isSome.mpr ⟨t, hmem, decide_eq_true htid⟩)
  rw [Dated, Dated, find_insertAll, List.find?_append, hfind]
  rfl

/-- A tweet that is processed again, after any other tweets, changes nothing, and throws just
when it has thrown before. -/
theorem handle_again {first again : Message Time} {between : List (Message Time)}
    (hsame : again.entity = first.entity) (htweet : IsTweet first.entity)
    (hids : UsersHaveIds (messageLevels first.entity))
    (hbetween : ∀ m ∈ between, IsTweet m.entity) (s : Stores Time) :
    handle readTime dateText again (handleAll readTime dateText (first :: between) s) =
        handleAll readTime dateText (first :: between) s ∧
      (Throws readTime dateText again (handleAll readTime dateText (first :: between) s) ↔
        Throws readTime dateText first s) := by
  obtain ⟨o, htweet⟩ := htweet
  have hagain : tweetOf again.entity = some o := hsame ▸ htweet
  rw [messageLevels_of_tweet htweet] at hids
  have hfirst := @handle_tweet _ readTime dateText _ _ htweet s
  have hstores : handleAll readTime dateText (first :: between) s =
      ⟨(s.userStore.insertAll (authors readTime first.around (levels o))).insertAll
          (authorsOf readTime between),
        (s.tweetStore.insertAll (offered readTime first.around (levels o))).insertAll
          (offeredBy readTime between)⟩ := by
    change handleAll readTime dateText between (handle readTime dateText first s) = _
    rw [handleAll_tweets hbetween, hfirst]
  have hunchanged : handle readTime dateText again
      (handleAll readTime dateText (first :: between) s) =
      handleAll readTime dateText (first :: between) s := by
    have husers := @refuses_users _ s.userStore _ _
      (@userKeys_authors _ readTime _ hids again.around first.around)
    have hrefused := @refuses_tweets _ s.tweetStore _ _
      ((@offered_ids _ readTime again.around (levels o)).trans
        (@offered_ids _ readTime first.around (levels o)).symm)
    rw [handle_tweet hagain, hstores,
      Container.insertAll_eq_self_iff.mpr fun u hmem => (husers u hmem).insertAll _,
      Container.insertAll_eq_self_iff.mpr fun t hmem => (hrefused t hmem).insertAll _]
  refine ⟨hunchanged, ?_⟩
  rw [throws_tweet_iff hagain, throws_tweet_iff htweet, hunchanged]
  cases hcomplete : (levels o).all complete with
  | false => exact ⟨fun _ => Or.inl rfl, fun _ => Or.inl rfl⟩
  | true =>
      -- the tweet that is printed has been stored the first time, and stays
      have hkept : ∀ id ∈ ownId o,
          (Dated dateText
            (handleAll readTime dateText (first :: between) s).tweetStore.elements id ↔
            Dated dateText (handle readTime dateText first s).tweetStore.elements id) := by
        intro id hown
        obtain ⟨hstored, -⟩ :=
          @exec_process_complete _ readTime dateText _ _ _ htweet hcomplete hown s
        rw [hfirst] at hstored
        rw [hstores, hfirst]
        exact dated_insertAll hstored _
      apply or_congr_right
      exact forall₂_congr fun id hown => not_congr (hkept id hown)

theorem handle_again_retweet :
    handle (fun _ => ()) newYearText (incomplete 1 7 (ascii "x"))
        (handleAll (fun _ => ()) newYearText [incomplete 1 7 (ascii "x"), post 2 7 (ascii "y")]
          .empty) =
      handleAll (fun _ => ()) newYearText [incomplete 1 7 (ascii "x"), post 2 7 (ascii "y")]
        .empty ∧
    Throws (fun _ => ()) newYearText (incomplete 1 7 (ascii "x"))
      (handleAll (fun _ => ()) newYearText [incomplete 1 7 (ascii "x"), post 2 7 (ascii "y")]
        .empty) := by
  have hids : UsersHaveIds (messageLevels (incomplete 1 7 (ascii "x")).entity) := by
    intro o hmem user hfound
    rcases List.mem_pair.mp hmem with rfl | rfl
    · cases hfound
    · cases hfound
      rfl
  have hbetween : ∀ m ∈ [post 2 7 (ascii "y")], IsTweet m.entity := by
    intro m hmem
    rw [List.mem_singleton.mp hmem]
    exact ⟨_, rfl⟩
  obtain ⟨hunchanged, hthrows⟩ := handle_again rfl ⟨_, rfl⟩ hids hbetween .empty
  exact ⟨hunchanged, hthrows.mpr (throws_of_incomplete rfl rfl .empty)⟩

/-! ## Messages that throw -/

/-- If some level lacks a property, the outermost tweet is not made. -/
theorem offered_levels {o : Members} (h : (levels o).all complete = false)
    (around : Nat → Surroundings Time) :
    offered readTime around (levels o) =
      offered readTime (fun n => around (n + 1)) (innerLevels o) := by
  rw [levels, List.all_cons] at h
  rw [levels, offered]
  cases hinner : (innerLevels o).all complete with
  | false => simp
  | true =>
      rw [hinner, Bool.and_true, complete,
        ← tweetMembers_id (around 0) o ((innerLevels o).head?.bind ownId), Option.isSome_map,
        Option.isSome_eq_false_iff, Option.isNone_iff_eq_none] at h
      rw [if_pos rfl, h]
      exact List.append_nil _

/-- When `insert_new_tweet` throws, the authors of all levels have been offered to the user store,
and the tweets inside the level at fault to the tweet store.  The stores are unchanged just when
all of these are refused. -/
theorem insertNewTweet_error {around : Nat → Surroundings Time} {o : Members} {s : Stores Time}
    {failure : Failure} (h : (exec (insertNewTweet readTime around o) s).1 = .error failure) :
    (exec (insertNewTweet readTime around o) s).2 =
        ⟨s.userStore.insertAll (authors readTime around (levels o)),
          s.tweetStore.insertAll
            (offered readTime (fun n => around (n + 1)) (innerLevels o))⟩ ∧
    ((exec (insertNewTweet readTime around o) s).2 = s ↔
      (∀ u ∈ authors readTime around (levels o), s.userStore.Refuses u) ∧
        ∀ id ∈ contributed (innerLevels o), Stored s id) := by
  obtain ⟨result, hinsert, hends, -⟩ := exec_insertNewTweet_levels readTime around o s
  rw [hinsert] at h
  simp only at h
  rw [h] at hends
  rw [offered_levels hends.symm] at hinsert
  rw [hinsert]
  refine ⟨rfl, ?_⟩
  have hstored : (∀ t ∈ offered readTime (fun n => around (n + 1)) (innerLevels o),
      s.tweetStore.Refuses t) ↔ ∀ id ∈ contributed (innerLevels o), Stored s id := by
    rw [← offered_ids (fun n => around (n + 1)) (innerLevels o)]
    exact (@List.forall_mem_map _ _ TweetObject.id _ (Stored s)).symm
  rw [← hstored, ← Container.insertAll_eq_self_iff, ← Container.insertAll_eq_self_iff]
  constructor
  · intro heq
    exact ⟨congrArg Stores.userStore heq, congrArg Stores.tweetStore heq⟩
  · rintro ⟨husers, htweets⟩
    simp only [husers, htweets]

theorem insertNewTweet_error_empty :
    (exec (insertNewTweet (fun _ => ()) (fun _ => default) [(ascii "text", .string [])])
      .empty).2 = .empty := by
  have hthrows : (exec (insertNewTweet (fun _ => ()) (fun _ => default)
      [(ascii "text", .string [])]) .empty).1 = .error .propertiesNotFound := by
    decide +kernel
  refine (insertNewTweet_error hthrows).2.mpr ⟨?_, ?_⟩
  · intro u hmem
    cases hmem
  · intro id hmem
    cases hmem

/-- The author is stored before it is found that the text is missing. -/
theorem not_insertNewTweet_atomic :
    ¬ ∀ (around : Nat → Surroundings Unit) (o : Members) (s : Stores Unit) (failure : Failure),
      (exec (insertNewTweet (fun _ => ()) around o) s).1 = .error failure →
        (exec (insertNewTweet (fun _ => ()) around o) s).2 = s := by
  intro hall
  have hsame := hall (fun _ => default) [(ascii "user", .object [(ascii "id", .int 7)])] .empty
    .propertiesNotFound (by decide +kernel)
  have hlength := congrArg (fun s : Stores Unit => s.userStore.elements.length) hsame
  exact absurd hlength (by decide +kernel)

end BlackCircle.Twitter.Arrival
