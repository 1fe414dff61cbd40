import BlackCircle.Twitter.Processing

/-!
# The levels of a tweet message

A tweet message is a chain of JSON objects: the tweet, its retweeted status, the
retweeted status of that, and so on.  The constructor stores the authors from
the outside in, and the tweets from the inside out, up to the first level that
lacks a property.  Which ids it contributes can be read off the chain; neither
the stores nor the memory the objects are placed in have a part in it.
-/

namespace BlackCircle.Twitter.Levels

open BlackCircle.Foundation
open BlackCircle.Foundation.ByteString
open BlackCircle.Foundation.EntryList (find)
open BlackCircle.Json (Value)
open BlackCircle.Twitter
open BlackCircle.Twitter.Integrity
open BlackCircle.Twitter.Processing

variable {Time : Type}

/-! ## The chain of a message -/

mutual

/-- The levels of the retweeted status among the members, from the outside in. -/
def innerLevels : Members → List Members
  | [] => []
  | member :: o =>
      if member.1 = ascii "retweeted_status" then memberLevels member else innerLevels o

def memberLevels : Bytes × Value → List Members
  | (_, value) => valueLevels value

def valueLevels : Value → List Members
  | .array _ => []
  | .string _ => []
  | .int _ => []
  | .real _ => []
  | .object o => o :: innerLevels o
  | .bool _ => []
  | .null => []

end

def levels (o : Members) : List Members := o :: innerLevels o

/-- The id of a tweet that has all the properties its constructor asks for. -/
def ownId (o : Members) : Option UInt64 := do
  let _ ← setIfFound asObject o (ascii "user")
  let _ ← setIfFound asString o (ascii "text")
  let id ← setIfFound asUInt64 o (ascii "id")
  let _ ← setIfFound asString o (ascii "created_at")
  return id

def complete (o : Members) : Bool := (ownId o).isSome

/-- The ids of the levels that are complete and have only complete levels inside them. -/
def contributed : List Members → List UInt64
  | [] => []
  | o :: inner => contributed inner ++ if inner.all complete then (ownId o).toList else []

/-- The authors that are found at the levels, from the outside in. -/
def authors (readTime : Bytes → Time) :
    (Nat → Surroundings Time) → List Members → List (TwitterUserObject Time)
  | _, [] => []
  | around, o :: inner =>
      (setIfFound (asUser readTime (around 0)) o (ascii "user")).toList ++
        authors readTime (fun n => around (n + 1)) inner

/-- The tweets of the levels that are complete and have only complete levels inside them, from the
inside out. -/
def offered (readTime : Bytes → Time) :
    (Nat → Surroundings Time) → List Members → List (TweetObject Time)
  | _, [] => []
  | around, o :: inner =>
      offered readTime (fun n => around (n + 1)) inner ++
        if inner.all complete then
          (tweetMembers readTime (around 0) o
            (setIfFound (asUser readTime (around 0)) o (ascii "user"))
            (inner.head?.bind ownId)).toList
        else []

theorem ownId_of_complete {o : Members} (h : (levels o).all complete = true) :
    ∃ id, ownId o = some id := by
  rw [levels, List.all_cons, Bool.and_eq_true] at h
  exact Option.isSome_iff_exists.mp h.1

/-- The JSON object of a tweet message. -/
def tweetOf (t : Value) : Option Members :=
  (asObject t).filter fun o => (find (ascii "text") o).isSome

theorem tweetOf_eq_some {t : Value} {o : Members} :
    tweetOf t = some o ↔ asObject t = some o ∧ (find (ascii "text") o).isSome = true :=
  Option.filter_eq_some_iff

/-- The levels of a message; none if it is no tweet. -/
def messageLevels (t : Value) : List Members := (tweetOf t).elim [] levels

theorem messageLevels_of_tweet {t : Value} {o : Members} (h : tweetOf t = some o) :
    messageLevels t = levels o := by
  rw [messageLevels, h]
  rfl

/-! ## Plans, level by level -/

section Plans

variable {readTime : Bytes → Time}

/-- The plan for the constructor at the outermost level. -/
def planLevels (readTime : Bytes → Time) :
    (Nat → Surroundings Time) → List Members → Option (Plan Time (TweetObject Time))
  | _, [] => none
  | around, o :: inner =>
      some (planTweet readTime (around 0) o (planLevels readTime (fun n => around (n + 1)) inner))

mutual

theorem planRetweeted_eq (around : Nat → Surroundings Time) :
    ∀ o : Members, planRetweeted readTime around o = planLevels readTime around (innerLevels o)
  | [] => rfl
  | member :: o => by
      rw [planRetweeted, innerLevels]
      split_ifs
      · exact planMember_eq around member
      · exact planRetweeted_eq around o

theorem planMember_eq (around : Nat → Surroundings Time) :
    ∀ member : Bytes × Value,
      planMember readTime around member = planLevels readTime around (memberLevels member)
  | (_, value) => planValue_eq around value

theorem planValue_eq (around : Nat → Surroundings Time) :
    ∀ value : Value,
      planValue readTime around value = planLevels readTime around (valueLevels value)
  | .array _ => rfl
  | .string _ => rfl
  | .int _ => rfl
  | .real _ => rfl
  | .object o => by
      rw [planValue, valueLevels, planLevels, planRetweeted_eq (fun n => around (n + 1)) o]
  | .bool _ => rfl
  | .null => rfl

end

theorem setIfFound_map {α β : Type} (f : α → β) (repl : Value → Option α) (o : Members)
    (name : Bytes) :
    setIfFound (fun value => (repl value).map f) o name = (setIfFound repl o name).map f := by
  unfold setIfFound
  cases find name o with
  | none => rfl
  | some value => cases value <;> rfl

/-- Whether the constructor of a tweet throws, and the id of the tweet it makes. -/
theorem tweetMembers_id (here : Surroundings Time) (o : Members) (retweeted : Option UInt64) :
    (tweetMembers readTime here o (setIfFound (asUser readTime here) o (ascii "user"))
      retweeted).map TweetObject.id = ownId o := by
  have huser := setIfFound_map (twitterUserObject readTime here) asObject o (ascii "user")
  have hdate := setIfFound_map readTime asString o (ascii "created_at")
  unfold tweetMembers ownId asDate asUser
  rw [huser, hdate]
  cases setIfFound asObject o (ascii "user") with
  | none => rfl
  | some user =>
      cases setIfFound asString o (ascii "text") with
      | none => rfl
      | some text =>
          cases setIfFound asUInt64 o (ascii "id") with
          | none => rfl
          | some id => cases setIfFound asString o (ascii "created_at") <;> rfl

/-- A plan that stores the given authors, and then the given tweets but for the one it ends with. -/
structure Describes (plan : Plan Time (TweetObject Time)) (users : List (TwitterUserObject Time))
    (tweets : List (TweetObject Time)) (ends : Bool) : Prop where
  ops : ∃ before : List (TweetObject Time),
    plan.ops = users.map StoreOp.insertUser ++ before.map StoreOp.insertTweet ∧
      before ++ plan.result.toOption.toList = tweets
  ends : plan.result.toOption.isSome = ends

/-- A retweeted status and what is known of its plan; the id is that of its tweet, if it has one. -/
inductive DescribesOption : Option (Plan Time (TweetObject Time)) →
    List (TwitterUserObject Time) → List (TweetObject Time) → Bool → Option UInt64 → Prop where
  | none : DescribesOption none [] [] true none
  | some {plan : Plan Time (TweetObject Time)} {users : List (TwitterUserObject Time)}
      {tweets : List (TweetObject Time)} {ends : Bool} {id : Option UInt64}
      (h : Describes plan users tweets ends) (hid : ∀ t, plan.result = .ok t → id = some t.id) :
      DescribesOption (some plan) users tweets ends id

theorem toOption_ended (t : Option (TweetObject Time)) : (ended t).toOption = t := by
  cases t <;> rfl

theorem describes_planTweet {here : Surroundings Time} {o : Members}
    {retweeted : Option (Plan Time (TweetObject Time))} {users : List (TwitterUserObject Time)}
    {tweets : List (TweetObject Time)} {ends : Bool} {id : Option UInt64}
    (h : DescribesOption retweeted users tweets ends id) :
    Describes (planTweet readTime here o retweeted)
      ((setIfFound (asUser readTime here) o (ascii "user")).toList ++ users)
      (tweets ++ if ends then (tweetMembers readTime here o
        (setIfFound (asUser readTime here) o (ascii "user")) id).toList else [])
      (complete o && ends) := by
  have hends : ∀ retweeted, (tweetMembers readTime here o
      (setIfFound (asUser readTime here) o (ascii "user")) retweeted).isSome = complete o := by
    intro retweeted
    rw [complete, ← tweetMembers_id here o retweeted, Option.isSome_map]
  cases h with
  | none =>
      refine ⟨⟨[], ?_, ?_⟩, ?_⟩
      · simp only [planTweet, List.append_nil, List.map_nil]
      · simp only [planTweet, toOption_ended, if_true]
      · simp only [planTweet, toOption_ended, hends, Bool.and_true]
  | @some plan users tweets ends id hplan hid =>
      obtain ⟨ops, result⟩ := plan
      obtain ⟨⟨before, hops, htweets⟩, hresult⟩ := hplan
      simp only at hops htweets hresult
      cases result with
      | error failure =>
          -- what is inside has thrown, so this level makes no tweet
          cases hresult
          refine ⟨⟨before, ?_, ?_⟩, ?_⟩
          · simp only [planTweet, hops, List.map_append, List.append_assoc]
          · simpa [planTweet, Except.toOption] using htweets
          · simp only [planTweet, Except.toOption, Option.isSome_none, Bool.and_false]
      | ok t =>
          cases hresult
          obtain rfl := hid t rfl
          refine ⟨⟨before ++ [t], ?_, ?_⟩, ?_⟩
          · simp only [planTweet, hops, List.map_append, List.append_assoc, List.map_cons,
              List.map_nil]
          · simp only [planTweet, toOption_ended, ← htweets]
            rfl
          · simp only [planTweet, toOption_ended, hends]
            exact (Bool.and_true _).symm

/-- A tweet that is made has the id of its level. -/
theorem planTweet_id {here : Surroundings Time} {o : Members}
    {retweeted : Option (Plan Time (TweetObject Time))} {t : TweetObject Time}
    (h : (planTweet readTime here o retweeted).result = .ok t) : ownId o = some t.id := by
  have hended : ∀ id, ended (tweetMembers readTime here o
      (setIfFound (asUser readTime here) o (ascii "user")) id) = .ok t → ownId o = some t.id := by
    intro id hmade
    have hmembers := congrArg Except.toOption hmade
    rw [toOption_ended] at hmembers
    rw [← tweetMembers_id here o id, hmembers]
    rfl
  match retweeted with
  | none => exact hended _ h
  | some ⟨_, .error _⟩ => cases h
  | some ⟨_, .ok _⟩ => exact hended _ h

theorem describes_planLevels (around : Nat → Surroundings Time) (chain : List Members) :
    DescribesOption (planLevels readTime around chain) (authors readTime around chain)
      (offered readTime around chain) (chain.all complete) (chain.head?.bind ownId) := by
  induction chain generalizing around with
  | nil => exact .none
  | cons o inner ih =>
      exact .some (describes_planTweet (ih fun n => around (n + 1))) fun t hmade =>
        planTweet_id hmade

/-- The plan for a whole message. -/
theorem describes_levels (around : Nat → Surroundings Time) (o : Members) :
    Describes
      (planTweet readTime (around 0) o (planRetweeted readTime (fun n => around (n + 1)) o))
      (authors readTime around (levels o)) (offered readTime around (levels o))
      ((levels o).all complete) := by
  rw [planRetweeted_eq]
  exact describes_planTweet (describes_planLevels (fun n => around (n + 1)) (innerLevels o))

/-- The ids of the tweets do not depend on the memory they are placed in. -/
theorem offered_ids (around : Nat → Surroundings Time) (chain : List Members) :
    (offered readTime around chain).map TweetObject.id = contributed chain := by
  induction chain generalizing around with
  | nil => rfl
  | cons o inner ih =>
      rw [offered, contributed, List.map_append, ih]
      split
      · rw [← tweetMembers_id (around 0) o (inner.head?.bind ownId)]
        cases tweetMembers readTime (around 0) o
          (setIfFound (asUser readTime (around 0)) o (ascii "user"))
          (inner.head?.bind ownId) <;> rfl
      · rfl

end Plans

/-! ## Messages and the stores -/

section Stores

variable {readTime : Bytes → Time} {dateText : Time → Option Bytes} {s : Stores Time}

/-- A tweet with this id is stored. -/
def Stored (s : Stores Time) (id : UInt64) : Prop := ∃ t ∈ s.tweetStore.elements, t.id = id

instance (s : Stores Time) (id : UInt64) : Decidable (Stored s id) :=
  inferInstanceAs (Decidable (∃ t ∈ s.tweetStore.elements, t.id = id))

/-- A tweet that is stored is found. -/
theorem Stored.find {id : UInt64} (h : Stored s id) :
    ∃ t, (s.tweetStore.elements.find? fun t => t.id = id) = some t := by
  obtain ⟨t, hmem, htid⟩ := h
  exact Option.isSome_iff_exists.mp (List.find?_isSome.mpr ⟨t, hmem, decide_eq_true htid⟩)

theorem stored_insertAll {users : Container (@SameUser Time)} {tweets : List (TweetObject Time)}
    {id : UInt64} :
    Stored ⟨users, s.tweetStore.insertAll tweets⟩ id ↔
      Stored s id ∨ id ∈ tweets.map TweetObject.id :=
  Container.exists_key_insertAll fun _ _ => Iff.rfl

theorem applyAll_users (users : List (TwitterUserObject Time)) (s : Stores Time) :
    applyAll (users.map StoreOp.insertUser) s =
      { s with userStore := s.userStore.insertAll users } := by
  induction users generalizing s with
  | nil => rfl
  | cons u users ih => exact ih ((StoreOp.insertUser u).apply s)

theorem applyAll_tweets (tweets : List (TweetObject Time)) (s : Stores Time) :
    applyAll (tweets.map StoreOp.insertTweet) s =
      { s with tweetStore := s.tweetStore.insertAll tweets } := by
  induction tweets generalizing s with
  | nil => rfl
  | cons t tweets ih => exact ih ((StoreOp.insertTweet t).apply s)

/-- What `insert_new_tweet` does to the stores, and whether it throws. -/
theorem exec_insertNewTweet_levels (readTime : Bytes → Time) (around : Nat → Surroundings Time)
    (o : Members) (s : Stores Time) :
    ∃ result : Except Failure UInt64,
      exec (insertNewTweet readTime around o) s =
        (result, ⟨s.userStore.insertAll (authors readTime around (levels o)),
          s.tweetStore.insertAll (offered readTime around (levels o))⟩) ∧
      result.toOption.isSome = (levels o).all complete ∧
      (∀ failure, result = .error failure → failure = .propertiesNotFound) ∧
      ∀ id, result = .ok id → ownId o = some id := by
  have hinsert := exec_insertNewTweet s (@rfl _ (planTweet readTime (around 0) o
    (planRetweeted readTime (fun n => around (n + 1)) o)))
  have hsound := @sound_planTweet _ readTime (around 0) o _
    (sound_planRetweeted readTime (fun n => around (n + 1)) o)
  obtain ⟨⟨before, hops, htweets⟩, hends⟩ := @describes_levels _ readTime around o
  have hown := @planTweet_id _ readTime (around 0) o
    (planRetweeted readTime (fun n => around (n + 1)) o)
  generalize planTweet readTime (around 0) o
    (planRetweeted readTime (fun n => around (n + 1)) o) = plan
    at hinsert hsound hops htweets hends hown
  refine ⟨plan.result.map TweetObject.id, ?_, ?_, ?_, ?_⟩
  · rw [hinsert, hops, List.append_assoc, ← List.map_append, applyAll_append, applyAll_users,
      applyAll_tweets, htweets]
  · rw [← hends]
    cases plan.result <;> rfl
  · intro failure hfailure
    cases hresult : plan.result with
    | error found =>
        rw [hresult] at hfailure
        cases hfailure
        exact hsound.failed _ hresult
    | ok t =>
        rw [hresult] at hfailure
        cases hfailure
  · intro id hid
    cases hresult : plan.result with
    | error failure =>
        rw [hresult] at hid
        cases hid
    | ok t =>
        rw [hresult] at hid
        cases hid
        exact hown hresult

/-- The first of some tweets with this id has a date that can be written. -/
def Dated (dateText : Time → Option Bytes) (tweets : List (TweetObject Time))
    (id : UInt64) : Prop :=
  ∃ t, (tweets.find? fun t => t.id = id) = some t ∧ (dateText t.createdAt).isSome = true

/-- The author of the first of some tweets with this id is stored. -/
def Signed (s : Stores Time) (tweets : List (TweetObject Time)) (id : UInt64) : Prop :=
  ∃ t, (tweets.find? fun t => t.id = id) = some t ∧ Present s t.userId

/-- How the print of a stored tweet ends: the date is looked at before the author. -/
theorem exec_printStored {id : UInt64} (h : Stored s id) :
    (¬ Dated dateText s.tweetStore.elements id ∧
      exec (printStored dateText id) s = (.error .outOfRange, s)) ∨
    (Dated dateText s.tweetStore.elements id ∧ Signed s s.tweetStore.elements id ∧
      ∃ result, exec (printStored dateText id) s = (.ok result, s)) ∨
    (Dated dateText s.tweetStore.elements id ∧ ¬ Signed s s.tweetStore.elements id ∧
      exec (printStored dateText id) s = (.error .endDereferenced, s)) := by
  obtain ⟨found, hfind⟩ := h.find
  have hdated : Dated dateText s.tweetStore.elements id ↔
      (dateText found.createdAt).isSome = true := by
    simp [Dated, hfind]
  have hsigned : Signed s s.tweetStore.elements id ↔ Present s found.userId := by
    simp [Signed, hfind]
  rw [hdated, hsigned, printStored, exec_bind_ok (exec_findTweet id s), hfind,
    exec_bind_ok (exec_dereference found s)]
  cases hdate : dateText found.createdAt with
  | none => exact Or.inl ⟨Bool.false_ne_true, exec_bind_error (exec_printTweet_outOfRange hdate)⟩
  | some date =>
      right
      by_cases hauthor : Present s found.userId
      · obtain ⟨printed, hprint⟩ := exec_printTweet hdate hauthor
        exact Or.inl ⟨rfl, hauthor, _, exec_bind_ok hprint⟩
      · exact Or.inr ⟨rfl, hauthor, exec_bind_error (exec_printTweet_end hdate hauthor)⟩

theorem printStored_returns_iff {id : UInt64} (h : Stored s id) :
    (∃ result, (exec (printStored dateText id) s).1 = .ok result) ↔
      Dated dateText s.tweetStore.elements id ∧ Signed s s.tweetStore.elements id := by
  rcases @exec_printStored _ dateText _ _ h with
    ⟨hdate, hprint⟩ | ⟨hdate, hauthor, result, hprint⟩ | ⟨-, hauthor, hprint⟩
  · rw [hprint]
    refine ⟨?_, fun hboth => absurd hboth.1 hdate⟩
    rintro ⟨result, hok⟩
    cases hok
  · rw [hprint]
    exact ⟨fun _ => ⟨hdate, hauthor⟩, fun _ => ⟨result, rfl⟩⟩
  · rw [hprint]
    refine ⟨?_, fun hboth => absurd hboth.2 hauthor⟩
    rintro ⟨result, hok⟩
    cases hok

/-- Only the date throws; using the end iterator is no exception. -/
theorem printStored_throws_iff {id : UInt64} (h : Stored s id) :
    (∃ failure, failure ≠ Failure.endDereferenced ∧
      (exec (printStored dateText id) s).1 = .error failure) ↔
        ¬ Dated dateText s.tweetStore.elements id := by
  rcases @exec_printStored _ dateText _ _ h with
    ⟨hdate, hprint⟩ | ⟨hdate, -, result, hprint⟩ | ⟨hdate, -, hprint⟩
  · rw [hprint]
    refine ⟨fun _ => hdate, fun _ => ⟨.outOfRange, ?_, rfl⟩⟩
    intro hsame
    cases hsame
  · rw [hprint]
    refine ⟨?_, fun hnot => absurd hdate hnot⟩
    rintro ⟨failure, -, herror⟩
    cases herror
  · rw [hprint]
    refine ⟨?_, fun hnot => absurd hdate hnot⟩
    rintro ⟨failure, hne, herror⟩
    cases herror
    exact absurd rfl hne

/-- Processing a message ends with an exception.  Using the end iterator is none. -/
def Throws (readTime : Bytes → Time) (dateText : Time → Option Bytes) (message : Message Time)
    (s : Stores Time) : Prop :=
  ∃ failure, failure ≠ Failure.endDereferenced ∧
    (exec (processSingleEntity readTime dateText message.around message.entity) s).1 =
      .error failure

/-- A tweet message offers its authors and its tweets to the stores. -/
theorem handle_tweet {message : Message Time} {o : Members} (h : tweetOf message.entity = some o)
    (s : Stores Time) :
    handle readTime dateText message s =
      ⟨s.userStore.insertAll (authors readTime message.around (levels o)),
        s.tweetStore.insertAll (offered readTime message.around (levels o))⟩ := by
  obtain ⟨hobject, htext⟩ := tweetOf_eq_some.mp h
  obtain ⟨result, hinsert, -⟩ := exec_insertNewTweet_levels readTime message.around o s
  rw [handle, exec_process_text hobject htext]
  cases result with
  | error failure => rw [exec_bind_error hinsert]
  | ok id => rw [exec_bind_ok hinsert, printStored_stores]

/-- The tweet of a message with all its properties is stored behind it. -/
theorem exec_process_complete {message : Message Time} {o : Members} {id : UInt64}
    (h : tweetOf message.entity = some o) (hcomplete : (levels o).all complete = true)
    (hown : ownId o = some id) (s : Stores Time) :
    Stored (handle readTime dateText message s) id ∧
      exec (processSingleEntity readTime dateText message.around message.entity) s =
        exec (printStored dateText id) (handle readTime dateText message s) := by
  obtain ⟨hobject, htext⟩ := tweetOf_eq_some.mp h
  obtain ⟨result, hinsert, hends, -, hid⟩ :=
    exec_insertNewTweet_levels readTime message.around o s
  rw [hcomplete] at hends
  have hhandle := @handle_tweet _ readTime dateText _ _ h s
  constructor
  · rw [hhandle, stored_insertAll, offered_ids, levels, contributed]
    right
    rw [levels, List.all_cons, Bool.and_eq_true] at hcomplete
    rw [if_pos hcomplete.2, hown]
    simp
  · cases result with
    | error failure => cases hends
    | ok made =>
        have hmade := hid made rfl
        rw [hown, Option.some.injEq] at hmade
        rw [exec_process_text hobject htext, exec_bind_ok hinsert, hhandle, hmade]

/-- A message with an incomplete level always throws. -/
theorem throws_of_incomplete {message : Message Time} {o : Members}
    (h : tweetOf message.entity = some o) (hincomplete : (levels o).all complete = false)
    (s : Stores Time) : Throws readTime dateText message s := by
  obtain ⟨hobject, htext⟩ := tweetOf_eq_some.mp h
  obtain ⟨result, hinsert, hends, hfailure, -⟩ :=
    exec_insertNewTweet_levels readTime message.around o s
  rw [hincomplete] at hends
  cases result with
  | ok id => cases hends
  | error failure =>
      refine ⟨failure, ?_, ?_⟩
      · rw [hfailure failure rfl]
        nofun
      · rw [exec_process_text hobject htext, exec_bind_error hinsert]

/-- It throws just when one of its levels lacks a property, or the tweet that is then stored under
its id has a date that cannot be written. -/
theorem throws_tweet_iff {message : Message Time} {o : Members}
    (h : tweetOf message.entity = some o) (s : Stores Time) :
    Throws readTime dateText message s ↔ (levels o).all complete = false ∨
      ∀ id ∈ ownId o,
        ¬ Dated dateText (handle readTime dateText message s).tweetStore.elements id := by
  cases hcomplete : (levels o).all complete with
  | false => exact ⟨fun _ => Or.inl rfl, fun _ => throws_of_incomplete h hcomplete s⟩
  | true =>
      obtain ⟨id, hown⟩ := ownId_of_complete hcomplete
      obtain ⟨hstored, hrun⟩ :=
        @exec_process_complete _ readTime dateText _ _ _ h hcomplete hown s
      rw [Throws, hrun, printStored_throws_iff hstored, hown]
      simp only [Bool.true_eq_false, false_or, Option.mem_def, Option.some.injEq, forall_eq']

end Stores

end BlackCircle.Twitter.Levels
