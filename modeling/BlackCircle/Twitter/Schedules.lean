import BlackCircle.Twitter.Requested
import BlackCircle.Twitter.Timeline

/-!
# The order of the handlers

Which tweets are stored in the end depends on the order in which the handlers
run only through delete notices, through users that cannot be told by their
screen names, and through dates that cannot be written: then a tweet may lack its
author or its date, and the loop over a timeline ends at such a tweet.  Without
these, each call stores what its own text contributes.
-/

namespace BlackCircle.Twitter.Schedules

open BlackCircle.Foundation
open BlackCircle.Foundation.ByteString
open BlackCircle.Foundation.EntryList (find)
open BlackCircle.Foundation.EventRun
open BlackCircle.Foundation.ReadLoop
open BlackCircle.Http.Client
open BlackCircle.Http.Response
open BlackCircle.Json (Value)
open BlackCircle.Json.Grammar
open BlackCircle.Twitter
open BlackCircle.Twitter.Arrival
open BlackCircle.Twitter.Deletion
open BlackCircle.Twitter.Handler
open BlackCircle.Twitter.Integrity
open BlackCircle.Twitter.Levels
open BlackCircle.Twitter.Processing
open BlackCircle.Twitter.Requested
open BlackCircle.Twitter.Requests (Operation)
open BlackCircle.Twitter.Service
open StateTransition

variable {Time : Type} {readTime : Bytes → Time} {dateText : Time → Option Bytes}

/-! ## What a text makes the handler process -/

/-- The entities of a response, in the order in which they are processed. -/
def entitiesOf (api : ApiType) (data : HttpResponseData) : List Value :=
  if data.status.1 ≠ 200 then []
  else
    match parseJson data.data with
    | .error _ => []
    | .ok t =>
        match api with
        | .userStream => if hasBrace data.data then [t] else []
        | .friendsTimeline =>
            match t with
            | .array elements => elements.reverse
            | _ => []
        | .statusesUpdate => []

/-- An entity on which `process_single_entity` throws. -/
def fails (t : Value) : Bool :=
  match asObject t with
  | none => true
  | some o =>
      if (find (ascii "text") o).isSome then !(levels o).all complete
      else (find (ascii "delete") o).isSome && (deletedId o).isNone

/-- Up to and including the first entity that fails. -/
def throughFailure : List Value → List Value
  | [] => []
  | t :: ts => if fails t then [t] else t :: throughFailure ts

theorem httpHandler_eq {σ ε α : Type} (process : Nat → Value → σ → Except ε α × σ)
    (api : ApiType) (data : HttpResponseData) (r : Record σ) :
    Handler.httpHandler process api data r = forEach process (entitiesOf api data) r := by
  unfold Handler.httpHandler entitiesOf
  by_cases hstatus : data.status.1 ≠ 200
  · rw [if_pos hstatus, if_pos hstatus]
    rfl
  · rw [if_neg hstatus, if_neg hstatus]
    cases parseJson data.data with
    | error fault => rfl
    | ok t =>
        cases api with
        | userStream =>
            simp only
            split_ifs
            · rw [forEach]
              cases processEntity process t r with
              | mk result next => cases result <;> rfl
            · rfl
        | friendsTimeline => cases t <;> rfl
        | statusesUpdate => rfl

/-! ## Users that are told by their screen names -/

/-- The id that goes with each screen name is the one of the user. -/
def Named (names : Bytes → UInt64) (u : TwitterUserObject Time) : Prop := u.id = names u.screenName

/-- All users in a message have ids, those that go with their screen names. -/
def Known (names : Bytes → UInt64) (t : Value) : Prop :=
  ∀ o ∈ messageLevels t, ∀ user ∈ setIfFound asObject o (ascii "user"),
    setIfFound asUInt64 user (ascii "id") =
      some (names ((setIfFound asString user (ascii "screen_name")).getD []))

instance (names : Bytes → UInt64) (t : Value) : Decidable (Known names t) :=
  inferInstanceAs (Decidable (∀ o ∈ messageLevels t, ∀ user ∈ setIfFound asObject o (ascii "user"),
    setIfFound asUInt64 user (ascii "id") =
      some (names ((setIfFound asString user (ascii "screen_name")).getD []))))

/-- All dates of tweets in a message can be written. -/
def Dateable (readTime : Bytes → Time) (dateText : Time → Option Bytes) (t : Value) : Prop :=
  ∀ o ∈ messageLevels t, ∀ time ∈ setIfFound (asDate readTime) o (ascii "created_at"),
    (dateText time).isSome = true

instance (t : Value) : Decidable (Dateable readTime dateText t) :=
  inferInstanceAs (Decidable (∀ o ∈ messageLevels t,
    ∀ time ∈ setIfFound (asDate readTime) o (ascii "created_at"), (dateText time).isSome = true))

/-- All dates of stored tweets can be written. -/
def AllDated (dateText : Time → Option Bytes) (s : Stores Time) : Prop :=
  ∀ t ∈ s.tweetStore.elements, (dateText t.createdAt).isSome = true

/-- The users that are stored, and the authors of the tweets. -/
structure Keeps (names : Bytes → UInt64) (s : Stores Time) : Prop where
  authors : AuthorsStored s
  named : ∀ u ∈ s.userStore.elements, Named names u

section Entities

variable {names : Bytes → UInt64} {s : Stores Time} {t : Value}

theorem named_authors {chain : List Members}
    (h : ∀ o ∈ chain, ∀ user ∈ setIfFound asObject o (ascii "user"),
      setIfFound asUInt64 user (ascii "id") =
        some (names ((setIfFound asString user (ascii "screen_name")).getD [])))
    (around : Nat → Surroundings Time) : ∀ u ∈ authors readTime around chain, Named names u := by
  induction chain generalizing around with
  | nil => rintro u ⟨⟩
  | cons o inner ih =>
      intro u hmem
      have hauthor : setIfFound (asUser readTime (around 0)) o (ascii "user") =
          (setIfFound asObject o (ascii "user")).map (twitterUserObject readTime (around 0)) :=
        setIfFound_map _ _ _ _
      rcases List.mem_append.mp hmem with hown | hinner
      · rw [hauthor, Option.mem_toList, Option.map_eq_some_iff] at hown
        obtain ⟨user, huser, rfl⟩ := hown
        rw [Named, twitterUserObject, h o List.mem_cons_self user huser]
        rfl
      · exact ih (fun o' hmem => h o' (List.mem_cons_of_mem o hmem)) _ u hinner

/-- Named users are welcome where all stored users are named. -/
theorem allWelcome_users {users : List (TwitterUserObject Time)}
    {tweets : List (TweetObject Time)} (husers : ∀ u ∈ users, Named names u)
    (hstored : ∀ u ∈ s.userStore.elements, Named names u) :
    AllWelcome s (users.map StoreOp.insertUser ++ tweets.map StoreOp.insertTweet) := by
  induction users generalizing s with
  | nil =>
      rw [List.map_nil, List.nil_append]
      clear husers hstored
      induction tweets generalizing s with
      | nil => trivial
      | cons tweet tweets ih => exact ⟨trivial, ih⟩
  | cons u users ih =>
      have hu : Named names u := husers u List.mem_cons_self
      refine ⟨?_, ih (fun v hmem => husers v (List.mem_cons_of_mem u hmem)) ?_⟩
      · by_cases hname : ∀ v ∈ s.userStore.elements, v.screenName ≠ u.screenName
        · exact Or.inr hname
        · obtain ⟨v, hname⟩ := not_forall.mp hname
          obtain ⟨hmem, hsame⟩ := Classical.not_imp.mp hname
          rw [not_not] at hsame
          have hv : Named names v := hstored v hmem
          rw [Named, hsame, ← hu] at hv
          exact Or.inl ⟨v, hmem, hv⟩
      · intro v hmem
        rcases Container.mem_of_mem_insert hmem with rfl | hbefore
        · exact hu
        · exact hstored v hbefore

theorem allWelcome_requests (h : Keeps names s) (hknown : Known names t)
    (around : Nat → Surroundings Time) : AllWelcome s (requests readTime around t) := by
  unfold requests
  cases hobject : asObject t with
  | none => trivial
  | some o =>
      simp only
      split_ifs with htext hdelete
      · obtain ⟨⟨tweets, hops, -⟩, -⟩ := @describes_levels _ readTime around o
        rw [hops, List.append_assoc, ← List.map_append]
        rw [Known, messageLevels_of_tweet (tweetOf_eq_some.mpr ⟨hobject, htext⟩)] at hknown
        exact allWelcome_users (named_authors hknown around) h.named
      · cases deletedId o with
        | none => trivial
        | some id => exact ⟨trivial, trivial⟩
      · trivial

theorem named_handle {message : Message Time} (h : ∀ u ∈ s.userStore.elements, Named names u)
    (hknown : Known names message.entity) :
    ∀ u ∈ (handle readTime dateText message s).userStore.elements, Named names u := by
  rcases process_cases readTime dateText message.entity with
    ⟨o, htweet, -⟩ | ⟨id, -, -, hdelete⟩ | ⟨-, -, result, hsame⟩
  · rw [Known, messageLevels_of_tweet htweet] at hknown
    intro u hmem
    rw [handle_tweet htweet] at hmem
    rcases Container.mem_of_mem_insertAll hmem with hbefore | hnew
    · exact h u hbefore
    · exact named_authors hknown message.around u hnew
  · have husers : (handle readTime dateText message s).userStore = s.userStore := by
      rw [handle, hdelete]
      rcases deleteStored_stores dateText id s with hstores | ⟨failure, -, hstores⟩ <;>
        rw [hstores]
      rfl
    rwa [husers]
  · rwa [handle, hsame]

/-- A message whose users are known keeps the stores in order. -/
theorem Keeps.handle {message : Message Time} (h : Keeps names s)
    (hknown : Known names message.entity) : Keeps names (handle readTime dateText message s) where
  authors := authorsStored_handle h.authors (allWelcome_requests h hknown message.around)
  named := named_handle h.named hknown

theorem dated_offered {chain : List Members}
    (h : ∀ o ∈ chain, ∀ time ∈ setIfFound (asDate readTime) o (ascii "created_at"),
      (dateText time).isSome = true)
    (around : Nat → Surroundings Time) :
    ∀ t ∈ offered readTime around chain, (dateText t.createdAt).isSome = true := by
  induction chain generalizing around with
  | nil => rintro t ⟨⟩
  | cons o inner ih =>
      intro t hmem
      rcases List.mem_append.mp hmem with hinner | hown
      · exact ih (fun o' hmem => h o' (List.mem_cons_of_mem o hmem)) _ t hinner
      · split at hown
        · have hmembers := tweetMembers_createdAt (Option.mem_toList.mp hown)
          exact h o List.mem_cons_self _ hmembers
        · cases hown

/-- A message whose dates can be written leaves only such dates behind. -/
theorem AllDated.handle {message : Message Time} (h : AllDated dateText s)
    (hdateable : Dateable readTime dateText message.entity) :
    AllDated dateText (handle readTime dateText message s) := by
  intro t hmem
  rcases process_cases readTime dateText message.entity with
    ⟨o, htweet, -⟩ | ⟨id, -, -, hdelete⟩ | ⟨-, -, result, hsame⟩
  · rw [Dateable, messageLevels_of_tweet htweet] at hdateable
    rw [handle_tweet htweet] at hmem
    rcases Container.mem_of_mem_insertAll hmem with hbefore | hnew
    · exact h t hbefore
    · exact dated_offered hdateable message.around t hnew
  · rw [Processing.handle, hdelete] at hmem
    rcases deleteStored_stores dateText id s with hstores | ⟨failure, -, hstores⟩
    · rw [hstores] at hmem
      exact h t (List.mem_filter.mp hmem).1
    · rw [hstores] at hmem
      exact h t hmem
  · rw [Processing.handle, hsame] at hmem
    exact h t hmem

/-- It throws just if it fails. -/
theorem throws_iff (h : Keeps names s) (hdated : AllDated dateText s) (hknown : Known names t)
    (hdateable : Dateable readTime dateText t) (around : Nat → Surroundings Time) :
    (∃ failure, (exec (processSingleEntity readTime dateText around t) s).1 = .error failure) ↔
      fails t = true := by
  have hused := @process_ne_endDereferenced _ readTime dateText around t s h.authors
    (allWelcome_requests h hknown around)
  have hthrows : (∃ failure, (exec (processSingleEntity readTime dateText around t) s).1 =
      .error failure) ↔ Levels.Throws readTime dateText ⟨around, t⟩ s := by
    constructor
    · rintro ⟨failure, hfailure⟩
      refine ⟨failure, ?_, hfailure⟩
      rintro rfl
      exact hused hfailure
    · rintro ⟨failure, -, hfailure⟩
      exact ⟨failure, hfailure⟩
  unfold fails
  cases hobject : asObject t with
  | none =>
      rw [exec_process_none hobject]
      exact iff_of_true ⟨_, rfl⟩ rfl
  | some o =>
      simp only
      by_cases htext : (find (ascii "text") o).isSome = true
      · have htweet : tweetOf t = some o := tweetOf_eq_some.mpr ⟨hobject, htext⟩
        rw [if_pos htext, hthrows, Bool.not_eq_true',
          @throws_tweet_iff _ readTime dateText ⟨around, t⟩ o htweet s]
        refine ⟨?_, Or.inl⟩
        rintro (hincomplete | hdate)
        · exact hincomplete
        · -- What is printed is stored, and everything stored has a date that can be written.
          rw [← Bool.not_eq_true]
          intro hcomplete
          obtain ⟨id, hown⟩ := ownId_of_complete hcomplete
          obtain ⟨hstored, -⟩ :=
            @exec_process_complete _ readTime dateText ⟨around, t⟩ _ _ htweet hcomplete hown s
          obtain ⟨first, hfind⟩ := hstored.find
          have hall := @AllDated.handle _ _ dateText _ ⟨around, t⟩ hdated hdateable
          exact hdate id hown ⟨first, hfind, hall first (List.mem_of_find?_eq_some hfind)⟩
      · rw [if_neg htext]
        by_cases hdelete : (find (ascii "delete") o).isSome = true
        · rw [hthrows, Levels.Throws, exec_process_delete hobject htext hdelete, hdelete,
            Bool.true_and]
          cases hid : deletedId o with
          | none =>
              refine iff_of_true ⟨.badGet, ?_, rfl⟩ rfl
              intro hclash
              cases hclash
          | some id =>
              refine iff_of_false ?_ Bool.false_ne_true
              rintro ⟨failure, hne, hfailure⟩
              obtain ⟨found, hfind, hdate⟩ := Timeline.deleteStored_throws hne hfailure
              have hsome := hdated found (List.mem_of_find?_eq_some hfind)
              rw [hdate] at hsome
              cases hsome
        · have hnone : (find (ascii "delete") o).isSome = false := by simpa using hdelete
          rw [exec_process_other hobject htext hdelete, hnone]
          refine iff_of_false ?_ Bool.false_ne_true
          rintro ⟨failure, hfailure⟩
          cases hfailure

end Entities

/-! ## What calls store -/

/-- The entities that a call processes. -/
def processed (call : ApiType × HttpResponseData) : List Value :=
  throughFailure (entitiesOf call.1 call.2)

section Calls

variable {names : Bytes → UInt64} {around : Nat → Nat → Surroundings Time}
  {r : Record (Stores Time)}

/-- The users in a message are known, and its dates can be written. -/
def Fine (readTime : Bytes → Time) (dateText : Time → Option Bytes) (names : Bytes → UInt64)
    (t : Value) : Prop :=
  Known names t ∧ Dateable readTime dateText t

instance (t : Value) : Decidable (Fine readTime dateText names t) :=
  inferInstanceAs (Decidable (Known names t ∧ Dateable readTime dateText t))

theorem forEach_fine {ts : List Value} (h : Keeps names r.state)
    (hdated : AllDated dateText r.state)
    (hfine : ∀ t ∈ ts, Fine readTime dateText names t) :
    Keeps names (forEach (processStored readTime dateText around) ts r).state ∧
      AllDated dateText (forEach (processStored readTime dateText around) ts r).state ∧
      (forEach (processStored readTime dateText around) ts r).entities =
        r.entities ++ throughFailure ts := by
  induction ts generalizing r with
  | nil => exact ⟨h, hdated, (List.append_nil _).symm⟩
  | cons t ts ih =>
      obtain ⟨hknown, hdateable⟩ := hfine t List.mem_cons_self
      have hthrows := @throws_iff _ readTime dateText names r.state t h hdated hknown hdateable
        (around r.entities.length)
      have hkept : Keeps names
          (processEntity (processStored readTime dateText around) t r).2.state :=
        @Keeps.handle _ readTime dateText names r.state ⟨around r.entities.length, t⟩ h hknown
      have hstill : AllDated dateText
          (processEntity (processStored readTime dateText around) t r).2.state :=
        @AllDated.handle _ readTime dateText r.state ⟨around r.entities.length, t⟩ hdated hdateable
      have hentities := entities_processEntity (processStored readTime dateText around) t r
      change (∃ failure, (processEntity (processStored readTime dateText around) t r).1 =
        .error failure) ↔ _ at hthrows
      rw [forEach, throughFailure]
      cases hcall : processEntity (processStored readTime dateText around) t r with
      | mk result next =>
          rw [hcall] at hthrows hkept hstill hentities
          cases result with
          | error failure =>
              rw [if_pos (hthrows.mp ⟨failure, rfl⟩)]
              exact ⟨hkept, hstill, hentities⟩
          | ok value =>
              have hreturns : ¬ fails t = true := by
                rw [← hthrows]
                rintro ⟨failure, ⟨⟩⟩
              obtain ⟨hrest, hdates, hmore⟩ :=
                ih hkept hstill fun other hmem => hfine other (List.mem_cons_of_mem t hmem)
              refine ⟨hrest, hdates, hmore.trans ?_⟩
              simp only at hentities
              rw [hentities, if_neg hreturns, List.append_assoc, List.singleton_append]

/-- Calls whose users are known, and whose dates can be written, process the entities of each, up
to the first that fails. -/
theorem runHandlers_fine {calls : List (ApiType × HttpResponseData)} (h : Keeps names r.state)
    (hdated : AllDated dateText r.state)
    (hfine : ∀ call ∈ calls, ∀ t ∈ entitiesOf call.1 call.2, Fine readTime dateText names t) :
    (runHandlers (processStored readTime dateText around) calls r).entities =
      r.entities ++ calls.flatMap processed := by
  induction calls generalizing r with
  | nil => exact (List.append_nil _).symm
  | cons call calls ih =>
      have hcall := @forEach_fine _ readTime dateText names around r _ h hdated
        (hfine call List.mem_cons_self)
      rw [← httpHandler_eq] at hcall
      change (runHandlers _ calls (Handler.httpHandler _ call.1 call.2 r)).entities = _
      rw [ih hcall.1 hcall.2.1 fun other hmem => hfine other (List.mem_cons_of_mem call hmem),
        hcall.2.2, List.append_assoc]
      rfl

theorem mem_of_mem_throughFailure {t : Value} {ts : List Value} (h : t ∈ throughFailure ts) :
    t ∈ ts := by
  induction ts with
  | nil => cases h
  | cons first ts ih =>
      rw [throughFailure] at h
      split at h
      · rw [List.mem_singleton.mp h]
        exact List.mem_cons_self
      · rcases List.mem_cons.mp h with rfl | hmem
        · exact List.mem_cons_self
        · exact List.mem_cons_of_mem first (ih hmem)

/-- Without delete notices, the ids are those that the messages contribute. -/
theorem storedIds_noticeless {messages : List (Message Time)}
    (h : ∀ m ∈ messages, noticeId m.entity = none) (s : Stores Time) :
    storedIds (handleAll readTime dateText messages s) =
      storedIds s ∪ contributedIds (messages.map Message.entity) := by
  ext id
  change Stored (handleAll readTime dateText messages s) id ↔ Stored s id ∨
    ∃ t ∈ messages.map Message.entity, id ∈ contributed (messageLevels t)
  induction messages generalizing s with
  | nil => simp [handleAll]
  | cons m messages ih =>
      have hm := h m List.mem_cons_self
      have hfirst : Stored (handle readTime dateText m s) id ↔
          Stored s id ∨ id ∈ contributed (messageLevels m.entity) := by
        constructor
        · exact stored_of_stored_handle
        · rintro (hstored | hcontributed)
          · exact stored_handle_of_stored hstored hm
          · exact stored_handle_contributed hcontributed s
      have hrest := ih (fun other hmem => h other (List.mem_cons_of_mem m hmem))
        (handle readTime dateText m s)
      rw [hfirst] at hrest
      change Stored (handleAll readTime dateText messages (handle readTime dateText m s)) id ↔ _
      rw [hrest, or_assoc, List.map_cons, List.exists_mem_cons_iff]

/-- What calls leave in the stores, where their users are known, their dates can be written and
there are no notices. -/
theorem storedIds_runHandlers {calls : List (ApiType × HttpResponseData)}
    (hfine : ∀ call ∈ calls, ∀ t ∈ entitiesOf call.1 call.2,
      Fine readTime dateText names t ∧ noticeId t = none) :
    storedIds (runHandlers (processStored readTime dateText around) calls ⟨.empty, []⟩).state =
      contributedIds (calls.flatMap processed) := by
  have hempty : Keeps names (Stores.empty : Stores Time) := ⟨nofun, nofun⟩
  have hdated : AllDated dateText (Stores.empty : Stores Time) := nofun
  have hentities := @runHandlers_fine _ readTime dateText names around ⟨.empty, []⟩ calls hempty
    hdated fun call hmem t ht => (hfine call hmem t ht).1
  have hinitial : Recorded readTime dateText around .empty ⟨.empty, []⟩ := rfl
  have hrecorded := recorded_runHandlers hinitial calls
  rw [Recorded, hentities, List.nil_append] at hrecorded
  have hmessages : (history around (calls.flatMap processed)).map Message.entity =
      calls.flatMap processed := by
    apply List.ext_getElem
    · simp [history]
    · intro n hn hn'
      simp [history]
  have hnotices : ∀ m ∈ history around (calls.flatMap processed), noticeId m.entity = none := by
    intro m hmem
    have hentity : m.entity ∈ calls.flatMap processed := hmessages ▸ List.mem_map_of_mem hmem
    obtain ⟨call, hcall, ht⟩ := List.mem_flatMap.mp hentity
    exact (hfine call hcall _ (mem_of_mem_throughFailure ht)).2
  have hnone : storedIds (Stores.empty : Stores Time) = ∅ := by
    ext id
    exact iff_of_false (by rintro ⟨t, hmem, -⟩; cases hmem) (Set.notMem_empty id)
  rw [hrecorded, storedIds_noticeless hnotices, hmessages, hnone, Set.empty_union]

end Calls

/-! ## Two runs -/

section Runs

variable {σ ε α : Type} {world : World} {storage : Storage σ ε α}
  {initial : Record σ} {req : Oauth.TokenRequester} {p q : Program σ}

/-- Every command has got its request, or the last one has been refused. -/
theorem made_cases (h : Sends world storage initial req p) :
    Made world req (asked p.piped.console.outputs) p ∨
      ∃ before last, p.piped.console.outputs = before ++ [last] ∧
        (operationOf last).isSome = true ∧ world.peer p.clients.length = none ∧
        Made world req (asked before) p := by
  cases h with
  | going made attempts ust listening opened noExit => exact Or.inl made
  | @exited before last made ust stopped outputs exit noExit =>
      have hnone := (@act_exit _ _ _ world storage _ exit p).1
      left
      rw [outputs, asked_append, hnone, Option.toList_none, List.append_nil]
      exact made
  | @refused before last made ust stopped outputs refused noExit =>
      exact Or.inr ⟨before, last, outputs, refused.1, refused.2, made⟩
  | @thrown before last made ust stopped outputs throws noExit =>
      have hnone := operationOf_print throws.1
      left
      rw [outputs, asked_append, hnone, Option.toList_none, List.append_nil]
      exact made

/-- What is refused in one run is refused in the other. -/
theorem not_refused (hserves : Serves storage.process world initial p)
    {before : List Console.Commands.Command}
    {last : Console.Commands.Command}
    (hmade : Made world req (asked (before ++ [last])) p)
    (hlast : (operationOf last).isSome = true) (hother : Made world req (asked before) q)
    (hpeer : world.peer q.clients.length = none) : False := by
  obtain ⟨operation, hoperation⟩ := Option.isSome_iff_exists.mp hlast
  rw [asked_append, hoperation, Option.toList_some] at hmade
  have hlength := hmade.length
  rw [List.length_append, List.length_singleton, ← hother.length] at hlength
  obtain ⟨c, hget⟩ : ∃ c, p.clients[q.clients.length]? = some c :=
    ⟨_, List.getElem?_eq_getElem (by omega)⟩
  obtain ⟨segments, closed, hsome, -⟩ := (hserves.own _ _ hget).reached
  have hattempt := congrArg (fun l => l[q.clients.length]?) hmade.numbered
  simp only [List.getElem?_map, hget, Option.map_some] at hattempt
  have hlast : q.clients.length < (asked before ++ [operation]).length := by
    rw [List.length_append, ← hother.length]
    exact Nat.lt_succ_self _
  rw [List.getElem?_range hlast, Option.some.injEq] at hattempt
  rw [hattempt, hpeer] at hsome
  cases hsome

theorem fits_unique {api api' : ApiType} {operation : Operation} (h : Fits api operation)
    (h' : Fits api' operation) : api = api' := by
  cases operation <;> cases api <;> cases api' <;>
    first | rfl | exact False.elim h | exact False.elim h'

/-- Where the same commands have been read and all readers are at rest, the clients are the same. -/
theorem clients_eq (hp : Serves storage.process world initial p)
    (hq : Serves storage.process world initial q)
    (hpsends : Sends world storage initial req p) (hqsends : Sends world storage initial req q)
    (hcommands : q.piped.console.outputs = p.piped.console.outputs)
    (hprest : ∀ c ∈ p.clients, clientStep world.width c.session = none)
    (hqrest : ∀ c ∈ q.clients, clientStep world.width c.session = none) :
    q.clients = p.clients := by
  obtain ⟨operations, hpmade, hqmade⟩ :
      ∃ operations, Made world req operations p ∧ Made world req operations q := by
    rcases made_cases hpsends with hpmade | ⟨before, last, hpout, hplast, hppeer, hpmade⟩
    · rcases made_cases hqsends with hqmade | ⟨before, last, hqout, hqlast, hqpeer, hqmade⟩
      · exact ⟨_, hpmade, hcommands ▸ hqmade⟩
      · rw [← hcommands, hqout] at hpmade
        exact (not_refused hp hpmade hqlast hqmade hqpeer).elim
    · rcases made_cases hqsends with hqmade | ⟨before', last', hqout, hqlast, hqpeer, hqmade⟩
      · rw [hcommands, hpout] at hqmade
        exact (not_refused hq hqmade hplast hpmade hppeer).elim
      · rw [hqout, hpout] at hcommands
        obtain ⟨rfl, -⟩ := List.append_inj' hcommands rfl
        exact ⟨_, hpmade, hqmade⟩
  have hlength : q.clients.length = p.clients.length :=
    hqmade.length.trans hpmade.length.symm
  apply List.ext_getElem hlength
  intro i hiq hip
  have hpget := List.getElem?_eq_getElem hip
  have hqget := List.getElem?_eq_getElem hiq
  have hpmem := List.getElem_mem hip
  have hqmem := List.getElem_mem hiq
  have hsent := congrArg (fun l => l[i]?) (hqmade.sent.trans hpmade.sent.symm)
  have hattempt := congrArg (fun l => l[i]?) (hqmade.numbered.trans hpmade.numbered.symm)
  simp only [List.getElem?_map, hpget, hqget, Option.map_some, Option.some.injEq,
    Prod.mk.injEq] at hsent hattempt
  have hpown := hp.own i _ hpget
  have hqown := hq.own i _ hqget
  have hpfits := hpmade.typed _ hpmem
  have hqfits := hqmade.typed _ hqmem
  have hprests := hprest _ hpmem
  have hqrests := hqrest _ hqmem
  generalize p.clients[i] = c at *
  generalize q.clients[i] = d at *
  obtain ⟨api, attempt, operation, exchange, isOpen, session⟩ := c
  obtain ⟨api', attempt', operation', exchange', isOpen', session'⟩ := d
  obtain ⟨⟨segments, closed, hpeer, hreach⟩, hopen, -⟩ := hpown
  obtain ⟨⟨segments', closed', hpeer', hreach'⟩, hopen', -⟩ := hqown
  simp only at hsent hattempt hpeer hpeer' hreach hreach' hopen hopen' hprests hqrests hpfits hqfits
  obtain ⟨rfl, rfl⟩ := hsent
  obtain rfl := hattempt
  obtain rfl := fits_unique hqfits hpfits
  rw [hpeer', Option.some.injEq, Prod.mk.injEq] at hpeer
  obtain ⟨rfl, rfl⟩ := hpeer
  have hsession : session' = session :=
    Part.mem_unique (mem_eval.mpr ⟨hreach', hqrests⟩) (mem_eval.mpr ⟨hreach, hprests⟩)
  rw [hopen, hopen', hsession]

/-- The calls of one client, in their order. -/
theorem filter_calls (h : Serves storage.process world initial p) (i : Nat) :
    (p.calls.filter fun call => call.client = i) =
      (p.clients[i]?.toList.flatMap fun c =>
        c.session.outputs.map fun data => ⟨i, c.api, data⟩) := by
  cases hget : p.clients[i]? with
  | none =>
      apply List.filter_eq_nil_iff.mpr
      intro call hmem hclient
      obtain ⟨c, hsome, -⟩ := h.typed call hmem
      rw [of_decide_eq_true hclient, hget] at hsome
      cases hsome
  | some c =>
      have hcalled := (h.own i c hget).called
      rw [Option.toList_some, List.flatMap_singleton, ← hcalled, dataOf, List.map_map]
      have hsame : ∀ call ∈ p.calls.filter fun call => call.client = i,
          call = ⟨i, c.api, call.data⟩ := by
        intro call hmem
        obtain ⟨hcall, hclient⟩ := List.mem_filter.mp hmem
        obtain ⟨c', hsome, hapi⟩ := h.typed call hcall
        have hi := of_decide_eq_true hclient
        rw [hi, hget, Option.some.injEq] at hsome
        rw [← hi, hsome, hapi]
      exact (List.map_id _).symm.trans (List.map_congr_left hsame)

theorem calls_perm (hp : Serves storage.process world initial p)
    (hq : Serves storage.process world initial q)
    (hclients : q.clients = p.clients) : q.calls.Perm p.calls := by
  apply @perm_of_parties _ _ _ Call.client
  intro i
  rw [filter_calls hp, filter_calls hq, hclients]

end Runs

/-- Take two runs of the program, with the handlers in whatever orders, in which the same commands
have been read and all readers of connections have come to rest.  The connections have been the
same, and the same calls made, in the same order for each connection.  If no response holds a
delete notice, the screen names of the users in them tell their ids, and the dates of their tweets
can be written, the ids of the stored tweets are the same: those that the responses contribute, each
up to the first entity that fails. -/
theorem any_schedule (world : World) (readTime : Bytes → Time) (dateText : Time → Option Bytes)
    (around : Nat → Nat → Surroundings Time) (accessToken tokenSecret : Bytes)
    (segments : List Bytes) (events others : List Event) {start p q : Program (Stores Time)}
    (hmain : main world accessToken tokenSecret ⟨.empty, []⟩ segments = some start)
    (hp : run (step world (stores readTime dateText around)) events start = some p)
    (hq : run (step world (stores readTime dateText around)) others start = some q)
    (hcommands : q.piped.console.outputs = p.piped.console.outputs)
    (hprest : ∀ c ∈ p.clients, clientStep world.width c.session = none)
    (hqrest : ∀ c ∈ q.clients, clientStep world.width c.session = none) :
    q.clients = p.clients ∧ q.calls.Perm p.calls ∧
      (∀ i, (q.calls.filter fun call => call.client = i) =
        p.calls.filter fun call => call.client = i) ∧
      ∀ names : Bytes → UInt64,
        (∀ call ∈ p.calls, ∀ t ∈ entitiesOf call.api call.data,
          Fine readTime dateText names t ∧ noticeId t = none) →
        storedIds p.record.state =
            contributedIds (p.calls.flatMap fun call => processed (call.api, call.data)) ∧
          storedIds q.record.state = storedIds p.record.state := by
  have hboth : ∀ {events : List Event} {p : Program (Stores Time)},
      run (step world (stores readTime dateText around)) events start = some p →
      Serves (stores readTime dateText around).process world ⟨.empty, []⟩ p ∧
        Sends world (stores readTime dateText around) ⟨.empty, []⟩
          (requester accessToken tokenSecret) p := fun hrun =>
    ⟨run_invariant (fun _ _ _ h hstep => h.step hstep) hrun (serves_main hmain),
      sends_run hmain hrun⟩
  obtain ⟨hpserves, hpsends⟩ := hboth hp
  obtain ⟨hqserves, hqsends⟩ := hboth hq
  have hclients :=
    clients_eq hpserves hqserves hpsends hqsends hcommands hprest hqrest
  have hcalls := calls_perm hpserves hqserves hclients
  refine ⟨hclients, hcalls, fun i => ?_, fun names hfine => ?_⟩
  · rw [filter_calls hpserves, filter_calls hqserves, hclients]
  have hstored : ∀ {p : Program (Stores Time)},
      Serves (stores readTime dateText around).process world ⟨.empty, []⟩ p →
      (∀ call ∈ p.calls, ∀ t ∈ entitiesOf call.api call.data,
        Fine readTime dateText names t ∧ noticeId t = none) →
      storedIds p.record.state =
        contributedIds (p.calls.flatMap fun call => processed (call.api, call.data)) := by
    intro p hserves hfine
    have hrecorded : p.record = runHandlers (processStored readTime dateText around)
        (p.calls.map fun call => (call.api, call.data)) ⟨.empty, []⟩ := hserves.recorded
    rw [hrecorded, storedIds_runHandlers, List.flatMap_map]
    intro call hmem
    obtain ⟨made, hmade, rfl⟩ := List.mem_map.mp hmem
    exact hfine made hmade
  have hpstored := hstored hpserves hfine
  refine ⟨hpstored, ?_⟩
  rw [hstored hqserves fun call hmem => hfine call (hcalls.mem_iff.mp hmem), hpstored]
  exact contributedIds_perm (hcalls.flatMap_right _)

/-- The run of `crossing`, up to its rest. -/
def crossed : List Event := crossing ++ [.client 1]

/-- The same, with the message before the timeline. -/
def inLine : List Event :=
  [.client 0, .client 0, .client 0, .client 0, .piped (.terminal (.key (.text "get".toList))),
    .piped (.terminal (.key .cr)), .piped (.command 9), .piped (.command 9),
    .client 1, .client 1, .client 1, .client 1, .client 1]

/-- What is asked of a run in `any_schedule`, by a program that ends it. -/
def quiet (world : World) (names : Bytes → UInt64) (p : Program (Stores Unit)) : Bool :=
  p.piped.console.outputs = [⟨ascii "get", []⟩] ∧
    (∀ c ∈ p.clients, clientStep world.width c.session = none) ∧
    ∀ call ∈ p.calls, ∀ t ∈ entitiesOf call.api call.data,
      Fine (fun _ => ()) newYearText names t ∧ noticeId t = none

theorem any_schedule_crossed : ∃ p q,
    (main talking (ascii "t") (ascii "s") ⟨.empty, []⟩ []).bind
        (run (step talking (stores (fun _ => ()) newYearText fun _ _ => default)) crossed) =
          some p ∧
      (main talking (ascii "t") (ascii "s") ⟨.empty, []⟩ []).bind
        (run (step talking (stores (fun _ => ()) newYearText fun _ _ => default)) inLine) =
          some q ∧
      q.clients = p.clients ∧ q.calls.Perm p.calls ∧
      (∀ i, (q.calls.filter fun call => call.client = i) =
        p.calls.filter fun call => call.client = i) ∧
      storedIds p.record.state =
        contributedIds (p.calls.flatMap fun call => processed (call.api, call.data)) ∧
      storedIds q.record.state = storedIds p.record.state := by
  have hends : ∀ events ∈ [crossed, inLine], ((main talking (ascii "t") (ascii "s")
      ⟨.empty, []⟩ []).bind (run (step talking (stores (fun _ => ()) newYearText
        fun _ _ => default)) events)).any (quiet talking fun _ => 7) = true := by
    decide +kernel
  obtain ⟨p, hp, hpquiet⟩ := (Option.any_eq_true _ _).mp (hends crossed (by simp))
  obtain ⟨q, hq, hqquiet⟩ := (Option.any_eq_true _ _).mp (hends inLine (by simp))
  obtain ⟨hpout, hprest, hfine⟩ := of_decide_eq_true hpquiet
  obtain ⟨hqout, hqrest, -⟩ := of_decide_eq_true hqquiet
  obtain ⟨start, hmain, hprun⟩ := Option.bind_eq_some_iff.mp hp
  obtain ⟨start', hmain', hqrun⟩ := Option.bind_eq_some_iff.mp hq
  obtain rfl := Option.some.inj (hmain.symm.trans hmain')
  obtain ⟨hclients, hcalls, horders, hstored⟩ := any_schedule talking _ _ _ (ascii "t")
    (ascii "s") [] crossed inLine hmain hprun hqrun (hqout.trans hpout.symm) hprest hqrest
  exact ⟨p, q, hp, hq, hclients, hcalls, horders, hstored _ hfine⟩

end BlackCircle.Twitter.Schedules
