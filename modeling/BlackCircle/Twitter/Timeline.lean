import BlackCircle.Twitter.Arrival
import BlackCircle.Twitter.Deletion

/-!
# Timelines

The elements of a timeline are processed from the last to the first, in one
loop, which the first call that does not return leaves.  What is stored behind
the loop is what the elements up to that one contribute.
-/

namespace BlackCircle.Twitter.Timeline

open BlackCircle.Foundation
open BlackCircle.Foundation.ByteString
open BlackCircle.Http.Response
open BlackCircle.Json (Value)
open BlackCircle.Json.Grammar
open BlackCircle.Twitter
open BlackCircle.Twitter.Arrival
open BlackCircle.Twitter.Deletion
open BlackCircle.Twitter.Handler
open BlackCircle.Twitter.Integrity
open BlackCircle.Twitter.Levels
open BlackCircle.Twitter.Processing

variable {Time : Type} {readTime : Bytes → Time} {dateText : Time → Option Bytes}

/-! ## Elements -/

/-- A tweet on which the call does not throw, on these stores. -/
def Accepts (readTime : Bytes → Time) (dateText : Time → Option Bytes) (s : Stores Time)
    (t : Value) : Prop :=
  IsTweet t ∧ ∀ around, ¬ Throws readTime dateText ⟨around, t⟩ s

/-- An element on which the call throws, on these stores. -/
def Rejects (readTime : Bytes → Time) (dateText : Time → Option Bytes) (s : Stores Time)
    (t : Value) : Prop :=
  ∀ around, Throws readTime dateText ⟨around, t⟩ s

/-- The id of the tweet that an element is. -/
def tweetId (t : Value) : Option UInt64 := (tweetOf t).bind ownId

/-- A tweet with all its properties; and the first tweet with its id, of those that are stored and
those that are offered up to it, has a date that can be written and an author who is stored before
or taken from the users that are offered up to it. -/
structure Prints (readTime : Bytes → Time) (dateText : Time → Option Bytes) (s : Stores Time)
    (past : List (Message Time)) (m : Message Time) : Prop where
  tweet : IsTweet m.entity
  complete : (messageLevels m.entity).all complete = true
  dated : ∀ id ∈ tweetId m.entity,
    Dated dateText (s.tweetStore.elements ++ offeredBy readTime (past ++ [m])) id
  signed : ∀ id ∈ tweetId m.entity,
    Signed { s with userStore := s.userStore.insertAll (authorsOf readTime (past ++ [m])) }
      (s.tweetStore.elements ++ offeredBy readTime (past ++ [m])) id

section Elements

variable {s : Stores Time} {past : List (Message Time)} {m : Message Time}

/-- A call on a tweet returns, behind tweets, just when it prints. -/
theorem returns_iff (hpast : ∀ m ∈ past, IsTweet m.entity) (htweet : IsTweet m.entity) :
    (∃ result, (exec (processSingleEntity readTime dateText m.around m.entity)
      (handleAll readTime dateText past s)).1 = .ok result) ↔
      Prints readTime dateText s past m := by
  obtain ⟨o, ho⟩ := htweet
  have hlevels := messageLevels_of_tweet ho
  cases hcomplete : (levels o).all complete with
  | false =>
      constructor
      · rintro ⟨result, hok⟩
        obtain ⟨failure, -, herror⟩ :=
          @throws_of_incomplete _ readTime dateText _ _ ho hcomplete
            (handleAll readTime dateText past s)
        have hclash := hok.symm.trans herror
        cases hclash
      · intro hprints
        have hall := hprints.complete
        rw [hlevels, hcomplete] at hall
        cases hall
  | true =>
      obtain ⟨id, hown⟩ := ownId_of_complete hcomplete
      have hid : tweetId m.entity = some id := by
        rw [tweetId, ho]
        exact hown
      obtain ⟨hstored, hrun⟩ := @exec_process_complete _ readTime dateText _ _ _ ho hcomplete hown
        (handleAll readTime dateText past s)
      have hnext : handle readTime dateText m (handleAll readTime dateText past s) =
          ⟨s.userStore.insertAll (authorsOf readTime (past ++ [m])),
            s.tweetStore.insertAll (offeredBy readTime (past ++ [m]))⟩ := by
        have htweets : ∀ m' ∈ past ++ [m], IsTweet m'.entity := by
          intro m' hmem
          rcases List.mem_append.mp hmem with hbefore | hlast
          · exact hpast m' hbefore
          · rw [List.mem_singleton.mp hlast]
            exact ⟨o, ho⟩
        rw [← handleAll_tweets htweets, handleAll, handleAll, List.foldl_append]
        rfl
      have hfind := find_insertAll s.tweetStore (offeredBy readTime (past ++ [m])) id
      have hprints : Prints readTime dateText s past m ↔
          Dated dateText (s.tweetStore.insertAll (offeredBy readTime (past ++ [m]))).elements id ∧
            Signed (handle readTime dateText m (handleAll readTime dateText past s))
              (s.tweetStore.insertAll (offeredBy readTime (past ++ [m]))).elements id := by
        rw [Dated, Signed, hfind, hnext]
        constructor
        · rintro ⟨-, -, hdated, hsigned⟩
          exact ⟨hdated id hid, hsigned id hid⟩
        · rintro ⟨hdated, hsigned⟩
          refine ⟨⟨o, ho⟩, hlevels ▸ hcomplete, ?_, ?_⟩
          · intro id' hid'
            rw [hid, Option.mem_some_iff] at hid'
            exact hid' ▸ hdated
          · intro id' hid'
            rw [hid, Option.mem_some_iff] at hid'
            exact hid' ▸ hsigned
      have helements : (handle readTime dateText m
          (handleAll readTime dateText past s)).tweetStore.elements =
            (s.tweetStore.insertAll (offeredBy readTime (past ++ [m]))).elements := by
        rw [hnext]
      rw [hprints, hrun, printStored_returns_iff hstored, helements]

/-- A delete notice throws only at a date. -/
theorem deleteStored_throws {id : UInt64} {failure : Failure} (hne : failure ≠ .endDereferenced)
    (h : (exec (deleteStored dateText id) s).1 = .error failure) :
    ∃ t, (s.tweetStore.elements.find? fun t => t.id = id) = some t ∧
      dateText t.createdAt = none := by
  rw [deleteStored, exec_bind_ok (exec_findTweet id s)] at h
  cases hfind : s.tweetStore.elements.find? fun t => t.id = id with
  | none =>
      rw [hfind] at h
      cases h
  | some t =>
      rw [hfind] at h
      refine ⟨t, rfl, ?_⟩
      cases hdate : dateText t.createdAt with
      | none => rfl
      | some date =>
          by_cases hauthor : Present s t.userId
          · obtain ⟨printed, hprint⟩ := exec_printTweet hdate hauthor
            simp only [exec_bind_ok hprint] at h
            cases h
          · simp only [exec_bind_error (exec_printTweet_end hdate hauthor)] at h
            exact absurd (Except.error.inj h).symm hne

/-- An element that is no tweet, and on which a call throws, does nothing behind tweets either. -/
theorem exec_rejected {t : Value} (hpast : ∀ m ∈ past, IsTweet m.entity) (htweet : ¬ IsTweet t)
    (h : Rejects readTime dateText s t) (around : Nat → Surroundings Time) :
    ∃ failure, exec (processSingleEntity readTime dateText around t)
      (handleAll readTime dateText past s) =
        (.error failure, handleAll readTime dateText past s) := by
  obtain ⟨failure, hne, herror⟩ := h around
  rcases process_cases readTime dateText t with
    ⟨o, ho, -⟩ | ⟨id, -, -, hdelete⟩ | ⟨-, -, result, hsame⟩
  · exact absurd ⟨o, ho⟩ htweet
  · rw [hdelete] at herror
    obtain ⟨found, hfind, hdate⟩ := deleteStored_throws hne herror
    have hstill : ((handleAll readTime dateText past s).tweetStore.elements.find?
        fun t => t.id = id) = some found := by
      rw [handleAll_tweets hpast, find_insertAll, List.find?_append, hfind]
      rfl
    refine ⟨.outOfRange, ?_⟩
    rw [hdelete, deleteStored, exec_bind_ok (exec_findTweet id _), hstill]
    exact exec_bind_error (exec_printTweet_outOfRange hdate)
  · rw [hsame] at herror
    have hresult : result = .error failure := herror
    rw [hsame, hresult]
    exact ⟨failure, rfl⟩

end Elements

/-! ## The loop -/

section Loop

/-- From the first to the last, the messages print. -/
def Passes (readTime : Bytes → Time) (dateText : Time → Option Bytes) (s : Stores Time) :
    List (Message Time) → List (Message Time) → Prop
  | _, [] => True
  | past, m :: ms =>
      Prints readTime dateText s past m ∧ Passes readTime dateText s (past ++ [m]) ms

/-- Entities as messages, from the `n`-th call on. -/
def messagesFrom (around : Nat → Nat → Surroundings Time) : Nat → List Value → List (Message Time)
  | _, [] => []
  | n, t :: ts => ⟨around n, t⟩ :: messagesFrom around (n + 1) ts

variable {around : Nat → Nat → Surroundings Time} {r : Record (Stores Time)} {s : Stores Time}
  {past : List (Message Time)} {x : UInt64}

/-- What one call leaves in the store. -/
theorem stored_processEntity_iff {t : Value} (hpast : ∀ m ∈ past, IsTweet m.entity)
    (hstate : r.state = handleAll readTime dateText past s)
    (h : IsTweet t ∨ Rejects readTime dateText s t) :
    Stored (processEntity (processStored readTime dateText around) t r).2.state x ↔
      Stored r.state x ∨ x ∈ contributed (messageLevels t) := by
  change Stored (handle readTime dateText ⟨around r.entities.length, t⟩ r.state) x ↔ _
  by_cases htweet : IsTweet t
  · obtain ⟨o, ho⟩ := htweet
    rw [handle_tweet ho, stored_insertAll, offered_ids, ← messageLevels_of_tweet ho]
  · obtain ⟨failure, hsame⟩ := exec_rejected hpast htweet (h.resolve_left htweet)
      (around r.entities.length)
    have hnone : messageLevels t = [] := by
      rw [messageLevels]
      cases ho : tweetOf t with
      | none => rfl
      | some o => exact absurd ⟨o, ho⟩ htweet
    rw [handle, hstate, hsame, hnone]
    simp [contributed]

/-- A call returns just when its element prints. -/
theorem prints_iff {t : Value} (hpast : ∀ m ∈ past, IsTweet m.entity)
    (hstate : r.state = handleAll readTime dateText past s)
    (h : IsTweet t ∨ Rejects readTime dateText s t) :
    (∃ result, (processEntity (processStored readTime dateText around) t r).1 = .ok result) ↔
      Prints readTime dateText s past ⟨around r.entities.length, t⟩ := by
  change (∃ result, (exec (processSingleEntity readTime dateText (around r.entities.length) t)
    r.state).1 = .ok result) ↔ _
  rw [hstate]
  by_cases htweet : IsTweet t
  · exact @returns_iff _ _ _ _ _ ⟨around r.entities.length, t⟩ hpast htweet
  · obtain ⟨failure, hsame⟩ := exec_rejected hpast htweet (h.resolve_left htweet)
      (around r.entities.length)
    rw [hsame]
    refine ⟨?_, fun hprints => absurd hprints.tweet htweet⟩
    rintro ⟨result, hok⟩
    cases hok

/-- The first element, or if that prints a later one, contributes the id. -/
theorem contributed_cons {t : Value} {ts : List Value} {n : Nat} :
    (∃ before other after, t :: ts = before ++ other :: after ∧
        Passes readTime dateText s past (messagesFrom around n before) ∧
        x ∈ contributed (messageLevels other)) ↔
      x ∈ contributed (messageLevels t) ∨
        Prints readTime dateText s past ⟨around n, t⟩ ∧
          ∃ before other after, ts = before ++ other :: after ∧
            Passes readTime dateText s (past ++ [⟨around n, t⟩])
              (messagesFrom around (n + 1) before) ∧
            x ∈ contributed (messageLevels other) := by
  constructor
  · rintro ⟨before, other, after, hsplit, hbefore, hcontributed⟩
    cases before with
    | nil =>
        cases hsplit
        exact Or.inl hcontributed
    | cons first before =>
        cases hsplit
        exact Or.inr ⟨hbefore.1, before, other, after, rfl, hbefore.2, hcontributed⟩
  · rintro (hcontributed | ⟨hprints, before, other, after, rfl, hbefore, hcontributed⟩)
    · exact ⟨[], t, ts, rfl, trivial, hcontributed⟩
    · exact ⟨t :: before, other, after, rfl, ⟨hprints, hbefore⟩, hcontributed⟩

/-- Behind the loop, the ids are those that are contributed by an element up to which all
elements print. -/
theorem stored_forEach_iff {ts : List Value} (hpast : ∀ m ∈ past, IsTweet m.entity)
    (hstate : r.state = handleAll readTime dateText past s)
    (h : ∀ t ∈ ts, IsTweet t ∨ Rejects readTime dateText s t) :
    Stored (forEach (processStored readTime dateText around) ts r).state x ↔
      Stored r.state x ∨ ∃ before t after, ts = before ++ t :: after ∧
        Passes readTime dateText s past (messagesFrom around r.entities.length before) ∧
        x ∈ contributed (messageLevels t) := by
  induction ts generalizing r past with
  | nil => simp [forEach]
  | cons t ts ih =>
      have hfirst := h t List.mem_cons_self
      have hprints := @prints_iff _ _ _ around r s past t hpast hstate hfirst
      have hstored := @stored_processEntity_iff _ _ _ around r s past x t hpast hstate hfirst
      rw [forEach, contributed_cons]
      cases hcall : processEntity (processStored readTime dateText around) t r with
      | mk result next =>
          rw [hcall] at hprints hstored
          rw [← or_assoc, ← hstored]
          cases result with
          | error failure =>
              have hstops : ¬ Prints readTime dateText s past ⟨around r.entities.length, t⟩ := by
                intro hprinted
                obtain ⟨result, hok⟩ := hprints.mpr hprinted
                cases hok
              simp only [hstops, false_and, or_false]
          | ok value =>
              have hprinted := hprints.mp ⟨value, rfl⟩
              have hnext : next = (processEntity (processStored readTime dateText around) t r).2 :=
                (congrArg Prod.snd hcall).symm
              have hbehind : next.state = handleAll readTime dateText
                  (past ++ [⟨around r.entities.length, t⟩]) s := by
                rw [handleAll, List.foldl_append, hnext]
                exact congrArg (handle readTime dateText ⟨around r.entities.length, t⟩) hstate
              have hlength : next.entities.length = r.entities.length + 1 := by
                rw [hnext, entities_processEntity, List.length_append, List.length_singleton]
              have htweets : ∀ m ∈ past ++ [(⟨around r.entities.length, t⟩ : Message Time)],
                  IsTweet m.entity := by
                intro m hmem
                rcases List.mem_append.mp hmem with hbefore | hlast
                · exact hpast m hbefore
                · rw [List.mem_singleton.mp hlast]
                  exact hprinted.tweet
              simp only [hprinted, true_and]
              rw [← hlength]
              exact ih htweets hbehind fun other hmem => h other (List.mem_cons_of_mem _ hmem)

/-- After a timeline of tweets that are accepted and elements that are rejected has been handled,
all its accepted tweets are stored just when each of them was stored before, or is contributed by
an element up to which, from the last element of the timeline on, all elements print. -/
theorem timeline_stored_iff {data : HttpResponseData} {elements : List Value}
    (hstatus : data.status.1 = 200) (hparse : parseJson data.data = .ok (.array elements))
    (helements : ∀ t ∈ elements,
      Accepts readTime dateText r.state t ∨ Rejects readTime dateText r.state t) :
    (∀ t ∈ elements, Accepts readTime dateText r.state t → ∀ id ∈ tweetId t,
        Stored (httpHandler (processStored readTime dateText around) .friendsTimeline data
          r).state id) ↔
      ∀ t ∈ elements, Accepts readTime dateText r.state t → ∀ id ∈ tweetId t,
        Stored r.state id ∨
          ∃ before other after, elements.reverse = before ++ other :: after ∧
            Passes readTime dateText r.state [] (messagesFrom around r.entities.length before) ∧
            id ∈ contributed (messageLevels other) := by
  have hloop : httpHandler (processStored readTime dateText around) .friendsTimeline data r =
      forEach (processStored readTime dateText around) elements.reverse r := by
    rw [httpHandler, if_neg (not_not.mpr hstatus), hparse]
  have hreversed : ∀ t ∈ elements.reverse, IsTweet t ∨ Rejects readTime dateText r.state t :=
    fun t hmem => (helements t (List.mem_reverse.mp hmem)).imp_left And.left
  have hnone : ∀ m ∈ ([] : List (Message Time)), IsTweet m.entity :=
    fun m hmem => absurd hmem List.not_mem_nil
  simp only [hloop, stored_forEach_iff hnone rfl hreversed]

end Loop

/-! ### A bad entry -/

/-- The elements of a timeline, as a text. -/
def elementsOf (s : Bytes) : List Value :=
  match parseJson s with
  | .ok (.array elements) => elements
  | _ => []

theorem parseJson_elementsOf {s : Bytes} (h : elementsOf s ≠ []) :
    parseJson s = .ok (.array (elementsOf s)) := by
  rw [elementsOf] at h ⊢
  split at h
  case h_1 elements hparse => rw [hparse]
  case h_2 => exact absurd rfl h

theorem rejects_other {t : Value} (h : asObject t = none) (s : Stores Time) :
    Rejects readTime dateText s t :=
  fun _ => ⟨.badGet, nofun, congrArg Prod.fst (exec_process_none h s)⟩

/-- Where all dates can be written, tweets with all their properties are accepted. -/
theorem accepts_complete {t : Value} {o : Members} (hdates : ∀ time, (dateText time).isSome = true)
    (htweet : tweetOf t = some o) (hcomplete : (levels o).all complete = true) (s : Stores Time) :
    Accepts readTime dateText s t := by
  refine ⟨⟨o, htweet⟩, fun around hthrows => ?_⟩
  rcases (@throws_tweet_iff _ readTime dateText ⟨around, t⟩ _ htweet s).mp hthrows with
    hincomplete | hdate
  · rw [hcomplete] at hincomplete
    cases hincomplete
  · obtain ⟨id, hown⟩ := ownId_of_complete hcomplete
    obtain ⟨hstored, -⟩ :=
      @exec_process_complete _ readTime dateText ⟨around, t⟩ _ _ htweet hcomplete hown s
    obtain ⟨first, hfind⟩ := hstored.find
    exact hdate id hown ⟨first, hfind, hdates _⟩

/-- A tweet with all its properties. -/
def whole (t : Value) : Bool := (tweetOf t).any fun o => (levels o).all complete

theorem accepts_whole {t : Value} (h : whole t = true) (s : Stores Unit) :
    Accepts (fun _ => ()) newYearText s t := by
  obtain ⟨o, ho, hcomplete⟩ := (Option.any_eq_true _ _).mp h
  exact accepts_complete (fun _ => rfl) ho hcomplete s

theorem accepts_or_rejects {elements : List Value}
    (h : (elements.all fun t => (asObject t).isNone || whole t) = true) (s : Stores Unit) :
    ∀ t ∈ elements,
      Accepts (fun _ => ()) newYearText s t ∨ Rejects (fun _ => ()) newYearText s t := by
  intro t hmem
  have ht := List.all_eq_true.mp h t hmem
  rw [Bool.or_eq_true] at ht
  rcases ht with hnone | hwhole
  · exact Or.inr (rejects_other (Option.isNone_iff_eq_none.mp hnone) s)
  · exact Or.inl (accepts_whole hwhole s)

/-- What the tests ask of the elements of a text: that there are two, that one is a number and
the other, the tweet of id `1`, has all its properties, and that this contributes the id. -/
def tweetBeside (number tweet : Option Value) : Bool :=
  number.any (fun t => (asObject t).isNone && (tweetOf t).isNone) &&
    tweet.any fun t => whole t && decide (tweetId t = some 1) &&
      decide (1 ∈ contributed (messageLevels t))

theorem timeline_stored_single :
    Stored (httpHandler (processStored (fun _ => ()) newYearText fun _ _ => default)
      .friendsTimeline (received (ascii "[1," ++ tweetText (ascii "1") ++ ascii "]"))
      ⟨.empty, []⟩).state 1 := by
  generalize htext : ascii "[1," ++ tweetText (ascii "1") ++ ascii "]" = text
  obtain ⟨first, tweet, helements⟩ : ∃ first tweet, elementsOf text = [first, tweet] :=
    List.length_eq_two.mp (by rw [← htext]; decide +kernel)
  have hbeside : tweetBeside (elementsOf text)[0]? (elementsOf text)[1]? = true := by
    rw [← htext]
    decide +kernel
  have hparse := @parseJson_elementsOf text (by rw [helements]; exact List.cons_ne_nil _ _)
  rw [helements] at hbeside hparse
  obtain ⟨⟨hother, hnone⟩, ⟨hwhole, hid⟩, hcontributed⟩ :
      ((asObject first).isNone = true ∧ (tweetOf first).isNone = true) ∧
        (whole tweet = true ∧ tweetId tweet = some 1) ∧
          1 ∈ contributed (messageLevels tweet) := by
    simpa [tweetBeside] using hbeside
  have hsettled : ∀ t ∈ [first, tweet], Accepts (fun _ => ()) newYearText .empty t ∨
      Rejects (fun _ => ()) newYearText .empty t :=
    accepts_or_rejects (by simp [hother, hwhole]) .empty
  have hstatus : (received text).status.1 = 200 := rfl
  refine (timeline_stored_iff hstatus hparse hsettled).mpr ?_ tweet
    (List.mem_pair.mpr (Or.inr rfl)) (accepts_whole hwhole .empty) 1 hid
  intro t hmem haccepts id hid'
  right
  rcases List.mem_pair.mp hmem with rfl | rfl
  · obtain ⟨⟨o, ho⟩, -⟩ := haccepts
    rw [Option.isNone_iff_eq_none.mp hnone] at ho
    cases ho
  · rw [hid, Option.mem_some_iff] at hid'
    exact ⟨[], t, [first], rfl, trivial, hid' ▸ hcontributed⟩

/-- Not every accepted tweet of a timeline is stored: the element behind it throws first. -/
theorem not_timeline_stored :
    ¬ ∀ (data : HttpResponseData) (elements : List Value) (s : Stores Unit),
      data.status.1 = 200 → parseJson data.data = .ok (.array elements) →
      (∀ t ∈ elements, Accepts (fun _ => ()) newYearText s t ∨
        Rejects (fun _ => ()) newYearText s t) →
      ∀ t ∈ elements, Accepts (fun _ => ()) newYearText s t → ∀ id ∈ tweetId t,
        Stored (httpHandler (processStored (fun _ => ()) newYearText fun _ _ => default)
          .friendsTimeline data ⟨s, []⟩).state id := by
  intro h
  generalize htext : ascii "[" ++ tweetText (ascii "1") ++ ascii ",1]" = text
  obtain ⟨tweet, last, helements⟩ : ∃ tweet last, elementsOf text = [tweet, last] :=
    List.length_eq_two.mp (by rw [← htext]; decide +kernel)
  have hbeside : tweetBeside (elementsOf text)[1]? (elementsOf text)[0]? = true := by
    rw [← htext]
    decide +kernel
  have hparse := @parseJson_elementsOf text (by rw [helements]; exact List.cons_ne_nil _ _)
  rw [helements] at hbeside hparse
  obtain ⟨⟨hother, -⟩, ⟨hwhole, hid⟩, -⟩ :
      ((asObject last).isNone = true ∧ (tweetOf last).isNone = true) ∧
        (whole tweet = true ∧ tweetId tweet = some 1) ∧
          1 ∈ contributed (messageLevels tweet) := by
    simpa [tweetBeside] using hbeside
  have hstored := h (received text) _ .empty rfl hparse
    (accepts_or_rejects (by simp [hother, hwhole]) .empty) tweet
    (List.mem_pair.mpr (Or.inl rfl)) (accepts_whole hwhole .empty) 1 hid
  have hlost : ¬ Stored (httpHandler (processStored (fun _ => ()) newYearText fun _ _ => default)
      .friendsTimeline (received text) ⟨.empty, []⟩).state 1 := by
    rw [← htext]
    decide +kernel
  exact hlost hstored

end BlackCircle.Twitter.Timeline
