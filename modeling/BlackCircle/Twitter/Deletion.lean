import BlackCircle.Twitter.Handler
import BlackCircle.Twitter.Levels

/-!
# Deleted tweets

The handlers of two connections run in any order, on one pair of stores.  A
delete notice removes the tweet that is stored, and nothing remembers that it
did: the tweet stays away up to the next message that contributes its id.
-/

namespace BlackCircle.Twitter.Deletion

open BlackCircle.Foundation
open BlackCircle.Foundation.ByteString
open BlackCircle.Foundation.EntryList (find)
open BlackCircle.Http.Response
open BlackCircle.Json (Value)
open BlackCircle.Twitter
open BlackCircle.Twitter.Handler
open BlackCircle.Twitter.Integrity
open BlackCircle.Twitter.Levels
open BlackCircle.Twitter.Processing

variable {Time : Type} {readTime : Bytes → Time} {dateText : Time → Option Bytes}

/-! ## One message -/

/-- The id in a message that is handled as a delete notice. -/
def noticeId (t : Value) : Option UInt64 :=
  match asObject t with
  | none => none
  | some o =>
      if (find (ascii "text") o).isSome then none
      else if (find (ascii "delete") o).isSome then deletedId o
      else none

theorem stored_erase {s : Stores Time} {x id : UInt64} :
    Stored ((StoreOp.eraseTweet id).apply s) x ↔ Stored s x ∧ x ≠ id := by
  constructor
  · rintro ⟨t, hmem, rfl⟩
    obtain ⟨hstored, hkept⟩ := Container.mem_keep.mp hmem
    exact ⟨⟨t, hstored, rfl⟩, bne_iff_ne.mp hkept⟩
  · rintro ⟨⟨t, hmem, rfl⟩, hne⟩
    exact ⟨t, Container.mem_keep.mpr ⟨hmem, bne_iff_ne.mpr hne⟩, rfl⟩

/-- The three kinds of entities: tweets, delete notices, and those that leave the stores alone. -/
theorem process_cases (readTime : Bytes → Time) (dateText : Time → Option Bytes) (t : Value) :
    (∃ o, tweetOf t = some o ∧ noticeId t = none) ∨
    (∃ id, noticeId t = some id ∧ tweetOf t = none ∧
      ∀ around s, exec (processSingleEntity readTime dateText around t) s =
        exec (deleteStored dateText id) s) ∨
    (tweetOf t = none ∧ noticeId t = none ∧ ∃ result,
      ∀ around s, exec (processSingleEntity readTime dateText around t) s = (result, s)) := by
  cases hobject : asObject t with
  | none =>
      right; right
      exact ⟨by rw [tweetOf, hobject]; rfl, by rw [noticeId, hobject], .error .badGet,
        fun around s => exec_process_none hobject s⟩
  | some o =>
      by_cases htext : (find (ascii "text") o).isSome = true
      · left
        refine ⟨o, tweetOf_eq_some.mpr ⟨hobject, htext⟩, ?_⟩
        simp only [noticeId, hobject, if_pos htext]
      · have htweet : tweetOf t = none := by
          rw [tweetOf, hobject, Option.filter_some, if_neg htext]
        right
        by_cases hdelete : (find (ascii "delete") o).isSome = true
        · cases hid : deletedId o with
          | none =>
              right
              refine ⟨htweet, by simp only [noticeId, hobject, if_neg htext, if_pos hdelete, hid],
                .error .badGet, ?_⟩
              intro around s
              rw [exec_process_delete hobject htext hdelete, hid]
          | some id =>
              left
              refine ⟨id, by simp only [noticeId, hobject, if_neg htext, if_pos hdelete, hid],
                htweet, ?_⟩
              intro around s
              rw [exec_process_delete hobject htext hdelete, hid]
        · right
          exact ⟨htweet, by simp only [noticeId, hobject, if_neg htext, if_neg hdelete],
            .ok (false, []), fun around s => exec_process_other hobject htext hdelete s⟩

section Messages

variable {message : Message Time} {s : Stores Time} {x : UInt64}

/-- A message stores no ids but those it contributes. -/
theorem stored_of_stored_handle (h : Stored (handle readTime dateText message s) x) :
    Stored s x ∨ x ∈ contributed (messageLevels message.entity) := by
  rcases process_cases readTime dateText message.entity with
    ⟨o, htweet, -⟩ | ⟨id, -, -, hdelete⟩ | ⟨-, -, result, hsame⟩
  · rwa [handle_tweet htweet, stored_insertAll, offered_ids, ← messageLevels_of_tweet htweet] at h
  · left
    rw [handle, hdelete] at h
    rcases deleteStored_stores dateText id s with hstores | ⟨failure, -, hstores⟩
    · rw [hstores] at h
      exact (stored_erase.mp h).1
    · rwa [hstores] at h
  · left
    rwa [handle, hsame] at h

/-- It does store these. -/
theorem stored_handle_contributed (h : x ∈ contributed (messageLevels message.entity))
    (s : Stores Time) : Stored (handle readTime dateText message s) x := by
  cases htweet : tweetOf message.entity with
  | none =>
      rw [messageLevels, htweet] at h
      cases h
  | some o =>
      rw [handle_tweet htweet, stored_insertAll, offered_ids, ← messageLevels_of_tweet htweet]
      exact Or.inr h

/-- And it keeps what is stored, unless it is a delete notice. -/
theorem stored_handle_of_stored (h : Stored s x) (hnotice : noticeId message.entity = none) :
    Stored (handle readTime dateText message s) x := by
  rcases process_cases readTime dateText message.entity with
    ⟨o, htweet, -⟩ | ⟨id, hid, -, -⟩ | ⟨-, -, result, hsame⟩
  · rw [handle_tweet htweet, stored_insertAll]
    exact Or.inl h
  · rw [hnotice] at hid
    cases hid
  · rwa [handle, hsame]

/-- Behind a delete notice that has been processed, its tweet is not stored. -/
theorem not_stored_handle_notice (hnotice : noticeId message.entity = some x)
    (hprocessed : ∃ result,
      (exec (processSingleEntity readTime dateText message.around message.entity) s).1 =
        .ok result) :
    ¬ Stored (handle readTime dateText message s) x := by
  obtain ⟨result, hprocessed⟩ := hprocessed
  rcases process_cases readTime dateText message.entity with
    ⟨o, -, hnone⟩ | ⟨id, hid, -, hdelete⟩ | ⟨-, hnone, -⟩
  · rw [hnotice] at hnone
    cases hnone
  · rw [hnotice] at hid
    cases hid
    rw [hdelete] at hprocessed
    rw [handle, hdelete]
    rcases deleteStored_stores dateText x s with hstores | ⟨failure, -, hstores⟩
    · rw [hstores, stored_erase]
      exact fun h => h.2 rfl
    · rw [hstores] at hprocessed
      cases hprocessed
  · rw [hnotice] at hnone
    cases hnone

end Messages

/-! ## Runs -/

/-- Handlers of any connections, in the order in which they run. -/
def runHandlers {σ ε α : Type} (process : Nat → Value → σ → Except ε α × σ)
    (calls : List (ApiType × HttpResponseData)) (r : Record σ) : Record σ :=
  calls.foldl (fun r call => httpHandler process call.1 call.2 r) r

section Runs

variable {around : Nat → Nat → Surroundings Time} {initial : Stores Time}

theorem recorded_runHandlers {r : Record (Stores Time)}
    (h : Recorded readTime dateText around initial r)
    (calls : List (ApiType × HttpResponseData)) :
    Recorded readTime dateText around initial
      (runHandlers (processStored readTime dateText around) calls r) := by
  induction calls generalizing r with
  | nil => exact h
  | cons call calls ih => exact ih (recorded_httpHandler h call.1 call.2)

/-- The stores behind the first `n` of the entities. -/
def storesAfter (readTime : Bytes → Time) (dateText : Time → Option Bytes)
    (around : Nat → Nat → Surroundings Time) (initial : Stores Time) (entities : List Value)
    (n : Nat) : Stores Time :=
  handleAll readTime dateText (history around (entities.take n)) initial

theorem storesAfter_succ {entities : List Value} {n : Nat} {t : Value}
    (h : entities[n]? = some t) :
    storesAfter readTime dateText around initial entities (n + 1) =
      handle readTime dateText ⟨around n, t⟩
        (storesAfter readTime dateText around initial entities n) := by
  obtain ⟨hlt, -⟩ := List.getElem?_eq_some_iff.mp h
  have hlength : (entities.take n).length = n := List.length_take_of_le (Nat.le_of_lt hlt)
  have htake : entities.take (n + 1) = entities.take n ++ [t] := by
    rw [List.take_add_one, h]
    rfl
  have hhistory : history around (entities.take n ++ [t]) =
      history around (entities.take n) ++ [⟨around n, t⟩] := by
    rw [history, List.mapIdx_concat, hlength]
    rfl
  rw [storesAfter, htake, hhistory, handleAll, List.foldl_append]
  rfl

/-- Once a delete notice has been processed, its tweet is away in all later states of a run just
when no later message contributes its id. -/
theorem away_iff {entities : List Value} {n : Nat} {notice : Value} {x : UInt64}
    (hentity : entities[n]? = some notice) (hnotice : noticeId notice = some x)
    (hprocessed : ∃ result, (exec (processSingleEntity readTime dateText (around n) notice)
      (storesAfter readTime dateText around initial entities n)).1 = .ok result) :
    (∀ later, n < later → later ≤ entities.length →
        ¬ Stored (storesAfter readTime dateText around initial entities later) x) ↔
      ∀ later t, n < later → entities[later]? = some t → x ∉ contributed (messageLevels t) := by
  constructor
  · intro haway later t hlt hlater hcontributed
    obtain ⟨hlength, -⟩ := List.getElem?_eq_some_iff.mp hlater
    refine haway (later + 1) (Nat.lt_succ_of_lt hlt) hlength ?_
    rw [storesAfter_succ hlater]
    exact stored_handle_contributed hcontributed _
  · intro hnone later hlt
    induction later, hlt using Nat.le_induction with
    | base =>
        intro _
        rw [storesAfter_succ hentity]
        exact not_stored_handle_notice hnotice hprocessed
    | succ later hlt ih =>
        intro hlength hstored
        obtain ⟨t, hlater⟩ : ∃ t, entities[later]? = some t :=
          ⟨entities[later], List.getElem?_eq_getElem hlength⟩
        rw [storesAfter_succ hlater] at hstored
        rcases stored_of_stored_handle hstored with hbefore | hcontributed
        · exact ih (Nat.le_of_succ_le hlength) hbefore
        · exact hnone later t hlt hlater hcontributed

/-- In every run of the handlers, on any connections and in any order: once a delete notice has
been processed, its tweet is away in all later states just when no entity that is handled later
contributes its id. -/
theorem away_runHandlers_iff (calls : List (ApiType × HttpResponseData))
    (run : Record (Stores Time))
    (hrun : run = runHandlers (processStored readTime dateText around) calls ⟨initial, []⟩) :
    run.state = storesAfter readTime dateText around initial run.entities run.entities.length ∧
      ∀ n notice x, run.entities[n]? = some notice → noticeId notice = some x →
        (∃ result, (exec (processSingleEntity readTime dateText (around n) notice)
          (storesAfter readTime dateText around initial run.entities n)).1 = .ok result) →
        ((∀ later, n < later → later ≤ run.entities.length →
            ¬ Stored (storesAfter readTime dateText around initial run.entities later) x) ↔
          ∀ later t, n < later → run.entities[later]? = some t →
            x ∉ contributed (messageLevels t)) := by
  constructor
  · have hstart : Recorded readTime dateText around initial ⟨initial, []⟩ := rfl
    have hrecorded : Recorded readTime dateText around initial run := by
      rw [hrun]
      exact recorded_runHandlers hstart calls
    rw [storesAfter, List.take_length]
    exact hrecorded
  · intro n notice x hentity hnotice hprocessed
    exact away_iff hentity hnotice hprocessed

end Runs

/-! ### A timeline behind a notice -/

/-- A response with status 200. -/
def received (text : Bytes) : HttpResponseData := ⟨(200, ascii "OK"), default, text⟩

/-- A tweet with an id of one digit, as a text. -/
def tweetText (id : Bytes) : Bytes :=
  ascii "\x7b\"created_at\":\"" ++ newYear ++ ascii "\",\"id\":" ++ id ++
    ascii ",\"text\":\"\",\"user\":\x7b\"id\":7\x7d\x7d"

/-- A delete notice for a tweet with an id of one digit. -/
def noticeText (id : Bytes) : Bytes :=
  ascii "\x7b\"delete\":\x7b\"status\":\x7b\"id\":" ++ id ++ ascii "\x7d\x7d\x7d"

/-- The user stream brings a tweet and its delete notice. -/
def streamed : List (ApiType × HttpResponseData) :=
  [(.userStream, received (tweetText (ascii "1"))),
    (.userStream, received (noticeText (ascii "1")))]

/-- The run in which nothing comes behind the notice. -/
theorem away_runHandlers_streamed :
    ¬ Stored (runHandlers (processStored (fun _ => ()) newYearText fun _ _ => default) streamed
      ⟨.empty, []⟩).state 1 := by
  generalize hrun : runHandlers (processStored (fun _ => ()) newYearText fun _ _ => default)
    streamed ⟨.empty, []⟩ = run
  have hlength : run.entities.length = 2 := by
    rw [← hrun]
    decide +kernel
  have hsecond : (run.entities[1]?.any fun notice => noticeId notice == some 1 &&
      (exec (processSingleEntity (fun _ => ()) newYearText default notice)
        (storesAfter (fun _ => ()) newYearText (fun _ _ => default) .empty
          run.entities 1)).1.toOption.isSome) =
      true := by
    rw [← hrun]
    decide +kernel
  obtain ⟨notice, hentity, hnotice⟩ := (Option.any_eq_true _ _).mp hsecond
  rw [Bool.and_eq_true, beq_iff_eq] at hnotice
  have hprocessed : ∃ result, (exec (processSingleEntity (fun _ => ()) newYearText default notice)
      (storesAfter (fun _ => ()) newYearText (fun _ _ => default) .empty run.entities 1)).1 =
        .ok result := by
    cases hresult : (exec (processSingleEntity (fun _ => ()) newYearText default notice)
        (storesAfter (fun _ => ()) newYearText (fun _ _ => default) .empty run.entities 1)).1 with
    | error failure =>
        rw [hresult] at hnotice
        cases hnotice.2
    | ok result => exact ⟨result, rfl⟩
  obtain ⟨hstate, haway⟩ := away_runHandlers_iff streamed run hrun.symm
  rw [hstate, hlength]
  refine (haway 1 notice 1 hentity hnotice.1 hprocessed).mpr ?_ 2 (by decide)
    (Nat.le_of_eq hlength.symm)
  intro later t hlt hlater
  obtain ⟨hbound, -⟩ := List.getElem?_eq_some_iff.mp hlater
  omega

/-- The timeline was asked for before the tweet was deleted, and comes last. -/
theorem stored_behind_notice :
    ¬ Stored (runHandlers (processStored (fun _ => ()) newYearText fun _ _ => default) streamed
        ⟨.empty, []⟩).state 1 ∧
      Stored (runHandlers (processStored (fun _ => ()) newYearText fun _ _ => default)
        (streamed ++ [(.friendsTimeline,
          received (ascii "[" ++ tweetText (ascii "1") ++ ascii "]"))])
        ⟨.empty, []⟩).state 1 := by
  decide +kernel

end BlackCircle.Twitter.Deletion
