import BlackCircle.Twitter.DateIndex
import BlackCircle.Twitter.Schedules

/-!
# The listing

What `print` writes in a run of the program.  The date index is that of a
multi-index container, whose tree may be balanced in any way; the users are those
that the messages so far have brought.  A tweet whose date cannot be written ends
the listing.
-/

namespace BlackCircle.Twitter.Listing

open BlackCircle.Foundation
open BlackCircle.Foundation.ByteString
open BlackCircle.Foundation.EventRun (run run_invariant)
open BlackCircle.Foundation.SearchTree
open BlackCircle.Http.Response
open BlackCircle.Json (Value)
open BlackCircle.Twitter
open BlackCircle.Twitter.DateIndex
open BlackCircle.Twitter.Deletion (noticeId process_cases recorded_runHandlers runHandlers)
open BlackCircle.Twitter.Handler
open BlackCircle.Twitter.Integrity
open BlackCircle.Twitter.Levels
open BlackCircle.Twitter.Printing
open BlackCircle.Twitter.Processing
open BlackCircle.Twitter.Schedules
open BlackCircle.Twitter.Service

/-! ## What is written -/

/-- A tweet and its user. -/
abbrev Listed (Time : Type) : Type := TweetObject Time × TwitterUserObject Time

section Written

variable {Time : Type} {dateText : Time → Option Bytes} {s : Stores Time}

/-- The user is the one that is found for the tweet. -/
def Finds (s : Stores Time) (listed : Listed Time) : Prop :=
  (s.userStore.elements.find? fun u => u.id = listed.1.userId) = some listed.2

/-- The line of a tweet, if its date can be written. -/
def line (dateText : Time → Option Bytes) (listed : Listed Time) : Option Bytes :=
  (dateText listed.1.createdAt).map fun date => tweetText ⟨date, listed.1, listed.2⟩ ++ [LF]

/-- Tweets with their users, each in a line, up to the first whose date cannot be written, and what
is thrown there. -/
def lines (dateText : Time → Option Bytes) (tweets : List (Listed Time)) :
    Bytes × Option Failure :=
  ((tweets.map (line dateText)).takeWhile Option.isSome |>.flatMap fun text => text.getD [],
    if tweets.all fun listed => (line dateText listed).isSome then none else some .outOfRange)

/-- What is written of tweets with their users, for these arguments, and what is thrown. -/
def written (dateText : Time → Option Bytes) (s : Stores Time) (tweets : List (Listed Time))
    (args : Bytes) : Bytes × Option Failure :=
  if args = [] then lines dateText tweets
  else if args.head? = some (byte '@') then
    lines dateText (tweets.filter fun listed => listed.2.screenName == args.tail)
  else if args = ascii "users" then (copyUsers (userIndex s), none)
  else ([], none)

theorem exec_userProxyGet_finds {listed : Listed Time} (h : Finds s listed) :
    exec (userProxyGet listed.1.userId) s = (.ok listed.2, s) := by
  rw [exec_userProxyGet_eq, h, exec_dereference]

theorem exec_byUser {listed : Listed Time} (h : Finds s listed) (name : Bytes) :
    exec (byUser name listed.1) s = (.ok (listed.2.screenName == name), s) :=
  exec_bind_ok (exec_userProxyGet_finds h)

/-- A tweet that passes the filter is written in a line, or throws at its date. -/
theorem exec_copyTweet {filter : TweetObject Time → StoreM Time Bool} {listed : Listed Time}
    (h : Finds s listed) (hpasses : exec (filter listed.1) s = (.ok true, s)) :
    (exec (copyTweet dateText filter listed.1) s).1 =
      (line dateText listed).elim (.error .outOfRange) .ok := by
  rw [copyTweet, exec_bind_ok hpasses, if_pos rfl, line]
  cases hdate : dateText listed.1.createdAt with
  | none =>
      rw [exec_bind_error (exec_printTweet_outOfRange hdate), Option.map_none, Option.elim_none]
  | some date =>
      have hprint : exec (printTweet dateText listed.1) s =
          (.ok ⟨date, listed.1, listed.2⟩, s) := by
        rw [exec_printTweet_date hdate, exec_bind_ok (exec_userProxyGet_finds h)]
        rfl
      rw [exec_bind_ok hprint]
      rfl

theorem lines_cons_some {listed : Listed Time} {text : Bytes} (h : line dateText listed = some text)
    (tweets : List (Listed Time)) : lines dateText (listed :: tweets) =
      (text ++ (lines dateText tweets).1, (lines dateText tweets).2) := by
  rw [lines, lines, List.map_cons, List.all_cons, h, List.takeWhile_cons_of_pos rfl,
    List.flatMap_cons, Option.isSome_some, Bool.true_and, Option.getD_some]

theorem lines_cons_none {listed : Listed Time} (h : line dateText listed = none)
    (tweets : List (Listed Time)) :
    lines dateText (listed :: tweets) = ([], some .outOfRange) := by
  rw [lines, List.map_cons, List.all_cons, h, List.takeWhile_cons_of_neg Bool.false_ne_true,
    Option.isSome_none, Bool.false_and, if_neg Bool.false_ne_true]
  rfl

theorem copyTweets_eq {filter : TweetObject Time → StoreM Time Bool} {passes : Listed Time → Bool}
    {tweets : List (Listed Time)} (hfinds : ∀ listed ∈ tweets, Finds s listed)
    (hfilter : ∀ listed ∈ tweets, exec (filter listed.1) s = (.ok (passes listed), s)) :
    copyTweets dateText filter s (tweets.map Prod.fst) = lines dateText (tweets.filter passes) := by
  induction tweets with
  | nil => rfl
  | cons listed tweets ih =>
      obtain ⟨hfind, hfinds⟩ := List.forall_mem_cons.mp hfinds
      obtain ⟨hpasses, hfilter⟩ := List.forall_mem_cons.mp hfilter
      have hrest := ih hfinds hfilter
      rw [List.map_cons, copyTweets, hrest]
      cases hkeep : passes listed with
      | true =>
          rw [hkeep] at hpasses
          rw [exec_copyTweet hfind hpasses, List.filter_cons_of_pos hkeep]
          cases hline : line dateText listed with
          | none => rw [lines_cons_none hline, Option.elim_none]
          | some text => rw [lines_cons_some hline, Option.elim_some]
      | false =>
          rw [hkeep] at hpasses
          rw [copyTweet, exec_bind_ok hpasses, if_neg Bool.false_ne_true,
            List.filter_cons_of_neg (by simp [hkeep])]
          rfl

/-- Where the users of all tweets are found, nothing else is written. -/
theorem print_eq {tweets : List (Listed Time)} (h : ∀ listed ∈ tweets, Finds s listed)
    (args : Bytes) :
    print dateText s (tweets.map Prod.fst) args = written dateText s tweets args := by
  unfold print written
  split_ifs
  · have hall := @copyTweets_eq _ dateText s (fun _ => return true) (fun _ => true) tweets h
      fun _ _ => rfl
    rwa [List.filter_true] at hall
  · exact copyTweets_eq h fun listed hmem => exec_byUser (h listed hmem) args.tail
  · rfl
  · rfl

/-- Tweets whose authors are stored are found with their users. -/
theorem exists_listed {tweets : List (TweetObject Time)}
    (h : ∀ t ∈ tweets, Present s t.userId) :
    ∃ listed : List (Listed Time), listed.map Prod.fst = tweets ∧
      ∀ pair ∈ listed, Finds s pair := by
  induction tweets with
  | nil => exact ⟨[], rfl, by simp⟩
  | cons t tweets ih =>
      obtain ⟨⟨u, hmem, hid⟩, htweets⟩ := List.forall_mem_cons.mp h
      obtain ⟨listed, hmap, hfinds⟩ := ih htweets
      cases hfind : s.userStore.elements.find? fun u => u.id = t.userId with
      | none => exact absurd hid (by simpa using List.find?_eq_none.mp hfind u hmem)
      | some found =>
          exact ⟨(t, found) :: listed, by rw [List.map_cons, hmap],
            List.forall_mem_cons.mpr ⟨hfind, hfinds⟩⟩

theorem Finds.stored {listed : Listed Time} (h : Finds s listed) :
    listed.2 ∈ s.userStore.elements ∧ listed.2.id = listed.1.userId :=
  ⟨List.mem_of_find?_eq_some h, by simpa using List.find?_some h⟩

theorem perm_userIndex (s : Stores Time) : (userIndex s).Perm s.userStore.elements :=
  List.perm_insertionSort _ _

/-- The ids ascend. -/
theorem ascending_userIndex (s : Stores Time) : (userIndex s).Pairwise fun u v => u.id < v.id := by
  have htotal : Std.Total fun u v : TwitterUserObject Time => u.id ≤ v.id :=
    ⟨fun u v => UInt64.le_total u.id v.id⟩
  have htrans : IsTrans (TwitterUserObject Time) fun u v => u.id ≤ v.id :=
    ⟨fun _ _ _ => UInt64.le_trans⟩
  have hle : (userIndex s).Pairwise fun u v => u.id ≤ v.id := List.pairwise_insertionSort _ _
  have hapart : (userIndex s).Pairwise fun u v => ¬SameUser u v :=
    ((perm_userIndex s).pairwise_iff fun hnot hsame =>
      hnot (Or.imp Eq.symm Eq.symm hsame)).mpr s.userStore.apart
  exact (hle.and hapart).imp fun ⟨hle, hnot⟩ =>
    UInt64.lt_of_le_of_ne hle fun hsame => hnot (Or.inl hsame)

end Written

/-! ## The order of the tweets -/

section Order

variable {τ : Type} [LinearOrder τ] {ops : List (StoreOp (Option τ))} {s s' : Indexed τ}

theorem nodup_tweetStore {Time : Type} (s : Stores Time) : s.tweetStore.elements.Nodup :=
  s.tweetStore.apart.imp fun hnot heq => hnot (congrArg TweetObject.id heq)

/-- As long as the dates are orderly, tweets of one date are in the order in which they have been
stored. -/
theorem stable_run (h : Run ops s) {dates : Set (Option τ)} (horderly : Orderly dates)
    (hdates : insertedDates ops ⊆ dates) :
    Stable TweetObject.createdAt before s.stores.tweetStore.elements s.dateIndex := by
  induction h with
  | start => exact List.Pairwise.nil
  | @step ops op s s' run h ih =>
      have hold : insertedDates ops ⊆ dates := by
        rintro date ⟨t, hmem, rfl⟩
        exact hdates ⟨t, List.mem_append_left _ hmem, rfl⟩
      have hstable := ih hold
      cases h with
      | insertUser => exact hstable
      | refuseTweet => exact hstable
      | insertTweet t hnew tree htree =>
          have hperm := run.reflects.2
          have hstored := run.dates
          rw [← htree] at hstable hperm hstored
          change Stable _ _ (s.stores.tweetStore.insert t).elements _
          rw [Container.elements_insert hnew]
          exact stable_insertLeaf ((strictWeakOn_iff dates).mpr horderly)
            (hdates ⟨t, List.mem_append_right _ List.mem_cons_self, rfl⟩)
            (fun u hmem => hold (hstored u hmem)) (fun u hmem => hperm.mem_iff.mp hmem) hstable
      | eraseTweet id => exact hstable.filter _

/-- The order does not depend on how the tree has been balanced. -/
theorem dateIndex_unique (h : Run ops s) (h' : Run ops s')
    (horderly : Orderly (insertedDates ops)) :
    s'.dateIndex = s.dateIndex := by
  obtain ⟨hstores, hperm⟩ := h.reflects
  obtain ⟨hstores', hperm'⟩ := h'.reflects
  have hstable := stable_run h horderly Set.Subset.rfl
  have hstable' := stable_run h' horderly Set.Subset.rfl
  rw [hstores'] at hperm' hstable'
  rw [hstores] at hperm hstable
  exact hstable'.unique hstable ((strictWeakOn_iff _).mpr horderly)
    (fun t hmem => h'.dates t hmem) (nodup_tweetStore _) (hperm'.trans hperm.symm)

theorem exists_step (s : Indexed τ) (op : StoreOp (Option τ)) : ∃ s', Step s op s' := by
  cases op with
  | insertUser u => exact ⟨_, .insertUser s u⟩
  | insertTweet t =>
      by_cases hrefused : s.stores.tweetStore.Refuses t
      · exact ⟨s, .refuseTweet s t hrefused⟩
      · have hleaning : ∀ tweets : List (TweetObject (Option τ)),
            ∃ tree, inorder tree = tweets := by
          intro tweets
          induction tweets with
          | nil => exact ⟨.nil, rfl⟩
          | cons t tweets ih =>
              obtain ⟨tree, htree⟩ := ih
              exact ⟨.node t .nil tree, by rw [inorder, htree]; rfl⟩
        obtain ⟨tree, htree⟩ := hleaning s.dateIndex
        exact ⟨_, .insertTweet s t hrefused tree htree⟩
  | eraseTweet id => exact ⟨_, .eraseTweet s id⟩

theorem exists_run (ops : List (StoreOp (Option τ))) : ∃ s, Run ops s := by
  induction ops using List.reverseRecOn with
  | nil => exact ⟨_, .start⟩
  | append_singleton ops op ih =>
      obtain ⟨s, run⟩ := ih
      obtain ⟨s', h⟩ := exists_step s op
      exact ⟨s', run.step h⟩

end Order

/-! ## Runs of the program -/

section Runs

variable {Time : Type} {readTime : Bytes → Time} {dateText : Time → Option Bytes}
  {around : Nat → Nat → Surroundings Time} {names : Bytes → UInt64}

/-- The tweet that is stored under an id has a date that cannot be written. -/
def unwritable (dateText : Time → Option Bytes) (s : Stores Time) (id : UInt64) : Bool :=
  (s.tweetStore.elements.find? fun t => t.id = id).any fun t => (dateText t.createdAt).isNone

/-- The operations that a message carries out.  A delete notice throws at a date that cannot be
written, before it erases. -/
def carriedOut (readTime : Bytes → Time) (dateText : Time → Option Bytes) (message : Message Time)
    (s : Stores Time) : List (StoreOp Time) :=
  match noticeId message.entity with
  | some id => if unwritable dateText s id then [] else [.eraseTweet id]
  | none =>
      (authors readTime message.around (messageLevels message.entity)).map StoreOp.insertUser ++
        (offered readTime message.around (messageLevels message.entity)).map StoreOp.insertTweet

/-- The operations that messages carry out, one after the other. -/
def operations (readTime : Bytes → Time) (dateText : Time → Option Bytes) :
    List (Message Time) → Stores Time → List (StoreOp Time)
  | [], _ => []
  | message :: messages, s =>
      carriedOut readTime dateText message s ++
        operations readTime dateText messages (handle readTime dateText message s)

/-- Where all authors are stored, a message carries out its operations. -/
theorem handle_eq {s : Stores Time} (h : AuthorsStored s) (message : Message Time) :
    handle readTime dateText message s =
      applyAll (carriedOut readTime dateText message s) s := by
  unfold carriedOut
  rcases process_cases readTime dateText message.entity with
    ⟨o, htweet, hnone⟩ | ⟨id, hid, -, hdelete⟩ | ⟨hnot, hnone, result, hsame⟩
  · rw [hnone, handle_tweet htweet, messageLevels_of_tweet htweet]
    simp only
    rw [applyAll_append, applyAll_users, applyAll_tweets]
  · rw [hid, handle, hdelete, deleteStored, exec_bind_ok (exec_findTweet id s)]
    have hunwritable : unwritable dateText s id =
        (s.tweetStore.elements.find? fun t => t.id = id).any
          fun t => (dateText t.createdAt).isNone := rfl
    cases hfind : s.tweetStore.elements.find? fun t => t.id = id with
    | none =>
        rw [hfind, Option.any_none] at hunwritable
        simp only [hunwritable]
        rfl
    | some t =>
        rw [hfind, Option.any_some] at hunwritable
        simp only [hunwritable]
        cases hdate : dateText t.createdAt with
        | none =>
            rw [exec_bind_error (exec_printTweet_outOfRange hdate)]
            rfl
        | some date =>
            obtain ⟨printed, hprint⟩ :=
              exec_printTweet hdate (h t (List.mem_of_find?_eq_some hfind))
            rw [exec_bind_ok hprint]
            rfl
  · rw [hnone, handle, hsame, messageLevels, hnot]
    rfl

theorem handleAll_known {messages : List (Message Time)} {s : Stores Time} (h : Keeps names s)
    (hknown : ∀ message ∈ messages, Known names message.entity) :
    handleAll readTime dateText messages s =
        applyAll (operations readTime dateText messages s) s ∧
      Keeps names (handleAll readTime dateText messages s) := by
  induction messages generalizing s with
  | nil => exact ⟨rfl, h⟩
  | cons message messages ih =>
      obtain ⟨hmessage, hmessages⟩ := List.forall_mem_cons.mp hknown
      obtain ⟨hstores, hkept⟩ := ih (@Keeps.handle _ readTime dateText _ _ _ h hmessage) hmessages
      refine ⟨?_, hkept⟩
      change handleAll readTime dateText messages (handle readTime dateText message s) = _
      rw [hstores, operations, applyAll_append, ← handle_eq h.authors message]

/-- The entities that have been processed are those of the calls. -/
theorem mem_forEach {σ ε α : Type} {process : Nat → Value → σ → Except ε α × σ} {ts : List Value}
    {r : Record σ} {t : Value} (h : t ∈ (forEach process ts r).entities) :
    t ∈ r.entities ∨ t ∈ ts := by
  induction ts generalizing r with
  | nil => exact Or.inl h
  | cons first ts ih =>
      have hentities := entities_processEntity process first r
      rw [forEach] at h
      have hnext : t ∈ (processEntity process first r).2.entities →
          t ∈ r.entities ∨ t ∈ first :: ts := by
        rw [hentities, List.mem_append, List.mem_singleton]
        exact Or.imp_right fun heq => heq ▸ List.mem_cons_self
      cases hcall : processEntity process first r with
      | mk result next =>
          rw [hcall] at h hnext
          cases result with
          | error failure => exact hnext h
          | ok value =>
              rcases ih h with hbefore | hlater
              · exact hnext hbefore
              · exact Or.inr (List.mem_cons_of_mem first hlater)

theorem mem_runHandlers {σ ε α : Type} {process : Nat → Value → σ → Except ε α × σ}
    {calls : List (ApiType × HttpResponseData)} {r : Record σ} {t : Value}
    (h : t ∈ (runHandlers process calls r).entities) :
    t ∈ r.entities ∨ ∃ call ∈ calls, t ∈ entitiesOf call.1 call.2 := by
  induction calls generalizing r with
  | nil => exact Or.inl h
  | cons call calls ih =>
      rcases ih h with hbefore | ⟨other, hmem, ht⟩
      · change t ∈ (Handler.httpHandler process call.1 call.2 r).entities at hbefore
        rw [httpHandler_eq] at hbefore
        exact (mem_forEach hbefore).imp_right fun ht => ⟨call, List.mem_cons_self, ht⟩
      · exact Or.inr ⟨other, List.mem_cons_of_mem call hmem, ht⟩

/-- The stores behind calls whose users are known. -/
theorem runHandlers_operations {calls : List (ApiType × HttpResponseData)}
    {r : Record (Stores Time)}
    (hr : r = runHandlers (processStored readTime dateText around) calls ⟨.empty, []⟩)
    (hknown : ∀ call ∈ calls, ∀ t ∈ entitiesOf call.1 call.2, Known names t) :
    r.state =
        applyAll (operations readTime dateText (history around r.entities) .empty) .empty ∧
      Keeps names r.state := by
  have hempty : Keeps names (Stores.empty : Stores Time) := ⟨nofun, nofun⟩
  have hinitial : Recorded readTime dateText around .empty ⟨.empty, []⟩ := rfl
  have hrecorded := recorded_runHandlers hinitial calls
  rw [← hr] at hrecorded
  have hall : ∀ t ∈ r.entities, Known names t := by
    intro t hmem
    rw [hr] at hmem
    rcases mem_runHandlers hmem with hnone | ⟨call, hcall, ht⟩
    · cases hnone
    · exact hknown call hcall t ht
  have hmessages : ∀ message ∈ history around r.entities, Known names message.entity := by
    intro message hmem
    obtain ⟨n, hn, rfl⟩ := List.mem_mapIdx.mp hmem
    exact hall _ (List.getElem_mem hn)
  obtain ⟨hstores, hkept⟩ :=
    @handleAll_known _ readTime dateText _ _ _ hempty hmessages
  rw [← hrecorded] at hstores hkept
  exact ⟨hstores, hkept⟩

end Runs

/-- At every point of every run in which the screen names of the users tell their ids, and however
the tree of the date index has been balanced: the command `print` never uses the end of a store.  It
writes each stored tweet once, or each of one user, with a stored user who has the id of its author,
up to the first whose date cannot be written, at which it throws; or the stored users in the order
of their ids.  If the dates are orderly, the tweets are in the order of their dates, those of one
date in the order in which they have been stored, and the balancing makes no difference. -/
theorem lists_stored {τ : Type} [LinearOrder τ] (world : World) (readTime : Bytes → Option τ)
    (dateText : Option τ → Option Bytes) (around : Nat → Nat → Surroundings (Option τ))
    (accessToken tokenSecret : Bytes) (segments : List Bytes) (events : List Event)
    {start p : Program (Stores (Option τ))}
    (hmain : main world accessToken tokenSecret ⟨.empty, []⟩ segments = some start)
    (hrun : run (step world (stores readTime dateText around)) events start = some p)
    (names : Bytes → UInt64)
    (hknown : ∀ call ∈ p.calls, ∀ t ∈ entitiesOf call.api call.data, Known names t)
    {ops : List (StoreOp (Option τ))}
    (hops : ops = operations readTime dateText (history around p.record.entities) .empty)
    (s : Indexed τ) (hindex : Run ops s) :
    (∃ tweets : List (Listed (Option τ)),
      (tweets.map Prod.fst).Perm p.record.state.tweetStore.elements ∧
      (∀ listed ∈ tweets, listed.2 ∈ p.record.state.userStore.elements ∧
        listed.2.id = listed.1.userId) ∧
      (∀ args, print dateText p.record.state s.dateIndex args =
          written dateText p.record.state tweets args ∧
        ((stores readTime dateText around).printReturns args p.record.state = true ↔
          (written dateText p.record.state tweets args).2 = none)) ∧
      (Orderly (insertedDates ops) →
        Stable TweetObject.createdAt before p.record.state.tweetStore.elements
          (tweets.map Prod.fst))) ∧
    (userIndex p.record.state).Perm p.record.state.userStore.elements ∧
    ((userIndex p.record.state).Pairwise fun u v => u.id < v.id) ∧
    (Orderly (insertedDates ops) → ∀ s', Run ops s' → s'.dateIndex = s.dateIndex) := by
  subst hops
  have hserves : Serves (stores readTime dateText around).process world ⟨.empty, []⟩ p :=
    run_invariant (fun _ _ _ h hstep => h.step hstep) hrun (serves_main hmain)
  have hcalls : ∀ call ∈ p.calls.map fun call => (call.api, call.data),
      ∀ t ∈ entitiesOf call.1 call.2, Known names t := by
    intro call hmem
    obtain ⟨made, hmade, rfl⟩ := List.mem_map.mp hmem
    exact hknown made hmade
  obtain ⟨hstores, hkept⟩ := runHandlers_operations hserves.recorded hcalls
  obtain ⟨hreflects, hperm⟩ := hindex.reflects
  have hsame : s.stores = p.record.state := hreflects.trans hstores.symm
  rw [hsame] at hperm
  refine ⟨?_, perm_userIndex _, ascending_userIndex _, fun horderly s' hindex' =>
    dateIndex_unique hindex hindex' horderly⟩
  obtain ⟨tweets, hlisted, hfinds⟩ := exists_listed fun t hmem =>
    hkept.authors t (hperm.mem_iff.mp hmem)
  refine ⟨tweets, ?_, fun listed hmem => (hfinds listed hmem).stored, fun args => ?_,
    fun horderly => ?_⟩
  · rwa [hlisted]
  · have hprint := @print_eq _ dateText _ _ hfinds args
    rw [hlisted] at hprint
    exact ⟨hprint, hprint ▸ printReturns_iff hperm args⟩
  · rw [hlisted, ← hsame]
    exact stable_run hindex horderly Set.Subset.rfl

/-- What is asked of a run in `lists_stored`, by a program that ends it with two tweets. -/
def twoStored (p : Program (Stores (Option Nat))) : Bool :=
  p.record.state.tweetStore.elements.map TweetObject.id = [1, 2] ∧
    ∀ call ∈ p.calls, ∀ t ∈ entitiesOf call.api call.data, Known (fun _ => 7) t

/-- All dates are one, the first day of a year. -/
def firstDay : Option Nat → Option Bytes
  | some _ => some (ascii "2011-01-01")
  | none => none

/-- A message and a timeline have been processed, with dates that are all the same. -/
theorem lists_stored_crossed : ∃ p ops s tweets,
    (main talking (ascii "t") (ascii "s") ⟨.empty, []⟩ []).bind
        (run (step talking (stores (fun _ => some 0) firstDay fun _ _ => default)) crossed) =
          some p ∧
      ops = operations (fun _ => some 0) firstDay (history (fun _ _ => default) p.record.entities)
        .empty ∧
      Run ops s ∧
      (tweets.map fun listed : Listed (Option Nat) => listed.1.id).Perm [1, 2] ∧
      (∀ listed ∈ tweets, listed.2 ∈ p.record.state.userStore.elements ∧
        listed.2.id = listed.1.userId) ∧
      print firstDay p.record.state s.dateIndex [] = lines firstDay tweets := by
  have hends : ((main talking (ascii "t") (ascii "s") ⟨.empty, []⟩ []).bind
      (run (step talking (stores (fun _ => some 0) firstDay fun _ _ => default))
        crossed)).any twoStored = true := by
    decide +kernel
  obtain ⟨p, hp, htwo⟩ := (Option.any_eq_true _ _).mp hends
  obtain ⟨hids, hknown⟩ := of_decide_eq_true htwo
  obtain ⟨start, hmain, hrun⟩ := Option.bind_eq_some_iff.mp hp
  generalize hops : operations (fun _ => some 0) firstDay
    (history (fun _ _ => default) p.record.entities) .empty = ops
  obtain ⟨s, hindex⟩ := exists_run ops
  obtain ⟨⟨tweets, hperm, husers, hprint, -⟩, -⟩ := lists_stored talking (fun _ => some 0) firstDay
    (fun _ _ => default) (ascii "t") (ascii "s") [] crossed hmain hrun (fun _ => 7) hknown hops.symm
    s hindex
  refine ⟨p, ops, s, tweets, hp, hops.symm, hindex, ?_, husers, (hprint []).1⟩
  rw [← hids]
  have hlisted := hperm.map TweetObject.id
  rwa [List.map_map] at hlisted

end BlackCircle.Twitter.Listing
