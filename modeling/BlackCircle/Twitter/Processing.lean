import BlackCircle.Twitter.Integrity

/-!
# Processing messages

Carrying out a message carries out the operations it asks for, and so a history
of messages keeps the authors of all stored tweets stored, as long as every user
object is welcome when it is inserted.
-/

namespace BlackCircle.Twitter.Processing

open BlackCircle.Foundation
open BlackCircle.Foundation.ByteString
open BlackCircle.Foundation.EntryList (find)
open BlackCircle.Json (Value)
open BlackCircle.Twitter
open BlackCircle.Twitter.Integrity

variable {Time : Type}

/-! ## Carrying out a plan -/

/-- How a computation ends, and the stores it leaves behind. -/
def exec {α : Type} (m : StoreM Time α) (s : Stores Time) : Except Failure α × Stores Time :=
  m.run.run s

section Exec

variable {α β : Type} {m : StoreM Time α} {s s' : Stores Time}

theorem exec_bind (m : StoreM Time α) (f : α → StoreM Time β) (s : Stores Time) :
    exec (m >>= f) s =
      match exec m s with
      | (.ok a, s') => exec (f a) s'
      | (.error failure, s') => (.error failure, s') := by
  unfold exec ExceptT.run StateT.run
  simp only [bind, ExceptT.bind, ExceptT.mk, StateT.bind, ExceptT.bindCont]
  cases m s with
  | mk result left => cases result <;> rfl

theorem exec_bind_ok {f : α → StoreM Time β} {a : α} (h : exec m s = (.ok a, s')) :
    exec (m >>= f) s = exec (f a) s' := by
  rw [exec_bind, h]

theorem exec_bind_error {f : α → StoreM Time β} {failure : Failure}
    (h : exec m s = (.error failure, s')) : exec (m >>= f) s = (.error failure, s') := by
  rw [exec_bind, h]

end Exec

/-- A computation that carries out a plan, whatever is stored. -/
def Runs {α : Type} (plan : Plan Time α) (m : StoreM Time α) : Prop :=
  ∀ s, exec m s = (plan.result, applyAll plan.ops s)

theorem applyAll_append (ops more : List (StoreOp Time)) (s : Stores Time) :
    applyAll (ops ++ more) s = applyAll more (applyAll ops s) :=
  List.foldl_append

/-- A retweeted status and its plan. -/
inductive RunsOption :
    Option (Plan Time (TweetObject Time)) → Option (StoreM Time (TweetObject Time)) → Prop where
  | none : RunsOption none none
  | some {plan : Plan Time (TweetObject Time)} {m : StoreM Time (TweetObject Time)}
      (h : Runs plan m) : RunsOption (some plan) (some m)

theorem exec_storeAuthor (user : Option (TwitterUserObject Time)) (s : Stores Time) :
    exec (storeAuthor user) s = (.ok (), applyAll (user.toList.map StoreOp.insertUser) s) := by
  cases user <;> rfl

theorem exec_orThrow (t : Option (TweetObject Time)) (s : Stores Time) :
    exec (orThrow t) s = (ended t, s) := by
  cases t <;> rfl

section Retweeted

variable {m : StoreM Time (TweetObject Time)} {s s' : Stores Time}

theorem exec_storeRetweeted_none : exec (storeRetweeted none) s = (.ok none, s) := rfl

theorem exec_storeRetweeted_ok {t : TweetObject Time} (h : exec m s = (.ok t, s')) :
    exec (storeRetweeted (some m)) s = (.ok (some t.id), (StoreOp.insertTweet t).apply s') := by
  rw [storeRetweeted, exec_bind_ok h]
  rfl

theorem exec_storeRetweeted_error {failure : Failure} (h : exec m s = (.error failure, s')) :
    exec (storeRetweeted (some m)) s = (.error failure, s') := by
  rw [storeRetweeted, exec_bind_error h]

end Retweeted

theorem runs_construct {readTime : Bytes → Time} {here : Surroundings Time} {o : Members}
    {plan : Option (Plan Time (TweetObject Time))}
    {retweeted : Option (StoreM Time (TweetObject Time))} (h : RunsOption plan retweeted) :
    Runs (planTweet readTime here o plan) (construct readTime here o retweeted) := by
  intro s
  unfold construct
  generalize huser : setIfFound (asUser readTime here) o (ascii "user") = user
  have hauthor := exec_storeAuthor user s
  simp only
  rw [exec_bind_ok hauthor]
  cases h with
  | none =>
      rw [exec_bind_ok exec_storeRetweeted_none, exec_orThrow, planTweet, huser]
  | @some plan m hruns =>
      obtain ⟨ops, result⟩ := plan
      have hm := hruns (applyAll (user.toList.map StoreOp.insertUser) s)
      cases result with
      | error failure =>
          rw [exec_bind_error (exec_storeRetweeted_error hm), planTweet, huser, applyAll_append]
      | ok t =>
          rw [exec_bind_ok (exec_storeRetweeted_ok hm), exec_orThrow, planTweet, huser,
            applyAll_append, applyAll_append]
          rfl

mutual

theorem runs_retweetedStatus (readTime : Bytes → Time) (around : Nat → Surroundings Time) :
    ∀ o : Members,
      RunsOption (planRetweeted readTime around o) (retweetedStatus readTime around o)
  | [] => .none
  | member :: o => by
      rw [planRetweeted, retweetedStatus]
      split_ifs
      · exact runs_retweetedMember readTime around member
      · exact runs_retweetedStatus readTime around o

theorem runs_retweetedMember (readTime : Bytes → Time) (around : Nat → Surroundings Time) :
    ∀ member : Bytes × Value,
      RunsOption (planMember readTime around member) (retweetedMember readTime around member)
  | (_, value) => runs_retweetedValue readTime around value

theorem runs_retweetedValue (readTime : Bytes → Time) (around : Nat → Surroundings Time) :
    ∀ value : Value,
      RunsOption (planValue readTime around value) (retweetedValue readTime around value)
  | .array _ => .none
  | .string _ => .none
  | .int _ => .none
  | .real _ => .none
  | .object o =>
      .some (runs_construct (runs_retweetedStatus readTime (fun n => around (n + 1)) o))
  | .bool _ => .none
  | .null => .none

end

/-! ## Reading the stores -/

theorem exec_findTweet (id : UInt64) (s : Stores Time) :
    exec (findTweet id) s = (.ok (s.tweetStore.elements.find? fun t => t.id = id), s) := rfl

theorem exec_dereference {α : Type} (a : α) (s : Stores Time) :
    exec (dereference (some a)) s = (.ok a, s) := rfl

theorem exec_dereference_end {α : Type} (s : Stores Time) :
    exec (dereference (none : Option α)) s = (.error .endDereferenced, s) := rfl

theorem exec_userProxyGet_eq (id : UInt64) (s : Stores Time) :
    exec (userProxyGet id) s =
      exec (dereference (s.userStore.elements.find? fun u => u.id = id)) s := rfl

/-- A user that is stored is found. -/
theorem exec_userProxyGet {s : Stores Time} {id : UInt64} (h : Present s id) :
    ∃ u, exec (userProxyGet id) s = (.ok u, s) := by
  obtain ⟨u, hmem, hid⟩ := h
  cases hfind : s.userStore.elements.find? fun u => u.id = id with
  | none => exact absurd hid (by simpa using List.find?_eq_none.mp hfind u hmem)
  | some found => exact ⟨found, by rw [exec_userProxyGet_eq, hfind, exec_dereference]⟩

section Print

variable {dateText : Time → Option Bytes} {s : Stores Time} {t : TweetObject Time}

theorem exec_printTweet_outOfRange (hdate : dateText t.createdAt = none) :
    exec (printTweet dateText t) s = (.error .outOfRange, s) := by
  have htext : exec (datetimeToString dateText t.createdAt) s = (.error .outOfRange, s) := by
    rw [datetimeToString, hdate]
    rfl
  exact exec_bind_error htext

theorem exec_printTweet_date {date : Bytes} (hdate : dateText t.createdAt = some date) :
    exec (printTweet dateText t) s =
      exec (userProxyGet t.userId >>= fun user => pure ⟨date, t, user⟩) s := by
  have htext : exec (datetimeToString dateText t.createdAt) s = (.ok date, s) := by
    rw [datetimeToString, hdate]
    rfl
  exact exec_bind_ok htext

theorem exec_printTweet {date : Bytes} (hdate : dateText t.createdAt = some date)
    (h : Present s t.userId) : ∃ printed, exec (printTweet dateText t) s = (.ok printed, s) := by
  obtain ⟨u, hget⟩ := exec_userProxyGet h
  rw [exec_printTweet_date hdate]
  exact ⟨⟨date, t, u⟩, exec_bind_ok hget⟩

theorem exec_printTweet_end {date : Bytes} (hdate : dateText t.createdAt = some date)
    (h : ¬ Present s t.userId) : exec (printTweet dateText t) s = (.error .endDereferenced, s) := by
  have hfind : (s.userStore.elements.find? fun u => u.id = t.userId) = none := by
    apply List.find?_eq_none.mpr
    intro u hmem huser
    exact h ⟨u, hmem, by simpa using huser⟩
  rw [exec_printTweet_date hdate]
  apply exec_bind_error
  rw [exec_userProxyGet_eq, hfind, exec_dereference_end]

/-- Printing leaves the stores as they are; it can fail at the date, or else at the user. -/
theorem exec_printTweet_cases (dateText : Time → Option Bytes) (s : Stores Time)
    (t : TweetObject Time) :
    (∃ printed, exec (printTweet dateText t) s = (.ok printed, s)) ∨
      ∃ failure ∈ [Failure.outOfRange, .endDereferenced],
        exec (printTweet dateText t) s = (.error failure, s) := by
  cases hdate : dateText t.createdAt with
  | none => exact Or.inr ⟨.outOfRange, by decide, exec_printTweet_outOfRange hdate⟩
  | some date =>
      by_cases hauthor : Present s t.userId
      · exact Or.inl (exec_printTweet hdate hauthor)
      · exact Or.inr ⟨.endDereferenced, by decide, exec_printTweet_end hdate hauthor⟩

end Print

/-- What `boost::get` returns, or that it throws. -/
def orBadGet {α : Type} : Option α → Except Failure α
  | some a => .ok a
  | none => .error .badGet

theorem exec_getMap (value : Option Value) (s : Stores Time) :
    exec (getMap value) s = (orBadGet (value.bind asObject), s) := by
  cases value with
  | none => rfl
  | some value => cases value <;> rfl

theorem exec_getInt64 (value : Option Value) (s : Stores Time) :
    exec (getInt64 value) s = (orBadGet (value.bind asInt64), s) := by
  cases value with
  | none => rfl
  | some value => cases value <;> rfl

/-! ## Processing an entity -/

section Entity

variable {readTime : Bytes → Time} {dateText : Time → Option Bytes}
  {around : Nat → Surroundings Time} {o : Members}

theorem exec_insertNewTweet (s : Stores Time) {plan : Plan Time (TweetObject Time)}
    (hplan : plan = planTweet readTime (around 0) o
      (planRetweeted readTime (fun n => around (n + 1)) o)) :
    exec (insertNewTweet readTime around o) s =
      (plan.result.map TweetObject.id,
        applyAll (plan.ops ++ plan.result.toOption.toList.map StoreOp.insertTweet) s) := by
  have hruns : Runs plan (tweetObject readTime around o) := by
    rw [hplan]
    exact runs_construct (runs_retweetedStatus readTime _ o)
  obtain ⟨ops, result⟩ := plan
  rw [insertNewTweet, applyAll_append]
  cases result with
  | error failure => exact exec_bind_error (hruns s)
  | ok t => exact exec_bind_ok (hruns s)

theorem printStored_stores (id : UInt64) (s : Stores Time) :
    (exec (printStored dateText id) s).2 = s := by
  rw [printStored, exec_bind_ok (exec_findTweet id s)]
  cases s.tweetStore.elements.find? fun t => t.id = id with
  | none => rw [exec_bind_error (exec_dereference_end s)]
  | some t =>
      rw [exec_bind_ok (exec_dereference t s)]
      rcases exec_printTweet_cases dateText s t with ⟨printed, hprint⟩ | ⟨failure, -, hprint⟩
      · rw [exec_bind_ok hprint]
        rfl
      · rw [exec_bind_error hprint]

/-- A tweet that cannot be printed is not erased. -/
theorem deleteStored_stores (dateText : Time → Option Bytes) (id : UInt64) (s : Stores Time) :
    (exec (deleteStored dateText id) s).2 = (StoreOp.eraseTweet id).apply s ∨
      ∃ failure ∈ [Failure.outOfRange, .endDereferenced],
        exec (deleteStored dateText id) s = (.error failure, s) := by
  rw [deleteStored, exec_bind_ok (exec_findTweet id s)]
  cases s.tweetStore.elements.find? fun t => t.id = id with
  | none => exact Or.inl rfl
  | some t =>
      rcases exec_printTweet_cases dateText s t with ⟨printed, hprint⟩ | ⟨failure, hmem, hprint⟩
      · left
        rw [exec_bind_ok hprint]
        rfl
      · exact Or.inr ⟨failure, hmem, exec_bind_error hprint⟩

/-- An entity without a JSON object is refused. -/
theorem exec_process_none {t : Value} (h : asObject t = none) (s : Stores Time) :
    exec (processSingleEntity readTime dateText around t) s = (.error .badGet, s) := by
  have hget := exec_getMap (some t) s
  rw [Option.bind_some, h] at hget
  exact exec_bind_error hget

theorem exec_process_text {t : Value} (h : asObject t = some o)
    (htext : (find (ascii "text") o).isSome = true) (s : Stores Time) :
    exec (processSingleEntity readTime dateText around t) s =
      exec (insertNewTweet readTime around o >>= printStored dateText) s := by
  have hget := exec_getMap (some t) s
  rw [Option.bind_some, h] at hget
  rw [processSingleEntity, exec_bind_ok hget, if_pos htext]

theorem exec_process_other {t : Value} (h : asObject t = some o)
    (htext : ¬ (find (ascii "text") o).isSome = true)
    (hdelete : ¬ (find (ascii "delete") o).isSome = true) (s : Stores Time) :
    exec (processSingleEntity readTime dateText around t) s = (.ok (false, []), s) := by
  have hget := exec_getMap (some t) s
  rw [Option.bind_some, h] at hget
  rw [processSingleEntity, exec_bind_ok hget, if_neg htext, if_neg hdelete]
  rfl

theorem exec_process_delete {t : Value} (h : asObject t = some o)
    (htext : ¬ (find (ascii "text") o).isSome = true)
    (hdelete : (find (ascii "delete") o).isSome = true) (s : Stores Time) :
    exec (processSingleEntity readTime dateText around t) s =
      match deletedId o with
      | some id => exec (deleteStored dateText id) s
      | none => (.error .badGet, s) := by
  have hget := exec_getMap (some t) s
  have hnotice := exec_getMap (find (ascii "delete") o) s
  rw [Option.bind_some, h] at hget
  rw [processSingleEntity, exec_bind_ok hget, if_neg htext, if_pos hdelete, deletedId]
  cases hdeleted : (find (ascii "delete") o).bind asObject with
  | none =>
      rw [hdeleted] at hnotice
      exact exec_bind_error hnotice
  | some notice =>
      have hstatus := exec_getMap (find (ascii "status") notice) s
      rw [hdeleted] at hnotice
      rw [exec_bind_ok hnotice, Option.bind_eq_bind, Option.bind_some]
      cases hat : (find (ascii "status") notice).bind asObject with
      | none =>
          rw [hat] at hstatus
          exact exec_bind_error hstatus
      | some status =>
          have hid := exec_getInt64 (find (ascii "id") status) s
          rw [hat] at hstatus
          rw [exec_bind_ok hstatus, Option.bind_eq_bind, Option.bind_some]
          cases hnumber : (find (ascii "id") status).bind asInt64 with
          | none =>
              rw [hnumber] at hid
              exact exec_bind_error hid
          | some id =>
              rw [hnumber] at hid
              exact exec_bind_ok hid

/-- Processing an entity carries out its operations, unless it runs into a tweet that cannot be
printed before it gets to erase it. -/
theorem process_stores (t : Value) (s : Stores Time) :
    (exec (processSingleEntity readTime dateText around t) s).2 =
      applyAll (requests readTime around t) s ∨
      ∃ failure ∈ [Failure.outOfRange, .endDereferenced],
        exec (processSingleEntity readTime dateText around t) s = (.error failure, s) := by
  unfold requests
  cases hobject : asObject t with
  | none =>
      left
      rw [exec_process_none hobject]
      rfl
  | some o =>
      by_cases htext : (find (ascii "text") o).isSome = true
      · left
        have hinsert := exec_insertNewTweet s (@rfl _ (planTweet readTime (around 0) o
          (planRetweeted readTime (fun n => around (n + 1)) o)))
        simp only [if_pos htext]
        generalize planTweet readTime (around 0) o
          (planRetweeted readTime (fun n => around (n + 1)) o) = plan at hinsert ⊢
        rw [exec_process_text hobject htext]
        obtain ⟨ops, result⟩ := plan
        cases result with
        | error failure => rw [exec_bind_error hinsert]
        | ok made => rw [exec_bind_ok hinsert, printStored_stores]
      · by_cases hdelete : (find (ascii "delete") o).isSome = true
        · rw [exec_process_delete hobject htext hdelete]
          simp only [if_neg htext, if_pos hdelete]
          cases deletedId o with
          | none => exact Or.inl rfl
          | some id => exact deleteStored_stores dateText id s
        · left
          rw [exec_process_other hobject htext hdelete]
          simp only [if_neg htext, if_neg hdelete]
          rfl

/-! ### The end iterator -/

theorem printStored_ne_end {s : Stores Time} {id : UInt64} (h : AuthorsStored s)
    (hid : ∃ t ∈ s.tweetStore.elements, t.id = id) :
    (exec (printStored dateText id) s).1 ≠ .error .endDereferenced := by
  obtain ⟨t, hmem, htid⟩ := hid
  rw [printStored, exec_bind_ok (exec_findTweet id s)]
  cases hfind : s.tweetStore.elements.find? fun t => t.id = id with
  | none => exact absurd htid (by simpa using List.find?_eq_none.mp hfind t hmem)
  | some found =>
      rw [exec_bind_ok (exec_dereference found s)]
      cases hdate : dateText found.createdAt with
      | none =>
          rw [exec_bind_error (exec_printTweet_outOfRange hdate)]
          nofun
      | some date =>
          obtain ⟨printed, hprint⟩ :=
            exec_printTweet hdate (h found (List.mem_of_find?_eq_some hfind))
          rw [exec_bind_ok hprint]
          nofun

theorem deleteStored_ne_end {s : Stores Time} (h : AuthorsStored s) (id : UInt64) :
    (exec (deleteStored dateText id) s).1 ≠ .error .endDereferenced := by
  rw [deleteStored, exec_bind_ok (exec_findTweet id s)]
  cases hfind : s.tweetStore.elements.find? fun t => t.id = id with
  | none => nofun
  | some found =>
      dsimp only
      cases hdate : dateText found.createdAt with
      | none =>
          rw [exec_bind_error (exec_printTweet_outOfRange hdate)]
          nofun
      | some date =>
          obtain ⟨printed, hprint⟩ :=
            exec_printTweet hdate (h found (List.mem_of_find?_eq_some hfind))
          rw [exec_bind_ok hprint]
          nofun

/-- Behind an insertion a tweet with the id of the new one is stored. -/
theorem exists_insertTweet (s : Stores Time) (made : TweetObject Time) :
    ∃ t ∈ ((StoreOp.insertTweet made).apply s).tweetStore.elements, t.id = made.id := by
  rcases Container.mem_insert_or_clash s.tweetStore made with hmem | ⟨other, hmem, hsame⟩
  · exact ⟨made, hmem, rfl⟩
  · exact ⟨other, Container.mem_insert_of_mem hmem, hsame⟩

/-- With the authors stored, processing a message whose users are welcome uses no end iterator. -/
theorem process_ne_endDereferenced {t : Value} {s : Stores Time} (h : AuthorsStored s)
    (hwelcome : AllWelcome s (requests readTime around t)) :
    (exec (processSingleEntity readTime dateText around t) s).1 ≠ .error .endDereferenced := by
  have hafter := authorsStored_applyAll (fun _ => False.elim)
    (authored_requests readTime around t) hwelcome h
  cases hobject : asObject t with
  | none =>
      rw [exec_process_none hobject]
      nofun
  | some o =>
      by_cases htext : (find (ascii "text") o).isSome = true
      · have hsound := @sound_planTweet _ readTime (around 0) o _
          (sound_planRetweeted readTime (fun n => around (n + 1)) o)
        have hinsert := exec_insertNewTweet s (@rfl _ (planTweet readTime (around 0) o
          (planRetweeted readTime (fun n => around (n + 1)) o)))
        simp only [requests, hobject, if_pos htext] at hafter
        generalize planTweet readTime (around 0) o
          (planRetweeted readTime (fun n => around (n + 1)) o) = plan at hsound hinsert hafter
        rw [exec_process_text hobject htext]
        obtain ⟨ops, result⟩ := plan
        cases result with
        | error failure =>
            rw [exec_bind_error hinsert, hsound.failed failure rfl]
            nofun
        | ok made =>
            rw [exec_bind_ok hinsert]
            have hid : ∃ t ∈ (applyAll (ops ++ [StoreOp.insertTweet made]) s).tweetStore.elements,
                t.id = made.id := by
              rw [applyAll_append]
              exact exists_insertTweet (applyAll ops s) made
            exact printStored_ne_end hafter hid
      · by_cases hdelete : (find (ascii "delete") o).isSome = true
        · rw [exec_process_delete hobject htext hdelete]
          cases deletedId o with
          | none => nofun
          | some id => exact deleteStored_ne_end h id
        · rw [exec_process_other hobject htext hdelete]
          nofun

end Entity

/-! ## Histories -/

/-- A message, and the surroundings in which its objects are constructed. -/
structure Message (Time : Type) where
  around : Nat → Surroundings Time
  entity : Value

section Histories

variable (readTime : Bytes → Time) (dateText : Time → Option Bytes)

/-- The stores behind one message. -/
def handle (message : Message Time) (s : Stores Time) : Stores Time :=
  (exec (processSingleEntity readTime dateText message.around message.entity) s).2

/-- The stores behind a sequence of messages. -/
def handleAll (messages : List (Message Time)) (s : Stores Time) : Stores Time :=
  messages.foldl (fun s message => handle readTime dateText message s) s

/-- Every user object in the messages is welcome when it is inserted. -/
def WelcomeHistory : Stores Time → List (Message Time) → Prop
  | _, [] => True
  | s, message :: messages =>
      AllWelcome s (requests readTime message.around message.entity) ∧
        WelcomeHistory (handle readTime dateText message s) messages

variable {readTime dateText}

theorem authorsStored_handle {message : Message Time} {s : Stores Time} (h : AuthorsStored s)
    (hwelcome : AllWelcome s (requests readTime message.around message.entity)) :
    AuthorsStored (handle readTime dateText message s) := by
  rcases @process_stores _ readTime dateText message.around message.entity s with
    hstores | ⟨failure, -, hstores⟩
  · rw [handle, hstores]
    exact authorsStored_applyAll (fun _ => False.elim) (authored_requests readTime _ _) hwelcome h
  · rw [handle, hstores]
    exact h

theorem authorsStored_handleAll {messages : List (Message Time)} {s : Stores Time}
    (h : AuthorsStored s) (hwelcome : WelcomeHistory readTime dateText s messages) :
    AuthorsStored (handleAll readTime dateText messages s) := by
  induction messages generalizing s with
  | nil => exact h
  | cons message messages ih => exact ih (authorsStored_handle h hwelcome.1) hwelcome.2

theorem WelcomeHistory.left {messages more : List (Message Time)} {s : Stores Time}
    (h : WelcomeHistory readTime dateText s (messages ++ more)) :
    WelcomeHistory readTime dateText s messages := by
  induction messages generalizing s with
  | nil => trivial
  | cons message messages ih => exact ⟨h.1, ih h.2⟩

theorem WelcomeHistory.right {messages more : List (Message Time)} {s : Stores Time}
    (h : WelcomeHistory readTime dateText s (messages ++ more)) :
    WelcomeHistory readTime dateText (handleAll readTime dateText messages s) more := by
  induction messages generalizing s with
  | nil => exact h
  | cons message messages ih => exact ih h.2

end Histories

/-- In a history of messages whose users are all welcome, the author of every stored tweet is
stored behind each message, and no message uses the end iterator of a store. -/
theorem authorsStored_history (readTime : Bytes → Time) (dateText : Time → Option Bytes)
    (messages : List (Message Time)) (h : WelcomeHistory readTime dateText .empty messages) :
    ∀ handled later, handled ++ later = messages →
      AuthorsStored (handleAll readTime dateText handled .empty) ∧
        ∀ message ∈ later.head?,
          (exec (processSingleEntity readTime dateText message.around message.entity)
            (handleAll readTime dateText handled .empty)).1 ≠ .error .endDereferenced := by
  rintro handled later rfl
  have hempty : AuthorsStored (Stores.empty : Stores Time) := by rintro t ⟨⟩
  have hstored := authorsStored_handleAll hempty h.left
  refine ⟨hstored, ?_⟩
  intro message hmem
  cases later with
  | nil => cases hmem
  | cons next later =>
      cases hmem
      exact process_ne_endDereferenced hstored h.right.1

/-- A date that the server sends, and what is printed for it; a test reads no other date. -/
def newYear : Bytes := ascii "Sat Jan 01 00:00:00 +0000 2011"

def newYearText : Unit → Option Bytes := fun _ => some (ascii "2011-01-01 00:00:00 ")

/-- A message with a tweet of a user. -/
def post (id user : Int64) (screenName : Bytes) : Message Unit where
  around := fun _ => default
  entity := .object [(ascii "created_at", .string newYear), (ascii "id", .int id),
    (ascii "text", .string []), (ascii "user", .object [(ascii "id", .int user),
      (ascii "screen_name", .string screenName)])]

/-- Two tweets of one user. -/
theorem authorsStored_history_twice :
    AuthorsStored (handleAll (fun _ => ()) newYearText
      [post 1 7 (ascii "x"), post 2 7 (ascii "y")] .empty) := by
  have hwelcome : WelcomeHistory (fun _ => ()) newYearText .empty
      [post 1 7 (ascii "x"), post 2 7 (ascii "y")] :=
    ⟨by decide +kernel, by decide +kernel, trivial⟩
  exact (authorsStored_history (fun _ => ()) newYearText _ hwelcome _ [] rfl).1

/-- Two users that have had the same screen name, one after the other. -/
theorem not_authorsStored_renamed :
    ¬ AuthorsStored (handleAll (fun _ => ()) newYearText
      [post 1 7 (ascii "x"), post 2 8 (ascii "x")] .empty) := by
  decide +kernel

end BlackCircle.Twitter.Processing
