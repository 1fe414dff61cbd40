import BlackCircle.Foundation.Container
import BlackCircle.Twitter.Objects

/-!
# The stores

`user_store`, `tweet_store` and what `process_single_entity` does with them.
Using the end iterator of a store is undefined in the source; here it fails with
`endDereferenced`.  A failure leaves the stores as they are at that moment.  How a
date is written is a parameter; there is no text where `to_string` throws.
-/

namespace BlackCircle.Twitter

open BlackCircle.Foundation
open BlackCircle.Foundation.ByteString
open BlackCircle.Foundation.EntryList (find)
open BlackCircle.Json (Value)

variable {Time : Type}

/-! ## Containers -/

/-- Users of the same id or the same screen name. -/
def SameUser (u v : TwitterUserObject Time) : Prop := u.id = v.id ∨ u.screenName = v.screenName

instance : DecidableRel (@SameUser Time) :=
  fun u v => inferInstanceAs (Decidable (u.id = v.id ∨ u.screenName = v.screenName))

/-- Tweets of the same id. -/
def SameTweet (t u : TweetObject Time) : Prop := t.id = u.id

instance : DecidableRel (@SameTweet Time) := fun t u => inferInstanceAs (Decidable (t.id = u.id))

/-- `stores`. -/
structure Stores (Time : Type) where
  userStore : Container (@SameUser Time)
  tweetStore : Container (@SameTweet Time)

def Stores.empty : Stores Time := ⟨.empty, .empty⟩

/-! ## Effects -/

/-- What leaves `process_single_entity` other than a return. -/
inductive Failure where
  | propertiesNotFound
  | badGet
  | outOfRange
  | endDereferenced
  deriving DecidableEq, Repr

abbrev StoreM (Time : Type) (α : Type) : Type := ExceptT Failure (StateM (Stores Time)) α

def insertUser (u : TwitterUserObject Time) : StoreM Time Unit :=
  modify fun s => { s with userStore := s.userStore.insert u }

def insertTweet (t : TweetObject Time) : StoreM Time Unit :=
  modify fun s => { s with tweetStore := s.tweetStore.insert t }

def eraseTweet (id : UInt64) : StoreM Time Unit :=
  modify fun s => { s with tweetStore := s.tweetStore.keep fun t => t.id != id }

/-- The element that an iterator points to; there is none at the end. -/
def dereference {α : Type} : Option α → StoreM Time α
  | some a => return a
  | none => throw .endDereferenced

/-- `user_proxy::get`. -/
def userProxyGet (id : UInt64) : StoreM Time (TwitterUserObject Time) := do
  dereference ((← get).userStore.elements.find? fun u => u.id = id)

def findTweet (id : UInt64) : StoreM Time (Option (TweetObject Time)) := do
  return (← get).tweetStore.elements.find? fun t => t.id = id

/-- What is printed of a tweet: the text of its date, the tweet, and its user. -/
structure Printed (Time : Type) where
  date : Bytes
  tweet : TweetObject Time
  user : TwitterUserObject Time

/-- `datetime_t::to_string`, which throws what `utc_to_local` throws. -/
def datetimeToString (dateText : Time → Option Bytes) (time : Time) : StoreM Time Bytes :=
  match dateText time with
  | some text => return text
  | none => throw .outOfRange

/-- `operator <<` of a tweet: its date first, then its user. -/
def printTweet (dateText : Time → Option Bytes) (t : TweetObject Time) :
    StoreM Time (Printed Time) := do
  let date ← datetimeToString dateText t.createdAt
  let user ← userProxyGet t.userId
  return ⟨date, t, user⟩

/-! ## Construction of tweets -/

section Construction

variable (readTime : Bytes → Time) (dateText : Time → Option Bytes)

/-- The part of the constructor that stores the author, if there is one. -/
def storeAuthor : Option (TwitterUserObject Time) → StoreM Time Unit
  | some user => insertUser user
  | none => pure ()

/-- The part of the constructor that makes and stores the retweeted status, if there is one. -/
def storeRetweeted : Option (StoreM Time (TweetObject Time)) → StoreM Time (Option UInt64)
  | some retweeted => do
      let retweetedStatus ← retweeted
      insertTweet retweetedStatus
      return some retweetedStatus.id
  | none => return none

/-- The end of the constructor, which throws if a property is missing. -/
def orThrow : Option (TweetObject Time) → StoreM Time (TweetObject Time)
  | some t => return t
  | none => throw .propertiesNotFound

/-- The constructor of a tweet, over the construction of its retweeted status, which is
absent if no such member is found. -/
def construct (here : Surroundings Time) (o : Members)
    (retweeted : Option (StoreM Time (TweetObject Time))) : StoreM Time (TweetObject Time) := do
  let user := setIfFound (asUser readTime here) o (ascii "user")
  storeAuthor user
  let retweetedStatusId ← storeRetweeted retweeted
  orThrow (tweetMembers readTime here o user retweetedStatusId)

mutual

/-- `set_if_found` of the retweeted status; the surroundings are listed from the outside in. -/
def retweetedStatus (around : Nat → Surroundings Time) :
    Members → Option (StoreM Time (TweetObject Time))
  | [] => none
  | member :: o =>
      if member.1 = ascii "retweeted_status" then retweetedMember around member
      else retweetedStatus around o

def retweetedMember (around : Nat → Surroundings Time) :
    Bytes × Value → Option (StoreM Time (TweetObject Time))
  | (_, value) => retweetedValue around value

def retweetedValue (around : Nat → Surroundings Time) :
    Value → Option (StoreM Time (TweetObject Time))
  | .array _ => none
  | .string _ => none
  | .int _ => none
  | .real _ => none
  | .object o =>
      some (construct readTime (around 0) o (retweetedStatus (fun n => around (n + 1)) o))
  | .bool _ => none
  | .null => none

end

/-- `tweet_object::tweet_object`. -/
def tweetObject (around : Nat → Surroundings Time) (o : Members) :
    StoreM Time (TweetObject Time) :=
  construct readTime (around 0) o (retweetedStatus readTime (fun n => around (n + 1)) o)

def insertNewTweet (around : Nat → Surroundings Time) (o : Members) : StoreM Time UInt64 := do
  let t ← tweetObject readTime around o
  insertTweet t
  return t.id

/-! ## Entities -/

/-- `boost::get<json_object_map>`. -/
def getMap (value : Option Value) : StoreM Time Members :=
  match value with
  | some (.object o) => return o
  | _ => throw .badGet

/-- `boost::get<int64_t>`. -/
def getInt64 (value : Option Value) : StoreM Time Int64 :=
  match value with
  | some (.int n) => return n
  | _ => throw .badGet

/-- Print the tweet that is stored under an id. -/
def printStored (id : UInt64) : StoreM Time (Bool × List (Printed Time)) := do
  let t ← dereference (← findTweet id)
  return (true, [← printTweet dateText t])

/-- Print the tweet that is stored under an id, if there is one, and erase it. -/
def deleteStored (id : UInt64) : StoreM Time (Bool × List (Printed Time)) := do
  match ← findTweet id with
  | some t =>
      let printed ← printTweet dateText t
      eraseTweet id
      return (true, [printed])
  | none =>
      eraseTweet id
      return (true, [])

/-- `process_single_entity`: whether the entity was one of the two kinds, and what was printed.
A member that is absent is read as an empty array, which is neither a map nor a number. -/
def processSingleEntity (around : Nat → Surroundings Time) (t : Value) :
    StoreM Time (Bool × List (Printed Time)) := do
  let o ← getMap (some t)
  if (find (ascii "text") o).isSome then
    let id ← insertNewTweet readTime around o
    printStored dateText id
  else if (find (ascii "delete") o).isSome then
    let deleted ← getMap (find (ascii "delete") o)
    let status ← getMap (find (ascii "status") deleted)
    let id ← getInt64 (find (ascii "id") status)
    deleteStored dateText id.toUInt64
  else return (false, [])

end Construction

end BlackCircle.Twitter
