import BlackCircle.Twitter.Processing
import Mathlib.Data.List.Sort

/-!
# The command `print`

It writes the stored tweets in the order of the date index, those of one user, or
the users in the order of the id index.  Each tweet is written with its user, who
is looked up in the store.  What was written before a tweet that throws stays
written.
-/

namespace BlackCircle.Twitter.Printing

open BlackCircle.Foundation.ByteString
open BlackCircle.Twitter
open BlackCircle.Twitter.Processing

section Command

variable {Time : Type}

/-- `operator <<` of a user. -/
def userText (user : TwitterUserObject Time) : Bytes := byte '@' :: user.screenName

/-- `operator <<` of a tweet, over what is printed of it. -/
def tweetText (printed : Printed Time) : Bytes :=
  printed.date ++ byte ' ' :: userText printed.user ++ ascii ": " ++ printed.tweet.text

/-- `by_user`. -/
def byUser (name : Bytes) (t : TweetObject Time) : StoreM Time Bool := do
  return (← userProxyGet t.userId).screenName == name

/-- The id index of the users. -/
def userIndex (s : Stores Time) : List (TwitterUserObject Time) :=
  s.userStore.elements.insertionSort fun u v => u.id ≤ v.id

def copyUsers (users : List (TwitterUserObject Time)) : Bytes :=
  users.flatMap fun user => userText user ++ [LF]

variable (dateText : Time → Option Bytes)

/-- A tweet that passes a filter, ended with a line feed. -/
def copyTweet (filter : TweetObject Time → StoreM Time Bool) (t : TweetObject Time) :
    StoreM Time Bytes := do
  if ← filter t then return tweetText (← printTweet dateText t) ++ [LF]
  else return []

/-- `boost::copy` of tweets through a filter: what has been written, and what has been thrown. -/
def copyTweets (filter : TweetObject Time → StoreM Time Bool) (s : Stores Time) :
    List (TweetObject Time) → Bytes × Option Failure
  | [] => ([], none)
  | t :: ts =>
      match (exec (copyTweet dateText filter t) s).1 with
      | .ok line =>
          let (lines, failure) := copyTweets filter s ts
          (line ++ lines, failure)
      | .error failure => ([], some failure)

/-- What `readline_handler` writes for `print`, and what it throws. -/
def print (s : Stores Time) (dateIndex : List (TweetObject Time)) (args : Bytes) :
    Bytes × Option Failure :=
  if args = [] then copyTweets dateText (fun _ => return true) s dateIndex
  else if args.head? = some (byte '@') then copyTweets dateText (byUser args.tail) s dateIndex
  else if args = ascii "users" then (copyUsers (userIndex s), none)
  else ([], none)

/-- Whether `print` returns: the order of the date index does not matter for that. -/
def printReturns (args : Bytes) (s : Stores Time) : Bool :=
  (print dateText s s.tweetStore.elements args).2.isNone

end Command

section Returns

variable {Time : Type} {dateText : Time → Option Bytes} {s : Stores Time}
  {dateIndex : List (TweetObject Time)}

/-- Every tweet is copied, or one throws. -/
theorem copyTweets_returns_iff {filter : TweetObject Time → StoreM Time Bool}
    {ts : List (TweetObject Time)} :
    (copyTweets dateText filter s ts).2 = none ↔
      ∀ t ∈ ts, ∃ line, (exec (copyTweet dateText filter t) s).1 = .ok line := by
  induction ts with
  | nil => simp [copyTweets]
  | cons t ts ih =>
      rw [copyTweets, List.forall_mem_cons]
      cases hline : (exec (copyTweet dateText filter t) s).1 with
      | error failure => simp
      | ok line => simp [ih]

theorem printReturns_iff (h : dateIndex.Perm s.tweetStore.elements) (args : Bytes) :
    printReturns dateText args s = true ↔ (print dateText s dateIndex args).2 = none := by
  rw [printReturns, Option.isNone_iff_eq_none]
  unfold print
  split_ifs
  · simp only [copyTweets_returns_iff, h.mem_iff]
  · simp only [copyTweets_returns_iff, h.mem_iff]
  · exact Iff.rfl
  · exact Iff.rfl

/-- With no tweets there is nothing to throw at. -/
theorem printReturns_empty (args : Bytes) :
    printReturns dateText args (Stores.empty : Stores Time) = true := by
  unfold printReturns print
  split_ifs <;> rfl

end Returns

end BlackCircle.Twitter.Printing
