import BlackCircle.Foundation.Numeral
import BlackCircle.Json.Value

/-!
# Users and tweets

The members that `twitter_user_object` and `tweet_object` take from a JSON
object.  A member of class type has a default; any other member that is not
found keeps what is in memory.  How a date is read is a parameter, and so is
the type of dates.
-/

namespace BlackCircle.Twitter

open BlackCircle.Foundation
open BlackCircle.Foundation.ByteString
open BlackCircle.Foundation.EntryList (find)
open BlackCircle.Foundation.Numeral
open BlackCircle.Json (Value)

/-- `json_object_map`. -/
abbrev Members : Type := List (Bytes × Value)

/-! ## Colours -/

/-- `isspace` in the classic locale. -/
def isSpace (b : Byte) : Bool := b == 32 || (9 ≤ b && b ≤ 13)

/-- The digits that `strtoul` takes in base sixteen; a prefix counts only in front of a digit. -/
def strtoulDigits (text : Bytes) : Bytes :=
  match text with
  | zero :: x :: digit :: _ =>
      if zero = byte '0' ∧ (x = byte 'x' ∨ x = byte 'X') ∧ isDigit 16 digit then
        (text.drop 2).takeWhile (isDigit 16)
      else text.takeWhile (isDigit 16)
  | _ => text.takeWhile (isDigit 16)

/-- `strtoul(s.c_str(), 0, 16)` for an `unsigned long` of 64 bits. -/
def strtoul16 (s : Bytes) : UInt64 :=
  let text := (s.takeWhile (· != 0)).dropWhile isSpace
  let minus := text.head? = some (byte '-')
  let digits := strtoulDigits (if minus ∨ text.head? = some (byte '+') then text.tail else text)
  if 2 ^ 64 ≤ value 16 digits then UInt64.ofNat (2 ^ 64 - 1)
  else if minus then -UInt64.ofNat (value 16 digits)
  else UInt64.ofNat (value 16 digits)

/-- `color_t`. -/
structure Color where
  value : UInt32
  deriving DecidableEq, Inhabited

def Color.ofString (s : Bytes) : Color := ⟨(strtoul16 s).toUInt32⟩

/-! ## Members of a JSON object -/

/-- What `set_if_found` assigns, or none when it returns `false`. -/
def setIfFound {α : Type} (repl : Value → Option α) (o : Members) (name : Bytes) : Option α :=
  match find name o with
  | none => none
  | some .null => none
  | some value => repl value

/-- A `string` member. -/
def asString : Value → Option Bytes
  | .string text => some text
  | _ => none

/-- An `int64_t` member. -/
def asInt64 : Value → Option Int64
  | .int n => some n
  | _ => none

/-- A `uint64_t` member; the number is converted. -/
def asUInt64 (value : Value) : Option UInt64 := (asInt64 value).map Int64.toUInt64

def asBool : Value → Option Bool
  | .bool b => some b
  | _ => none

def asColor (value : Value) : Option Color := (asString value).map Color.ofString

def asObject : Value → Option Members
  | .object members => some members
  | _ => none

/-! ## Users -/

section Dates

variable {Time : Type}

/-- `twitter_user_object`. -/
structure TwitterUserObject (Time : Type) where
  url : Bytes
  description : Bytes
  followersCount : UInt64
  timeZone : Bytes
  location : Bytes
  notifications : Bool
  friendsCount : UInt64
  profileSidebarBorderColor : Color
  profileImageUrl : Bytes
  statusesCount : UInt64
  profileLinkColor : Color
  profileBackgroundColor : Color
  lang : Bytes
  profileBackgroundImageUrl : Bytes
  favouritesCount : UInt64
  profileTextColor : Color
  screenName : Bytes
  contributorsEnabled : Bool
  geoEnabled : Bool
  profileBackgroundTile : Bool
  protected_ : Bool
  following : Bool
  createdAt : Time
  profileSidebarFillColor : Color
  name : Bytes
  verified : Bool
  id : UInt64
  utcOffset : Int64
  deriving Inhabited

/-- `tweet_object`; of the user it holds the id. -/
structure TweetObject (Time : Type) where
  userId : UInt64
  text : Bytes
  inReplyToStatusId : Option UInt64
  retweetedStatusId : Option UInt64
  id : UInt64
  truncated : Bool
  favorited : Bool
  createdAt : Time
  source : Bytes
  inReplyToUserId : Option UInt64
  deriving Inhabited

/-- What the construction of a tweet object depends on besides its JSON object: the memory
that its user and the tweet itself are placed in, and the time of the construction. -/
structure Surroundings (Time : Type) where
  user : TwitterUserObject Time
  tweet : TweetObject Time
  now : Time
  deriving Inhabited

def asDate (readTime : Bytes → Time) (value : Value) : Option Time := (asString value).map readTime

/-- The constructor from a JSON object, in the given surroundings. -/
def twitterUserObject (readTime : Bytes → Time) (here : Surroundings Time) (o : Members) :
    TwitterUserObject Time where
  url := (setIfFound asString o (ascii "url")).getD []
  description := (setIfFound asString o (ascii "description")).getD []
  followersCount := (setIfFound asUInt64 o (ascii "followers_count")).getD here.user.followersCount
  timeZone := (setIfFound asString o (ascii "time_zone")).getD []
  location := (setIfFound asString o (ascii "location")).getD []
  notifications := (setIfFound asBool o (ascii "notifications")).getD here.user.notifications
  friendsCount := (setIfFound asUInt64 o (ascii "friends_count")).getD here.user.friendsCount
  profileSidebarBorderColor :=
    (setIfFound asColor o (ascii "profile_sidebar_border_color")).getD ⟨0⟩
  profileImageUrl := (setIfFound asString o (ascii "profile_image_url")).getD []
  statusesCount := (setIfFound asUInt64 o (ascii "statuses_count")).getD here.user.statusesCount
  profileLinkColor := (setIfFound asColor o (ascii "profile_link_color")).getD ⟨0⟩
  profileBackgroundColor := (setIfFound asColor o (ascii "profile_background_color")).getD ⟨0⟩
  lang := (setIfFound asString o (ascii "lang")).getD []
  profileBackgroundImageUrl :=
    (setIfFound asString o (ascii "profile_background_image_url")).getD []
  favouritesCount :=
    (setIfFound asUInt64 o (ascii "favourites_count")).getD here.user.favouritesCount
  profileTextColor := (setIfFound asColor o (ascii "profile_text_color")).getD ⟨0⟩
  screenName := (setIfFound asString o (ascii "screen_name")).getD []
  contributorsEnabled :=
    (setIfFound asBool o (ascii "contributors_enabled")).getD here.user.contributorsEnabled
  geoEnabled := (setIfFound asBool o (ascii "geo_enabled")).getD here.user.geoEnabled
  profileBackgroundTile :=
    (setIfFound asBool o (ascii "profile_background_tile")).getD here.user.profileBackgroundTile
  protected_ := (setIfFound asBool o (ascii "protected")).getD here.user.protected_
  following := (setIfFound asBool o (ascii "following")).getD here.user.following
  createdAt := (setIfFound (asDate readTime) o (ascii "created_at")).getD here.now
  profileSidebarFillColor :=
    (setIfFound asColor o (ascii "profile_sidebar_fill_color")).getD ⟨0⟩
  name := (setIfFound asString o (ascii "name")).getD []
  verified := (setIfFound asBool o (ascii "verified")).getD here.user.verified
  id := (setIfFound asUInt64 o (ascii "id")).getD here.user.id
  utcOffset := (setIfFound asInt64 o (ascii "utc_offset")).getD here.user.utcOffset

/-- A user member. -/
def asUser (readTime : Bytes → Time) (here : Surroundings Time) (value : Value) :
    Option (TwitterUserObject Time) :=
  (asObject value).map (twitterUserObject readTime here)

/-- `std::replace` of carriage returns by line feeds. -/
def lineFeeds (text : Bytes) : Bytes := text.map fun b => if b = CR then LF else b

/-- The part of the constructor of a tweet behind its retweeted status: none where it throws. -/
def tweetMembers (readTime : Bytes → Time) (here : Surroundings Time) (o : Members)
    (user : Option (TwitterUserObject Time)) (retweeted : Option UInt64) :
    Option (TweetObject Time) := do
  let user ← user
  let text ← setIfFound asString o (ascii "text")
  let id ← setIfFound asUInt64 o (ascii "id")
  let createdAt ← setIfFound (asDate readTime) o (ascii "created_at")
  return {
    userId := user.id
    text := lineFeeds text
    inReplyToStatusId := setIfFound asUInt64 o (ascii "in_reply_to_status_id")
    retweetedStatusId := (setIfFound asUInt64 o (ascii "retweeted_status_id")).or retweeted
    id := id
    truncated := (setIfFound asBool o (ascii "truncated")).getD here.tweet.truncated
    favorited := (setIfFound asBool o (ascii "favorited")).getD here.tweet.favorited
    createdAt := createdAt
    source := (setIfFound asString o (ascii "source")).getD []
    inReplyToUserId := setIfFound asUInt64 o (ascii "in_reply_to_user_id") }

theorem tweetMembers_userId {readTime : Bytes → Time} {here : Surroundings Time} {o : Members}
    {user : Option (TwitterUserObject Time)} {retweeted : Option UInt64} {t : TweetObject Time}
    (h : tweetMembers readTime here o user retweeted = some t) :
    ∃ u, user = some u ∧ t.userId = u.id := by
  simp only [tweetMembers, Option.bind_eq_bind, Option.bind_eq_some_iff, Option.pure_def,
    Option.some.injEq] at h
  obtain ⟨u, hu, text, -, id, -, createdAt, -, rfl⟩ := h
  exact ⟨u, hu, rfl⟩

theorem tweetMembers_createdAt {readTime : Bytes → Time} {here : Surroundings Time} {o : Members}
    {user : Option (TwitterUserObject Time)} {retweeted : Option UInt64} {t : TweetObject Time}
    (h : tweetMembers readTime here o user retweeted = some t) :
    setIfFound (asDate readTime) o (ascii "created_at") = some t.createdAt := by
  simp only [tweetMembers, Option.bind_eq_bind, Option.bind_eq_some_iff, Option.pure_def,
    Option.some.injEq] at h
  obtain ⟨u, -, text, -, id, -, createdAt, hdate, rfl⟩ := h
  exact hdate

end Dates

end BlackCircle.Twitter
