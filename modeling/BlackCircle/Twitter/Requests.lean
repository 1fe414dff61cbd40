import BlackCircle.Http.Request
import BlackCircle.Oauth.TokenRequester

/-!
# Requests of `twitter_client`

All requests of a client are signed by its one token requester.  An operation
is a request, or a change of the requester's keys between two requests.
-/

namespace BlackCircle.Twitter.Requests

open BlackCircle.Foundation
open BlackCircle.Foundation.ByteString
open BlackCircle.Http.Request
open BlackCircle.Oauth
open BlackCircle.Oauth.Encode

/-- One request: what its signature covers, the client that has sent it, with the fields it had
then, and the text that was written. -/
structure Exchange where
  signing : Signing
  client : HttpClient
  text : Bytes

section Signed

variable (hmac : Bytes → Bytes → Bytes) (moment : Moment)

def makeUserstream (req : TokenRequester) : TokenRequester × Exchange :=
  let ust := HttpClient.make (ascii "userstream.twitter.com")
  let ust := { ust with
    path := ascii "/2/user.json"
    header := (ust.header.assign (ascii "User-Agent") (ascii "Grimoiretter/0.1")).assign
      (ascii "Accept") (ascii "*/*") }
  let (req, signing) := req.genRequestSignature hmac moment ust.getUri (ascii "GET")
  let ust := { ust with query := req.genGetquery }
  (req, ⟨signing, ust, ust.request⟩)

def requestFriendsTimeline (req : TokenRequester) : TokenRequester × Exchange :=
  let c := HttpClient.make (ascii "api.twitter.com")
  let c := { c with
    header := c.header.assign (ascii "Connection") (ascii "close")
    path := ascii "/1/statuses/friends_timeline.json" }
  let (req, signing) := req.genRequestSignature hmac moment c.getUri (ascii "GET")
  let c := { c with query := req.genGetquery }
  (req, ⟨signing, c, c.request⟩)

def statusesUpdate (status : Bytes) (req : TokenRequester) : TokenRequester × Exchange :=
  let c := HttpClient.make (ascii "api.twitter.com")
  let c := { c with
    header := c.header.assign (ascii "Connection") (ascii "close")
    path := ascii "/1/statuses/update.json" }
  let c := { c with query := c.getUri }
  let req := { req with params := req.params.assign (ascii "status") status }
  let (req, signing) := req.genRequestSignature hmac moment c.getUri (ascii "POST")
  let req := { req with params := req.params.erase (ascii "status") }
  let c := { c with query := [] }
  let c := { c with
    header := c.header.assign (ascii "Authorization") (ascii "OAuth " ++ req.genPostparam) }
  (req, ⟨signing, c, c.sendRequest (ascii "status=" ++ urlEscape status)⟩)

end Signed

/-- What happens to the requester of a client. -/
inductive Operation where
  | setConsumer (key secret : Bytes)
  | setToken (key secret : Bytes)
  | setPinNumber (pin : Bytes)
  | clearPinNumber
  | makeUserstream (moment : Moment)
  | requestFriendsTimeline (moment : Moment)
  | statusesUpdate (moment : Moment) (status : Bytes)

/-- The text of a status post. -/
def Operation.status : Operation → Option Bytes
  | .statusesUpdate _ status => some status
  | _ => none

variable (hmac : Bytes → Bytes → Bytes)

def perform (operation : Operation) (req : TokenRequester) : TokenRequester × Option Exchange :=
  match operation with
  | .setConsumer key secret => (req.setConsumer key secret, none)
  | .setToken key secret => (req.setToken key secret, none)
  | .setPinNumber pin => (req.setPinNumber pin, none)
  | .clearPinNumber => (req.clearPinNumber, none)
  | .makeUserstream moment => (makeUserstream hmac moment req).map id some
  | .requestFriendsTimeline moment => (requestFriendsTimeline hmac moment req).map id some
  | .statusesUpdate moment status => (statusesUpdate hmac moment status req).map id some

/-- The requests made by a sequence of operations, each with the operation that made it. -/
def exchanges : List Operation → TokenRequester → List (Operation × Exchange)
  | [], _ => []
  | operation :: operations, req =>
      let (req, exchange) := perform hmac operation req
      (exchange.map fun e => (operation, e)).toList ++ exchanges operations req

end BlackCircle.Twitter.Requests
