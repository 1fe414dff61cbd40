import BlackCircle.Foundation.Numeral
import BlackCircle.Foundation.OrderedMap

/-!
# Requests of `http_client`

The fields of an `http_client` from which a request is generated, and the text
that `send_request` writes.
-/

namespace BlackCircle.Http.Request

open BlackCircle.Foundation
open BlackCircle.Foundation.ByteString
open BlackCircle.Foundation.Numeral

structure HttpClient where
  /-- Whether the connection has an SSL context. -/
  secure : Bool
  host : Bytes
  path : Bytes
  query : Bytes
  header : OrderedMap Bytes Bytes

namespace HttpClient

/-- A client made by `make_http_client` with an SSL context. -/
def make (host : Bytes) : HttpClient := ⟨true, host, [], [], .empty⟩

def getSchemaString (c : HttpClient) : Bytes :=
  if c.secure then ascii "https" else ascii "http"

def getUri (c : HttpClient) : Bytes := c.getSchemaString ++ ascii "://" ++ c.host ++ c.path

/-- The `Content-Length` line; `uint_` takes an `unsigned`. -/
def contentLength (length : Nat) : Bytes :=
  if length % 2 ^ 32 = 0 then []
  else ascii "Content-Length: " ++ decimal (length % 2 ^ 32) ++ ascii "\r\n"

def generateHttpHeader (c : HttpClient) (data : Bytes) : Bytes :=
  (if data.length ≠ 0 then ascii "POST " else ascii "GET ") ++ c.getUri ++
    (if c.query = [] then [] else ascii "?") ++ c.query ++
    ascii " HTTP/1.1\r\nHost: " ++ c.host ++ ascii "\r\n" ++
    (c.header.entries.flatMap fun field => field.1 ++ ascii ":" ++ field.2 ++ ascii "\r\n") ++
    contentLength data.length ++ ascii "\r\n"

/-- The text that `send_request` writes to the connection. -/
def sendRequest (c : HttpClient) (data : Bytes) : Bytes := c.generateHttpHeader data ++ data

/-- `request` without data. -/
def request (c : HttpClient) : Bytes := c.sendRequest []

end HttpClient

/-! ## Lines -/

def requestLine (c : HttpClient) (data : Bytes) : Bytes :=
  (if data.length ≠ 0 then ascii "POST" else ascii "GET") ++ byte ' ' ::
    (c.getUri ++ (if c.query = [] then [] else ascii "?") ++ c.query) ++ ascii " HTTP/1.1"

def fieldLine (field : Bytes × Bytes) : Bytes := field.1 ++ byte ':' :: field.2

def lengthLines (length : Nat) : List Bytes :=
  if length % 2 ^ 32 = 0 then []
  else [fieldLine (ascii "Content-Length", byte ' ' :: decimal (length % 2 ^ 32))]

/-- The lines of the head of a request, without their line ends. -/
def headLines (c : HttpClient) (data : Bytes) : List Bytes :=
  requestLine c data :: fieldLine (ascii "Host", byte ' ' :: c.host) ::
    (c.header.entries.map fieldLine ++ lengthLines data.length)

theorem contentLength_eq (length : Nat) :
    HttpClient.contentLength length = (lengthLines length).flatMap (· ++ [CR, LF]) := by
  unfold HttpClient.contentLength lengthLines
  split
  · rfl
  · have hname : ascii "Content-Length: " = ascii "Content-Length" ++ [byte ':', byte ' '] := by
      decide
    have heol : ascii "\r\n" = [CR, LF] := by decide
    simp [fieldLine, hname, heol]

/-- What is written is the lines of the head, an empty line and the data. -/
theorem sendRequest_eq (c : HttpClient) (data : Bytes) :
    c.sendRequest data = (headLines c data).flatMap (· ++ [CR, LF]) ++ ([CR, LF] ++ data) := by
  have hmethod : (if data.length ≠ 0 then ascii "POST " else ascii "GET ") =
      (if data.length ≠ 0 then ascii "POST" else ascii "GET") ++ [byte ' '] := by
    split <;> decide
  have hhost : ascii " HTTP/1.1\r\nHost: " =
      ascii " HTTP/1.1" ++ [CR, LF] ++ ascii "Host" ++ [byte ':', byte ' '] := by
    decide
  have hcolon : ascii ":" = [byte ':'] := by decide
  have heol : ascii "\r\n" = [CR, LF] := by decide
  rw [HttpClient.sendRequest, HttpClient.generateHttpHeader, contentLength_eq, hmethod, hhost,
    hcolon, heol, headLines, requestLine]
  simp [fieldLine, List.flatMap_map]

end BlackCircle.Http.Request
