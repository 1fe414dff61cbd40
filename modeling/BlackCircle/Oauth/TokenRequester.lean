import BlackCircle.Foundation.OrderedMap
import BlackCircle.Oauth.Encode

/-!
# `token_requester`

The requester keeps the parameters of all its requests in one map.  What a
signature covers is recorded as a `Signing`; the HMAC is a parameter, and so
are the nonce and the time of each signing.
-/

namespace BlackCircle.Oauth

open BlackCircle.Foundation
open BlackCircle.Foundation.ByteString
open BlackCircle.Oauth.Encode

/-- `param_type`. -/
abbrev Params : Type := OrderedMap Bytes Bytes

/-! ## Serialised parameters -/

/-- A combiner functor: how a parameter is written, and what joins two of them. -/
structure Combiner where
  opening : Bytes
  closing : Bytes
  joiner : Bytes

namespace Combiner

def combine (cmb : Combiner) (p : Bytes × Bytes) : Bytes :=
  p.1 ++ (cmb.opening ++ urlEscape p.2 ++ cmb.closing)

def combineAsGetParam : Combiner := ⟨ascii "=", [], ascii "&"⟩

def combineAsPostParam : Combiner := ⟨ascii "=\"", ascii "\"", ascii ", "⟩

end Combiner

open Combiner

/-- `make_request`, for a map that is not empty. -/
def makeRequest (cmb : Combiner) (params : Params) : Bytes :=
  match params.entries with
  | [] => []
  | first :: others =>
      others.foldl (fun s p => s ++ cmb.joiner ++ cmb.combine p) (cmb.combine first)

theorem makeRequest_eq (cmb : Combiner) (params : Params) :
    makeRequest cmb params = cmb.joiner.intercalate (params.entries.map cmb.combine) := by
  have hfold : ∀ (others : List (Bytes × Bytes)) (s : Bytes),
      others.foldl (fun s p => s ++ cmb.joiner ++ cmb.combine p) s =
        s ++ (others.map cmb.combine).flatMap fun text => cmb.joiner ++ text := by
    intro others
    induction others with
    | nil => simp
    | cons p others ih =>
        intro s
        rw [List.foldl_cons, ih, List.map_cons, List.flatMap_cons]
        simp only [List.append_assoc]
  unfold makeRequest
  cases params.entries with
  | nil => rfl
  | cons first others =>
      simp only [hfold, List.map_cons]
      induction others generalizing first with
      | nil => simp [List.intercalate]
      | cons p others ih =>
          rw [List.map_cons, List.flatMap_cons, List.intercalate_cons_cons, ← ih]
          simp only [List.append_assoc]

/-! ## Signatures -/

/-- The nonce and the time of one signing. -/
structure Moment where
  nonce : Bytes
  time : Bytes

/-- What a signature covers. -/
structure Signing where
  method : Bytes
  reqUri : Bytes
  params : Params

namespace Signing

/-- The parameter string that is fed to the signature. -/
def parameterString (signing : Signing) : Bytes := makeRequest combineAsGetParam signing.params

def message (signing : Signing) : Bytes :=
  signing.method ++ ascii "&" ++ urlEscape signing.reqUri ++ ascii "&" ++
    urlEscape signing.parameterString

end Signing

structure TokenRequester where
  reqUri : Bytes
  consumerSecret : Bytes
  tokenSecret : Bytes
  params : Params

namespace TokenRequester

/-- The constructor. -/
def make : TokenRequester :=
  ⟨[], [], [], (OrderedMap.empty.assign (ascii "oauth_signature_method") (ascii "HMAC-SHA1")).assign
    (ascii "oauth_version") (ascii "1.0")⟩

def genGetquery (req : TokenRequester) : Bytes := makeRequest combineAsGetParam req.params

def genGeturl (req : TokenRequester) : Bytes := req.reqUri ++ ascii "?" ++ req.genGetquery

def genPostparam (req : TokenRequester) : Bytes := makeRequest combineAsPostParam req.params

/-- The parameters under which the next signature is made. -/
def signedParams (req : TokenRequester) (moment : Moment) : Params :=
  ((req.params.assign (ascii "oauth_nonce") moment.nonce).assign (ascii "oauth_timestamp")
    moment.time).erase (ascii "oauth_signature")

/-- `gen_request_signature`, with what the signature covers. -/
def genRequestSignature (hmac : Bytes → Bytes → Bytes) (moment : Moment) (reqUri method : Bytes)
    (req : TokenRequester) : TokenRequester × Signing :=
  let signing : Signing := ⟨method, reqUri, req.signedParams moment⟩
  let signature :=
    base64Encode (hmac (req.consumerSecret ++ ascii "&" ++ req.tokenSecret) signing.message)
  ({ req with
      reqUri := reqUri
      params := (req.signedParams moment).assign (ascii "oauth_signature") signature }, signing)

def setConsumer (key secret : Bytes) (req : TokenRequester) : TokenRequester :=
  { req with
    params := req.params.assign (ascii "oauth_consumer_key") key
    consumerSecret := secret }

def setToken (key secret : Bytes) (req : TokenRequester) : TokenRequester :=
  { req with
    params := req.params.assign (ascii "oauth_token") key
    tokenSecret := secret }

def setPinNumber (pin : Bytes) (req : TokenRequester) : TokenRequester :=
  { req with params := req.params.assign (ascii "oauth_verifier") pin }

def clearPinNumber (req : TokenRequester) : TokenRequester :=
  { req with params := req.params.erase (ascii "oauth_verifier") }

end TokenRequester

end BlackCircle.Oauth
