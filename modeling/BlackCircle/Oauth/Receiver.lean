import BlackCircle.Foundation.Delimiter
import BlackCircle.Http.Wire
import BlackCircle.Oauth.TokenRequester

/-!
# What a receiver reads

A request taken apart from the bytes that were written, and the parameters
found in it: those of the query, or those of the `Authorization` field and of
the form in the body.  A receiver verifies a signature over the parameters it
has found, put in order and serialised again.
-/

namespace BlackCircle.Oauth.Receiver

open BlackCircle.Foundation
open BlackCircle.Foundation.ByteString
open BlackCircle.Foundation.Delimiter
open BlackCircle.Foundation.EntryList (find inKeyOrder)
open BlackCircle.Http.Request
open BlackCircle.Http.Wire (headLines_ne_nil notMem_headLines notMem_method notMem_target)
open BlackCircle.Oauth.Combiner
open BlackCircle.Oauth.Encode

/-- A request as its receiver reads it. -/
structure Received where
  method : Bytes
  target : Bytes
  fields : List (Bytes × Bytes)
  body : Bytes
  deriving DecidableEq

def receive (text : Bytes) : Received :=
  let pieces := text.splitOn LF
  let head := (pieces.takeWhile (· ≠ [CR])).map List.dropLast
  let (method, behind) := cutAt (byte ' ') (head.headD [])
  { method := method
    target := (cutAt (byte ' ') behind).1
    fields := head.tail.map (cutAt (byte ':'))
    body := [LF].intercalate ((pieces.dropWhile (· ≠ [CR])).drop 1) }

/-! ## Parameters -/

def decodePair (pair : Bytes × Bytes) : Bytes × Bytes :=
  (percentDecode pair.1, percentDecode pair.2)

/-- The parameters of a query or of a form. -/
def formParams (text : Bytes) : List (Bytes × Bytes) :=
  (text.splitOn (byte '&')).map fun item => decodePair (cutAt (byte '=') item)

/-- An item of a credential list, without the blank in front of it and the quotes. -/
def credential (item : Bytes) : Bytes × Bytes :=
  let (name, quoted) := cutAt (byte '=') (item.dropWhile (· = byte ' '))
  decodePair (name, (quoted.drop 1).dropLast)

def credentialParams (credentials : Bytes) : List (Bytes × Bytes) :=
  (credentials.splitOn (byte ',')).map credential

/-- The query of a target. -/
def query (target : Bytes) : Bytes := (cutAt (byte '?') target).2

/-- What stands behind the scheme in the `Authorization` field. -/
def credentials (received : Received) : Bytes :=
  ((find (ascii "Authorization") received.fields).getD []).drop (ascii "OAuth ").length

def requestParams (received : Received) : List (Bytes × Bytes) :=
  if received.method = ascii "GET" then formParams (query received.target)
  else credentialParams (credentials received) ++ formParams received.body

/-- Parameters without a signature, in ascending name order, serialised again. -/
def rejoin (params : List (Bytes × Bytes)) : Bytes :=
  (ascii "&").intercalate
    ((inKeyOrder (params.filter fun p => p.1 ≠ ascii "oauth_signature")).map fun p =>
      p.1 ++ ascii "=" ++ urlEscape p.2)

/-! ## Reading a text -/

theorem intercalate_lines (lines : List Bytes) (body : Bytes) :
    lines.flatMap (· ++ [CR, LF]) ++ ([CR, LF] ++ body) =
      [LF].intercalate (lines.map (· ++ [CR]) ++ [[CR], body]) := by
  induction lines with
  | nil => simp [List.intercalate_cons_cons]
  | cons line lines ih =>
      have hne : lines.map (· ++ [CR]) ++ [[CR], body] ≠ [] := by simp
      obtain ⟨next, others, hcons⟩ := List.exists_cons_of_ne_nil hne
      rw [List.flatMap_cons, List.append_assoc, ih, List.map_cons, List.cons_append, hcons,
        List.intercalate_cons_cons]
      simp

/-- A text made of lines, an empty line and a body is read as these. -/
theorem receive_lines {first : Bytes} {lines : List Bytes} {body : Bytes}
    (hfree : ∀ line ∈ first :: lines, LF ∉ line) (hnonempty : ∀ line ∈ first :: lines, line ≠ [])
    (hbody : LF ∉ body) :
    receive ((first :: lines).flatMap (· ++ [CR, LF]) ++ ([CR, LF] ++ body)) =
      { method := (cutAt (byte ' ') first).1
        target := (cutAt (byte ' ') (cutAt (byte ' ') first).2).1
        fields := lines.map (cutAt (byte ':'))
        body := body } := by
  have hpieces : ((first :: lines).flatMap (· ++ [CR, LF]) ++ ([CR, LF] ++ body)).splitOn LF =
      (first :: lines).map (· ++ [CR]) ++ [[CR], body] := by
    rw [intercalate_lines]
    refine List.splitOn_intercalate LF ?_ (by simp)
    intro piece hmem
    rw [List.mem_append, List.mem_map] at hmem
    rcases hmem with ⟨line, hline, rfl⟩ | hmem
    · have hcr : LF ≠ CR := CR_ne_LF.symm
      simpa [hcr] using hfree line hline
    · simp only [List.mem_cons, List.not_mem_nil, or_false] at hmem
      rcases hmem with rfl | rfl
      · decide
      · exact hbody
  have hlines : ∀ piece ∈ (first :: lines).map (· ++ [CR]), decide (piece ≠ [CR]) = true := by
    intro piece hmem
    obtain ⟨line, hline, rfl⟩ := List.mem_map.mp hmem
    simpa using hnonempty line hline
  have htake : ((first :: lines).map (· ++ [CR]) ++ [[CR], body]).takeWhile (· ≠ [CR]) =
      (first :: lines).map (· ++ [CR]) := by
    rw [List.takeWhile_append_of_pos hlines]
    simp
  have hdrop : ((first :: lines).map (· ++ [CR]) ++ [[CR], body]).dropWhile (· ≠ [CR]) =
      [[CR], body] := by
    rw [List.dropWhile_append_of_pos hlines]
    simp
  have hhead : ((first :: lines).map (· ++ [CR])).map List.dropLast = first :: lines := by
    rw [List.map_map]
    exact (List.map_congr_left fun line _ => List.dropLast_concat).trans (List.map_id _)
  simp only [receive, hpieces, htake, hdrop, hhead]
  simp

/-! ## Reading a request -/

/-- The texts of a client contain no separator of a request. -/
structure Sendable (c : HttpClient) : Prop where
  uri : LF ∉ c.getUri ∧ byte ' ' ∉ c.getUri
  query : LF ∉ c.query ∧ byte ' ' ∉ c.query
  host : LF ∉ c.host
  names : ∀ field ∈ c.header.entries, LF ∉ field.1 ∧ byte ':' ∉ field.1
  values : ∀ field ∈ c.header.entries, LF ∉ field.2

theorem cutAt_fieldLine {field : Bytes × Bytes} (h : byte ':' ∉ field.1) :
    cutAt (byte ':') (fieldLine field) = field :=
  cutAt_append h field.2

/-- Every line of the head of a request is a line: not empty, and without a line feed. -/
theorem headLines_lines {c : HttpClient} (h : Sendable c) (data : Bytes) :
    ∀ line ∈ headLines c data, LF ∉ line ∧ line ≠ [] := by
  intro line hmem
  refine ⟨?_, headLines_ne_nil c data line hmem⟩
  exact notMem_headLines (Or.inr rfl) h.uri.1 h.query.1 h.host
    (fun field hf => ⟨(h.names field hf).1, h.values field hf⟩) data line hmem

/-- What a client sends is read as its method, its target, its fields and its data. -/
theorem receive_sendRequest {c : HttpClient} (h : Sendable c) {data : Bytes} (hdata : LF ∉ data) :
    ∃ more, receive (c.sendRequest data) =
      { method := if data.length ≠ 0 then ascii "POST" else ascii "GET"
        target := c.getUri ++ (if c.query = [] then [] else ascii "?") ++ c.query
        fields := (ascii "Host", byte ' ' :: c.host) :: (c.header.entries ++ more)
        body := data } := by
  have hlines := headLines_lines h data
  have hfirst : cutAt (byte ' ') (requestLine c data) =
      (if data.length ≠ 0 then ascii "POST" else ascii "GET",
        (c.getUri ++ (if c.query = [] then [] else ascii "?") ++ c.query) ++
          ascii " HTTP/1.1") := by
    rw [requestLine, List.append_assoc, List.cons_append]
    exact cutAt_append (notMem_method (by decide) (by decide) data) _
  have hversion : ascii " HTTP/1.1" = byte ' ' :: ascii "HTTP/1.1" := by decide
  have htarget := notMem_target h.uri.2 (by decide) h.query.2
  have hfields : c.header.entries.map (cutAt (byte ':') ∘ fieldLine) = c.header.entries := by
    refine (List.map_congr_left fun field hfield => ?_).trans (List.map_id _)
    exact cutAt_fieldLine (h.names field hfield).2
  have hhost : cutAt (byte ':') (fieldLine (ascii "Host", byte ' ' :: c.host)) =
      (ascii "Host", byte ' ' :: c.host) :=
    cutAt_fieldLine (show byte ':' ∉ ascii "Host" by decide)
  refine ⟨(lengthLines data.length).map (cutAt (byte ':')), ?_⟩
  rw [sendRequest_eq, headLines, receive_lines (fun line hmem => (hlines line hmem).1)
    (fun line hmem => (hlines line hmem).2) hdata, hfirst, hversion, cutAt_append htarget,
    List.map_cons, hhost, List.map_append, List.map_map, hfields]

/-! ## Reading parameters -/

/-- The parameters' names consist of bytes that stand for themselves. -/
def PlainNames (entries : List (Bytes × Bytes)) : Prop :=
  ∀ p ∈ entries, ∀ b ∈ p.1, isUnreserved b = true

theorem notMem_name {entries : List (Bytes × Bytes)} (h : PlainNames entries) {p : Bytes × Bytes}
    (hmem : p ∈ entries) {b : Byte} (hb : isEscaped b = false) : b ∉ p.1 := by
  intro hin
  have hplain := h p hmem b hin
  rw [isEscaped, hplain] at hb
  cases hb

theorem decodePair_plain {entries : List (Bytes × Bytes)} (h : PlainNames entries)
    {p : Bytes × Bytes} (hmem : p ∈ entries) : decodePair (p.1, urlEscape p.2) = p := by
  have hname : byte '%' ∉ p.1 := by
    intro hin
    have hplain := h p hmem _ hin
    revert hplain
    decide
  rw [decodePair, percentDecode_of_notMem hname, percentDecode_urlEscape]

/-- A byte that separates is not found inside a combined parameter. -/
theorem notMem_combine {entries : List (Bytes × Bytes)} (h : PlainNames entries)
    {cmb : Combiner} {p : Bytes × Bytes} (hmem : p ∈ entries) {b : Byte}
    (hb : isEscaped b = false) (hopening : b ∉ cmb.opening) (hclosing : b ∉ cmb.closing) :
    b ∉ cmb.combine p := by
  simp only [Combiner.combine, List.mem_append, not_or]
  exact ⟨notMem_name h hmem hb, ⟨hopening, notMem_urlEscape hb p.2⟩, hclosing⟩

/-- A serialisation as a query or form is read as the parameters it was made from. -/
theorem formParams_makeRequest {params : Params} (h : PlainNames params.entries)
    (hnonempty : params.entries ≠ []) :
    formParams (makeRequest combineAsGetParam params) = params.entries := by
  have hsplit : (makeRequest combineAsGetParam params).splitOn (byte '&') =
      params.entries.map combineAsGetParam.combine := by
    rw [makeRequest_eq]
    refine List.splitOn_intercalate (byte '&') ?_ (by simpa using hnonempty)
    intro item hmem
    obtain ⟨p, hp, rfl⟩ := List.mem_map.mp hmem
    exact notMem_combine h hp (by decide) (by decide) (by decide)
  rw [formParams, hsplit, List.map_map]
  refine (List.map_congr_left fun p hp => ?_).trans (List.map_id _)
  have hcombine : combineAsGetParam.combine p = p.1 ++ byte '=' :: urlEscape p.2 := by
    have hopening : ascii "=" = [byte '='] := by decide
    simp [Combiner.combine, combineAsGetParam, hopening]
  rw [Function.comp_apply, hcombine, cutAt_append (notMem_name h hp (by decide)),
    decodePair_plain h hp, id]

theorem credential_combine {entries : List (Bytes × Bytes)} (h : PlainNames entries)
    {p : Bytes × Bytes} (hmem : p ∈ entries) {gap : Bytes} (hgap : ∀ b ∈ gap, b = byte ' ') :
    credential (gap ++ combineAsPostParam.combine p) = p := by
  have hcombine : combineAsPostParam.combine p =
      p.1 ++ byte '=' :: (byte '"' :: (urlEscape p.2 ++ [byte '"'])) := by
    have hopening : ascii "=\"" = [byte '=', byte '"'] := by decide
    have hclosing : ascii "\"" = [byte '"'] := by decide
    simp [Combiner.combine, combineAsPostParam, hopening, hclosing]
  have hname : (combineAsPostParam.combine p).dropWhile (· = byte ' ') =
      combineAsPostParam.combine p := by
    have hspace : byte ' ' ∉ combineAsPostParam.combine p :=
      notMem_combine h hmem (by decide) (by decide) (by decide)
    cases htext : combineAsPostParam.combine p with
    | nil => rfl
    | cons b tail =>
        rw [htext, List.mem_cons, not_or] at hspace
        exact List.dropWhile_cons_of_neg (by simpa using Ne.symm hspace.1)
  have hdrop : (gap ++ combineAsPostParam.combine p).dropWhile (· = byte ' ') =
      combineAsPostParam.combine p := by
    rw [List.dropWhile_append_of_pos fun b hb => by simpa using hgap b hb, hname]
  have hcut := cutAt_append (notMem_name h hmem (by decide : isEscaped (byte '=') = false))
    (byte '"' :: (urlEscape p.2 ++ [byte '"']))
  rw [credential, hdrop, hcombine, hcut]
  simp only [List.drop_one, List.tail_cons, List.dropLast_concat, decodePair_plain h hmem]

/-- A serialisation as a credential list is read as the parameters it was made from. -/
theorem credentialParams_makeRequest {params : Params} (h : PlainNames params.entries)
    (hnonempty : params.entries ≠ []) :
    credentialParams (makeRequest combineAsPostParam params) = params.entries := by
  obtain ⟨first, others, hentries⟩ := List.exists_cons_of_ne_nil hnonempty
  have hjoiner : combineAsPostParam.joiner = [byte ','] ++ [byte ' '] := by decide
  -- the blank of a joiner goes to the item behind it
  have htext : makeRequest combineAsPostParam params = [byte ','].intercalate
      (combineAsPostParam.combine first ::
        others.map fun p => [byte ' '] ++ combineAsPostParam.combine p) := by
    rw [makeRequest_eq, hentries, hjoiner, List.map_cons, intercalate_append, List.map_map]
    rfl
  have hfree : ∀ p ∈ params.entries, byte ',' ∉ combineAsPostParam.combine p :=
    fun p hp => notMem_combine h hp (by decide) (by decide) (by decide)
  have hsplit : (makeRequest combineAsPostParam params).splitOn (byte ',') =
      combineAsPostParam.combine first ::
        others.map fun p => [byte ' '] ++ combineAsPostParam.combine p := by
    rw [htext]
    refine List.splitOn_intercalate (byte ',') ?_ (by simp)
    intro item hmem
    rcases List.mem_cons.mp hmem with rfl | hmem
    · exact hfree first (by simp [hentries])
    · obtain ⟨p, hp, rfl⟩ := List.mem_map.mp hmem
      have hcomma : byte ',' ∉ [byte ' '] := by decide
      rw [List.mem_append, not_or]
      exact ⟨hcomma, hfree p (by simp [hentries, hp])⟩
  have hfirst : credential (combineAsPostParam.combine first) = first := by
    have hread := @credential_combine params.entries h first (by simp [hentries]) []
      (by rintro b ⟨⟩)
    rwa [List.nil_append] at hread
  have hothers : others.map (credential ∘ fun p => [byte ' '] ++ combineAsPostParam.combine p) =
      others := by
    refine (List.map_congr_left fun p hp => ?_).trans (List.map_id _)
    exact credential_combine h (by simp [hentries, hp]) (by simp)
  rw [credentialParams, hsplit, List.map_cons, List.map_map, hfirst, hothers, hentries]

end BlackCircle.Oauth.Receiver
