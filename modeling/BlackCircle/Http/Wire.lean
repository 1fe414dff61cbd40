import BlackCircle.Foundation.Delimiter
import BlackCircle.Http.Request

/-!
# Requests on the wire

A strict reader of requests: a line ends with a carriage return and a line
feed, the head with the first empty line, the request line is taken apart at
every blank and a field line at its first colon.  A client whose texts have no
line breaks sends one such request, and all of its data is the body.
-/

namespace BlackCircle.Http.Wire

open BlackCircle.Foundation
open BlackCircle.Foundation.ByteString
open BlackCircle.Foundation.Delimiter
open BlackCircle.Foundation.Numeral
open BlackCircle.Http.Request

/-! ## Reading -/

/-- The first line, without its line break, and what stands behind it. -/
def cutLine : Bytes → Option (Bytes × Bytes)
  | [] => none
  | [_] => none
  | b :: c :: rest =>
      if b = CR ∧ c = LF then some ([], rest)
      else (cutLine (c :: rest)).map fun cut => (b :: cut.1, cut.2)

/-- The lines before the first empty one, and what stands behind that. -/
def cutHead : Nat → Bytes → Option (List Bytes × Bytes)
  | 0, _ => none
  | bound + 1, text =>
      (cutLine text).bind fun cut =>
        if cut.1 = [] then some ([], cut.2)
        else (cutHead bound cut.2).map fun more => (cut.1 :: more.1, more.2)

/-- A request taken apart. -/
structure Parsed where
  parts : List Bytes
  fields : List (Bytes × Bytes)
  body : Bytes
  deriving DecidableEq

def readRequest (text : Bytes) : Option Parsed :=
  (cutHead (text.length + 1) text).map fun cut =>
    { parts := (cut.1.headD []).splitOn (byte ' ')
      fields := cut.1.tail.map (cutAt (byte ':'))
      body := cut.2 }

theorem cutLine_append {line : Bytes} (h : CR ∉ line) (rest : Bytes) :
    cutLine (line ++ CR :: LF :: rest) = some (line, rest) := by
  induction line with
  | nil => exact if_pos ⟨rfl, rfl⟩
  | cons b line ih =>
      rw [List.mem_cons, not_or] at h
      have hline := ih h.2
      obtain ⟨c, tail, htail⟩ : ∃ c tail, line ++ CR :: LF :: rest = c :: tail :=
        List.exists_cons_of_ne_nil (by simp)
      have hne : ¬ (b = CR ∧ c = LF) := fun hbreak => h.1 hbreak.1.symm
      rw [htail] at hline
      rw [List.cons_append, htail, cutLine, if_neg hne, hline]
      rfl

theorem cutHead_lines {lines : List Bytes} (h : ∀ line ∈ lines, CR ∉ line ∧ line ≠ [])
    (body : Bytes) {bound : Nat} (hbound : lines.length < bound) :
    cutHead bound (lines.flatMap (· ++ [CR, LF]) ++ ([CR, LF] ++ body)) =
      some (lines, body) := by
  induction lines generalizing bound with
  | nil =>
      obtain ⟨bound, rfl⟩ : ∃ n, bound = n + 1 := ⟨bound - 1, by omega⟩
      have hcut : cutLine ([CR, LF] ++ body) = some ([], body) := if_pos ⟨rfl, rfl⟩
      rw [List.flatMap_nil, List.nil_append, cutHead, hcut]
      rfl
  | cons line lines ih =>
      rw [List.length_cons] at hbound
      obtain ⟨bound, rfl⟩ : ∃ n, bound = n + 1 := ⟨bound - 1, by omega⟩
      obtain ⟨hline, hlines⟩ := List.forall_mem_cons.mp h
      have hmore := ih hlines (by omega : lines.length < bound)
      have htext : (line :: lines).flatMap (· ++ [CR, LF]) ++ ([CR, LF] ++ body) =
          line ++ CR :: LF :: (lines.flatMap (· ++ [CR, LF]) ++ ([CR, LF] ++ body)) := by
        simp
      rw [htext, cutHead, cutLine_append hline.1, Option.bind_some, if_neg hline.2, hmore]
      rfl

theorem length_le_flatMap (lines : List Bytes) :
    lines.length ≤ (lines.flatMap (· ++ [CR, LF])).length := by
  induction lines with
  | nil => exact Nat.le_refl 0
  | cons line lines ih =>
      simp only [List.flatMap_cons, List.length_append, List.length_cons]
      omega

/-! ## The lines of a head -/

theorem fieldLine_ne_nil (field : Bytes × Bytes) : fieldLine field ≠ [] := by simp [fieldLine]

theorem headLines_ne_nil (c : HttpClient) (data : Bytes) :
    ∀ line ∈ headLines c data, line ≠ [] := by
  intro line hmem
  simp only [headLines, List.mem_cons, List.mem_append] at hmem
  rcases hmem with rfl | rfl | hmem | hmem
  · simp [requestLine]
  · exact fieldLine_ne_nil _
  · obtain ⟨field, -, rfl⟩ := List.mem_map.mp hmem
    exact fieldLine_ne_nil field
  · unfold lengthLines at hmem
    split at hmem
    · cases hmem
    · rw [List.mem_singleton.mp hmem]
      exact fieldLine_ne_nil _

section Breaks

variable {b : Byte} {c : HttpClient}

theorem notMem_fieldLine {field : Bytes × Bytes} (hcolon : b ≠ byte ':') (hname : b ∉ field.1)
    (hvalue : b ∉ field.2) : b ∉ fieldLine field := by
  simp only [fieldLine, List.mem_append, List.mem_cons, not_or]
  exact ⟨hname, hcolon, hvalue⟩

theorem notMem_method (hpost : b ∉ ascii "POST") (hget : b ∉ ascii "GET") (data : Bytes) :
    b ∉ if data.length ≠ 0 then ascii "POST" else ascii "GET" := by
  split
  · exact hpost
  · exact hget

theorem notMem_target (huri : b ∉ c.getUri) (hmark : b ∉ ascii "?") (hquery : b ∉ c.query) :
    b ∉ c.getUri ++ (if c.query = [] then [] else ascii "?") ++ c.query := by
  have hinner : b ∉ if c.query = [] then [] else ascii "?" := by
    split
    · exact List.not_mem_nil
    · exact hmark
  simp only [List.mem_append, not_or]
  exact ⟨⟨huri, hinner⟩, hquery⟩

/-- A byte of a line break is in no line of a head, if it is in none of the client's texts. -/
theorem notMem_headLines (hb : b = CR ∨ b = LF) (huri : b ∉ c.getUri) (hquery : b ∉ c.query)
    (hhost : b ∉ c.host)
    (hheader : ∀ field ∈ c.header.entries, b ∉ field.1 ∧ b ∉ field.2) (data : Bytes) :
    ∀ line ∈ headLines c data, b ∉ line := by
  have hcolon : b ≠ byte ':' := by rcases hb with rfl | rfl <;> decide
  have hspace : b ≠ byte ' ' := by rcases hb with rfl | rfl <;> decide
  intro line hmem
  simp only [headLines, List.mem_cons, List.mem_append] at hmem
  rcases hmem with rfl | rfl | hmem | hmem
  · have hpost : b ∉ ascii "POST" := by rcases hb with rfl | rfl <;> decide
    have hget : b ∉ ascii "GET" := by rcases hb with rfl | rfl <;> decide
    have hmark : b ∉ ascii "?" := by rcases hb with rfl | rfl <;> decide
    have hversion : b ∉ ascii " HTTP/1.1" := by rcases hb with rfl | rfl <;> decide
    rw [requestLine, List.mem_append, List.mem_append, List.mem_cons]
    simp only [not_or]
    exact ⟨⟨notMem_method hpost hget data, hspace, notMem_target huri hmark hquery⟩, hversion⟩
  · have hname : b ∉ ascii "Host" := by rcases hb with rfl | rfl <;> decide
    exact notMem_fieldLine hcolon hname (List.not_mem_cons_of_ne_of_not_mem hspace hhost)
  · obtain ⟨field, hfield, rfl⟩ := List.mem_map.mp hmem
    exact notMem_fieldLine hcolon (hheader field hfield).1 (hheader field hfield).2
  · unfold lengthLines at hmem
    split at hmem
    · cases hmem
    · have hname : b ∉ ascii "Content-Length" := by rcases hb with rfl | rfl <;> decide
      have hdigit : isDigit 10 b = false := by rcases hb with rfl | rfl <;> decide
      rw [List.mem_singleton.mp hmem]
      exact notMem_fieldLine hcolon hname (List.not_mem_cons_of_ne_of_not_mem hspace
        ((isNumeral_decimal (data.length % 2 ^ 32)).notMem hdigit))

end Breaks

/-! ## What a client sends -/

/-- The texts of a client have no line breaks, its target no blank, its names no colon. -/
structure Clean (c : HttpClient) : Prop where
  uri : CR ∉ c.getUri ∧ LF ∉ c.getUri ∧ byte ' ' ∉ c.getUri
  query : CR ∉ c.query ∧ LF ∉ c.query ∧ byte ' ' ∉ c.query
  host : CR ∉ c.host ∧ LF ∉ c.host
  names : ∀ field ∈ c.header.entries, CR ∉ field.1 ∧ LF ∉ field.1 ∧ byte ':' ∉ field.1
  values : ∀ field ∈ c.header.entries, CR ∉ field.2 ∧ LF ∉ field.2

/-- The target of a request: the address and the query behind its mark. -/
def target (c : HttpClient) : Bytes :=
  c.getUri ++ (if c.query = [] then [] else ascii "?") ++ c.query

/-- The length of the data, where there is any. -/
def lengthFields (data : Bytes) : List (Bytes × Bytes) :=
  if data = [] then [] else [(ascii "Content-Length", byte ' ' :: decimal data.length)]

/-- A text is one request of a client, and its data. -/
structure OneRequest (c : HttpClient) (data text : Bytes) : Prop where
  head : ∃ head, text = head ++ data ∧ FirstEnds [CR, LF, CR, LF] head
  lines : ∀ line ∈ headLines c data, CR ∉ line ∧ LF ∉ line
  reading : readRequest text = some
    { parts := [if data = [] then ascii "GET" else ascii "POST", target c, ascii "HTTP/1.1"]
      fields := (ascii "Host", byte ' ' :: c.host) :: (c.header.entries ++ lengthFields data)
      body := data }

section Sent

variable {c : HttpClient} {data : Bytes}

theorem Clean.lines (h : Clean c) (data : Bytes) :
    ∀ line ∈ headLines c data, CR ∉ line ∧ LF ∉ line := by
  intro line hmem
  constructor
  · exact notMem_headLines (Or.inl rfl) h.uri.1 h.query.1 h.host.1
      (fun field hf => ⟨(h.names field hf).1, (h.values field hf).1⟩) data line hmem
  · exact notMem_headLines (Or.inr rfl) h.uri.2.1 h.query.2.1 h.host.2
      (fun field hf => ⟨(h.names field hf).2.1, (h.values field hf).2⟩) data line hmem

theorem method_eq (data : Bytes) :
    (if data.length ≠ 0 then ascii "POST" else ascii "GET") =
      if data = [] then ascii "GET" else ascii "POST" := by
  cases data with
  | nil => rfl
  | cons b data => rfl

/-- The request line has three parts. -/
theorem Clean.parts (h : Clean c) (data : Bytes) :
    (requestLine c data).splitOn (byte ' ') =
      [if data = [] then ascii "GET" else ascii "POST", target c, ascii "HTTP/1.1"] := by
  have hline : requestLine c data = [byte ' '].intercalate
      [if data = [] then ascii "GET" else ascii "POST", target c, ascii "HTTP/1.1"] := by
    have hversion : ascii " HTTP/1.1" = byte ' ' :: ascii "HTTP/1.1" := by decide
    rw [requestLine, method_eq, hversion, List.intercalate_cons_cons, List.intercalate_cons_cons,
      List.intercalate_singleton]
    simp [target]
  have hspace : byte ' ' ∉ if data = [] then ascii "GET" else ascii "POST" := by
    rw [← method_eq]
    exact notMem_method (by decide) (by decide) data
  rw [hline]
  refine List.splitOn_intercalate (byte ' ') ?_ (by simp)
  intro part hmem
  simp only [List.mem_cons, List.not_mem_nil, or_false] at hmem
  rcases hmem with rfl | rfl | rfl
  · exact hspace
  · exact notMem_target h.uri.2.2 (by decide) h.query.2.2
  · decide

theorem lengthLines_eq (hlength : data.length < 2 ^ 32) :
    lengthLines data.length = (lengthFields data).map fieldLine := by
  cases data with
  | nil => rfl
  | cons b data =>
      have hmod : (b :: data).length % 2 ^ 32 = (b :: data).length := Nat.mod_eq_of_lt hlength
      rw [lengthLines, hmod, if_neg (by simp), lengthFields, if_neg (List.cons_ne_nil _ _)]
      rfl

/-- The field lines of a head are cut into the fields again. -/
theorem Clean.fields (h : Clean c) (hlength : data.length < 2 ^ 32) :
    (headLines c data).tail.map (cutAt (byte ':')) =
      (ascii "Host", byte ' ' :: c.host) :: (c.header.entries ++ lengthFields data) := by
  have hcut : ∀ field ∈ (ascii "Host", byte ' ' :: c.host) ::
      (c.header.entries ++ lengthFields data), cutAt (byte ':') (fieldLine field) = field := by
    intro field hmem
    have hname : byte ':' ∉ field.1 := by
      rw [List.mem_cons, List.mem_append] at hmem
      rcases hmem with rfl | hmem | hmem
      · exact (by decide : byte ':' ∉ ascii "Host")
      · exact (h.names field hmem).2.2
      · unfold lengthFields at hmem
        split at hmem
        · cases hmem
        · rw [List.mem_singleton.mp hmem]
          exact (by decide : byte ':' ∉ ascii "Content-Length")
    exact cutAt_append hname field.2
  have htail : (headLines c data).tail = ((ascii "Host", byte ' ' :: c.host) ::
      (c.header.entries ++ lengthFields data)).map fieldLine := by
    rw [headLines, List.tail_cons, lengthLines_eq hlength, List.map_cons, List.map_append]
  rw [htail, List.map_map]
  exact (List.map_congr_left hcut).trans (List.map_id _)

/-- What a client sends is one request. -/
theorem Clean.oneRequest (h : Clean c) (hlength : data.length < 2 ^ 32) :
    OneRequest c data (c.sendRequest data) where
  head := by
    refine ⟨(headLines c data).flatMap (· ++ [CR, LF]) ++ [CR, LF], ?_, ?_⟩
    · rw [sendRequest_eq, List.append_assoc]
    · have hlines : ∀ line ∈ headLines c data, CR ∉ line ∧ line ≠ [] :=
        fun line hmem => ⟨(h.lines data line hmem).1, headLines_ne_nil c data line hmem⟩
      have hfirst := firstEnds_lines CR_ne_LF (hlines _ List.mem_cons_self).1
        (headLines c data).tail fun line hmem => hlines line (List.mem_of_mem_tail hmem)
      have hjoined : (headLines c data).flatMap (· ++ [CR, LF]) ++ [CR, LF] =
          requestLine c data ++ CR :: LF ::
            ((headLines c data).tail.flatMap (· ++ [CR, LF]) ++ [CR, LF]) := by
        simp [headLines]
      rw [hjoined]
      exact hfirst
  lines := h.lines data
  reading := by
    have hlines : ∀ line ∈ headLines c data, CR ∉ line ∧ line ≠ [] :=
      fun line hmem => ⟨(h.lines data line hmem).1, headLines_ne_nil c data line hmem⟩
    have hbound : (headLines c data).length < (c.sendRequest data).length + 1 := by
      have hle := length_le_flatMap (headLines c data)
      rw [sendRequest_eq, List.length_append]
      omega
    rw [readRequest, sendRequest_eq, cutHead_lines hlines data (sendRequest_eq c data ▸ hbound)]
    have hhead : (headLines c data).headD [] = requestLine c data := rfl
    rw [Option.map_some, hhead, h.parts, h.fields hlength]

end Sent

end BlackCircle.Http.Wire
