import BlackCircle.Http.Response
import BlackCircle.Json.Grammar
import BlackCircle.Twitter.Processing

/-!
# The handler of responses

`twitter_client::http_handler`, for calls with response data.  A call of
`process_single_entity` is a function of how many were made before, of the
entity and of a state: it returns or throws, and leaves a state behind.  The
record keeps the entities of all calls that were made.  What the handler does
about the user stream itself is in `Reconnect`.
-/

namespace BlackCircle.Twitter.Handler

open BlackCircle.Foundation.ByteString
open BlackCircle.Http.Response
open BlackCircle.Json (Value)
open BlackCircle.Json.Grammar
open BlackCircle.Twitter
open BlackCircle.Twitter.Processing

/-- `api_type`. -/
inductive ApiType where
  | userStream
  | friendsTimeline
  | statusesUpdate
  deriving DecidableEq

/-- The state the entities are processed in, and the entities so far. -/
structure Record (σ : Type) where
  state : σ
  entities : List Value

section Handler

variable {σ ε α : Type} (process : Nat → Value → σ → Except ε α × σ)

/-- One call of `process_single_entity`. -/
def processEntity (t : Value) (r : Record σ) : Except ε α × Record σ :=
  let (result, state) := process r.entities.length t r.state
  (result, ⟨state, r.entities ++ [t]⟩)

/-- `for_each`, up to the first call that throws. -/
def forEach : List Value → Record σ → Record σ
  | [], r => r
  | t :: ts, r =>
      match processEntity process t r with
      | (.ok _, r) => forEach ts r
      | (.error _, r) => r

/-- Whether `find` finds an opening brace. -/
def hasBrace (s : Bytes) : Bool := s.any fun b => b == byte '\x7b'

/-- Whatever is thrown, by the parser, by `boost::get` or by a call, is caught. -/
def httpHandler (type : ApiType) (data : HttpResponseData) (r : Record σ) : Record σ :=
  if data.status.1 ≠ 200 then r
  else
    match parseJson data.data with
    | .error _ => r
    | .ok t =>
        match type with
        | .userStream => if hasBrace data.data then (processEntity process t r).2 else r
        | .friendsTimeline =>
            match t with
            | .array elements => forEach process elements.reverse r
            | _ => r
        | .statusesUpdate => r

/-- The calls of one connection, in turn. -/
def handleCalls (type : ApiType) (calls : List HttpResponseData) (r : Record σ) : Record σ :=
  calls.foldl (fun r data => httpHandler process type data r) r

/-! ## What is processed -/

@[simp]
theorem entities_processEntity (t : Value) (r : Record σ) :
    (processEntity process t r).2.entities = r.entities ++ [t] := rfl

/-- What a text on the user stream makes the handler process. -/
def userStreamEntity (s : Bytes) : Option Value :=
  match parseJson s with
  | .error _ => none
  | .ok t => if hasBrace s then some t else none

theorem userStreamEntity_eq_some {s : Bytes} {t : Value} :
    userStreamEntity s = some t ↔ parseJson s = .ok t ∧ byte '\x7b' ∈ s := by
  have hbrace : hasBrace s = true ↔ byte '\x7b' ∈ s := by simp [hasBrace]
  rw [← hbrace]
  unfold userStreamEntity
  cases parseJson s with
  | error fault => simp
  | ok found => by_cases hopen : hasBrace s = true <;> simp [hopen]

theorem entities_userStream {data : HttpResponseData} (hstatus : data.status.1 = 200)
    (r : Record σ) : (httpHandler process .userStream data r).entities =
      r.entities ++ (userStreamEntity data.data).toList := by
  unfold httpHandler userStreamEntity
  rw [if_neg (not_not.mpr hstatus)]
  cases parseJson data.data with
  | error fault => simp
  | ok t => by_cases hopen : hasBrace data.data = true <;> simp [hopen]

/-- The entities of a connection are read off its calls one by one. -/
theorem entities_handleCalls {calls : List HttpResponseData}
    (hstatus : ∀ data ∈ calls, data.status.1 = 200) (r : Record σ) :
    (handleCalls process .userStream calls r).entities =
      r.entities ++ calls.filterMap fun data => userStreamEntity data.data := by
  induction calls generalizing r with
  | nil => exact (List.append_nil _).symm
  | cons data calls ih =>
      have hfirst := entities_userStream process (hstatus data List.mem_cons_self) r
      have hrest := ih (fun other hmem => hstatus other (List.mem_cons_of_mem _ hmem))
        (httpHandler process .userStream data r)
      change (handleCalls process .userStream calls
        (httpHandler process .userStream data r)).entities = _
      rw [hrest, hfirst, List.append_assoc, List.filterMap_cons]
      cases userStreamEntity data.data <;> rfl

end Handler

/-! ## The stores behind the calls -/

section Stored

variable {Time : Type} (readTime : Bytes → Time) (dateText : Time → Option Bytes)
  (around : Nat → Nat → Surroundings Time)

/-- A call of `process_single_entity` on the stores; the surroundings differ from call to call. -/
def processStored (n : Nat) (t : Value) (s : Stores Time) :
    Except Failure (Bool × List (Printed Time)) × Stores Time :=
  exec (processSingleEntity readTime dateText (around n) t) s

/-- Entities, as the messages of a history. -/
def history (entities : List Value) : List (Message Time) :=
  entities.mapIdx fun n t => ⟨around n, t⟩

/-- The stores are those behind the entities of the record. -/
def Recorded (initial : Stores Time) (r : Record (Stores Time)) : Prop :=
  r.state = handleAll readTime dateText (history around r.entities) initial

variable {readTime dateText around} {initial : Stores Time} {r : Record (Stores Time)}

theorem recorded_processEntity (h : Recorded readTime dateText around initial r) (t : Value) :
    Recorded readTime dateText around initial
      (processEntity (processStored readTime dateText around) t r).2 := by
  have hhistory : history around (r.entities ++ [t]) =
      history around r.entities ++ [⟨around r.entities.length, t⟩] :=
    List.mapIdx_concat
  unfold Recorded at h ⊢
  rw [entities_processEntity, hhistory, handleAll, List.foldl_append]
  change handle readTime dateText ⟨around r.entities.length, t⟩ r.state = _
  rw [h]
  rfl

theorem recorded_forEach (h : Recorded readTime dateText around initial r) (ts : List Value) :
    Recorded readTime dateText around initial
      (forEach (processStored readTime dateText around) ts r) := by
  induction ts generalizing r with
  | nil => exact h
  | cons t ts ih =>
      have hfirst := recorded_processEntity h t
      rw [forEach]
      cases hcall : processEntity (processStored readTime dateText around) t r with
      | mk result next =>
          rw [hcall] at hfirst
          cases result with
          | error e => exact hfirst
          | ok a => exact ih hfirst

theorem recorded_httpHandler (h : Recorded readTime dateText around initial r) (type : ApiType)
    (data : HttpResponseData) :
    Recorded readTime dateText around initial
      (httpHandler (processStored readTime dateText around) type data r) := by
  unfold httpHandler
  by_cases hstatus : data.status.1 ≠ 200
  · rw [if_pos hstatus]
    exact h
  · rw [if_neg hstatus]
    cases parseJson data.data with
    | error fault => exact h
    | ok t =>
        cases type with
        | userStream =>
            simp only
            split_ifs
            · exact recorded_processEntity h t
            · exact h
        | friendsTimeline =>
            cases t with
            | array elements => exact recorded_forEach h elements.reverse
            | _ => exact h
        | statusesUpdate => exact h

/-- Whatever a connection brings, the stores behind it are those of a history. -/
theorem recorded_handleCalls (h : Recorded readTime dateText around initial r) (type : ApiType)
    (calls : List HttpResponseData) :
    Recorded readTime dateText around initial
      (handleCalls (processStored readTime dateText around) type calls r) := by
  induction calls generalizing r with
  | nil => exact h
  | cons data calls ih => exact ih (recorded_httpHandler h type data)

end Stored

end BlackCircle.Twitter.Handler
