import BlackCircle.Foundation.EventRun
import Mathlib.Data.List.Nodup

/-!
# Threads that read

Where `asio` has no stream descriptors, `stream_descriptor` reads in threads of
its own, one for each call of `async_read_some`.  At a console a thread waits
until there is a key press, and takes other records out of the input before it
reads.  What a read returns is posted under a mutex, unless the destructor has
set `dead` under the same mutex.
-/

namespace BlackCircle.Console.ReadThreads

open BlackCircle.Foundation.EventRun

/-! ## Threads -/

/-- Where a thread is: `WaitForMultipleObjects`, `PeekConsoleInput`, `ReadConsoleInput`, `read`, in
front of the mutex, in front of the check of `dead`, in front of `io.post`, in front of the release
of the mutex, and behind all of it. -/
inductive Phase where
  | waiting
  | peeking
  | dropping
  | reading
  | locking (result : Int)
  | checking (result : Int)
  | posting (result : Int)
  | unlocking
  | returned
  deriving DecidableEq

/-- Where the destructor is: it has not been called, or it has the mutex and is in front of
`SetEvent`, of setting `dead`, or of the release; or it is behind all of it. -/
inductive Destruction where
  | ahead
  | signalling
  | killing
  | unlocking
  | behind
  deriving DecidableEq

inductive Holder where
  | nobody
  | thread (i : Nat)
  | destructor
  deriving DecidableEq

/-- `stream_descriptor_impl` with its `object_status` and its threads; of a console, the records in
its input, and whether each is a key press.  Kept besides are the results of `read`, the handlers
that have been posted, the records that have been taken out and the threads whose wait has
failed. -/
structure StreamDescriptor where
  console : Option (List Bool)
  threads : List Phase
  destruction : Destruction
  holder : Holder
  signalled : Bool
  dead : Bool
  results : List (Nat × Int)
  posted : List (Nat × Option Nat)
  dropped : List Bool
  failed : List Nat

def start (console : Option (List Bool)) : StreamDescriptor :=
  ⟨console, [], .ahead, .nobody, false, false, [], [], [], []⟩

/-- What the handler is called with: an error, or the count. -/
def outcome (result : Int) : Option Nat := if result < 0 then none else some result.toNat

inductive Event where
  | asyncReadSome
  | wait (i : Nat)
  | peek (i : Nat)
  | drop (i : Nat)
  /-- The call of Windows that the thread is in fails. -/
  | fail (i : Nat)
  /-- `read` returns, and has taken so many records. -/
  | read (i : Nat) (result : Int) (count : Nat)
  | lock (i : Nat)
  | check (i : Nat)
  | post (i : Nat)
  | unlock (i : Nat)
  | lockDestructor
  | signal
  | kill
  | unlockDestructor
  | arrive (pressed : Bool)

/-- Thread `i` goes on. -/
def StreamDescriptor.go (s : StreamDescriptor) (i : Nat) (phase : Phase) : StreamDescriptor :=
  { s with threads := s.threads.set i phase }

def step (event : Event) (s : StreamDescriptor) : Option StreamDescriptor :=
  match event with
  | .asyncReadSome =>
      if s.destruction = .ahead then
        let first := if s.console.isSome then Phase.waiting else .reading
        some { s with threads := s.threads ++ [first] }
      else none
  | .wait i =>
      if s.threads[i]? = some .waiting then
        -- the event of the destructor wakes one thread
        if s.signalled then some { s.go i .returned with signalled := false }
        else if s.console = some [] then none
        else some (s.go i .peeking)
      else none
  | .peek i =>
      if s.threads[i]? = some .peeking then
        match s.console with
        | some (false :: _) => some (s.go i .dropping)
        | _ => some (s.go i .reading)
      else none
  | .drop i =>
      if s.threads[i]? = some .dropping then
        match s.console with
        | some (pressed :: records) =>
            some { s.go i .waiting with
              console := some records, dropped := s.dropped ++ [pressed] }
        | _ => none
      else none
  | .fail i =>
      match s.threads[i]? with
      | some .waiting => some { s.go i .returned with failed := s.failed ++ [i] }
      | some .peeking => some (s.go i .reading)
      | some .dropping => some (s.go i .waiting)
      | _ => none
  | .read i result count =>
      if s.threads[i]? = some .reading then
        some { s.go i (.locking result) with
          console := s.console.map (List.drop count), results := s.results ++ [(i, result)] }
      else none
  | .lock i =>
      match s.threads[i]? with
      | some (.locking result) =>
          if s.holder = .nobody then some { s.go i (.checking result) with holder := .thread i }
          else none
      | _ => none
  | .check i =>
      match s.threads[i]? with
      | some (.checking result) => some (s.go i (if s.dead then .unlocking else .posting result))
      | _ => none
  | .post i =>
      match s.threads[i]? with
      | some (.posting result) =>
          some { s.go i .unlocking with posted := s.posted ++ [(i, outcome result)] }
      | _ => none
  | .unlock i =>
      if s.threads[i]? = some .unlocking then some { s.go i .returned with holder := .nobody }
      else none
  | .lockDestructor =>
      if s.destruction = .ahead ∧ s.holder = .nobody then
        some { s with destruction := .signalling, holder := .destructor }
      else none
  | .signal =>
      if s.destruction = .signalling then
        some { s with destruction := .killing, signalled := true }
      else none
  | .kill =>
      if s.destruction = .killing then some { s with destruction := .unlocking, dead := true }
      else none
  | .unlockDestructor =>
      if s.destruction = .unlocking then
        some { s with destruction := .behind, holder := .nobody }
      else none
  | .arrive pressed => some { s with console := s.console.map (· ++ [pressed]) }

/-- Only thread `i` has gone on. -/
theorem getElem?_go {threads : List Phase} {i : Nat} {old : Phase} (h : threads[i]? = some old)
    (new : Phase) (j : Nat) :
    (threads.set i new)[j]? = if j = i then some new else threads[j]? := by
  obtain ⟨hlt, -⟩ := List.getElem?_eq_some_iff.mp h
  by_cases heq : j = i
  · rw [heq, List.getElem?_set_self hlt, if_pos rfl]
  · rw [List.getElem?_set_ne (Ne.symm heq), if_neg heq]

theorem getElem?_spawn (threads : List Phase) (new : Phase) (j : Nat) :
    (threads ++ [new])[j]? = if j = threads.length then some new else threads[j]? := by
  rw [List.getElem?_append]
  split_ifs with hlt heq heq
  · omega
  · rfl
  · simp [heq]
  · rw [List.getElem?_eq_none (by simp; omega), List.getElem?_eq_none (by omega)]

/-! ## The mutex -/

def Phase.Holds (phase : Phase) : Prop :=
  phase = .unlocking ∨ ∃ result, phase = .checking result ∨ phase = .posting result

def Destruction.Holds (destruction : Destruction) : Prop :=
  destruction = .signalling ∨ destruction = .killing ∨ destruction = .unlocking

/-- The mutex is held where it is said to be: a thread in front of `io.post` has found the stream
alive, and while it has the mutex nobody sets `dead`. -/
structure Exclusive (threads : List Phase) (destruction : Destruction) (holder : Holder)
    (dead : Bool) : Prop where
  thread : ∀ (i : Nat) (phase : Phase), threads[i]? = some phase → phase.Holds →
    holder = .thread i
  destructor : destruction.Holds → holder = .destructor
  died : dead = true ↔ destruction = .unlocking ∨ destruction = .behind
  alive : ∀ (i : Nat) (result : Int), threads[i]? = some (.posting result) → dead = false

section Mutex

variable {threads : List Phase} {destruction : Destruction} {holder : Holder} {dead : Bool}
  {i : Nat} {old new : Phase}

/-- A thread goes on without the mutex. -/
theorem Exclusive.go (h : Exclusive threads destruction holder dead) (hi : threads[i]? = some old)
    (hnew : ¬new.Holds) : Exclusive (threads.set i new) destruction holder dead := by
  obtain ⟨hthread, hdestructor, hdied, halive⟩ := h
  have hgo := getElem?_go hi new
  constructor
  case destructor => exact hdestructor
  case died => exact hdied
  all_goals grind [Phase.Holds]

theorem Exclusive.spawn (h : Exclusive threads destruction holder dead) (hnew : ¬new.Holds) :
    Exclusive (threads ++ [new]) destruction holder dead := by
  obtain ⟨hthread, hdestructor, hdied, halive⟩ := h
  have hgo := getElem?_spawn threads new
  constructor
  case destructor => exact hdestructor
  case died => exact hdied
  all_goals grind [Phase.Holds]

/-- A thread takes the mutex. -/
theorem Exclusive.locks (h : Exclusive threads destruction .nobody dead) {result : Int}
    (hi : threads[i]? = some (.locking result)) :
    Exclusive (threads.set i (.checking result)) destruction (.thread i) dead := by
  obtain ⟨hthread, hdestructor, hdied, halive⟩ := h
  have hgo := getElem?_go hi (.checking result)
  constructor
  case died => exact hdied
  all_goals grind [Phase.Holds]

/-- A thread with the mutex goes on, and does not post behind `dead`. -/
theorem Exclusive.keeps (h : Exclusive threads destruction holder dead)
    (hi : threads[i]? = some old) (hold : old.Holds)
    (hnew : ∀ result, new = .posting result → dead = false) :
    Exclusive (threads.set i new) destruction holder dead := by
  obtain ⟨hthread, hdestructor, hdied, halive⟩ := h
  have hgo := getElem?_go hi new
  constructor
  case destructor => exact hdestructor
  case died => exact hdied
  all_goals grind [Phase.Holds]

/-- A thread releases the mutex; no other one has it. -/
theorem Exclusive.unlocks (h : Exclusive threads destruction holder dead)
    (hi : threads[i]? = some .unlocking) :
    Exclusive (threads.set i .returned) destruction .nobody dead := by
  obtain ⟨hthread, hdestructor, hdied, halive⟩ := h
  have hgo := getElem?_go hi .returned
  have hholder := hthread i _ hi (Or.inl rfl)
  constructor
  case died => exact hdied
  all_goals grind [Phase.Holds]

/-- The destructor takes the mutex. -/
theorem Exclusive.destroys (h : Exclusive threads .ahead .nobody dead) :
    Exclusive threads .signalling .destructor dead := by
  obtain ⟨hthread, hdestructor, hdied, halive⟩ := h
  constructor
  case alive => exact halive
  all_goals grind

theorem Exclusive.signals (h : Exclusive threads .signalling holder dead) :
    Exclusive threads .killing holder dead := by
  obtain ⟨hthread, hdestructor, hdied, halive⟩ := h
  constructor
  case thread => exact hthread
  case alive => exact halive
  all_goals grind [Destruction.Holds]

/-- The destructor has the mutex, and so no thread is in front of `io.post`. -/
theorem Exclusive.kills (h : Exclusive threads .killing holder dead) :
    Exclusive threads .unlocking holder true := by
  obtain ⟨hthread, hdestructor, hdied, halive⟩ := h
  have hholder := hdestructor (Or.inr (Or.inl rfl))
  constructor
  case thread => exact hthread
  all_goals grind [Phase.Holds]

theorem Exclusive.leaves (h : Exclusive threads .unlocking holder dead) :
    Exclusive threads .behind .nobody dead := by
  obtain ⟨hthread, hdestructor, hdied, halive⟩ := h
  have hholder := hdestructor (Or.inr (Or.inr rfl))
  constructor
  case alive => exact halive
  all_goals grind [Destruction.Holds]

end Mutex

/-! ## What is posted -/

/-- What is known of a thread whose `read` has returned this. -/
def Phase.IsBehind (phase : Phase) (result : Int) : Prop :=
  phase = .locking result ∨ phase = .checking result ∨ phase = .posting result ∨
    phase = .unlocking ∨ phase = .returned

/-- What every step keeps. -/
structure Delivers (threads : List Phase) (destruction : Destruction) (signalled : Bool)
    (results : List (Nat × Int)) (posted : List (Nat × Option Nat)) (failed : List Nat) :
    Prop where
  fromRead : ∀ (i : Nat) (result : Int), (threads[i]? = some (.locking result) ∨
    threads[i]? = some (.checking result) ∨ threads[i]? = some (.posting result)) →
      (i, result) ∈ results
  read : ∀ entry ∈ results, ∃ phase, threads[entry.1]? = some phase ∧ phase.IsBehind entry.2
  readOnce : (results.map Prod.fst).Nodup
  fromResult : ∀ entry ∈ posted,
    (threads[entry.1]? = some .unlocking ∨ threads[entry.1]? = some .returned) ∧
      ∃ result, (entry.1, result) ∈ results ∧ entry.2 = outcome result
  postedOnce : (posted.map Prod.fst).Nodup
  delivered : destruction = .ahead → ∀ i : Nat,
    threads[i]? = some .unlocking ∨ threads[i]? = some .returned →
      i ∈ posted.map Prod.fst ∨ i ∈ failed
  signals : signalled = true → destruction ≠ .ahead

/-- A thread that has not come to its read. -/
def Phase.IsEarly (phase : Phase) : Prop :=
  phase = .waiting ∨ phase = .peeking ∨ phase = .dropping ∨ phase = .reading

section Threads

variable {threads : List Phase} {destruction : Destruction} {signalled : Bool}
  {results : List (Nat × Int)} {posted : List (Nat × Option Nat)} {failed : List Nat} {i : Nat}
  {old new : Phase} {result : Int}

/-- A new thread. -/
theorem Delivers.spawn (h : Delivers threads destruction signalled results posted failed)
    (hnew : new.IsEarly) :
    Delivers (threads ++ [new]) destruction signalled results posted failed := by
  obtain ⟨hfromRead, hread, hreadOnce, hfromResult, hpostedOnce, hdelivered, hsignals⟩ := h
  have hgo := getElem?_spawn threads new
  constructor
  case readOnce => exact hreadOnce
  case postedOnce => exact hpostedOnce
  all_goals grind [Phase.IsEarly, Phase.IsBehind]

/-- A thread on its way to its read. -/
theorem Delivers.early (h : Delivers threads destruction signalled results posted failed)
    (hi : threads[i]? = some old) (hold : old.IsEarly) (hnew : new.IsEarly) :
    Delivers (threads.set i new) destruction signalled results posted failed := by
  obtain ⟨hfromRead, hread, hreadOnce, hfromResult, hpostedOnce, hdelivered, hsignals⟩ := h
  have hgo := getElem?_go hi new
  constructor
  case readOnce => exact hreadOnce
  case postedOnce => exact hpostedOnce
  all_goals grind [Phase.IsEarly, Phase.IsBehind]

/-- A thread that is woken by the destructor. -/
theorem Delivers.woken (h : Delivers threads destruction true results posted failed)
    (hi : threads[i]? = some .waiting) :
    Delivers (threads.set i .returned) destruction false results posted failed := by
  obtain ⟨hfromRead, hread, hreadOnce, hfromResult, hpostedOnce, hdelivered, hsignals⟩ := h
  have hgo := getElem?_go hi .returned
  have hstarted := hsignals rfl
  constructor
  case readOnce => exact hreadOnce
  case postedOnce => exact hpostedOnce
  all_goals grind [Phase.IsBehind]

/-- A thread whose wait fails. -/
theorem Delivers.fails (h : Delivers threads destruction signalled results posted failed)
    (hi : threads[i]? = some .waiting) :
    Delivers (threads.set i .returned) destruction signalled results posted (failed ++ [i]) := by
  obtain ⟨hfromRead, hread, hreadOnce, hfromResult, hpostedOnce, hdelivered, hsignals⟩ := h
  have hgo := getElem?_go hi .returned
  constructor
  case readOnce => exact hreadOnce
  case postedOnce => exact hpostedOnce
  all_goals grind [Phase.IsBehind]

/-- `read` returns. -/
theorem Delivers.reads (h : Delivers threads destruction signalled results posted failed)
    (hi : threads[i]? = some .reading) (result : Int) :
    Delivers (threads.set i (.locking result)) destruction signalled (results ++ [(i, result)])
      posted failed := by
  obtain ⟨hfromRead, hread, hreadOnce, hfromResult, hpostedOnce, hdelivered, hsignals⟩ := h
  have hgo := getElem?_go hi (.locking result)
  have hnew : i ∉ results.map Prod.fst := by
    intro hmem
    obtain ⟨entry, hentry, rfl⟩ := List.mem_map.mp hmem
    obtain ⟨phase, hphase, hbehind⟩ := hread entry hentry
    rw [hi] at hphase
    cases hphase
    simp [Phase.IsBehind] at hbehind
  constructor
  case readOnce =>
    rw [List.map_append, List.map_singleton]
    exact hreadOnce.append (List.nodup_singleton _) (by simpa using hnew)
  case postedOnce => exact hpostedOnce
  all_goals grind [Phase.IsBehind]

/-- A thread takes the mutex, or finds the stream alive. -/
theorem Delivers.carries (h : Delivers threads destruction signalled results posted failed)
    (hi : threads[i]? = some old) (hold : old = .locking result ∨ old = .checking result)
    (hnew : new = .checking result ∨ new = .posting result) :
    Delivers (threads.set i new) destruction signalled results posted failed := by
  obtain ⟨hfromRead, hread, hreadOnce, hfromResult, hpostedOnce, hdelivered, hsignals⟩ := h
  have hgo := getElem?_go hi new
  constructor
  case readOnce => exact hreadOnce
  case postedOnce => exact hpostedOnce
  all_goals grind [Phase.IsBehind]

/-- A thread finds the stream dead. -/
theorem Delivers.drops (h : Delivers threads destruction signalled results posted failed)
    (hi : threads[i]? = some (.checking result)) (hstarted : destruction ≠ .ahead) :
    Delivers (threads.set i .unlocking) destruction signalled results posted failed := by
  obtain ⟨hfromRead, hread, hreadOnce, hfromResult, hpostedOnce, hdelivered, hsignals⟩ := h
  have hgo := getElem?_go hi .unlocking
  constructor
  case readOnce => exact hreadOnce
  case postedOnce => exact hpostedOnce
  all_goals grind [Phase.IsBehind]

/-- A thread posts what it has read. -/
theorem Delivers.posts (h : Delivers threads destruction signalled results posted failed)
    (hi : threads[i]? = some (.posting result)) :
    Delivers (threads.set i .unlocking) destruction signalled results
      (posted ++ [(i, outcome result)]) failed := by
  obtain ⟨hfromRead, hread, hreadOnce, hfromResult, hpostedOnce, hdelivered, hsignals⟩ := h
  have hgo := getElem?_go hi .unlocking
  have hnew : i ∉ posted.map Prod.fst := by
    intro hmem
    obtain ⟨entry, hentry, rfl⟩ := List.mem_map.mp hmem
    rcases (hfromResult entry hentry).1 with hphase | hphase <;> rw [hi] at hphase <;> cases hphase
  constructor
  case readOnce => exact hreadOnce
  all_goals grind [Phase.IsBehind]

/-- A thread releases the mutex. -/
theorem Delivers.unlocks (h : Delivers threads destruction signalled results posted failed)
    (hi : threads[i]? = some .unlocking) :
    Delivers (threads.set i .returned) destruction signalled results posted failed := by
  obtain ⟨hfromRead, hread, hreadOnce, hfromResult, hpostedOnce, hdelivered, hsignals⟩ := h
  have hgo := getElem?_go hi .returned
  constructor
  case readOnce => exact hreadOnce
  case postedOnce => exact hpostedOnce
  all_goals grind [Phase.IsBehind]

/-- The destructor goes on. -/
theorem Delivers.destroys (h : Delivers threads destruction signalled results posted failed)
    (destruction' : Destruction) (hstarted : destruction' ≠ .ahead) (signalled' : Bool) :
    Delivers threads destruction' signalled' results posted failed where
  fromRead := h.fromRead
  read := h.read
  readOnce := h.readOnce
  fromResult := h.fromResult
  postedOnce := h.postedOnce
  delivered := fun hahead => absurd hahead hstarted
  signals := fun _ => hstarted

end Threads

section Steps

variable {s s' : StreamDescriptor} {event : Event} {events : List Event}

/-- The invariant of a stream descriptor. -/
structure StreamDescriptor.Sound (s : StreamDescriptor) : Prop where
  exclusive : Exclusive s.threads s.destruction s.holder s.dead
  delivers : Delivers s.threads s.destruction s.signalled s.results s.posted s.failed

theorem sound_start (console : Option (List Bool)) : (start console).Sound := by
  constructor <;> constructor <;> simp [start, Destruction.Holds]

/-- A thread on its way to its read goes on, whatever becomes of the records. -/
theorem StreamDescriptor.Sound.early (h : s.Sound) {i : Nat} {old new : Phase}
    (hi : s.threads[i]? = some old) (hold : old.IsEarly) (hnew : new.IsEarly)
    (console : Option (List Bool)) (dropped : List Bool) :
    StreamDescriptor.Sound { s.go i new with console := console, dropped := dropped } := by
  have hfree : ¬new.Holds := by
    rcases hnew with rfl | rfl | rfl | rfl <;> simp [Phase.Holds]
  exact ⟨h.exclusive.go hi hfree, h.delivers.early hi hold hnew⟩

theorem sound_step (h : s.Sound) (hstep : step event s = some s') : s'.Sound := by
  have hearly := @StreamDescriptor.Sound.early s h
  obtain ⟨hexclusive, hdelivers⟩ := h
  cases event with
  | asyncReadSome =>
      rw [step] at hstep
      split at hstep
      · cases hstep
        constructor
        · refine hexclusive.spawn ?_
          split_ifs <;> simp [Phase.Holds]
        · refine hdelivers.spawn ?_
          split_ifs <;> simp [Phase.IsEarly]
      · cases hstep
  | wait i =>
      rw [step] at hstep
      split_ifs at hstep with hi hsignalled
      · cases hstep
        rw [hsignalled] at hdelivers
        exact ⟨hexclusive.go hi (by simp [Phase.Holds]), hdelivers.woken hi⟩
      · cases hstep
        exact hearly hi (by simp [Phase.IsEarly]) (by simp [Phase.IsEarly]) _ _
  | peek i =>
      rw [step] at hstep
      split_ifs at hstep with hi
      split at hstep
      all_goals
        cases hstep
        exact hearly hi (by simp [Phase.IsEarly]) (by simp [Phase.IsEarly]) _ _
  | drop i =>
      rw [step] at hstep
      split_ifs at hstep with hi
      split at hstep
      · cases hstep
        exact hearly hi (by simp [Phase.IsEarly]) (by simp [Phase.IsEarly]) _ _
      · cases hstep
  | fail i =>
      rw [step] at hstep
      split at hstep
      next hi =>
        cases hstep
        exact ⟨hexclusive.go hi (by simp [Phase.Holds]), hdelivers.fails hi⟩
      next hi =>
        cases hstep
        exact hearly hi (by simp [Phase.IsEarly]) (by simp [Phase.IsEarly]) _ _
      next hi =>
        cases hstep
        exact hearly hi (by simp [Phase.IsEarly]) (by simp [Phase.IsEarly]) _ _
      next => cases hstep
  | read i result count =>
      rw [step] at hstep
      split_ifs at hstep with hi
      cases hstep
      exact ⟨hexclusive.go hi (by simp [Phase.Holds]), hdelivers.reads hi result⟩
  | lock i =>
      rw [step] at hstep
      split at hstep
      next result hi =>
        split_ifs at hstep with hholder
        cases hstep
        rw [hholder] at hexclusive
        exact ⟨hexclusive.locks hi, hdelivers.carries hi (Or.inl rfl) (Or.inl rfl)⟩
      next => cases hstep
  | check i =>
      rw [step] at hstep
      split at hstep
      next result hi =>
        cases hstep
        have hholds : (Phase.checking result).Holds := Or.inr ⟨result, Or.inl rfl⟩
        cases hdead : s.dead with
        | false =>
            rw [if_neg Bool.false_ne_true]
            exact ⟨hexclusive.keeps hi hholds fun _ _ => hdead,
              hdelivers.carries hi (Or.inr rfl) (Or.inr rfl)⟩
        | true =>
            have hstarted : s.destruction ≠ .ahead := by
              rcases hexclusive.died.mp hdead with h | h <;> simp [h]
            rw [if_pos rfl]
            exact ⟨hexclusive.keeps hi hholds nofun, hdelivers.drops hi hstarted⟩
      next => cases hstep
  | post i =>
      rw [step] at hstep
      split at hstep
      next result hi =>
        cases hstep
        exact ⟨hexclusive.keeps hi (Or.inr ⟨result, Or.inr rfl⟩) nofun, hdelivers.posts hi⟩
      next => cases hstep
  | unlock i =>
      rw [step] at hstep
      split_ifs at hstep with hi
      cases hstep
      exact ⟨hexclusive.unlocks hi, hdelivers.unlocks hi⟩
  | lockDestructor =>
      rw [step] at hstep
      split_ifs at hstep with hfree
      cases hstep
      rw [hfree.1, hfree.2] at hexclusive
      exact ⟨hexclusive.destroys, hdelivers.destroys .signalling (by decide) s.signalled⟩
  | signal =>
      rw [step] at hstep
      split_ifs at hstep with hnext
      cases hstep
      rw [hnext] at hexclusive
      exact ⟨hexclusive.signals, hdelivers.destroys .killing (by decide) true⟩
  | kill =>
      rw [step] at hstep
      split_ifs at hstep with hnext
      cases hstep
      rw [hnext] at hexclusive
      exact ⟨hexclusive.kills, hdelivers.destroys .unlocking (by decide) s.signalled⟩
  | unlockDestructor =>
      rw [step] at hstep
      split_ifs at hstep with hnext
      cases hstep
      rw [hnext] at hexclusive
      exact ⟨hexclusive.leaves, hdelivers.destroys .behind (by decide) s.signalled⟩
  | arrive pressed =>
      cases hstep
      exact ⟨hexclusive, hdelivers⟩

/-- Where the stream is dead no thread is in front of `io.post`, and nothing is posted. -/
theorem dead_step (hsound : s.Sound) (h : s.dead = true) (hstep : step event s = some s') :
    s'.dead = true ∧ s'.posted = s.posted := by
  cases event with
  | post i =>
      rw [step] at hstep
      split at hstep
      next result hi =>
        have halive := hsound.exclusive.alive i result hi
        rw [h] at halive
        cases halive
      next => cases hstep
  | kill =>
      rw [step] at hstep
      split_ifs at hstep
      cases hstep
      exact ⟨rfl, rfl⟩
  | _ =>
      simp only [step] at hstep
      grind [StreamDescriptor.go]

theorem dead_run (hsound : s.Sound) (h : s.dead = true) (hrun : run step events s = some s') :
    s'.posted = s.posted := by
  have hkept : ∀ event now next, now.Sound ∧ now.dead = true ∧ now.posted = s.posted →
      step event now = some next → next.Sound ∧ next.dead = true ∧ next.posted = s.posted := by
    rintro event now next ⟨hnow, hdead, hposted⟩ hstep
    obtain ⟨hdead', hposted'⟩ := dead_step hnow hdead hstep
    exact ⟨sound_step hnow hstep, hdead', hposted'.trans hposted⟩
  exact (run_invariant hkept hrun ⟨hsound, h, rfl⟩).2.2

end Steps

/-- In every interleaving of the threads, the caller and the destructor, the handler of each read is
posted once at most, and with what its own `read` has returned.  Up to the destructor it has been
posted for each thread that is back, unless its wait has failed, and once `dead` is set no handler
is posted. -/
theorem posted_once (console : Option (List Bool)) (events : List Event) {s : StreamDescriptor}
    (hrun : run step events (start console) = some s) :
    (s.posted.map Prod.fst).Nodup ∧ (s.results.map Prod.fst).Nodup ∧
      (∀ entry ∈ s.posted, ∃ result, (entry.1, result) ∈ s.results ∧ entry.2 = outcome result) ∧
      (s.destruction = .ahead → ∀ i : Nat, s.threads[i]? = some .returned →
        i ∈ s.posted.map Prod.fst ∨ i ∈ s.failed) ∧
      (s.dead = true → ∀ more s', run step more s = some s' → s'.posted = s.posted) := by
  have hsound : s.Sound :=
    run_invariant (fun _ _ _ h hstep => sound_step h hstep) hrun (sound_start console)
  have hdelivers := hsound.delivers
  exact ⟨hdelivers.postedOnce, hdelivers.readOnce,
    fun entry hmem => (hdelivers.fromResult entry hmem).2,
    fun hahead i hi => hdelivers.delivered hahead i (Or.inr hi),
    fun hdead more s' hmore => dead_run hsound hdead hmore⟩

/-- A key is released and another pressed, which is read; the next read waits for the
destructor. -/
def oneKey : List Event :=
  [.asyncReadSome, .arrive false, .wait 0, .peek 0, .arrive true, .drop 0, .wait 0, .peek 0,
    .read 0 1 1, .lock 0, .check 0, .post 0, .unlock 0, .asyncReadSome, .lockDestructor, .signal,
    .kill, .unlockDestructor]

theorem posted_once_key : ∃ s, run step oneKey (start (some [])) = some s ∧
    s.posted = [(0, some 1)] ∧
      ∀ s', run step [.wait 1] s = some s' → s'.posted = [(0, some 1)] := by
  have hends : (run step oneKey (start (some []))).any
      (fun s => s.posted = [(0, some 1)] ∧ s.dead = true) = true := by
    decide
  obtain ⟨s, hrun, hposted⟩ := (Option.any_eq_true _ _).mp hends
  obtain ⟨hposted, hdead⟩ := of_decide_eq_true hposted
  refine ⟨s, hrun, hposted, fun s' hmore => ?_⟩
  rw [(posted_once (some []) oneKey hrun).2.2.2.2 hdead [.wait 1] s' hmore, hposted]

/-! ## One read at a time -/

/-- A thread that is behind its post. -/
def Phase.IsDone (phase : Phase) : Prop := phase = .unlocking ∨ phase = .returned

instance (phase : Phase) : Decidable phase.IsDone := inferInstanceAs (Decidable (_ ∨ _))

/-- A read is only asked for when all threads are behind their posts, as by the composed reads of
`asio`, which ask for the next one in the handler of the last. -/
def stepInTurn (event : Event) (s : StreamDescriptor) : Option StreamDescriptor :=
  match event with
  | .asyncReadSome => if ∀ phase ∈ s.threads, phase.IsDone then step .asyncReadSome s else none
  | event => step event s

theorem stepInTurn_eq_some {event : Event} {s s' : StreamDescriptor}
    (h : stepInTurn event s = some s') :
    step event s = some s' ∧
      (event = .asyncReadSome → ∀ phase ∈ s.threads, phase.IsDone) := by
  cases event with
  | asyncReadSome =>
      rw [stepInTurn] at h
      split_ifs at h with hdone
      exact ⟨h, fun _ => hdone⟩
  | _ => exact ⟨h, nofun⟩

/-- At most one thread is in front of its post; what it is about to take out of the input is no key
press, and behind the destructor it will be woken if it waits. -/
structure Lone (console : Option (List Bool)) (threads : List Phase) (destruction : Destruction)
    (signalled : Bool) (dropped : List Bool) : Prop where
  lone : ∀ (i j : Nat) (p q : Phase), threads[i]? = some p → threads[j]? = some q →
    ¬p.IsDone → ¬q.IsDone → i = j
  peeked : ∀ i : Nat, threads[i]? = some .dropping → ∃ records, console = some (false :: records)
  kept : true ∉ dropped
  woken : destruction ≠ .ahead → destruction ≠ .signalling → ∀ (i : Nat) (p : Phase),
    threads[i]? = some p → ¬p.IsDone → signalled = true

section Turns

variable {console console' : Option (List Bool)} {threads : List Phase}
  {destruction : Destruction} {signalled signalled' : Bool} {dropped dropped' : List Bool}

/-- The thread that is in front of its post goes on. -/
theorem Lone.go (h : Lone console threads destruction signalled dropped) {i : Nat}
    {old new : Phase} (hi : threads[i]? = some old) (hold : ¬old.IsDone)
    (hpeeked : new = .dropping → ∃ records, console' = some (false :: records))
    (hkept : true ∉ dropped')
    (hwoken : ¬new.IsDone → signalled' = signalled) :
    Lone console' (threads.set i new) destruction signalled' dropped' := by
  obtain ⟨hlone, -, -, hsignalled⟩ := h
  have hgo := getElem?_go hi new
  constructor
  case kept => exact hkept
  all_goals grind [Phase.IsDone]

/-- A thread that is behind its post returns. -/
theorem Lone.unlocks (h : Lone console threads destruction signalled dropped) {i : Nat}
    (hi : threads[i]? = some .unlocking) :
    Lone console (threads.set i .returned) destruction signalled dropped := by
  obtain ⟨hlone, hpeeked, hkept, hsignalled⟩ := h
  have hgo := getElem?_go hi .returned
  constructor
  case kept => exact hkept
  all_goals grind [Phase.IsDone]

/-- All threads are behind their posts, and another one is made. -/
theorem Lone.spawn (h : Lone console threads .ahead signalled dropped)
    (hdone : ∀ phase ∈ threads, phase.IsDone) {new : Phase} (hnew : new ≠ .dropping) :
    Lone console (threads ++ [new]) .ahead signalled dropped := by
  have hlast : ∀ (j : Nat) (p : Phase), (threads ++ [new])[j]? = some p → ¬p.IsDone →
      j = threads.length ∧ p = new := by
    intro j p hp hnot
    rw [getElem?_spawn] at hp
    split_ifs at hp with heq
    · exact ⟨heq, (Option.some.inj hp).symm⟩
    · exact (hnot (hdone p (List.mem_of_getElem? hp))).elim
  constructor
  case kept => exact h.kept
  case woken => exact fun hstarted => absurd rfl hstarted
  case lone =>
    intro i j p q hp hq hpnot hqnot
    rw [(hlast i p hp hpnot).1, (hlast j q hq hqnot).1]
  case peeked =>
    intro i hi
    exact absurd (hlast i _ hi (by simp [Phase.IsDone])).2.symm hnew

/-- The invariant of a stream descriptor that is read in turn. -/
def StreamDescriptor.Lone (s : StreamDescriptor) : Prop :=
  ReadThreads.Lone s.console s.threads s.destruction s.signalled s.dropped

theorem lone_start (console : Option (List Bool)) : (start console).Lone := by
  constructor <;> simp [start]

theorem lone_stepInTurn {event : Event} {s s' : StreamDescriptor} (h : s.Lone)
    (hturn : stepInTurn event s = some s') : s'.Lone := by
  obtain ⟨hstep, hdone⟩ := stepInTurn_eq_some hturn
  cases event with
  | asyncReadSome =>
      rw [step] at hstep
      split at hstep
      case isTrue hahead =>
        cases hstep
        rw [StreamDescriptor.Lone, hahead] at h
        change ReadThreads.Lone _ _ s.destruction _ _
        rw [hahead]
        refine h.spawn (hdone rfl) ?_
        split_ifs <;> nofun
      case isFalse => cases hstep
  | wait i =>
      rw [step] at hstep
      split_ifs at hstep with hi hsignalled
      · cases hstep
        exact h.go hi (by decide) nofun h.kept fun hnot => (hnot (Or.inr rfl)).elim
      · cases hstep
        exact h.go hi (by simp [Phase.IsDone]) nofun h.kept fun _ => rfl
  | peek i =>
      rw [step] at hstep
      split_ifs at hstep with hi
      split at hstep
      · cases hstep
        exact h.go hi (by decide) (fun _ => ⟨_, ‹_›⟩) h.kept fun _ => rfl
      · cases hstep
        exact h.go hi (by simp [Phase.IsDone]) nofun h.kept fun _ => rfl
  | drop i =>
      rw [step] at hstep
      split_ifs at hstep with hi
      obtain ⟨records, hrecords⟩ := h.peeked i hi
      rw [hrecords] at hstep
      cases hstep
      refine h.go hi (by decide) nofun ?_ fun _ => rfl
      simpa using h.kept
  | fail i =>
      rw [step] at hstep
      split at hstep
      next hi =>
        cases hstep
        exact h.go hi (by decide) nofun h.kept fun hnot => (hnot (Or.inr rfl)).elim
      next hi =>
        cases hstep
        exact h.go hi (by simp [Phase.IsDone]) nofun h.kept fun _ => rfl
      next hi =>
        cases hstep
        exact h.go hi (by simp [Phase.IsDone]) nofun h.kept fun _ => rfl
      next => cases hstep
  | read i result count =>
      rw [step] at hstep
      split_ifs at hstep with hi
      cases hstep
      exact h.go hi (by simp [Phase.IsDone]) nofun h.kept fun _ => rfl
  | lock i =>
      rw [step] at hstep
      split at hstep
      next result hi =>
        split_ifs at hstep
        cases hstep
        exact h.go hi (by simp [Phase.IsDone]) nofun h.kept fun _ => rfl
      next => cases hstep
  | check i =>
      rw [step] at hstep
      split at hstep
      next result hi =>
        cases hstep
        refine h.go hi (by simp [Phase.IsDone]) ?_ h.kept fun _ => rfl
        split_ifs <;> nofun
      next => cases hstep
  | post i =>
      rw [step] at hstep
      split at hstep
      next result hi =>
        cases hstep
        exact h.go hi (by simp [Phase.IsDone]) nofun h.kept fun _ => rfl
      next => cases hstep
  | unlock i =>
      rw [step] at hstep
      split_ifs at hstep with hi
      cases hstep
      exact h.unlocks hi
  | lockDestructor =>
      rw [step] at hstep
      split_ifs at hstep
      cases hstep
      exact ⟨h.lone, h.peeked, h.kept, fun _ hnot => absurd rfl hnot⟩
  | signal =>
      rw [step] at hstep
      split_ifs at hstep
      cases hstep
      exact ⟨h.lone, h.peeked, h.kept, fun _ _ _ _ _ _ => rfl⟩
  | kill =>
      rw [step] at hstep
      split_ifs at hstep with hnext
      cases hstep
      exact ⟨h.lone, h.peeked, h.kept, fun _ _ => h.woken (by simp [hnext]) (by simp [hnext])⟩
  | unlockDestructor =>
      rw [step] at hstep
      split_ifs at hstep with hnext
      cases hstep
      exact ⟨h.lone, h.peeked, h.kept, fun _ _ => h.woken (by simp [hnext]) (by simp [hnext])⟩
  | arrive pressed =>
      cases hstep
      refine ⟨h.lone, fun i hi => ?_, h.kept, h.woken⟩
      obtain ⟨records, hrecords⟩ := h.peeked i hi
      exact ⟨records ++ [pressed], by simp [hrecords]⟩

end Turns

/-- Where reads are asked for in turn, no key press is taken out of the input but by `read`, and a
thread that waits behind the destructor returns without one. -/
theorem no_key_dropped (console : Option (List Bool)) (events : List Event) {s : StreamDescriptor}
    (hrun : run stepInTurn events (start console) = some s) :
    true ∉ s.dropped ∧ (s.dead = true → ∀ i : Nat, s.threads[i]? = some .waiting →
      ∃ s', step (.wait i) s = some s' ∧ s'.threads[i]? = some .returned) := by
  have hsound : s.Sound := run_invariant
    (fun _ _ _ h hstep => sound_step h (stepInTurn_eq_some hstep).1) hrun (sound_start console)
  have hlone : s.Lone :=
    run_invariant (fun _ _ _ h hstep => lone_stepInTurn h hstep) hrun (lone_start console)
  refine ⟨hlone.kept, fun hdead i hi => ?_⟩
  have hstarted : s.destruction ≠ .ahead ∧ s.destruction ≠ .signalling := by
    rcases hsound.exclusive.died.mp hdead with h | h <;> simp [h]
  have hsignalled := hlone.woken hstarted.1 hstarted.2 i _ hi (by decide)
  refine ⟨_, by rw [step, if_pos hi, if_pos hsignalled], ?_⟩
  exact (getElem?_go hi .returned i).trans (if_pos rfl)

theorem no_key_dropped_key : ∃ s, run stepInTurn oneKey (start (some [])) = some s ∧
    s.dropped = [false] ∧ ∃ s', step (.wait 1) s = some s' ∧ s'.threads[1]? = some .returned := by
  have hends : (run stepInTurn oneKey (start (some []))).any
      (fun s => s.dropped = [false] ∧ s.dead = true ∧ s.threads[1]? = some .waiting) = true := by
    decide
  obtain ⟨s, hrun, hs⟩ := (Option.any_eq_true _ _).mp hends
  obtain ⟨hdropped, hdead, hwaiting⟩ := of_decide_eq_true hs
  exact ⟨s, hrun, hdropped, (no_key_dropped (some []) oneKey hrun).2 hdead 1 hwaiting⟩

/-- With two reads at a time, both have seen the same record; the key press behind it is lost. -/
example : (run step [.asyncReadSome, .asyncReadSome, .arrive false, .arrive true, .wait 0, .wait 1,
    .peek 0, .peek 1, .drop 0, .drop 1] (start (some []))).map StreamDescriptor.dropped =
      some [false, true] := by
  decide

end BlackCircle.Console.ReadThreads
