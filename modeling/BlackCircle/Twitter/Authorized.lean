import BlackCircle.Http.CountedReader
import BlackCircle.Twitter.Authorization

/-!
# A granted authorization

When the provider answers both requests, the program comes to its end in every
order of the handlers, has made no third request, and has shown the token that
was granted.
-/

namespace BlackCircle.Twitter.Authorized

open BlackCircle.Foundation
open BlackCircle.Foundation.ByteString
open BlackCircle.Foundation.Delimiter
open BlackCircle.Foundation.EventRun
open BlackCircle.Foundation.InputStream
open BlackCircle.Foundation.Numeral
open BlackCircle.Foundation.ReadLoop
open BlackCircle.Console.Commands (isSpace)
open BlackCircle.Http.Client
open BlackCircle.Http.CountedReader
open BlackCircle.Http.Params
open BlackCircle.Http.Response
open BlackCircle.Oauth.Receiver
open BlackCircle.Twitter.Authorization
open BlackCircle.Twitter.Provider
open BlackCircle.Twitter.Service (consumerKey consumerSecret)
open BlackCircle.Twitter.SigningInputs (Plain)
open StateTransition

/-- On connection `i` one response arrives, with status 200 and a form. -/
structure Brings (world : World) (i : Nat) (r : Counted) (form : Form) : Prop where
  sent : ∃ segments closed, world.peer i = some (segments, closed) ∧ segments.flatten = r.text
  status : r.call.status.1 = 200
  body : r.body = form.text

/-- The provider answers both requests. -/
structure Grants (world : World) (requested accessed : Counted)
    (requestForm accessForm : Form) : Prop where
  width : world.width = 64
  requested : Brings world 0 requested requestForm
  accessed : Brings world 1 accessed accessForm

/-- No handler can run. -/
def AtRest (world : World) (p : Program) : Prop := ∀ i, step world i p = none

/-! ## One connection -/

section Connection

variable {world : World} {calls : List Call} {i : Nat} {c : Client} {r : Counted} {form : Form}

/-- The reader is on its way to its last state, in which it has made the one call. -/
theorem Brings.last (h : Brings world i r form) (hwidth : world.width = 64)
    (hown : Own world calls i c) :
    ∃ s ∈ eval (clientStep world.width) c.session, s.outputs = [r.call] ∧ failed s = false := by
  obtain ⟨segments, closed, hpeer, hsent⟩ := h.sent
  obtain ⟨segments', closed', hpeer', hreach⟩ := hown.reached
  rw [hpeer, Option.some.injEq, Prod.mk.injEq] at hpeer'
  obtain ⟨rfl, rfl⟩ := hpeer'
  obtain ⟨s, hlast, houtputs, hreturns⟩ :=
    rests_alone (h.body ▸ form.text_ne_nil) closed hsent
  rw [hwidth] at hreach ⊢
  refine ⟨s, reaches_eval hreach ▸ hlast, houtputs, ?_⟩
  rw [failed]
  split
  case h_1 fault hactivity => exact absurd hactivity (hreturns fault)
  case h_2 => rfl

theorem outputs_reaches {w : Nat} {s s' : ClientSession} (h : Reaches (clientStep w) s s') :
    s.outputs <+: s'.outputs := by
  refine @reaches_invariant _ _ (fun s' => s.outputs <+: s'.outputs) ?_ _ _ h List.prefix_rfl
  intro next last hnext hstep
  obtain ⟨new, hnew⟩ := outputs_step hstep
  exact hnext.trans ⟨new, hnew⟩

/-- Its calls have been the one call at most. -/
theorem Brings.called (h : Brings world i r form) (hwidth : world.width = 64)
    (hown : Own world calls i c) : dataOf i calls <+: [r.call] := by
  obtain ⟨s, hlast, houtputs, -⟩ := h.last hwidth hown
  rw [hown.called, ← houtputs]
  exact outputs_reaches (mem_eval.mp hlast).1

/-- A reader that is at rest has made the call. -/
theorem Brings.called_of_rest (h : Brings world i r form) (hwidth : world.width = 64)
    (hown : Own world calls i c) (hrest : clientStep world.width c.session = none) :
    dataOf i calls = [r.call] ∧ failed c.session = false := by
  obtain ⟨s, hlast, houtputs, hreturns⟩ := h.last hwidth hown
  have hsame : s = c.session :=
    Part.mem_unique hlast (mem_eval.mpr ⟨Relation.ReflTransGen.refl, hrest⟩)
  rw [hown.called, ← hsame]
  exact ⟨houtputs, hreturns⟩

/-- It is never left by an exception. -/
theorem Brings.not_failed (h : Brings world i r form) (hwidth : world.width = 64)
    (hown : Own world calls i c) : failed c.session = false := by
  cases hfailed : failed c.session with
  | false => rfl
  | true =>
      have hrest : clientStep world.width c.session = none := by
        rw [failed] at hfailed
        split at hfailed
        case h_1 fault hactivity => rw [clientStep, ReadLoop.step, hactivity]
        case h_2 => cases hfailed
      exact ((h.called_of_rest hwidth hown hrest).2.symm.trans hfailed).symm

end Connection

/-! ## Both connections -/

section Connections

variable {world : World} {typed : Bytes} {requested accessed : Counted}
  {requestForm accessForm : Form} {p : Program}

theorem dataOf_cons (i : Nat) (call : Call) (calls : List Call) :
    dataOf i (call :: calls) = (if call.client = i then [call.data] else []) ++ dataOf i calls := by
  rw [dataOf, List.filter_cons]
  by_cases hclient : call.client = i
  · rw [if_pos (decide_eq_true hclient), if_pos hclient]
    rfl
  · rw [if_neg (by simpa using hclient), if_neg hclient]
    rfl

/-- One call of each of two clients, that of the first one first. -/
theorem two_calls {calls : List Call} {a b : HttpResponseData}
    (hclients : ∀ call ∈ calls, call.client < 2) (hfirst : ∀ call ∈ calls.head?, call.client = 0)
    (hzero : dataOf 0 calls = [a]) (hone : dataOf 1 calls = [b]) :
    ∃ first second, calls = [first, second] ∧ first.client = 0 ∧ first.data = a ∧
      second.client = 1 ∧ second.data = b := by
  cases calls with
  | nil => cases hzero
  | cons first calls =>
      have hclient : first.client = 0 := hfirst first rfl
      rw [dataOf_cons, if_pos hclient, List.singleton_append, List.cons.injEq] at hzero
      rw [dataOf_cons, hclient, if_neg Nat.zero_ne_one, List.nil_append] at hone
      have hothers : ∀ call ∈ calls, call.client = 1 := by
        intro call hmem
        have hlt := hclients call (List.mem_cons_of_mem _ hmem)
        have hnone := hzero.2
        rw [dataOf, List.map_eq_nil_iff, List.filter_eq_nil_iff] at hnone
        have hne := hnone call hmem
        simp only [decide_eq_true_eq] at hne
        omega
      have hall : calls.filter (fun call => call.client = 1) = calls :=
        List.filter_eq_self.mpr fun call hmem => decide_eq_true (hothers call hmem)
      rw [dataOf, hall] at hone
      obtain ⟨second, rfl, hdata⟩ := List.map_eq_singleton_iff.mp hone
      exact ⟨first, second, rfl, hclient, hzero.1, hothers second List.mem_cons_self, hdata⟩

/-- The request tokens come from the first client. -/
theorem answered_sublist (h : Follows world typed p) :
    (answered p.calls).Sublist (dataOf 0 p.calls) := by
  have hfilter : (p.calls.filter fun call =>
        call.handler = .authReqHandler ∧ call.data.status.1 = 200) =
      (p.calls.filter fun call => call.client = 0).filter fun call =>
        call.handler = .authReqHandler ∧ call.data.status.1 = 200 := by
    rw [List.filter_filter]
    refine List.filter_congr fun call hmem => ?_
    obtain ⟨c, hget, hhandler⟩ := h.served.known call hmem
    have hkind := (h.requested _ c hget).handler
    by_cases hzero : call.client = 0
    · simp [hzero]
    · rw [if_neg hzero, hhandler] at hkind
      simp [hkind]
  rw [answered, dataOf, hfilter]
  exact List.filter_sublist.map _

theorem Grants.brings (h : Grants world requested accessed requestForm accessForm) {i : Nat}
    (hi : i < 2) : ∃ r form, Brings world i r form := by
  interval_cases i
  · exact ⟨_, _, h.requested⟩
  · exact ⟨_, _, h.accessed⟩

theorem Grants.answered_length (h : Grants world requested accessed requestForm accessForm)
    (hfollows : Follows world typed p) : (answered p.calls).length ≤ 1 := by
  have hsublist := (answered_sublist hfollows).length_le
  cases hget : p.clients[0]? with
  | none =>
      have hbound : dataOf 0 p.calls = [] := by
        rw [dataOf, List.map_eq_nil_iff, List.filter_eq_nil_iff]
        intro call hmem hzero
        obtain ⟨c, hgetc, -⟩ := hfollows.served.known call hmem
        rw [of_decide_eq_true hzero, hget] at hgetc
        cases hgetc
      rw [hbound] at hsublist
      exact hsublist.trans (Nat.zero_le 1)
  | some c =>
      exact hsublist.trans
        (h.requested.called h.width (hfollows.served.own 0 c hget)).length_le

/-- `io_service::run` is not left by an exception. -/
theorem Grants.not_left (h : Grants world requested accessed requestForm accessForm)
    (hfollows : Follows world typed p) : p.left = false := by
  have hanswered := h.answered_length hfollows
  have hbound := hfollows.bound
  cases hleft : p.left with
  | false => rfl
  | true =>
      exfalso
      cases hfollows.cause hleft with
      | rejected call mem status =>
          obtain ⟨c, hget, -⟩ := hfollows.served.known call mem
          have hlt := (List.getElem?_eq_some_iff.mp hget).1
          obtain ⟨r, form, hbrings⟩ := @Grants.brings _ _ _ _ _ h call.client (by omega)
          have hown := hfollows.served.own _ c hget
          have hmem : call.data ∈ dataOf call.client p.calls :=
            List.mem_map_of_mem (List.mem_filter.mpr ⟨mem, decide_eq_true rfl⟩)
          have hdata := (hbrings.called h.width hown).subset hmem
          rw [List.mem_singleton.mp hdata] at status
          exact status hbrings.status
      | refused peer length =>
          obtain ⟨r, form, hbrings⟩ := @Grants.brings _ _ _ _ _ h p.clients.length (by omega)
          obtain ⟨segments, closed, hpeer, -⟩ := hbrings.sent
          rw [hpeer] at peer
          cases peer
      | unread c mem failed =>
          obtain ⟨i, hget⟩ := List.getElem?_of_mem mem
          have hlt := (List.getElem?_eq_some_iff.mp hget).1
          obtain ⟨r, form, hbrings⟩ := @Grants.brings _ _ _ _ _ h i (by omega)
          rw [hbrings.not_failed h.width (hfollows.served.own i c hget)] at failed
          cases failed

theorem handler_of_call (h : Follows world typed p) : ∀ call ∈ p.calls, call.handler =
    if call.client = 0 then .authReqHandler else .authPinHandler := by
  intro call hmem
  obtain ⟨c, hget, hhandler⟩ := h.served.known call hmem
  exact hhandler.symm.trans (h.requested _ c hget).handler

/-- When the first reader has come to its end, an access token has been asked for. -/
theorem Grants.two_clients (h : Grants world requested accessed requestForm accessForm)
    (hfollows : Follows world typed p) {c : Client} (hget : p.clients[0]? = some c)
    (hrest : clientStep world.width c.session = none) : p.clients.length = 2 := by
  have hcalled := (h.requested.called_of_rest h.width (hfollows.served.own 0 c hget) hrest).1
  obtain ⟨call, hmem, hdata⟩ := List.mem_map.mp
    (show requested.call ∈ dataOf 0 p.calls from hcalled ▸ List.mem_cons_self)
  obtain ⟨hmem, hclient⟩ := List.mem_filter.mp hmem
  have hhandler := handler_of_call hfollows call hmem
  rw [if_pos (of_decide_eq_true hclient)] at hhandler
  have hstatus : call.data.status.1 = 200 := hdata ▸ h.requested.status
  have hanswer : call.data ∈ answered p.calls :=
    List.mem_map_of_mem (List.mem_filter.mpr ⟨hmem, decide_eq_true ⟨hhandler, hstatus⟩⟩)
  have hpos := List.length_pos_of_mem hanswer
  have hanswered := h.answered_length hfollows
  have hlength := hfollows.length (h.not_left hfollows)
  omega

/-- A program at rest has made one call for each of the two. -/
theorem Grants.calls_of_rest (h : Grants world requested accessed requestForm accessForm)
    (hfollows : Follows world typed p) (hrest : AtRest world p) :
    p.calls = [⟨0, .authReqHandler, requested.call⟩, ⟨1, .authPinHandler, accessed.call⟩] ∧
      p.clients.length = 2 := by
  have hleft := h.not_left hfollows
  have hanswered := h.answered_length hfollows
  have hlength := hfollows.length hleft
  have hreader : ∀ (i : Nat) (c : Client), p.clients[i]? = some c →
      clientStep world.width c.session = none := by
    intro i c hget
    have hnone := hrest i
    rw [Authorization.step, hleft, if_neg Bool.false_ne_true, hget, Option.bind_some] at hnone
    exact Option.map_eq_none_iff.mp hnone
  have hkind := handler_of_call hfollows
  have hget : ∀ i : Nat, i < p.clients.length → ∃ c, p.clients[i]? = some c :=
    fun i hi => ⟨_, List.getElem?_eq_getElem hi⟩
  obtain ⟨c, hzero⟩ := hget 0 (by omega)
  have hcalled := (h.requested.called_of_rest h.width (hfollows.served.own 0 c hzero)
    (hreader 0 c hzero)).1
  have htwo := h.two_clients hfollows hzero (hreader 0 c hzero)
  obtain ⟨c', hone⟩ := hget 1 (by omega)
  have hcalled' := (h.accessed.called_of_rest h.width (hfollows.served.own 1 c' hone)
    (hreader 1 c' hone)).1
  have hclients : ∀ call ∈ p.calls, call.client < 2 := by
    intro call hmem
    obtain ⟨c, hget, -⟩ := hfollows.served.known call hmem
    exact htwo ▸ (List.getElem?_eq_some_iff.mp hget).1
  obtain ⟨first, second, hcalls, hfirst, hdata, hsecond, hdata'⟩ :=
    two_calls hclients hfollows.served.first hcalled hcalled'
  have hhandler := hkind first (by simp [hcalls])
  have hhandler' := hkind second (by simp [hcalls])
  rw [hfirst, if_pos rfl] at hhandler
  rw [hsecond, if_neg Nat.one_ne_zero] at hhandler'
  refine ⟨?_, htwo⟩
  rw [hcalls, ← hfirst, ← hdata, ← hhandler, ← hsecond, ← hdata', ← hhandler']

end Connections

/-! ## Runs to the end -/

section Ends

variable {world : World} {typed : Bytes} {p : Program} {i : Nat} {c : Client}
  {session last : ClientSession}

theorem requestToken_clients (handler : AuthHandler) (path : Bytes) (p : Program) :
    ∃ more, (requestToken world handler path p).2.clients = p.clients ++ more := by
  rw [requestToken]
  cases world.peer p.clients.length with
  | none => exact ⟨[], (List.append_nil _).symm⟩
  | some peer => exact ⟨_, rfl⟩

/-- A handler of client `i` leaves the other clients as they are. -/
theorem answer_clients (hstep : clientStep world.width c.session = some session) :
    ∃ more, (answer world i c p session).clients =
      p.clients.set i { c with session := session } ++ more := by
  rcases @answer_cases world p i c session hstep with
    ⟨-, hanswer⟩ | ⟨data, returns, next, -, hcalled, hanswer⟩
  · rw [hanswer]
    exact ⟨[], (List.append_nil _).symm⟩
  · rw [hanswer]
    change ∃ more, next.clients = _
    split at hcalled
    case h_1 =>
      rw [authReqHandler] at hcalled
      split at hcalled
      case isTrue =>
        obtain ⟨-, rfl⟩ := Prod.mk.inj hcalled
        exact ⟨[], (List.append_nil _).symm⟩
      case isFalse =>
        have hnext := congrArg Prod.snd hcalled
        dsimp only at hnext
        rw [← hnext]
        exact requestToken_clients _ _ _
    case h_2 =>
      rw [authPinHandler] at hcalled
      split at hcalled
      case isTrue =>
        obtain ⟨-, rfl⟩ := Prod.mk.inj hcalled
        exact ⟨[], (List.append_nil _).symm⟩
      case isFalse =>
        obtain ⟨-, rfl⟩ := Prod.mk.inj hcalled
        exact ⟨[], (List.append_nil _).symm⟩

/-- As long as `io_service::run` is not left, client `i` can be read to its last state, and the
others stay where they are. -/
theorem runs_client (hleft : ∀ p, Follows world typed p → p.left = false)
    (h : Follows world typed p) (hget : p.clients[i]? = some c)
    (hreach : Reaches (clientStep world.width) c.session last) :
    ∃ events p', run (step world) events p = some p' ∧ Follows world typed p' ∧
      (∃ c', p'.clients[i]? = some c' ∧ c'.session = last) ∧
      ∀ j, j ≠ i → ∀ c', p.clients[j]? = some c' → p'.clients[j]? = some c' := by
  generalize hsession : c.session = session at hreach
  induction hreach using Relation.ReflTransGen.head_induction_on generalizing p c with
  | refl => exact ⟨[], p, rfl, h, ⟨c, hget, hsession⟩, fun _ _ _ hgetj => hgetj⟩
  | @head session next hnext hlater ih =>
      subst hsession
      have hstep : step world i p = some (answer world i c p next) := by
        rw [Authorization.step, hleft p h, if_neg Bool.false_ne_true, hget, Option.bind_some, hnext]
        rfl
      have hlt := (List.getElem?_eq_some_iff.mp hget).1
      obtain ⟨more, hclients⟩ := @answer_clients world p i c next hnext
      have hown : (answer world i c p next).clients[i]? = some { c with session := next } := by
        rw [hclients, List.getElem?_append_left (by rwa [List.length_set])]
        exact List.getElem?_set_self hlt
      obtain ⟨events, p', hrun, hfollows, hlast, hothers⟩ := ih (h.step hstep) hown rfl
      refine ⟨i :: events, p', (run_cons hstep events).trans hrun, hfollows, hlast, ?_⟩
      intro j hne c' hgetj
      have hltj := (List.getElem?_eq_some_iff.mp hgetj).1
      refine hothers j hne c' ?_
      rw [hclients, List.getElem?_append_left (by rwa [List.length_set]),
        List.getElem?_set_ne (Ne.symm hne)]
      exact hgetj

theorem step_eq_none (hget : p.clients[i]? = some c)
    (hrest : clientStep world.width c.session = none) : step world i p = none := by
  rw [Authorization.step, hget, Option.bind_some, hrest]
  exact ite_self none

/-- The program can be run until no handler can run. -/
theorem Grants.runs_to_rest {requested accessed : Counted} {requestForm accessForm : Form}
    (h : Grants world requested accessed requestForm accessForm) (hfollows : Follows world typed p)
    (hnone : p.calls = []) :
    ∃ events p', run (step world) events p = some p' ∧ AtRest world p' := by
  have hleft : ∀ p, Follows world typed p → p.left = false := fun _ => h.not_left
  have hlength := hfollows.length (hleft p hfollows)
  rw [hnone] at hlength
  obtain ⟨c, hzero⟩ : ∃ c, p.clients[0]? = some c :=
    ⟨_, List.getElem?_eq_getElem (by rw [hlength]; exact Nat.succ_pos _)⟩
  obtain ⟨s, hlast, houtputs, -⟩ := h.requested.last h.width (hfollows.served.own 0 c hzero)
  obtain ⟨hreach, hend⟩ := mem_eval.mp hlast
  obtain ⟨events, q, hrun, hfollows', ⟨c', hzero', hsession⟩, -⟩ :=
    runs_client hleft hfollows hzero hreach
  have htwo := h.two_clients hfollows' hzero' (hsession ▸ hend)
  obtain ⟨d, hone⟩ : ∃ d, q.clients[1]? = some d :=
    ⟨_, List.getElem?_eq_getElem (by rw [htwo]; exact Nat.one_lt_two)⟩
  obtain ⟨s', hlast', houtputs', -⟩ := h.accessed.last h.width (hfollows'.served.own 1 d hone)
  obtain ⟨hreach', hend'⟩ := mem_eval.mp hlast'
  obtain ⟨more, p', hrun', hfollows'', ⟨d', hone', hsession'⟩, hothers⟩ :=
    runs_client hleft hfollows' hone hreach'
  have hzero'' := hothers 0 Nat.zero_ne_one c' hzero'
  have htwo' := h.two_clients hfollows'' hzero'' (hsession ▸ hend)
  refine ⟨events ++ more, p', ?_, ?_⟩
  · rw [run_append, hrun, Option.bind_some, hrun']
  · intro i
    match i with
    | 0 => exact step_eq_none hzero'' (hsession ▸ hend)
    | 1 => exact step_eq_none hone' (hsession' ▸ hend')
    | i + 2 =>
        rw [Authorization.step, hleft p' hfollows'', if_neg Bool.false_ne_true,
          List.getElem?_eq_none (by omega)]
        rfl

end Ends

/-! ## The token -/

section Token

variable {world : World} {typed : Bytes}

theorem exists_main {segments : List Bytes} {closed : Bool}
    (hpeer : world.peer 0 = some (segments, closed)) (typed : Bytes) :
    ∃ start, main world typed = some start := by
  rw [main, doInitialAuth]
  dsimp only
  rw [Authorization.requestToken, List.length_nil, hpeer]
  exact ⟨_, rfl⟩

theorem solid_digit {b : Byte} (h : isDigit 10 b = true) :
    isSpace b = false ∧ isSign b = false := by
  have hrange : 48 ≤ b.toNat := by
    rw [isDigit, decide_eq_true_eq, digitValue] at h
    split_ifs at h <;> omega
  have hne : ∀ c : Byte, c.toNat < 48 → b ≠ c := by
    rintro c hc rfl
    omega
  have hlarge : ¬ b ≤ 13 := by
    rw [UInt8.le_iff_toNat_le]
    exact not_le.mpr (show 13 < b.toNat by omega)
  constructor
  · simp [isSpace, hne 32 (by decide), hlarge]
  · simp [isSign, hne (byte '-') (by decide), hne (byte '+') (by decide)]

/-- A decimal numeral that fits is read. -/
theorem extractUnsigned_decimal {n : Nat} (hn : n < 2 ^ 32) {gap rest : Bytes}
    (hgap : ∀ b ∈ gap, isSpace b = true) (hrest : Terminates 10 rest) :
    (extractUnsigned ⟨gap ++ decimal n ++ rest, true⟩).1 = some (UInt32.ofNat n) := by
  have hnumeral := isNumeral_decimal n
  obtain ⟨d, digits, hdigits⟩ := List.exists_cons_of_ne_nil hnumeral.nonempty
  have hdigit : isDigit 10 d = true := hnumeral.digits d (hdigits ▸ List.mem_cons_self)
  obtain ⟨hsolid, hsign⟩ := solid_digit hdigit
  have hsentry : sentry isSpace ⟨gap ++ decimal n ++ rest, true⟩ = ⟨decimal n ++ rest, true⟩ := by
    rw [hdigits, List.append_assoc, List.cons_append]
    exact sentry_solid hgap hsolid
  have hhead : (decimal n ++ rest).head?.filter isSign = none := by
    rw [hdigits, List.cons_append, List.head?_cons, Option.filter_some, if_neg (by simp [hsign])]
  have hstop : Starts (fun b => !isDigit 10 b) rest := by
    intro b hb
    obtain ⟨tail, rfl⟩ := List.head?_eq_some_iff.mp hb
    simp [hrest b tail rfl]
  rw [extractUnsigned, hsentry]
  dsimp only
  rw [if_pos rfl, hhead, Option.toList_none, List.length_nil, List.drop_zero,
    takeWhile_append_stop hnumeral.digits hstop, value_decimal,
    if_pos ⟨hnumeral.nonempty, hn⟩, if_neg (by simp)]

theorem pinText_decimal {n : Nat} (hn : n < 2 ^ 32) {gap rest : Bytes}
    (hgap : ∀ b ∈ gap, isSpace b = true) (hrest : Terminates 10 rest) :
    pinText world (gap ++ decimal n ++ rest) 0 = decimal n := by
  have hread := extractUnsigned_decimal hn hgap hrest
  rw [pinText, cinBehind, Function.iterate_zero, id, hread, Option.getD_some,
    UInt32.toNat_ofNat_of_lt' hn]

theorem entry_of_find {form : Form} {name value : Bytes}
    (h : EntryList.find name form.pairs.dropLast = some value) :
    entry (splitParams form.text) name = value := by
  rw [entry, find?_splitParams_text, h, Option.getD_some]

end Token

/-- Let the provider answer both requests, each with status 200, the length of its data and a form
in which the token and its secret do not stand last, however the answers arrive; let the form hold
the request token and its secret as they are, let the user type a number that fits into 32 bits, and
let a `size_t` have 64.  Then the program can be run to its end.  In whatever order its handlers
have run, it has sent two requests then: one for a request token, and one that is accepted for this
token, its secret and the number; and it has shown the access token and its secret, as they stand in
the form. -/
theorem token_shown {world : World} {requested accessed : Counted} {requestForm accessForm : Form}
    (h : Grants world requested accessed requestForm accessForm)
    {requestToken requestSecret accessToken accessSecret : Bytes}
    (hrequestToken : EntryList.find (ascii "oauth_token") requestForm.pairs.dropLast =
      some requestToken)
    (hrequestSecret : EntryList.find (ascii "oauth_token_secret") requestForm.pairs.dropLast =
      some requestSecret)
    (hplain : Plain requestToken ∧ Plain requestSecret)
    (haccessToken : EntryList.find (ascii "oauth_token") accessForm.pairs.dropLast =
      some accessToken)
    (haccessSecret : EntryList.find (ascii "oauth_token_secret") accessForm.pairs.dropLast =
      some accessSecret)
    {n : Nat} (hn : n < 2 ^ 32) {gap rest : Bytes} (hgap : ∀ b ∈ gap, isSpace b = true)
    (hrest : Terminates 10 rest) :
    ∃ start, main world (gap ++ decimal n ++ rest) = some start ∧
      (∃ events p, run (step world) events start = some p ∧ AtRest world p) ∧
      ∀ events p, run (step world) events start = some p → AtRest world p →
        p.left = false ∧ p.cout = promptText requestToken ++ succeedText accessToken accessSecret ∧
        ∃ first second, p.clients = [first, second] ∧
          Accepts world.hmac ⟨consumerKey, consumerSecret, none, [], none⟩ (world.moment 1)
            (receive first.exchange.text) ∧
          Accepts world.hmac
            ⟨consumerKey, consumerSecret, some requestToken, requestSecret, some (decimal n)⟩
            (world.moment 2) (receive second.exchange.text) := by
  obtain ⟨segments, closed, hpeer, -⟩ := h.requested.sent
  obtain ⟨start, hmain⟩ := exists_main hpeer (gap ++ decimal n ++ rest)
  obtain ⟨hstart, hnone⟩ := follows_main hmain
  refine ⟨start, hmain, h.runs_to_rest hstart hnone, ?_⟩
  intro events p hrun hend
  have hfollows : Follows world (gap ++ decimal n ++ rest) p :=
    run_invariant (fun _ _ _ h hstep => h.step hstep) hrun hstart
  obtain ⟨hcalls, htwo⟩ := h.calls_of_rest hfollows hend
  have hrequested : requested.call.data = requestForm.text := h.requested.body
  have haccessed : accessed.call.data = accessForm.text := h.accessed.body
  have hanswered : answered p.calls = [requested.call] := by
    rw [hcalls]
    simp [answered, h.requested.status]
  refine ⟨h.not_left hfollows, ?_, ?_⟩
  · rw [hfollows.cout, hcalls]
    simp only [List.flatMap_cons, List.flatMap_nil, printed, h.requested.status,
      h.accessed.status, ne_eq, not_true_eq_false, if_false, List.append_nil, hrequested,
      haccessed, entry_of_find hrequestToken, entry_of_find haccessToken,
      entry_of_find haccessSecret]
  · obtain ⟨first, second, hclients⟩ := List.length_eq_two.mp htwo
    refine ⟨first, second, hclients, ?_, ?_⟩
    · have hnone : (grantBehind world (gap ++ decimal n ++ rest) []).PlainToken :=
        ⟨fun _ htoken => absurd htoken (Option.not_mem_none _),
          fun _ hmem => absurd hmem List.not_mem_nil⟩
      exact (hfollows.requested 0 first (by rw [hclients]; rfl)).accepted hnone
    · have haccepted := (hfollows.requested 1 second (by rw [hclients]; rfl)).accepted
      have hgrant := grantBehind_append world (gap ++ decimal n ++ rest) [] requested.call
      rw [hanswered, List.take_succ_cons, List.take_zero] at haccepted
      rw [List.nil_append, hrequested, entry_of_find hrequestToken, entry_of_find hrequestSecret,
        List.length_nil, pinText_decimal hn hgap hrest] at hgrant
      have htoken : Grant.PlainToken ⟨consumerKey, consumerSecret, some requestToken, requestSecret,
          some (decimal n)⟩ :=
        ⟨fun _ hmem => Option.some.inj hmem ▸ hplain.1, hplain.2⟩
      rw [hgrant] at haccepted
      exact Grant.issued_of_plain htoken ▸ haccepted htoken

/-- A request token, with a pair behind it. -/
def requestAnswer : Form :=
  ⟨[(ascii "oauth_token", ascii "r"), (ascii "oauth_token_secret", ascii "q"),
    (ascii "confirmed", ascii "true")], by decide, by decide, by decide, by decide⟩

/-- An access token, with a pair behind it. -/
def accessAnswer : Form :=
  ⟨[(ascii "oauth_token", ascii "a"), (ascii "oauth_token_secret", ascii "b"),
    (ascii "screen_name", ascii "u")], by decide, by decide, by decide, by decide⟩

def requestResponse : Counted where
  head := Http.Message.Head.ok [lengthField (ascii "49") (by decide) (by decide)]
  length := ascii "49"
  body := requestAnswer.text
  unchunked := by decide
  counted := by decide
  length_numeral := by decide
  length_value := by decide
  body_fits := by decide

def accessResponse : Counted where
  head := Http.Message.Head.ok [lengthField (ascii "48") (by decide) (by decide)]
  length := ascii "48"
  body := accessAnswer.text
  unchunked := by decide
  counted := by decide
  length_numeral := by decide
  length_value := by decide
  body_fits := by decide

/-- The first answer comes in two parts. -/
def granted : World :=
  { granting with
    peer := fun
      | 0 => some ([requestResponse.text.take 50, requestResponse.text.drop 50], true)
      | _ => some ([accessResponse.text], false) }

theorem token_shown_twelve :
    ∃ start events p, main granted (ascii " " ++ decimal 12 ++ ascii "\n") = some start ∧
      run (step granted) events start = some p ∧
      p.left = false ∧ p.cout = promptText (ascii "r") ++ succeedText (ascii "a") (ascii "b") ∧
      ∃ first second, p.clients = [first, second] ∧
        Accepts granted.hmac ⟨consumerKey, consumerSecret, none, [], none⟩ (granted.moment 1)
          (receive first.exchange.text) ∧
        Accepts granted.hmac
          ⟨consumerKey, consumerSecret, some (ascii "r"), ascii "q", some (decimal 12)⟩
          (granted.moment 2) (receive second.exchange.text) := by
  have hgrants : Grants granted requestResponse accessResponse requestAnswer accessAnswer :=
    ⟨rfl, ⟨⟨_, true, rfl, by decide⟩, by decide, rfl⟩,
      ⟨⟨_, false, rfl, by decide⟩, by decide, rfl⟩⟩
  obtain ⟨start, hmain, ⟨events, p, hrun, hend⟩, hall⟩ :=
    @token_shown _ _ _ _ _ hgrants (ascii "r") (ascii "q") (ascii "a") (ascii "b") (by decide)
      (by decide) (by decide) (by decide) (by decide) 12 (by decide) (ascii " ") (ascii "\n")
      (by decide) (by rintro b tail ⟨⟩; decide)
  exact ⟨start, events, p, hmain, hrun, hall events p hrun hend⟩

end BlackCircle.Twitter.Authorized
