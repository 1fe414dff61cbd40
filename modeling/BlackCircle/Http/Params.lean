import BlackCircle.Http.Response
import BlackCircle.Oauth.TokenRequester

/-!
# `split_params`

A repetition of `name=value&`: the ampersand ends a pair, it does not stand
between two of them.  Form data has no ampersand behind its last pair, so this
pair is never in the map.
-/

namespace BlackCircle.Http.Params

open BlackCircle.Foundation
open BlackCircle.Foundation.ByteString
open BlackCircle.Foundation.Peg
open BlackCircle.Http.Response
open BlackCircle.Oauth
open BlackCircle.Oauth.Combiner
open BlackCircle.Oauth.Encode

/-- Any byte but an equals sign. -/
def notEquals (b : Byte) : Bool := b != byte '='

/-- Any byte but an ampersand. -/
def notAmpersand (b : Byte) : Bool := b != byte '&'

/-- One round of the repetition. -/
def pair : Parser Byte (Bytes × Bytes) := do
  let name ← many1 (satisfy notEquals)
  lit (ascii "=")
  let value ← many1 (satisfy notAmpersand)
  lit (ascii "&")
  return (name, value)

/-- The map that the pairs are inserted into; what is not matched is left. -/
def splitParams (data : Bytes) : OrderedMap Bytes Bytes :=
  match (many pair).run data with
  | .ok pairs _ => insertFields OrderedMap.empty pairs
  | .fail => OrderedMap.empty
  | .throw _ => OrderedMap.empty

theorem advances_pair : Advances pair :=
  (Advances.many1 (advances_satisfy _)).bind fun _ => (keeps_lit _).bind fun _ =>
    ((Advances.many1 (advances_satisfy _)).keeps).bind fun _ => (keeps_lit _).bind fun _ =>
      keeps_pure _

/-! ## Form data -/

/-- One pair of a form, as it is written. -/
def pairText (p : Bytes × Bytes) : Bytes := p.1 ++ ascii "=" ++ p.2

/-- Pairs that a form can be written for. -/
structure Form where
  pairs : List (Bytes × Bytes)
  nonempty : pairs ≠ []
  distinct : (pairs.map Prod.fst).Nodup
  names : ∀ p ∈ pairs, p.1 ≠ [] ∧ byte '=' ∉ p.1 ∧ byte '&' ∉ p.1
  values : ∀ p ∈ pairs, p.2 ≠ [] ∧ byte '&' ∉ p.2

namespace Form

/-- The pairs, joined by ampersands. -/
def text (form : Form) : Bytes := (ascii "&").intercalate (form.pairs.map pairText)

end Form

/-- The map holds the pairs and nothing else. -/
def Holds (m : OrderedMap Bytes Bytes) (pairs : List (Bytes × Bytes)) : Prop :=
  ∀ name, m.find? name = EntryList.find name pairs

section Pair

variable {p : Bytes × Bytes}

/-- What the round makes of a pair depends on what stands behind its value. -/
theorem pair_run (hname : p.1 ≠ [] ∧ byte '=' ∉ p.1) (hvalue : p.2 ≠ [] ∧ byte '&' ∉ p.2)
    {rest : Bytes} (hrest : ∀ b tail, rest = b :: tail → b = byte '&') :
    pair.run (pairText p ++ rest) =
      (do lit (ascii "&"); return p : Parser Byte (Bytes × Bytes)).run rest := by
  have hnameRun : (many1 (satisfy notEquals)).run (p.1 ++ (ascii "=" ++ (p.2 ++ rest))) =
      .ok p.1 (ascii "=" ++ (p.2 ++ rest)) := by
    refine many1_satisfy_append hname.1 (fun b hb => ?_) (fun b tail heq => ?_)
    · rw [notEquals, bne_iff_ne]
      rintro rfl
      exact hname.2 hb
    · cases heq
      decide
  have hvalueRun : (many1 (satisfy notAmpersand)).run (p.2 ++ rest) = .ok p.2 rest := by
    refine many1_satisfy_append hvalue.1 (fun b hb => ?_) (fun b tail heq => ?_)
    · rw [notAmpersand, bne_iff_ne]
      rintro rfl
      exact hvalue.2 hb
    · rw [hrest b tail heq]
      decide
  rw [pairText, List.append_assoc, List.append_assoc, pair, bind_ok hnameRun,
    bind_ok (lit_append _ _), bind_ok hvalueRun]

theorem pair_ended (hname : p.1 ≠ [] ∧ byte '=' ∉ p.1) (hvalue : p.2 ≠ [] ∧ byte '&' ∉ p.2)
    (rest : Bytes) : pair.run (pairText p ++ (ascii "&" ++ rest)) = .ok p rest := by
  have hrun := @pair_run p hname hvalue (ascii "&" ++ rest) (by rintro b tail ⟨⟩; rfl)
  rw [hrun, bind_ok (lit_append _ _), run_pure]

/-- A pair at the end of the data is not matched. -/
theorem pair_last (hname : p.1 ≠ [] ∧ byte '=' ∉ p.1) (hvalue : p.2 ≠ [] ∧ byte '&' ∉ p.2) :
    pair.run (pairText p) = .fail := by
  have hrun := @pair_run p hname hvalue [] (by rintro b tail ⟨⟩)
  rw [List.append_nil] at hrun
  rw [hrun]
  exact bind_fail (lit_fail (by decide))

end Pair

/-- All pairs but the last are matched. -/
theorem many_pair (pairs : List (Bytes × Bytes)) (hnonempty : pairs ≠ [])
    (hnames : ∀ p ∈ pairs, p.1 ≠ [] ∧ byte '=' ∉ p.1)
    (hvalues : ∀ p ∈ pairs, p.2 ≠ [] ∧ byte '&' ∉ p.2) :
    ∃ rest, (many pair).run ((ascii "&").intercalate (pairs.map pairText)) =
      .ok pairs.dropLast rest := by
  induction pairs with
  | nil => exact absurd rfl hnonempty
  | cons p pairs ih =>
      have hname := hnames p List.mem_cons_self
      have hvalue := hvalues p List.mem_cons_self
      cases pairs with
      | nil =>
          refine ⟨pairText p, ?_⟩
          rw [List.map_singleton, List.intercalate_singleton]
          exact many_fail (pair_last hname hvalue)
      | cons q pairs =>
          obtain ⟨rest, hmore⟩ := ih (List.cons_ne_nil _ _)
            (fun r hr => hnames r (List.mem_cons_of_mem _ hr))
            (fun r hr => hvalues r (List.mem_cons_of_mem _ hr))
          refine ⟨rest, ?_⟩
          rw [List.map_cons, List.map_cons, List.intercalate_cons_cons, List.append_assoc,
            List.dropLast_cons_cons]
          exact many_cons advances_pair (pair_ended hname hvalue _) hmore

/-- A form is split into its pairs but the last. -/
theorem find?_splitParams_text (form : Form) (name : Bytes) :
    (splitParams form.text).find? name = EntryList.find name form.pairs.dropLast := by
  obtain ⟨rest, hrun⟩ := many_pair form.pairs form.nonempty
    (fun p hp => ⟨(form.names p hp).1, (form.names p hp).2.1⟩) form.values
  rw [splitParams, Form.text, hrun]
  exact (find?_insertFields _ _ _).trans Option.none_or

theorem Form.text_ne_nil (form : Form) : form.text ≠ [] := by
  obtain ⟨p, others, hpairs⟩ := List.exists_cons_of_ne_nil form.nonempty
  have hmem : p ∈ form.pairs := hpairs ▸ List.mem_cons_self
  have hname := (form.names p hmem).1
  rw [Form.text, hpairs, List.map_cons]
  cases others with
  | nil => simp [pairText, hname]
  | cons q others => simp [List.intercalate_cons_cons, pairText, hname]

/-- From no form data does `split_params` get the pairs: all of them are in the map but the
last. -/
theorem splitParams_loses (form : Form) :
    Holds (splitParams form.text) form.pairs.dropLast ∧
      ¬ Holds (splitParams form.text) form.pairs := by
  obtain ⟨rest, hrun⟩ := many_pair form.pairs form.nonempty
    (fun p hp => ⟨(form.names p hp).1, (form.names p hp).2.1⟩) form.values
  have hmap : splitParams form.text = insertFields OrderedMap.empty form.pairs.dropLast := by
    rw [splitParams, Form.text, hrun]
  have hfound : Holds (splitParams form.text) form.pairs.dropLast := by
    intro name
    rw [hmap, find?_insertFields, OrderedMap.find?_empty, Option.none_or]
  refine ⟨hfound, fun hall => ?_⟩
  obtain ⟨init, last, hpairs⟩ := (List.eq_nil_or_concat form.pairs).resolve_left form.nonempty
  have hdistinct := form.distinct
  rw [hpairs, List.concat_eq_append, List.map_append, List.nodup_append] at hdistinct
  have hnotMem : last.1 ∉ init.map Prod.fst := by
    intro hmem
    exact hdistinct.2.2 last.1 hmem last.1 (List.mem_singleton.mpr rfl) rfl
  have hnone := EntryList.find_eq_none_of_notMem hnotMem
  have hlost := hfound last.1
  have hkept := hall last.1
  rw [hpairs, List.concat_eq_append, List.dropLast_concat, hnone] at hlost
  rw [hpairs, List.concat_eq_append, EntryList.find_append_of_none hnone, EntryList.find,
    if_pos rfl, hlost] at hkept
  cases hkept

/-- The token pair of an answer: the secret is lost. -/
theorem not_splitParams_holds :
    ¬ ∀ form : Form, Holds (splitParams form.text) form.pairs := by
  intro hall
  have htoken := hall ⟨[(ascii "oauth_token", ascii "t"), (ascii "oauth_token_secret", ascii "s")],
    by decide, by decide, by decide, by decide⟩ (ascii "oauth_token_secret")
  revert htoken
  decide

/-! ## What `make_request` writes -/

/-- The parameters of a request, with their values escaped. -/
def escapedPairs (params : Params) : List (Bytes × Bytes) :=
  params.entries.map fun p => (p.1, urlEscape p.2)

/-- `make_request` writes form data. -/
theorem makeRequest_eq_form (params : Params) (hnonempty : params.entries ≠ [])
    (hnames : ∀ p ∈ params.entries, p.1 ≠ [] ∧ byte '=' ∉ p.1 ∧ byte '&' ∉ p.1)
    (hvalues : ∀ p ∈ params.entries, p.2 ≠ []) :
    ∃ form : Form, form.pairs = escapedPairs params ∧
      form.text = makeRequest combineAsGetParam params := by
  refine ⟨⟨escapedPairs params, ?_, ?_, ?_, ?_⟩, rfl, ?_⟩
  · simpa [escapedPairs] using hnonempty
  · rw [escapedPairs, List.map_map]
    exact params.sorted.nodup_keys
  · intro p hp
    obtain ⟨entry, hentry, rfl⟩ := List.mem_map.mp hp
    exact hnames entry hentry
  · intro p hp
    obtain ⟨entry, hentry, rfl⟩ := List.mem_map.mp hp
    exact ⟨urlEscape_ne_nil (hvalues entry hentry), notMem_urlEscape (by decide) entry.2⟩
  · have hpair : ∀ p : Bytes × Bytes,
        pairText (p.1, urlEscape p.2) = combineAsGetParam.combine p := by
      intro p
      simp [pairText, Combiner.combine, combineAsGetParam]
    have hitems : (escapedPairs params).map pairText =
        params.entries.map combineAsGetParam.combine := by
      rw [escapedPairs, List.map_map]
      exact List.map_congr_left fun p _ => hpair p
    rw [makeRequest_eq, ← hitems]
    rfl

end BlackCircle.Http.Params
