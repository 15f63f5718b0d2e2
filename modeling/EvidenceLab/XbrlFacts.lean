/-
# Normalized facts

`normalize_facts` and `normalize_company_facts`: one record for each reported fact.  A fact is known
by its key; the first record of a key is the canonical one, each later one points to it, and a
record whose value differs from the one of an earlier filing restates it.

Values are compared as texts.  `followsNumbers_iff` says when that is the comparison of the numbers.
-/
import EvidenceLab.DecimalPlain
import EvidenceLab.XbrlValues

namespace Xbrl

open Calendar (CivilDate)
open Filing (InlineFact ParsedDocument XbrlContext)

/-! ## Texts -/

/-- `decimal_str`. -/
def decimalStr (value : Decimal) : List Char :=
  if value.plainText = [] then ['0'] else value.plainText

/-- `_UNIT_MEASURES`. -/
def unitMeasures : Dict String (List Char) :=
  [("iso4217:usd", "USD".toList), ("iso4217:eur", "EUR".toList), ("iso4217:gbp", "GBP".toList),
    ("iso4217:jpy", "JPY".toList), ("xbrli:shares", "shares".toList), ("shares", "shares".toList),
    ("xbrli:pure", "pure".toList), ("pure", "pure".toList)]

/-- `map_unit`. -/
def mapUnit (measure : List Char) : List Char :=
  (unitMeasures.get? (String.ofList (PyText.lower (String.ofList measure)))).getD measure

/-- The period of a fact: the period type with its dates. -/
inductive Period where
  | instant (day : CivilDate)
  | duration (start stop : CivilDate)

/-- `period_repr`. -/
def Period.repr : Period → List Char
  | .instant day => "instant:".toList ++ day.isoFormat
  | .duration start stop => "duration:".toList ++ (start.isoFormat ++ ':' :: stop.isoFormat)

/-- `dims_repr`. -/
def dimsRepr (dimensions : Dict String (List Char)) : List Char :=
  [';'].intercalate ((StableSort.sortBy Prod.fst dimensions).map fun kv => kv.1.toList ++ '='
    :: kv.2)

/-- `fact_key`. -/
def factKey (concept : String) (unit : List Char) (period : Period)
    (dimensions : Dict String (List Char)) :
    List Char :=
  concept.toList ++ '|' :: (unit ++ '|' :: (period.repr ++ '|' :: dimsRepr dimensions))

/-- The check of the column `value`: `^-?[0-9]+(\.[0-9]+)?$`. -/
def checkValue (text : List Char) : Bool :=
  let body := if text.head? = some '-' then text.tail else text
  let places := body.dropWhile Char.isDigit
  body.takeWhile Char.isDigit != [] &&
    (places == []
    || (places.head? == some '.' && places.tail != [] && places.tail.all Char.isDigit))

/-! ## Facts -/

/-- `PriorFact`: the value is one that the column holds. -/
structure PriorFact where
  factId : String
  value : List Char
  checked : checkValue value = true

/-- `CompanyFactsObservation`.  The value is finite: the reader of a snapshot rejects the constants
that are not. -/
structure CompanyFactsObservation where
  taxonomy : String
  concept : String
  label : Option String
  unit : List Char
  value : Decimal
  periodStart : Option CivilDate
  periodEnd : CivilDate
  dimensions : Dict String (List Char)
  spanId : String
  startChar : ℕ
  endChar : ℕ

structure NormalizedFact where
  id : String
  entityId : String
  documentVersionId : String
  concept : String
  label : Option String
  value : List Char
  unit : List Char
  scale : ℤ
  period : Period
  dimensions : Dict String (List Char)
  sourceSpanId : String
  reportedOrDerived : String
  confidence : ℚ
  factKey : List Char
  duplicateOf : Option String
  restates : Option String

/-- What both normalizers read of a fact before they look for its key. -/
structure Occurrence where
  concept : String
  label : Option String
  unit : List Char
  period : Period
  dimensions : Dict String (List Char)
  value : Decimal
  spanId : String

def Occurrence.key (o : Occurrence) : List Char := factKey o.concept o.unit o.period o.dimensions

/-- The period of a context. -/
def periodOf (context : XbrlContext) : Option Period :=
  match context.instant with
  | some day => some (.instant day)
  | none =>
      match context.start, context.stop with
      | some start, some stop => some (.duration start stop)
      | _, _ => none

def invalidPeriod (context : XbrlContext) (fact : InlineFact) : NormalizationError :=
  ⟨.invalidPeriodStructure, "context '" ++ context.id ++ "' for fact '" ++ fact.concept
    ++ "' has neither an instant nor a complete start/end duration"⟩

/-- An inline fact of a filing. -/
def inlineOccurrence (repr : String → String) (parsed : ParsedDocument) (fact : InlineFact) :
    Except Failure Occurrence := do
  let context ← Except.orRaise (parsed.contexts.get? fact.contextRef) (.keyError fact.contextRef)
  let measure ← Except.orRaise (parsed.units.get? fact.unitRef) (.keyError fact.unitRef)
  let value ← parseFactValue repr fact
  let period ← Except.orRaise (periodOf context) (.normalization (invalidPeriod context fact))
  return ⟨fact.concept, none, mapUnit measure, period, context.dimensions, value, fact.spanId⟩

/-- An observation of a snapshot. -/
def observedOccurrence (o : CompanyFactsObservation) : Occurrence where
  concept := o.concept
  label := o.label
  unit := mapUnit o.unit
  period :=
    match o.periodStart with
    | some start => .duration start o.periodEnd
    | none => .instant o.periodEnd
  dimensions := o.dimensions
  value := o.value
  spanId := o.spanId

/-! ## Records -/

/-- How the two normalizers word a conflict. -/
structure Wording where
  fact : String
  source : String

def filingWording : Wording := ⟨"fact '", "filing"⟩

def snapshotWording : Wording := ⟨"companyfacts fact '", "snapshot"⟩

def inconsistentDuplicate (wording : Wording) (o : Occurrence) (existing : NormalizedFact) :
    NormalizationError :=
  ⟨.inconsistentDuplicate, wording.fact ++ o.concept ++ "' (" ++ String.ofList o.key
    ++ ") appears twice with conflicting values " ++ String.ofList existing.value ++ " (span "
      ++ existing.sourceSpanId
    ++ ") and " ++ String.ofList (decimalStr o.value) ++ " (span " ++ o.spanId ++ "); the "
      ++ wording.source
    ++ " needs manual review"⟩

/-- The canonical records by their key, and all records in order. -/
structure Ledger where
  canonical : Dict (List Char) NormalizedFact := []
  out : List NormalizedFact := []

section Normalizer

variable (uuid5 : String → String) (entityId documentVersionId : String)

/-- The record of a fact. -/
def makeRecord (o : Occurrence) (ordinal : ℕ) (duplicateOf restates : Option String) :
    NormalizedFact where
  id := uuid5 (documentVersionId ++ "|fact|" ++ toString ordinal ++ "|" ++ String.ofList o.key)
  entityId := entityId
  documentVersionId := documentVersionId
  concept := o.concept
  label := o.label
  value := decimalStr o.value
  unit := o.unit
  scale := 0
  period := o.period
  dimensions := o.dimensions
  sourceSpanId := o.spanId
  reportedOrDerived := "reported"
  confidence := 1
  factKey := o.key
  duplicateOf := duplicateOf
  restates := restates

/-- The fact of an earlier filing that a value restates. -/
def restated (prior : Dict (List Char) PriorFact) (o : Occurrence) : Option String :=
  match prior.get? o.key with
  | some earlier => if earlier.value ≠ decimalStr o.value then some earlier.factId else none
  | none => none

/-- One round of the loop. -/
def record (wording : Wording) (prior : Dict (List Char) PriorFact) (st : Ledger) (o : Occurrence) :
    Except Failure Ledger :=
  match st.canonical.get? o.key with
  | some existing =>
      if existing.value ≠ decimalStr o.value then
        .error (.normalization (inconsistentDuplicate wording o existing))
      else
        .ok { st with
          out :=
            st.out
              ++ [makeRecord uuid5 entityId documentVersionId o st.out.length (some existing.id)
                (restated prior o)] }
  | none =>
      let normalized :=
        makeRecord uuid5 entityId documentVersionId o st.out.length none (restated prior o)
      .ok { canonical := st.canonical.set o.key normalized, out := st.out ++ [normalized] }

/-- `normalize_facts`. -/
def normalizeFacts (repr : String → String) (prior : Dict (List Char) PriorFact)
    (parsed : ParsedDocument) :
    Except Failure (List NormalizedFact) := do
  let ledger ← parsed.facts.foldlM (fun st fact => do
    let o ← inlineOccurrence repr parsed fact
    record uuid5 entityId documentVersionId filingWording prior st o) {}
  return ledger.out

/-- `normalize_company_facts`: no earlier facts. -/
def normalizeCompanyFacts (observations : List CompanyFactsObservation) :
    Except Failure (List NormalizedFact) := do
  let ledger ← observations.foldlM (fun st observation =>
    record uuid5 entityId documentVersionId snapshotWording [] st (observedOccurrence observation))
      {}
  return ledger.out

end Normalizer

/-! ## Runs -/

theorem decimalStr_eq (value : Decimal) : decimalStr value = value.plainText :=
  if_neg value.plainText_ne_nil

/-- A digit, more digits, and behind a point at least one digit. -/
theorem checkValue_digits {neg : Bool} {whole places : List Char} (hne : whole ≠ [])
    (hwhole : ∀ c ∈ whole, c.isDigit = true)
    (hplaces : places = [] ∨ ∃ c cs, places = '.' :: c :: cs
      ∧ ∀ d ∈ c :: cs, d.isDigit = true) :
    checkValue ((if neg then ['-'] else []) ++ (whole ++ places)) = true := by
  obtain ⟨d, ds, rfl⟩ := List.exists_cons_of_ne_nil hne
  have hd : d ≠ '-' := by
    rintro rfl
    exact absurd (hwhole '-' List.mem_cons_self) (by decide)
  have hstop : places.takeWhile Char.isDigit = [] ∧ places.dropWhile Char.isDigit = places := by
    rcases hplaces with rfl | ⟨c, cs, rfl, -⟩
    · exact ⟨rfl, rfl⟩
    · exact ⟨rfl, rfl⟩
  have htake : (d :: ds ++ places).takeWhile Char.isDigit = d :: ds := by
    rw [List.takeWhile_append_of_pos hwhole, hstop.1, List.append_nil]
  have hdrop : (d :: ds ++ places).dropWhile Char.isDigit = places := by
    rw [List.dropWhile_append_of_pos hwhole, hstop.2]
  have hbody : (if ((if neg then ['-'] else []) ++ (d :: ds ++ places)).head? = some '-' then
      ((if neg then ['-'] else []) ++ (d :: ds ++ places)).tail
      else (if neg then ['-'] else []) ++ (d :: ds ++ places)) = d :: ds ++ places := by
    cases neg with
    | false => simp [hd]
    | true => simp
  simp only [checkValue, hbody, htake, hdrop]
  rcases hplaces with rfl | ⟨c, cs, rfl, hcs⟩
  · simp
  · simpa using hcs

theorem checkValue_plainText (value : Decimal) : checkValue value.plainText = true := by
  rw [Decimal.plainText_eq, Decimal.fixedText]
  have hsign : ∀ cs : List Char, (if value.plain.neg then '-' :: cs else cs)
      = (if value.plain.neg then ['-'] else []) ++ cs := by
    intro cs
    split_ifs <;> rfl
  rw [hsign, Decimal.fixedBody]
  by_cases he : 0 ≤ value.plain.exp
  · rw [if_pos he, ← List.append_nil (Nat.toDigits 10 _ ++ _)]
    refine checkValue_digits ?_ ?_ (.inl rfl)
    · obtain ⟨d, ds, hd, -⟩ := Json.toDigits_head value.plain.coeff
      simp [hd]
    · intro c hc
      rcases List.mem_append.mp hc with hc | hc
      · exact Json.isDigit_toDigits _ c hc
      · rw [List.eq_of_mem_replicate hc]
        rfl
  · have hlength := Decimal.length_paddedDigits value.plain.coeff (-value.plain.exp).toNat
    have hdigits := Decimal.paddedDigits_digits value.plain.coeff (-value.plain.exp).toNat
    rw [if_neg he]
    refine checkValue_digits ?_ (fun c hc => hdigits c (List.mem_of_mem_take hc)) (.inr ?_)
    · rw [← List.length_pos_iff_ne_nil, List.length_take]
      omega
    · obtain ⟨c, cs, hcs⟩ :=
        List.exists_cons_of_ne_nil (l := (Decimal.paddedDigits value.plain.coeff
        (-value.plain.exp).toNat).drop
          ((Decimal.paddedDigits value.plain.coeff (-value.plain.exp).toNat).length
          - (-value.plain.exp).toNat)) (by
        rw [← List.length_pos_iff_ne_nil, List.length_drop]
        omega)
      refine ⟨c, cs, by rw [hcs], fun d hd => hdigits d (List.mem_of_mem_drop (hcs ▸ hd))⟩
/-- The record of a key that is no duplicate. -/
def isCanonical (key : List Char) (r : NormalizedFact) : Bool :=
  r.factKey = key ∧ r.duplicateOf = none

/-- The records are in order, one for each fact; a key has one canonical record, and every other
record of the key points to it. -/
structure Deduplicated (occurrences : List Occurrence) (out : List NormalizedFact) : Prop where
  records : List.Forall₂ (fun o r => r.concept = o.concept ∧ r.label = o.label ∧ r.unit = o.unit ∧
    r.period = o.period
    ∧ r.dimensions = o.dimensions ∧ r.factKey = o.key ∧ r.sourceSpanId = o.spanId
      ∧ r.value = decimalStr o.value)
    occurrences out
  canonical : ∀ r ∈ out, (out.filter (isCanonical r.factKey)).length = 1
  points : ∀ before r after, out = before ++ r :: after → ∀ id, r.duplicateOf = some id →
    ∃ c ∈ before, c.id = id ∧ isCanonical r.factKey c

/-- The value of a record is one that its column holds. -/
theorem Deduplicated.checked {occurrences : List Occurrence} {out : List NormalizedFact}
    (h : Deduplicated occurrences out) {r : NormalizedFact} (hr : r ∈ out) :
    checkValue r.value = true := by
  obtain ⟨o, -, hor⟩ := mem_of_forall₂_left h.records hr
  rw [hor.2.2.2.2.2.2.2, decimalStr_eq]
  exact checkValue_plainText o.value

/-- A record restates the earlier fact of its key exactly when that has another number. -/
def RestatesByNumber (prior : Dict (List Char) PriorFact) (out : List NormalizedFact) : Prop :=
  ∀ r ∈ out, ∀ id, r.restates = some id ↔ ∃ earlier, prior.get? r.factKey = some earlier ∧
    earlier.factId = id
    ∧ Decimal.readFixed earlier.value ≠ Decimal.readFixed r.value

/-- No two facts of one key have different numbers. -/
def Consistent (occurrences : List Occurrence) : Prop :=
  ∀ a ∈ occurrences, ∀ b ∈ occurrences, a.key = b.key → a.value.value = b.value.value

/-- The loop follows the numbers of the facts. -/
structure FollowsNumbers (prior : Dict (List Char) PriorFact) (occurrences : List Occurrence)
    (result : Except Failure (List NormalizedFact)) : Prop where
  returns_iff : (∃ out, result = .ok out) ↔ Consistent occurrences
  deduplicated : ∀ out, result = .ok out → Deduplicated occurrences out
  restates : ∀ out, result = .ok out → RestatesByNumber prior out

/-- Facts of one key have one text. -/
def SameTexts (occurrences : List Occurrence) : Prop :=
  ∀ a ∈ occurrences, ∀ b ∈ occurrences, a.key = b.key → decimalStr a.value = decimalStr b.value

section Loop

variable {uuid5 : String → String} {entityId documentVersionId : String} {wording : Wording}
  {prior : Dict (List Char) PriorFact}

/-- **The invariant of the loop.** -/
structure Run (uuid5 : String → String) (entityId documentVersionId : String)
    (prior : Dict (List Char) PriorFact)
    (done : List Occurrence) (st : Ledger) : Prop where
  made :
    List.Forall₂ (fun o r => ∃ n dup,
      r = makeRecord uuid5 entityId documentVersionId o n dup (restated prior o))
    done st.out
  canonical : ∀ key, st.out.filter (isCanonical key) = (st.canonical.get? key).toList
  known : ∀ r ∈ st.out, ∃ c, st.canonical.get? r.factKey = some c ∧ c.value = r.value
  points : ∀ before r after, st.out = before ++ r :: after → ∀ id, r.duplicateOf = some id →
    ∃ c ∈ before, c.id = id ∧ isCanonical r.factKey c

/-- Nothing has been recorded before the first fact. -/
theorem run_nil : Run uuid5 entityId documentVersionId prior [] {} where
  made := .nil
  canonical _ := rfl
  known _ hr := absurd hr List.not_mem_nil
  points before r after h := absurd h.symm (by simp)

/-- The canonical fact of a key has been recorded. -/
theorem Run.mem_of_canonical {done : List Occurrence} {st : Ledger}
    (h : Run uuid5 entityId documentVersionId prior done st) {key : List Char} {c : NormalizedFact}
    (hc : st.canonical.get? key = some c) : c ∈ st.out ∧ isCanonical key c := by
  have hmem : c ∈ st.out.filter (isCanonical key) := by
    rw [h.canonical, hc]
    exact List.mem_singleton_self c
  exact List.mem_filter.mp hmem

/-- A list that ends with a new element is split there or before. -/
theorem append_cons_eq_snoc {α : Type} {before after out : List α} {r x : α}
    (h : out ++ [x] = before ++ r :: after) :
    (before = out ∧ r = x) ∨ ∃ after', out = before ++ r :: after' := by
  rcases List.eq_nil_or_concat after with rfl | ⟨after', y, rfl⟩
  · obtain ⟨hout, hx⟩ := List.append_inj' h rfl
    exact .inl ⟨hout.symm, (List.cons.inj hx).1.symm⟩
  · rw [List.concat_eq_append, ← List.cons_append, ← List.append_assoc] at h
    exact .inr ⟨after', (List.append_inj' h rfl).1⟩

/-- A round adds one record: its key had no canonical record and it is one, or it points to it. -/
theorem record_eq_ok {st st' : Ledger} {o : Occurrence}
    (h : record uuid5 entityId documentVersionId wording prior st o = .ok st') :
    (st.canonical.get? o.key = none
        ∧ st' = { canonical := st.canonical.set o.key
                    (makeRecord uuid5 entityId documentVersionId o st.out.length none
                    (restated prior o))
                  out :=
                    st.out
                      ++ [makeRecord uuid5 entityId documentVersionId o st.out.length none
                        (restated prior o)] })
      ∨ ∃ c, st.canonical.get? o.key = some c ∧ c.value = decimalStr o.value
        ∧ st' = { st with
            out :=
              st.out ++ [makeRecord uuid5 entityId documentVersionId o st.out.length (some c.id)
                (restated prior o)] } := by
  unfold record at h
  cases hc : st.canonical.get? o.key with
  | none =>
      rw [hc] at h
      exact .inl ⟨rfl, (Except.ok.inj h).symm⟩
  | some c =>
      rw [hc] at h
      simp only [ne_eq, ite_not] at h
      split_ifs at h with hv
      exact .inr ⟨c, rfl, hv, (Except.ok.inj h).symm⟩

/-- **A round keeps the invariant.** -/
theorem run_record {done : List Occurrence} {st st' : Ledger} {o : Occurrence}
    (hrun : Run uuid5 entityId documentVersionId prior done st)
    (h : record uuid5 entityId documentVersionId wording prior st o = .ok st') :
    Run uuid5 entityId documentVersionId prior (done ++ [o]) st' := by
  rcases record_eq_ok h with ⟨hc, rfl⟩ | ⟨c, hc, hv, rfl⟩
  · refine ⟨List.rel_append hrun.made (.cons ⟨_, _, rfl⟩ .nil), ?_, ?_, ?_⟩
    · intro key
      rw [List.filter_append, hrun.canonical, Dict.get?_set]
      split_ifs with hkey
      · rw [← hkey, hc]
        simp [isCanonical, makeRecord]
      · simp [isCanonical, makeRecord, hkey]
    · intro r hr
      rw [Dict.get?_set]
      rcases List.mem_append.mp hr with hr | hr
      · obtain ⟨c, hget, hv⟩ := hrun.known r hr
        rw [if_neg (by rintro heq; rw [← heq, hc] at hget; cases hget)]
        exact ⟨c, hget, hv⟩
      · rw [List.mem_singleton.mp hr]
        exact ⟨_, if_pos rfl, rfl⟩
    · intro before r after hout id hid
      rcases append_cons_eq_snoc hout with ⟨-, rfl⟩ | ⟨after', hout⟩
      · cases hid
      · exact hrun.points before r after' hout id hid
  · refine ⟨List.rel_append hrun.made (.cons ⟨_, _, rfl⟩ .nil), ?_, ?_, ?_⟩
    · intro key
      rw [List.filter_append, hrun.canonical]
      simp [isCanonical, makeRecord]
    · intro r hr
      rcases List.mem_append.mp hr with hr | hr
      · exact hrun.known r hr
      · rw [List.mem_singleton.mp hr]
        exact ⟨c, hc, hv⟩
    · intro before r after hout id hid
      rcases append_cons_eq_snoc hout with ⟨rfl, rfl⟩ | ⟨after', hout⟩
      · obtain ⟨hmem, hcan⟩ := hrun.mem_of_canonical hc
        exact ⟨c, hmem, Option.some.inj hid, hcan⟩
      · exact hrun.points before r after' hout id hid

/-- **Recording facts one by one** keeps the invariant of the ledger. -/
theorem run_fold {occurrences : List Occurrence} {st : Ledger}
    (h : occurrences.foldlM (record uuid5 entityId documentVersionId wording prior) {} = .ok st) :
    Run uuid5 entityId documentVersionId prior occurrences st :=
  Except.foldlM_ok_run (Run uuid5 entityId documentVersionId prior)
    (fun _ _ _ _ _ _ hrun hstep => run_record hrun hstep) run_nil h

/-- A loop that returned has seen one text for each key. -/
theorem Run.sameTexts {occurrences : List Occurrence} {st : Ledger}
    (h : Run uuid5 entityId documentVersionId prior occurrences st) : SameTexts occurrences := by
  have hcanonical : ∀ o ∈ occurrences, ∃ c, st.canonical.get? o.key = some c ∧
      c.value = decimalStr o.value := by
    intro o ho
    obtain ⟨r, hr, n, dup, rfl⟩ := mem_of_forall₂_right h.made ho
    exact h.known _ hr
  intro a ha b hb hkey
  obtain ⟨c, hc, hva⟩ := hcanonical a ha
  obtain ⟨c', hc', hvb⟩ := hcanonical b hb
  rw [hkey, hc', Option.some.injEq] at hc
  rw [← hva, ← hvb, hc]

/-- A round whose fact has the text of the facts before it returns. -/
theorem exists_record {done : List Occurrence} {st : Ledger} {o : Occurrence}
    (hrun : Run uuid5 entityId documentVersionId prior done st)
    (h : ∀ d ∈ done, d.key = o.key → decimalStr d.value = decimalStr o.value) :
    ∃ st', record uuid5 entityId documentVersionId wording prior st o = .ok st' := by
  unfold record
  cases hc : st.canonical.get? o.key with
  | none => exact ⟨_, rfl⟩
  | some c =>
      obtain ⟨hmem, hcan⟩ := hrun.mem_of_canonical hc
      obtain ⟨d, hd, n, dup, rfl⟩ := mem_of_forall₂_left hrun.made hmem
      have hkey : d.key = o.key := (of_decide_eq_true hcan).1
      exact ⟨_, if_neg (not_not.mpr (h d hd hkey))⟩

/-- Facts with agreeing texts are all recorded. -/
theorem exists_fold {todo done : List Occurrence} {st : Ledger}
    (hrun : Run uuid5 entityId documentVersionId prior done st) (h : SameTexts (done ++ todo)) :
    ∃ st', todo.foldlM (record uuid5 entityId documentVersionId wording prior) st = .ok st' := by
  induction todo generalizing done st with
  | nil => exact ⟨st, rfl⟩
  | cons o todo ih =>
      have hfirst : ∃ st₁, record uuid5 entityId documentVersionId wording prior st o = .ok st₁ :=
        exists_record hrun fun d hd hkey => h d (List.mem_append_left _ hd) o (by simp) hkey
      obtain ⟨st₁, hst₁⟩ := hfirst
      rw [List.foldlM_cons, hst₁, Except.ok_bind]
      exact ih (run_record hrun hst₁) (by rwa [List.append_assoc, List.singleton_append])

/-- **The loop returns exactly when each key has one text.** -/
theorem fold_returns_iff {occurrences : List Occurrence} :
    (∃ st, occurrences.foldlM (record uuid5 entityId documentVersionId wording prior) {} = .ok st)
      ↔ SameTexts occurrences := by
  constructor
  · rintro ⟨st, hst⟩
    exact (run_fold hst).sameTexts
  · intro h
    exact exists_fold run_nil (by simpa using h)

/-- The recorded facts are those of the source, duplicates marked. -/
theorem Run.deduplicated {occurrences : List Occurrence} {st : Ledger}
    (h : Run uuid5 entityId documentVersionId prior occurrences st) :
    Deduplicated occurrences st.out := by
  refine ⟨h.made.imp ?_, fun r hr => ?_, h.points⟩
  · rintro o r ⟨n, dup, rfl⟩
    exact ⟨rfl, rfl, rfl, rfl, rfl, rfl, rfl, rfl⟩
  · obtain ⟨c, hc, -⟩ := h.known r hr
    rw [h.canonical, hc]
    rfl

/-! ## Texts and numbers -/

/-- Zeros of one key have one sign. -/
def SignsAgree (occurrences : List Occurrence) : Prop :=
  ∀ a ∈ occurrences, ∀ b ∈ occurrences, a.key = b.key → a.value.value = 0 → b.value.value = 0 →
    a.value.neg = b.value.neg

/-- An earlier fact that has the number of a fact is written as that number is: with no superfluous
zero, and for zero with the same sign. -/
def PriorsWritten (prior : Dict (List Char) PriorFact) (occurrences : List Occurrence) : Prop :=
  ∀ o ∈ occurrences, ∀ earlier, prior.get? o.key = some earlier →
    Decimal.readFixed earlier.value = o.value.value →
    (∃ d, decimalStr d = earlier.value) ∧
    (o.value.value = 0 → (earlier.value.head? = some '-' ↔ o.value.neg = true))

theorem readFixed_decimalStr (value : Decimal) :
    Decimal.readFixed (decimalStr value) = value.value := by
  rw [decimalStr_eq, Decimal.readFixed_plainText]

/-- Texts agree where the values and the signs of zeros do. -/
theorem sameTexts_iff {occurrences : List Occurrence} :
    SameTexts occurrences ↔ Consistent occurrences ∧ SignsAgree occurrences := by
  simp only [SameTexts, decimalStr_eq, Decimal.plainText_eq_iff]
  constructor
  · exact fun h => ⟨fun a ha b hb hkey => (h a ha b hb hkey).1,
      fun a ha b hb hkey h0 _ => (h a ha b hb hkey).2 h0⟩
  · rintro ⟨hvalue, hsign⟩ a ha b hb hkey
    have hv := hvalue a ha b hb hkey
    exact ⟨hv, fun h0 => hsign a ha b hb hkey h0 (hv ▸ h0)⟩

/-- An earlier text is the one of the value. -/
theorem written_iff {text : List Char} {value : Decimal}
    (h : Decimal.readFixed text = value.value) :
    text = decimalStr value
      ↔ (∃ d, decimalStr d = text) ∧
      (value.value = 0 → (text.head? = some '-' ↔ value.neg = true)) := by
  constructor
  · rintro rfl
    exact ⟨⟨value, rfl⟩, fun _ => by rw [decimalStr_eq, Decimal.head?_plainText]⟩
  · rintro ⟨⟨d, rfl⟩, hsign⟩
    rw [readFixed_decimalStr] at h
    rw [decimalStr_eq, decimalStr_eq, Decimal.plainText_eq_iff]
    refine ⟨h, fun h0 => ?_⟩
    rw [Bool.eq_iff_iff, ← hsign (h ▸ h0), decimalStr_eq, Decimal.head?_plainText]

/-- **Restatements follow the numbers** exactly when the earlier facts are written as the values
are. -/
theorem Run.restates_iff {occurrences : List Occurrence} {st : Ledger}
    (h : Run uuid5 entityId documentVersionId prior occurrences st) :
    RestatesByNumber prior st.out ↔ PriorsWritten prior occurrences := by
  have hone : ∀ o : Occurrence,
      (∀ id, restated prior o = some id ↔ ∃ earlier, prior.get? o.key = some earlier
      ∧ earlier.factId = id ∧ Decimal.readFixed earlier.value ≠ o.value.value)
      ↔ ∀ earlier, prior.get? o.key = some earlier →
        Decimal.readFixed earlier.value = o.value.value →
        earlier.value = decimalStr o.value := by
    intro o
    unfold restated
    cases hp : prior.get? o.key with
    | none => simp
    | some earlier =>
        simp only [Option.some.injEq, exists_eq_left', forall_eq']
        by_cases htext : earlier.value = decimalStr o.value
        · simp [htext, readFixed_decimalStr]
        · simp [htext]
  constructor
  · intro hr o ho earlier he hvalue
    obtain ⟨r, hmem, n, dup, rfl⟩ := mem_of_forall₂_right h.made ho
    have ho' := hr _ hmem
    simp only [makeRecord, readFixed_decimalStr] at ho'
    exact (written_iff hvalue).mp ((hone o).mp ho' earlier he hvalue)
  · intro hw r hmem
    obtain ⟨o, ho, n, dup, rfl⟩ := mem_of_forall₂_left h.made hmem
    simp only [makeRecord, readFixed_decimalStr]
    exact (hone o).mpr fun earlier he hvalue => (written_iff hvalue).mpr (hw o ho earlier he hvalue)

/-- The records of a run over the facts. -/
def records (uuid5 : String → String) (entityId documentVersionId : String) (wording : Wording)
    (prior : Dict (List Char) PriorFact) (occurrences : List Occurrence) :
    Except Failure (List NormalizedFact) :=
  Ledger.out <$> occurrences.foldlM (record uuid5 entityId documentVersionId wording prior) {}

/-- The records are what the ledger holds at the end. -/
theorem records_eq_ok_iff {occurrences : List Occurrence} {out : List NormalizedFact} :
    records uuid5 entityId documentVersionId wording prior occurrences = .ok out
      ↔ ∃ st, occurrences.foldlM (record uuid5 entityId documentVersionId wording prior) {}
      = .ok st ∧ st.out = out := by
  rw [records]
  cases occurrences.foldlM (record uuid5 entityId documentVersionId wording prior) {} with
  | error e => simp [Functor.map, Except.map]
  | ok st => simp [Functor.map, Except.map]

/-- **The loop follows the numbers** when two facts conflict anyway, or when zeros have one sign and
earlier facts are written as the values are. -/
theorem followsNumbers_iff {occurrences : List Occurrence} :
    FollowsNumbers prior occurrences
    (records uuid5 entityId documentVersionId wording prior occurrences)
      ↔ (Consistent occurrences → SignsAgree occurrences ∧ PriorsWritten prior occurrences) := by
  have hreturns :
      (∃ out, records uuid5 entityId documentVersionId wording prior occurrences = .ok out)
      ↔ SameTexts occurrences := by
    simp only [records_eq_ok_iff]
    rw [← fold_returns_iff]
    exact ⟨fun ⟨_, st, hst, _⟩ => ⟨st, hst⟩, fun ⟨st, hst⟩ => ⟨st.out, st, hst, rfl⟩⟩
  constructor
  · intro h hconsistent
    have hsame := hreturns.mp (h.returns_iff.mpr hconsistent)
    refine ⟨(sameTexts_iff.mp hsame).2, ?_⟩
    obtain ⟨st, hst⟩ := fold_returns_iff.mpr hsame
    exact (run_fold hst).restates_iff.mp (h.restates st.out (records_eq_ok_iff.mpr ⟨st, hst, rfl⟩))
  · intro h
    refine ⟨?_, ?_, ?_⟩
    · rw [hreturns, sameTexts_iff]
      exact ⟨And.left, fun hconsistent => ⟨hconsistent, (h hconsistent).1⟩⟩
    · intro out hout
      obtain ⟨st, hst, rfl⟩ := records_eq_ok_iff.mp hout
      exact (run_fold hst).deduplicated
    · intro out hout
      obtain ⟨st, hst, rfl⟩ := records_eq_ok_iff.mp hout
      have hsame := sameTexts_iff.mp (run_fold hst).sameTexts
      exact (run_fold hst).restates_iff.mpr (h hsame.1).2

end Loop

/-! ## Filings and snapshots -/

section Sources

variable (uuid5 : String → String) (entityId documentVersionId : String)

/-- The facts of a filing whose values and periods are valid. -/
def occurrencesOf (repr : String → String) (parsed : ParsedDocument) :
    Except Failure (List Occurrence) :=
  parsed.facts.mapM (inlineOccurrence repr parsed)

/-- `normalize_facts` follows the numbers of a filing with valid values and periods. -/
def FilingFollowsNumbers (repr : String → String) (prior : Dict (List Char) PriorFact)
    (parsed : ParsedDocument) : Prop :=
  ∀ occurrences, occurrencesOf repr parsed = .ok occurrences →
    FollowsNumbers prior occurrences
      (normalizeFacts uuid5 entityId documentVersionId repr prior parsed)

/-- `normalize_company_facts` follows the numbers of a snapshot. -/
def SnapshotFollowsNumbers (observations : List CompanyFactsObservation) : Prop :=
  FollowsNumbers [] (observations.map observedOccurrence)
    (normalizeCompanyFacts uuid5 entityId documentVersionId observations)

/-- A loop that first makes an element out of each one. -/
theorem foldlM_of_mapM {ε α β σ : Type} {f : α → Except ε β} {g : σ → β → Except ε σ}
    {l : List α} {ys : List β}
    (h : l.mapM f = .ok ys) (s : σ) : l.foldlM (fun s a => f a >>= g s) s = ys.foldlM g s := by
  rw [Except.mapM_eq_ok_iff] at h
  induction h generalizing s with
  | nil => rfl
  | cons hx _ ih =>
      rw [List.foldlM_cons, List.foldlM_cons, hx, Except.ok_bind]
      exact bind_congr fun s' => ih s'

variable {uuid5 entityId documentVersionId}

/-- The facts of a filing are recorded in their order. -/
theorem normalizeFacts_eq {repr : String → String} {prior : Dict (List Char) PriorFact}
    {parsed : ParsedDocument}
    {occurrences : List Occurrence} (h : occurrencesOf repr parsed = .ok occurrences) :
    normalizeFacts uuid5 entityId documentVersionId repr prior parsed
      = records uuid5 entityId documentVersionId filingWording prior occurrences := by
  have hfold : parsed.facts.foldlM (fun st fact => do
      let o ← inlineOccurrence repr parsed fact
      record uuid5 entityId documentVersionId filingWording prior st o) {}
        = occurrences.foldlM (record uuid5 entityId documentVersionId filingWording prior) {} :=
    foldlM_of_mapM (g := record uuid5 entityId documentVersionId filingWording prior) h _
  rw [records, normalizeFacts, map_eq_pure_bind, hfold]

/-- The facts of a snapshot are recorded in their order. -/
theorem normalizeCompanyFacts_eq (observations : List CompanyFactsObservation) :
    normalizeCompanyFacts uuid5 entityId documentVersionId observations
      = records uuid5 entityId documentVersionId snapshotWording []
      (observations.map observedOccurrence) := by
  rw [records, normalizeCompanyFacts, map_eq_pure_bind, List.foldlM_map]

/-- **Facts are told apart by their numbers** in a filing and in a snapshot, exactly when two facts
of a key conflict anyway, or zeros of a key have one sign and the earlier facts with the same number
are written as the values are. -/
theorem follows_numbers_iff (uuid5 : String → String) (entityId documentVersionId : String)
    (repr : String → String)
    (prior : Dict (List Char) PriorFact) (parsed : ParsedDocument)
    (observations : List CompanyFactsObservation) :
    (FilingFollowsNumbers uuid5 entityId documentVersionId repr prior parsed
        ↔ ∀ occurrences, occurrencesOf repr parsed = .ok occurrences →
          Consistent occurrences → SignsAgree occurrences ∧ PriorsWritten prior occurrences)
      ∧ (SnapshotFollowsNumbers uuid5 entityId documentVersionId observations
        ↔ (Consistent (observations.map observedOccurrence) →
          SignsAgree (observations.map observedOccurrence))) := by
  constructor
  · refine forall_congr' fun occurrences => forall_congr' fun hocc => ?_
    rw [normalizeFacts_eq hocc, followsNumbers_iff]
  · rw [SnapshotFollowsNumbers, normalizeCompanyFacts_eq, followsNumbers_iff]
    have hprior : PriorsWritten [] (observations.map observedOccurrence) :=
      fun o _ earlier he => by cases he
    simp only [hprior, and_true]

end Sources

/-! ## Zeros with two signs -/

/-- A reported zero, with or without a minus. -/
def zeroFact (neg : Bool) : InlineFact where
  concept := "us-gaap:Liabilities"
  contextRef := "c1"
  unitRef := "usd"
  scale := 0
  decimals := none
  sign := none
  format := none
  rawText := if neg then ['-', '0'] else ['0']
  spanId := if neg then "second" else "first"
  sectionId := "section"
  startChar := if neg then 2 else 0
  endChar := if neg then 4 else 1

/-- The last day of a year. -/
def yearEnd : CivilDate := ⟨2024, 12, 31, by decide, by decide, by decide⟩

/-- A filing that reports liabilities of zero twice. -/
def twoZeros : ParsedDocument where
  contentHash := ""
  parserVersion := "fel-parser/1.0.0"
  text := "0\n-0".toList
  sections := []
  spans := []
  tables := []
  contexts := [("c1", ⟨"c1", some yearEnd, none, none, []⟩)]
  units := [("usd", "iso4217:USD".toList)]
  facts := [zeroFact false, zeroFact true]
  diagnostics := []

/-- What the filing reports. -/
def zeroOccurrence (neg : Bool) : Occurrence :=
  ⟨"us-gaap:Liabilities", none, "USD".toList, .instant yearEnd, [], ⟨neg, 0, 0⟩,
    (zeroFact neg).spanId⟩

theorem parseFactValue_zeroFact (repr : String → String) (neg : Bool) :
    parseFactValue repr (zeroFact neg) = .ok ⟨neg, 0, 0⟩ := by
  have hm : magnitude? (zeroFact neg) = some ⟨neg, 0, 0⟩ := by cases neg <;> decide
  rw [parseFactValue_eq hm, handled_eq_ok_iff]
  cases neg <;> decide

theorem occurrencesOf_twoZeros (repr : String → String) :
    occurrencesOf repr twoZeros = .ok [zeroOccurrence false, zeroOccurrence true] := by
  have hunit : mapUnit "iso4217:USD".toList = "USD".toList := by decide
  have hcontext : twoZeros.contexts.get? "c1" = some ⟨"c1", some yearEnd, none, none, []⟩ := rfl
  have hmeasure : twoZeros.units.get? "usd" = some "iso4217:USD".toList := rfl
  have hocc : ∀ neg, inlineOccurrence repr twoZeros (zeroFact neg) = .ok (zeroOccurrence neg) := by
    intro neg
    rw [inlineOccurrence, parseFactValue_zeroFact]
    simp only [zeroFact, hcontext, hmeasure, Except.orRaise, Except.ok_bind, periodOf, hunit,
      Except.pure_eq_ok,
      zeroOccurrence]
  exact Except.mapM_eq_ok_iff.mpr (.cons (hocc false) (.cons (hocc true) .nil))

/-- The two zeros are one number, and the filing is rejected. -/
theorem signed_zeros_conflict : ¬ FilingFollowsNumbers id "entity" "version" id [] twoZeros := by
  intro h
  have hfollows := h _ (occurrencesOf_twoZeros id)
  rw [normalizeFacts_eq (occurrencesOf_twoZeros id), followsNumbers_iff] at hfollows
  have hzero : ∀ o ∈ [zeroOccurrence false, zeroOccurrence true], o.value.value = 0 := by
    intro o ho
    rcases List.mem_pair.mp ho with rfl | rfl <;> simp [zeroOccurrence, Decimal.value]
  have hsigns := (hfollows fun a ha b hb _ => by rw [hzero a ha, hzero b hb]).1
  have hneg := hsigns _ List.mem_cons_self _ (List.mem_cons_of_mem _ List.mem_cons_self) rfl
    (hzero _ List.mem_cons_self) (hzero _ (List.mem_cons_of_mem _ List.mem_cons_self))
  cases hneg

end Xbrl
