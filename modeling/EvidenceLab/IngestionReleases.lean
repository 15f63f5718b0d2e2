/-
# The two channels

`ingest_filing` and `ingest_company_facts` as releases: the parser and the normalizer with their
versions.  A fact of a filing restates the fact that `_prior_canonical_facts` found under its key,
where that has another value, and a fact of a snapshot restates nothing (`Release.FollowsPrior`).
What the query finds is the first candidate of a key (`get?_priorCanonicalFacts`).
-/
import EvidenceLab.CompanyFactsSpans
import EvidenceLab.Ingestion

namespace Ingestion

open CompanyFacts (Interpreter parseCompanyFacts)
open Xbrl (NormalizedFact PriorFact normalizeCompanyFacts normalizeFacts)

/-! ## Releases -/

/-- The reason codes of the parser. -/
def ReasonCode.ofParser : Filing.ReasonCode → ReasonCode
  | .emptyDocument => .emptyDocument
  | .incompleteFact => .incompleteFact
  | .unknownContext => .unknownContext
  | .unknownUnit => .unknownUnit
  | .invalidScale => .invalidScale
  | .invalidPeriodDate => .invalidPeriodDate

/-- The reason codes of the normalizer. -/
def ReasonCode.ofNormalizer : Xbrl.ReasonCode → ReasonCode
  | .invalidPeriodStructure => .invalidPeriodStructure
  | .emptyFactValue => .emptyFactValue
  | .unparseableFactValue => .unparseableFactValue
  | .nonfiniteFactValue => .nonfiniteFactValue
  | .unknownFormat => .unknownFormat
  | .inconsistentDuplicate => .inconsistentDuplicate

def DeriveError.ofParser (e : Filing.ParseError) : DeriveError :=
  .ingest ⟨.ofParser e.reasonCode, e.diagnostic⟩

def DeriveError.ofNormalizer : Xbrl.Failure → DeriveError
  | .normalization e => .ingest ⟨.ofNormalizer e.reasonCode, e.diagnostic⟩
  | .signal _ => .uncaught
  | .keyError _ => .uncaught

section Channels

variable (S : Tools) (py : Interpreter)

/-- `parse_filing` and `normalize_facts`.  `html` is the parser of the standard library. -/
def deriveFiling (html : String → List Filing.Event) (entityId versionId contentHash : String)
    (raw : List UInt8)
    (prior : Dict (List Char) PriorFact) : Except DeriveError Derived := do
  let text ← Except.orRaise (ByteArray.mk raw.toArray).utf8Decode? (.ingest ⟨.encodingError,
    "source is not valid UTF-8 (byte offset " ++ toString (py.utf8Error raw)
      ++ "); re-fetch the document or register the correct encoding"⟩)
  let parsed ← (Filing.parseFiling S.uuid5
    (fun text => S.sha256Hex (text.flatMap String.utf8EncodeChar)) S.repr versionId
    contentHash (html (String.ofList text.toList))).mapError .ofParser
  let facts ← (normalizeFacts S.uuid5 entityId versionId S.repr prior parsed).mapError .ofNormalizer
  return ⟨parsed.text, parsed.sections, parsed.spans, parsed.tables, facts⟩

/-- `parse_company_facts` and `normalize_company_facts`. -/
def deriveCompanyFacts (entityId versionId contentHash : String) (raw : List UInt8) :
    Except DeriveError Derived := do
  let parsed ← parseCompanyFacts S py versionId contentHash raw
  let facts ← (normalizeCompanyFacts S.uuid5 entityId versionId parsed.observations).mapError
    .ofNormalizer
  return ⟨parsed.text, parsed.sections, parsed.spans, [], facts⟩

/-- The release of `ingest_filing`. -/
def filingRelease (html : String → List Filing.Event) : Release where
  parserVersion := "fel-parser/1.0.0"
  normalizerVersion := "fel-xbrl/1.0.0"
  companyFacts := false
  derive := deriveFiling S py html

/-- The release of `ingest_company_facts`. -/
def companyFactsRelease : Release where
  parserVersion := "fel-companyfacts-parser/1.0.0"
  normalizerVersion := "fel-companyfacts-normalizer/1.0.0"
  companyFacts := true
  derive entityId versionId contentHash raw _ :=
    deriveCompanyFacts S py entityId versionId contentHash raw

end Channels

/-! ## Restatements -/

/-- What a fact has, of an entity and with the facts of earlier filings. -/
structure FollowsPrior (entityId : String) (prior : Dict (List Char) PriorFact)
    (r : NormalizedFact) : Prop where
  entityId : r.entityId = entityId
  checked : Xbrl.checkValue r.value = true
  restates : ∀ id, r.restates = some id →
    ∃ p, Dict.get? prior r.factKey = some p ∧ p.factId = id ∧ p.value ≠ r.value

/-- Every fact of a release follows the earlier ones. -/
def Release.FollowsPrior (release : Release) : Prop :=
  ∀ entityId versionId contentHash raw prior derived,
    release.derive entityId versionId contentHash raw prior = .ok derived →
      ∀ r ∈ derived.facts, Ingestion.FollowsPrior entityId prior r

section Normalizer

variable {uuid5 : String → String} {entityId versionId : String} {wording : Xbrl.Wording}
    {prior : Dict (List Char) PriorFact}

theorem followsPrior_makeRecord (o : Xbrl.Occurrence) (ordinal : ℕ) (duplicateOf : Option String) :
    FollowsPrior entityId prior
    (Xbrl.makeRecord uuid5 entityId versionId o ordinal duplicateOf (Xbrl.restated prior o)) where
  entityId := rfl
  checked := by
    show Xbrl.checkValue (Xbrl.decimalStr o.value) = true
    rw [Xbrl.decimalStr_eq]
    exact Xbrl.checkValue_plainText o.value
  restates id hid := by
    change Xbrl.restated prior o = some id at hid
    rw [Xbrl.restated] at hid
    split at hid
    · rename_i p hp
      split_ifs at hid with hvalue
      exact ⟨p, hp, Option.some.inj hid, hvalue⟩
    · cases hid

/-- A round of the loop adds such a record. -/
theorem followsPrior_record {st st' : Xbrl.Ledger} {o : Xbrl.Occurrence}
    (hst : ∀ r ∈ st.out, FollowsPrior entityId prior r)
    (h : Xbrl.record uuid5 entityId versionId wording prior st o = .ok st') :
    ∀ r ∈ st'.out, FollowsPrior entityId prior r := by
  obtain ⟨-, rfl⟩ | ⟨c, -, -, rfl⟩ := Xbrl.record_eq_ok h
  · exact List.forall_mem_append.mpr ⟨hst,
      List.forall_mem_singleton.mpr (followsPrior_makeRecord _ _ _)⟩
  · exact List.forall_mem_append.mpr ⟨hst,
      List.forall_mem_singleton.mpr (followsPrior_makeRecord _ _ _)⟩

/-- The facts of a filing follow the prior ones. -/
theorem followsPrior_normalizeFacts {repr : String → String} {parsed : Filing.ParsedDocument}
    {facts : List NormalizedFact}
    (h : normalizeFacts uuid5 entityId versionId repr prior parsed = .ok facts) :
    ∀ r ∈ facts, FollowsPrior entityId prior r := by
  obtain ⟨st, hst, h⟩ := Except.bind_eq_ok_iff.mp h
  obtain rfl := Except.ok.inj h
  refine Except.foldlM_ok_run (fun _ (st : Xbrl.Ledger) => ∀ r ∈ st.out,
    FollowsPrior entityId prior r) ?_ ?_ hst
  · intro _ fact _ st st' _ hinv hround
    obtain ⟨o, -, hrecord⟩ := Except.bind_eq_ok_iff.mp hround
    exact followsPrior_record hinv hrecord
  · intro r hr
    cases hr

/-- The facts of a snapshot follow no prior ones. -/
theorem followsPrior_normalizeCompanyFacts {observations : List Xbrl.CompanyFactsObservation}
    {facts : List NormalizedFact}
    (h : normalizeCompanyFacts uuid5 entityId versionId observations = .ok facts) :
    ∀ r ∈ facts, FollowsPrior entityId [] r := by
  obtain ⟨st, hst, h⟩ := Except.bind_eq_ok_iff.mp h
  obtain rfl := Except.ok.inj h
  refine Except.foldlM_ok_run (fun _ (st : Xbrl.Ledger) => ∀ r ∈ st.out,
    FollowsPrior entityId [] r) ?_ ?_ hst
  · exact fun _ _ _ _ _ _ hinv hround => followsPrior_record hinv hround
  · intro r hr
    cases hr

end Normalizer

theorem mapError_eq_ok {ε ε' α : Type} {f : ε → ε'} {x : Except ε α} {a : α}
    (h : x.mapError f = .ok a) : x = .ok a := by
  cases x with
  | ok b => exact congrArg Except.ok (Except.ok.inj h)
  | error e => cases h

/-- **A filing** restates only the facts it was given. -/
theorem filingRelease_followsPrior (S : Tools) (py : Interpreter)
    (html : String → List Filing.Event) :
    (filingRelease S py html).FollowsPrior := by
  intro entityId versionId contentHash raw prior derived h
  obtain ⟨text, -, h⟩ := Except.bind_eq_ok_iff.mp h
  obtain ⟨parsed, -, h⟩ := Except.bind_eq_ok_iff.mp h
  obtain ⟨facts, hfacts, h⟩ := Except.bind_eq_ok_iff.mp h
  obtain rfl := Except.ok.inj h
  exact followsPrior_normalizeFacts (mapError_eq_ok hfacts)

/-- A snapshot finds no earlier fact. -/
theorem companyFactsRelease_followsPrior (S : Tools) (py : Interpreter) :
    (companyFactsRelease S py).FollowsPrior := by
  intro entityId versionId contentHash raw prior derived h r hr
  obtain ⟨parsed, -, h⟩ := Except.bind_eq_ok_iff.mp h
  obtain ⟨facts, hfacts, h⟩ := Except.bind_eq_ok_iff.mp h
  obtain rfl := Except.ok.inj h
  obtain ⟨hentity, hchecked, hrestates⟩ :=
    followsPrior_normalizeCompanyFacts (mapError_eq_ok hfacts) r hr
  refine ⟨hentity, hchecked, fun id hid => ?_⟩
  obtain ⟨p, hp, -⟩ := hrestates id hid
  cases hp

/-! ## The query of earlier facts -/

/-- A canonical fact that the query may find. -/
structure Eligible (documents : List DocumentRow) (versions : List VersionRow) (entityId : String)
    (publishedBefore : ℤ)
    (c : Candidate) : Prop where
  version : c.version ∈ versions
  document : c.document ∈ documents
  id : c.document.id = c.version.documentId
  publishedAt : c.document.publishedAt < publishedBefore
  form : c.document.form ≠ some companyFactsForm
  latest : ∀ u ∈ versions, u.documentId = c.version.documentId →
    u.createdAt < c.version.createdAt ∨ (u.createdAt = c.version.createdAt ∧ u.id ≤ c.version.id)
  fact : c.fact ∈ c.version.derived.facts
  entityId : c.fact.entityId = entityId
  canonical : c.fact.duplicateOf = none

section Query

variable {documents : List DocumentRow} {versions : List VersionRow} {entityId : String}
    {publishedBefore : ℤ}

/-- The latest version of a document. -/
theorem isLatest_iff {v : VersionRow} :
    isLatest versions v = true ↔ ∀ u ∈ versions, u.documentId = v.documentId →
    u.createdAt < v.createdAt ∨ (u.createdAt = v.createdAt ∧ u.id ≤ v.id) := by
  simp only [isLatest, List.all_eq_true, Bool.or_eq_true, Bool.and_eq_true, decide_eq_true_eq,
    or_assoc]
  exact forall₂_congr fun u hu => ⟨fun h hid => h.resolve_left (fun hne => hne hid),
    fun h => or_iff_not_imp_left.mpr
    fun hne => h (not_not.mp hne)⟩

/-- The candidates are the facts of eligible versions. -/
theorem mem_candidates_iff {c : Candidate} :
    c ∈ candidates documents versions entityId publishedBefore ↔
    Eligible documents versions entityId publishedBefore c := by
  constructor
  · intro h
    obtain ⟨v, hv, h⟩ := List.mem_flatMap.mp h
    obtain ⟨d, hd, h⟩ := List.mem_flatMap.mp h
    obtain ⟨f, hf, rfl⟩ := List.mem_map.mp h
    obtain ⟨hd, hcond⟩ := List.mem_filter.mp hd
    obtain ⟨hf, hfact⟩ := List.mem_filter.mp hf
    simp only [Bool.and_eq_true, decide_eq_true_eq, Option.isNone_iff_eq_none] at hcond hfact
    obtain ⟨⟨⟨hid, hpublished⟩, hform⟩, hlatest⟩ := hcond
    exact ⟨hv, hd, hid, hpublished, hform, isLatest_iff.mp hlatest, hf, hfact.1, hfact.2⟩
  · rintro ⟨hv, hd, hid, hpublished, hform, hlatest, hf, hentity, hcanonical⟩
    refine List.mem_flatMap.mpr ⟨c.version, hv,
      List.mem_flatMap.mpr ⟨c.document, List.mem_filter.mpr ⟨hd, ?_⟩,
      List.mem_map.mpr ⟨c.fact, List.mem_filter.mpr ⟨hf, ?_⟩, rfl⟩⟩⟩
    · simp only [Bool.and_eq_true, decide_eq_true_eq]
      exact ⟨⟨⟨hid, hpublished⟩, hform⟩, isLatest_iff.mpr hlatest⟩
    · simp only [Bool.and_eq_true, decide_eq_true_eq, Option.isNone_iff_eq_none]
      exact ⟨hentity, hcanonical⟩

/-- Candidates are ordered by publication, document and fact. -/
theorem precedes_iff {a b : Candidate} :
    precedes a b = true ↔ b.document.publishedAt < a.document.publishedAt
    ∨ (a.document.publishedAt = b.document.publishedAt ∧ (b.version.createdAt < a.version.createdAt
      ∨ (a.version.createdAt = b.version.createdAt ∧ a.fact.id ≤ b.fact.id))) := by
  simp [precedes]

instance precedes_total : Std.Total fun a b : Candidate => precedes a b = true where
  total a b := by
    rw [precedes_iff, precedes_iff]
    rcases lt_trichotomy a.document.publishedAt b.document.publishedAt with hlt | heq | hgt
    · exact .inr (.inl hlt)
    · rcases lt_trichotomy a.version.createdAt b.version.createdAt with hlt | heq' | hgt
      · exact .inr (.inr ⟨heq.symm, .inl hlt⟩)
      · exact (le_total a.fact.id b.fact.id).imp (fun h => .inr ⟨heq, .inr ⟨heq', h⟩⟩)
          fun h => .inr ⟨heq.symm, .inr ⟨heq'.symm, h⟩⟩
      · exact .inl (.inr ⟨heq, .inl hgt⟩)
    · exact .inl (.inl hgt)

instance precedes_trans : IsTrans Candidate fun a b => precedes a b = true where
  trans a b c hab hbc := by
    rw [precedes_iff] at hab hbc ⊢
    rcases hab with hab | ⟨hab, hab'⟩
    · rcases hbc with hbc | ⟨hbc, -⟩
      · exact .inl (hbc.trans hab)
      · exact .inl (hbc ▸ hab)
    · rcases hbc with hbc | ⟨hbc, hbc'⟩
      · exact .inl (hab ▸ hbc)
      · refine .inr ⟨hab.trans hbc, ?_⟩
        rcases hab' with hab' | ⟨hab', hid⟩
        · rcases hbc' with hbc' | ⟨hbc', -⟩
          · exact .inl (hbc'.trans hab')
          · exact .inl (hbc' ▸ hab')
        · rcases hbc' with hbc' | ⟨hbc', hid'⟩
          · exact .inl (hab' ▸ hbc')
          · exact .inr ⟨hab'.trans hbc', hid.trans hid'⟩

/-- The last item of a key is the first one from behind. -/
theorem get?_update_reverse {κ α : Type} [DecidableEq κ] (items : Dict κ α) (k : κ) :
    Dict.get? (Dict.update [] items.reverse) k = Dict.get? items k := by
  induction items with
  | nil => rfl
  | cons item items ih =>
      rw [Dict.update, List.reverse_cons, List.foldl_append]
      show Dict.get? (Dict.set (Dict.update [] items.reverse) item.1 item.2) k = _
      rw [Dict.get?_set, ih, Dict.get?_cons]

/-- The item that a key has comes from the first candidate of the key that has one. -/
theorem first_of_get? {α κ β : Type} [DecidableEq κ] (key : α → κ) (value : α → Option β)
    {k : κ} {b : β} :
    ∀ {l : List α}, Dict.get? (l.filterMap fun a => (value a).map fun b => (key a, b)) k = some b →
      ∃ before a after, l = before ++ a :: after ∧ key a = k ∧ value a = some b
        ∧ ∀ x ∈ before, key x = k → value x = none
  | [], h => by cases h
  | a :: l, h => by
      cases hvalue : value a with
      | none =>
        rw [List.filterMap_cons_none (by rw [hvalue]; rfl)] at h
        obtain ⟨before, x, after, rfl, hkey, hx, hbefore⟩ := first_of_get? key value h
        exact ⟨a :: before, x, after, rfl, hkey, hx,
          List.forall_mem_cons.mpr ⟨fun _ => hvalue, hbefore⟩⟩
      | some b' =>
        rw [List.filterMap_cons_some (by rw [hvalue]; rfl), Dict.get?_cons] at h
        split_ifs at h with hkey
        · exact ⟨[], a, l, rfl, hkey, hvalue.trans h, by simp⟩
        · obtain ⟨before, x, after, rfl, hkey', hx, hbefore⟩ := first_of_get? key value h
          exact ⟨a :: before, x, after, rfl, hkey', hx,
            List.forall_mem_cons.mpr ⟨fun heq => absurd heq hkey, hbefore⟩⟩

/-- **What the query finds** under a key: the value of a canonical fact that precedes every other
one of the key. -/
theorem get?_priorCanonicalFacts {key : List Char} {p : PriorFact}
    (h : Dict.get? (priorCanonicalFacts documents versions entityId publishedBefore) key = some p) :
    ∃ c, Eligible documents versions entityId publishedBefore c ∧ c.fact.factKey = key ∧
    c.fact.id = p.factId
      ∧ c.fact.value = p.value
      ∧ ∀ c', Eligible documents versions entityId publishedBefore c' → c'.fact.factKey = key →
        Xbrl.checkValue c'.fact.value = true → precedes c c' = true := by
  rw [priorCanonicalFacts, List.filterMap_reverse, get?_update_reverse] at h
  obtain ⟨before, c, after, hrows, hkey, hprior, hbefore⟩ :=
    first_of_get? (fun c : Candidate => c.fact.factKey) Candidate.prior h
  have hmem : ∀ {x}, x ∈ before ++ c :: after ↔
      Eligible documents versions entityId publishedBefore x := fun {x} => by
    rw [← hrows, List.mem_insertionSort, mem_candidates_iff]
  have hsorted : (before ++ c :: after).Pairwise fun a b => precedes a b = true :=
    hrows ▸ List.pairwise_insertionSort (fun a b : Candidate => precedes a b = true) _
  rw [Candidate.prior] at hprior
  split_ifs at hprior with hchecked
  obtain rfl := Option.some.inj hprior
  refine ⟨c, hmem.mp (List.mem_append_right _ List.mem_cons_self), hkey, rfl, rfl,
    fun c' hc' hkey' hchecked' => ?_⟩
  rcases List.mem_append.mp (hmem.mpr hc') with hc' | hc'
  · have hnone := hbefore c' hc' hkey'
    rw [Candidate.prior, dif_pos hchecked'] at hnone
    cases hnone
  · rcases List.mem_cons.mp hc' with rfl | hc'
    · exact ((precedes_total).total c' c').elim id id
    · exact (List.pairwise_cons.mp (List.pairwise_append.mp hsorted).2.1).1 c' hc'

end Query

end Ingestion
