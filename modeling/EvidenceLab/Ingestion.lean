/-
# The ingestion ledger

`ingest_filing` and `ingest_company_facts` run in transactions that may stand next to each other: a
job claims its row of the ledger, stores the raw bytes and the document, parses and normalizes,
stores the version with its facts, and records the result; or it quarantines the source.

A step of the model is one statement of a job, and the insertions of a version, its sections, spans,
tables and facts are one.  The tables have the unique keys of the schema (`UniqueTable`), so that an
insertion waits for the job that holds a key, and the blobs of the object store stay when a job
rolls back.
-/
import EvidenceLab.FilingParser
import EvidenceLab.UniqueTable
import EvidenceLab.XbrlFacts

namespace Ingestion

open Xbrl (NormalizedFact PriorFact)

/-! ## Errors -/

inductive ReasonCode where
  | encodingError
  | emptyDocument
  | malformedJson
  | incompleteFact
  | unknownContext
  | unknownUnit
  | invalidScale
  | invalidPeriodDate
  | invalidPeriodStructure
  | emptyFactValue
  | unparseableFactValue
  | nonfiniteFactValue
  | unknownFormat
  | inconsistentDuplicate
  | divergentAccessionContent
  deriving DecidableEq

structure IngestError where
  reasonCode : ReasonCode
  diagnostic : String

/-- What a call raises. -/
inductive Raised where
  | valueError (message : String)
  | runtimeError (message : String)
  /-- A row has a unique key of another one. -/
  | uniqueViolation
  /-- The parser or the normalizer fails with another error than `IngestError`. -/
  | uncaught

/-- What the parser and the normalizer raise. -/
inductive DeriveError where
  | ingest (e : IngestError)
  | uncaught

/-! ## Rows -/

inductive RunStatus where
  | running
  | succeeded
  | quarantined
  deriving DecidableEq

/-- The column `result`. -/
structure RunResult where
  sections : ℕ := 0
  spans : ℕ := 0
  tables : ℕ := 0
  facts : ℕ := 0
  reasonCode : Option ReasonCode := none
  diagnostic : Option String := none

/-- A row of `ingestion_runs`. -/
structure RunRow where
  jobKey : String
  sourceHash : String
  parserVersion : String
  normalizerVersion : String
  status : RunStatus
  documentId : Option String
  documentVersionId : Option String
  result : RunResult

/-- A row of `documents`. -/
structure DocumentRow where
  id : String
  entityId : String
  accession : String
  form : Option String
  sourceUrl : String
  contentHash : String
  storageKey : String
  publishedAt : ℤ

/-- What the parser and the normalizer make of a source. -/
structure Derived where
  text : List Char
  sections : List Filing.Section
  spans : List Filing.SourceSpan
  tables : List Filing.ExtractedTable
  facts : List NormalizedFact

/-- A row of `document_versions`, with the sections, spans, tables and facts that point to it. -/
structure VersionRow where
  id : String
  documentId : String
  parserVersion : String
  normalizerVersion : String
  canonicalTextKey : String
  createdAt : ℤ
  derived : Derived

/-- A row of `ingestion_quarantine`. -/
structure QuarantineRow where
  accession : String
  sourceUrl : String
  contentHash : String
  reasonCode : ReasonCode
  diagnostic : String
  jobKey : String

/-- The unique keys of `documents`. -/
inductive DocumentKey where
  | id (id : String)
  | accession (accession : String)
  deriving DecidableEq

/-- The unique keys of `document_versions`, and of the tables whose rows point to a version. -/
inductive VersionKey where
  | id (id : String)
  | derivation (documentId parserVersion normalizerVersion : String)
  | sectionId (id : String)
  | sectionOrder (versionId : String) (order : ℕ)
  | spanId (id : String)
  | tableId (id : String)
  | tableOrder (versionId : String) (order : ℕ)
  | factId (id : String)
  /-- `financial_facts_canonical_uniq`. -/
  | canonicalFact (versionId : String) (factKey : List Char)
  deriving DecidableEq

def RunRow.keys (r : RunRow) : List String := [r.jobKey]

def DocumentRow.keys (d : DocumentRow) : List DocumentKey := [.accession d.accession, .id d.id]

/-- The keys of the sections, spans, tables and facts of a version. -/
def Derived.keys (versionId : String) (derived : Derived) : List VersionKey :=
  derived.sections.flatMap (fun s => [.sectionId s.id, .sectionOrder versionId s.order])
    ++ derived.spans.map (fun s => .spanId s.id)
    ++ derived.tables.flatMap (fun t => [.tableId t.id, .tableOrder versionId t.order])
    ++ derived.facts.flatMap fun f =>
      .factId f.id
        :: if f.duplicateOf.isNone then [.canonicalFact f.documentVersionId f.factKey] else []

def VersionRow.keys (v : VersionRow) : List VersionKey :=
  .id v.id :: .derivation v.documentId v.parserVersion v.normalizerVersion :: v.derived.keys v.id

/-! ## Jobs -/

/-- The hashes and identifiers of the standard library; `uuid5Url` is the one with `NAMESPACE_URL`.
-/
structure Tools where
  sha256Hex : List UInt8 → String
  uuid5 : String → String
  uuid5Url : String → String
  repr : String → String

/-- A parser and a normalizer with their versions, and the channel they belong to. -/
structure Release where
  parserVersion : String
  normalizerVersion : String
  companyFacts : Bool
  /-- `parse_filing` and `normalize_facts`: the entity, the version's id, the hash, the bytes and
  the earlier facts. -/
  derive : String → String → String → List UInt8 → Dict (List Char) PriorFact →
    Except DeriveError Derived

/-- The arguments of a call. -/
structure Request where
  entityId : String
  accession : String
  sourceUrl : String
  raw : List UInt8
  publishedAt : ℤ
  form : Option String

/-- `COMPANY_FACTS_FORM`. -/
def companyFactsForm : String := "COMPANYFACTS"

section Names

variable (S : Tools)

/-- `content_address`. -/
def contentAddress (raw : List UInt8) : String × String :=
  ("sha256:" ++ S.sha256Hex raw, "raw/sha256/" ++ S.sha256Hex raw)

/-- `canonical_text_address`. -/
def canonicalTextAddress (text : List Char) : String :=
  "text/sha256/" ++ S.sha256Hex (text.flatMap String.utf8EncodeChar)

/-- `document_id_for_accession`. -/
def documentIdForAccession (accession : String) : String := S.uuid5 ("document|" ++ accession)

/-- `job_key`. -/
def jobKey (sourceHash parserVersion normalizerVersion entityId accession : String) :
    Except String String :=
  let parts := [entityId, accession, sourceHash, parserVersion, normalizerVersion]
  match parts.find? fun part => '|' ∈ part.toList with
  | some part => .error ("job key component " ++ S.repr part ++ " contains the '|' delimiter")
  | none => .ok (S.sha256Hex (("|".intercalate parts).toList.flatMap String.utf8EncodeChar))

end Names

inductive OutcomeStatus where
  | succeeded
  | quarantined
  /-- An identical job already ran. -/
  | noop
  deriving DecidableEq

/-- `IngestionOutcome`. -/
structure IngestionOutcome where
  status : OutcomeStatus
  jobKey : String
  documentId : Option String
  documentVersionId : Option String
  result : RunResult

/-- `_noop_outcome`. -/
def noopOutcome (key : String) (row : RunRow) : IngestionOutcome :=
  ⟨.noop, key, row.documentId, row.documentVersionId, row.result⟩

/-- What a job has done. -/
inductive Phase where
  | begun
  | claimed
  /-- The raw bytes are in the object store. -/
  | fetched
  /-- `store_raw_document` has returned. -/
  | stored
  | derived (derived : Derived)
  /-- The canonical text is in the object store. -/
  | rendered (derived : Derived)
  /-- Everything is written but the commit. -/
  | written (outcome : IngestionOutcome)

structure Job where
  request : Request
  release : Release
  /-- `now()`, the time at which the transaction began. -/
  now : ℤ
  phase : Phase
  /-- The row that the job has inserted into `ingestion_quarantine`. -/
  quarantine : Option QuarantineRow

section JobNames

variable (S : Tools) (j : Job)

def Job.contentHash : String := (contentAddress S j.request.raw).1

def Job.storageKey : String := (contentAddress S j.request.raw).2

def Job.key : Except String String :=
  jobKey S (j.contentHash S) j.release.parserVersion j.release.normalizerVersion j.request.entityId
    j.request.accession

def Job.documentId : String := documentIdForAccession S j.request.accession

/-- What the identifier of the version is made of. -/
def Job.versionUrl : String :=
  "https://financial-evidence-lab.dev/version|" ++ j.documentId S ++ "|" ++ j.contentHash S ++ "|"
    ++ j.release.parserVersion ++ "|" ++ j.release.normalizerVersion

def Job.versionId : String := S.uuid5Url (j.versionUrl S)

/-- The row that the job claims. -/
def Job.claim (key : String) : RunRow :=
  ⟨key, j.contentHash S, j.release.parserVersion, j.release.normalizerVersion,
    .running, none, none, {}⟩

/-- The row that `store_raw_document` inserts. -/
def Job.document : DocumentRow where
  id := j.documentId S
  entityId := j.request.entityId
  accession := j.request.accession
  form := if j.release.companyFacts then some companyFactsForm else j.request.form
  sourceUrl := j.request.sourceUrl
  contentHash := j.contentHash S
  storageKey := j.storageKey S
  publishedAt := j.request.publishedAt

def Job.version (derived : Derived) : VersionRow where
  id := j.versionId S
  documentId := j.documentId S
  parserVersion := j.release.parserVersion
  normalizerVersion := j.release.normalizerVersion
  canonicalTextKey := canonicalTextAddress S derived.text
  createdAt := j.now
  derived := derived

end JobNames

/-! ## The state -/

/-- A call that has ended. -/
structure Finished where
  job : Job
  result : Except Raised IngestionOutcome

structure State where
  runs : UniqueTable String RunRow
  documents : UniqueTable DocumentKey DocumentRow
  versions : UniqueTable VersionKey VersionRow
  quarantine : List QuarantineRow
  blobs : Dict String (List UInt8)
  jobs : ℕ → Option Job
  finished : List Finished

def State.init : State := ⟨.empty, .empty, .empty, [], [], fun _ => none, []⟩

/-- `StorageProvider.put`: nothing is overwritten. -/
def put (blobs : Dict String (List UInt8)) (key : String) (data : List UInt8) :
    Except String (Dict String (List UInt8)) :=
  match Dict.get? blobs key with
  | some old => if old = data then .ok blobs else .error ("immutable key already exists: " ++ key)
  | none => .ok (Dict.set blobs key data)

/-! ## Earlier facts -/

/-- A fact with its document and its version. -/
structure Candidate where
  document : DocumentRow
  version : VersionRow
  fact : NormalizedFact

/-- `ORDER BY created_at DESC, id DESC LIMIT 1` of the versions of a document. -/
def isLatest (versions : List VersionRow) (v : VersionRow) : Bool :=
  versions.all fun u => u.documentId ≠ v.documentId || u.createdAt < v.createdAt
    || (u.createdAt = v.createdAt && u.id ≤ v.id)

/-- `ORDER BY published_at DESC, created_at DESC, id`. -/
def precedes (a b : Candidate) : Bool :=
  b.document.publishedAt < a.document.publishedAt
    || (a.document.publishedAt = b.document.publishedAt
      && (b.version.createdAt < a.version.createdAt
        || (a.version.createdAt = b.version.createdAt && a.fact.id ≤ b.fact.id)))

/-- The rows of the query before `DISTINCT ON`. -/
def candidates (documents : List DocumentRow) (versions : List VersionRow) (entityId : String)
    (publishedBefore : ℤ) :
    List Candidate :=
  versions.flatMap fun v =>
    (documents.filter fun d => d.id = v.documentId && d.publishedAt < publishedBefore
      && d.form ≠ some companyFactsForm && isLatest versions v).flatMap fun d =>
        (v.derived.facts.filter fun f => f.entityId = entityId && f.duplicateOf.isNone).map fun f =>
        ⟨d, v, f⟩

/-- A fact as a target of a restatement.  The check of the column holds for every stored value. -/
def Candidate.prior (c : Candidate) : Option PriorFact :=
  if h : Xbrl.checkValue c.fact.value = true then some ⟨c.fact.id, c.fact.value, h⟩ else none

/-- `_prior_canonical_facts`: the first row of each key. -/
def priorCanonicalFacts (documents : List DocumentRow) (versions : List VersionRow)
    (entityId : String)
    (publishedBefore : ℤ) : Dict (List Char) PriorFact :=
  let rows := (candidates documents versions entityId publishedBefore).insertionSort fun a b =>
    precedes a b = true
  -- a later item of `update` overwrites an earlier one
  Dict.update [] (rows.reverse.filterMap fun c => c.prior.map fun p => (c.fact.factKey, p))

/-! ## Steps -/

section Steps

variable (S : Tools)

def State.setJob (s : State) (t : ℕ) (j : Job) : State :=
  { s with jobs := Function.update s.jobs t (some j) }

/-- The transaction rolls back, and the call raises. -/
def State.raise (s : State) (t : ℕ) (j : Job) (e : Raised) : State :=
  { s with
    runs := s.runs.rollback t
    documents := s.documents.rollback t
    versions := s.versions.rollback t
    jobs := Function.update s.jobs t none
    finished := s.finished ++ [⟨j, .error e⟩] }

/-- The transaction commits, and the call returns. -/
def State.return (s : State) (t : ℕ) (j : Job) (outcome : IngestionOutcome) : State :=
  { s with
    runs := s.runs.commit t
    documents := s.documents.commit t
    versions := s.versions.commit t
    quarantine := s.quarantine ++ j.quarantine.toList
    jobs := Function.update s.jobs t none
    finished := s.finished ++ [⟨j, .ok outcome⟩] }

/-- `_record_quarantine`, and the outcome. -/
def State.recordQuarantine (s : State) (t : ℕ) (j : Job) (key : String) (documentId : Option String)
    (e : IngestError) :
    State :=
  let result : RunResult := { reasonCode := some e.reasonCode, diagnostic := some e.diagnostic }
  let row : QuarantineRow :=
    ⟨j.request.accession, j.request.sourceUrl, j.contentHash S, e.reasonCode, e.diagnostic, key⟩
  let s := { s with runs := s.runs.amend t fun r =>
    { r with status := .quarantined, documentId := documentId, result := result } }
  s.setJob t { j with phase := .written ⟨.quarantined, key,
    documentId, none, result⟩, quarantine := some row }

def divergent (accession existing contentHash : String) (repr : String → String) : IngestError :=
  ⟨.divergentAccessionContent,
    "accession " ++ repr accession ++ " was already ingested with content " ++ existing
    ++ " but the re-fetched bytes hash to " ++ contentHash
    ++ "; refusing to overwrite immutable evidence — investigate the source before re-ingesting"⟩

/-- The next statement of a job. -/
def State.exec (s : State) (t : ℕ) (j : Job) (key : String) : Option State :=
  match j.phase with
  | .begun =>
      match s.runs.insert RunRow.keys t (j.claim S key) with
      | .waits => none
      | .inserted runs => some ({ s with runs := runs }.setJob t { j with phase := .claimed })
      | .conflict =>
          match s.runs.find? RunRow.keys key with
          | none =>
              some (s.raise t j
                (.runtimeError ("ingestion run " ++ key
                  ++ " is claimed but has no terminal result")))
          | some row =>
              if row.status = .running then
                some (s.raise t j
                  (.runtimeError ("ingestion run " ++ key
                    ++ " is claimed but has no terminal result")))
              else some (s.return t j (noopOutcome key row))
  | .claimed =>
      match put s.blobs (j.storageKey S) j.request.raw with
      | .error message => some (s.raise t j (.valueError message))
      | .ok blobs => some ({ s with blobs := blobs }.setJob t { j with phase := .fetched })
  | .fetched =>
      match s.documents.insert DocumentRow.keys t (j.document S) with
      | .waits => none
      | .inserted documents =>
          some ({ s with documents := documents }.setJob t { j with phase := .stored })
      | .conflict =>
          match s.documents.find? DocumentRow.keys (.accession j.request.accession) with
          -- `ON CONFLICT` names the accession only
          | none => some (s.raise t j .uniqueViolation)
          | some existing =>
              if existing.contentHash = j.contentHash S
                then some (s.setJob t { j with phase := .stored })
              else
                some (s.recordQuarantine S t j key (if j.release.companyFacts then none
                  else some existing.id)
                  (divergent j.request.accession existing.contentHash (j.contentHash S) S.repr))
  | .stored =>
      let prior := if j.release.companyFacts then []
        else priorCanonicalFacts s.documents.rows s.versions.rows j.request.entityId
          j.request.publishedAt
      match j.release.derive j.request.entityId (j.versionId S) (j.contentHash S)
        j.request.raw prior with
      | .error (.ingest e) => some (s.recordQuarantine S t j key (some (j.documentId S)) e)
      | .error .uncaught => some (s.raise t j .uncaught)
      | .ok derived => some (s.setJob t { j with phase := .derived derived })
  | .derived derived =>
      match put s.blobs (canonicalTextAddress S derived.text)
        (derived.text.flatMap String.utf8EncodeChar) with
      | .error message => some (s.raise t j (.valueError message))
      | .ok blobs => some ({ s with blobs := blobs }.setJob t { j with phase := .rendered derived })
  | .rendered derived =>
      match s.versions.insert VersionRow.keys t (j.version S derived) with
      | .waits => none
      | .conflict => some (s.raise t j .uniqueViolation)
      | .inserted versions =>
          -- the rows that point to the version may share a key among themselves
          if ¬ (j.version S derived).keys.Nodup then some (s.raise t j .uniqueViolation)
          else
            let result : RunResult :=
              { sections := derived.sections.length, spans := derived.spans.length,
                tables := derived.tables.length, facts := derived.facts.length }
            let runs := s.runs.amend t fun r =>
              { r with status := .succeeded, documentId := some (j.documentId S),
                       documentVersionId := some (j.versionId S), result := result }
            let outcome : IngestionOutcome :=
              ⟨.succeeded, key, some (j.documentId S), some (j.versionId S), result⟩
            some ({ s with versions := versions, runs := runs }.setJob t
              { j with phase := .written outcome })
  | .written _ => none

inductive Act where
  /-- A call begins; the job key is computed before the transaction. -/
  | begin (t : ℕ) (request : Request) (release : Release) (now : ℤ)
  | exec (t : ℕ)
  | commit (t : ℕ)
  /-- The worker or its connection is lost before the transaction commits. -/
  | crash (t : ℕ)

def State.step (s : State) : Act → Option State
  | .begin t request release now =>
      let j : Job := ⟨request, release, now, .begun, none⟩
      match s.jobs t, j.key S with
      | none, .ok _ => some (s.setJob t j)
      | none, .error message =>
          some { s with finished := s.finished ++ [⟨j, .error (.valueError message)⟩] }
      | some _, _ => none
  | .exec t =>
      match s.jobs t with
      | none => none
      | some j =>
          match j.key S with
          | .error _ => none
          | .ok key => s.exec S t j key
  | .commit t =>
      match s.jobs t with
      | none => none
      | some j =>
          match j.phase with
          | .written outcome => some (s.return t j outcome)
          | _ => none
  | .crash t =>
      match s.jobs t with
      | none => none
      | some j => some (s.raise t j .uncaught)

end Steps

end Ingestion
