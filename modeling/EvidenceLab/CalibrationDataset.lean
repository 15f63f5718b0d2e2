/-
# The calibration dataset

The model of `calibration_dataset.py` between the decoded JSON and the interchange dictionary:
`_parse` with the checks of every field, the scan over the records with its cross-record maps, the
cutoff between splits, and `_project`.

* Identities, hashes, scores, field names and stamps are structures that carry their spelling.
* `scanRecord_eq_ok_iff` is everything a step of the scan can do: a record that was read, and that
  fits the state (`Fits`).
-/
import EvidenceLab.Isotonic
import EvidenceLab.IsoDates
import EvidenceLab.PyJson
import EvidenceLab.StableSort

namespace CalibrationDataset

open Isotonic (Score isScoreText)
open Calendar (CivilDate civilDate? scanDigits padded)
open StableSort (sortBy)

/-! ## Errors -/

/-- The codes of a `CalibrationDatasetError`. -/
inductive ErrorCode where
  | invalidJson
  | invalidShape
  | invalidIdentity
  | invalidScore
  | invalidTime
  | duplicateSample
  | splitLeakage
  | limitExceeded
  deriving DecidableEq, Repr

/-- `_MESSAGES`. -/
def ErrorCode.message : ErrorCode → String
  | .invalidJson => "Calibration dataset JSON is invalid"
  | .invalidShape => "Calibration dataset shape is invalid"
  | .invalidIdentity => "Calibration dataset identity is invalid"
  | .invalidScore => "Calibration dataset score is invalid"
  | .invalidTime => "Calibration dataset chronology is invalid"
  | .duplicateSample => "Calibration dataset sample identity is duplicated"
  | .splitLeakage => "Calibration dataset split isolation is violated"
  | .limitExceeded => "Calibration dataset resource bound is exceeded"

/-- `CalibrationDatasetError`. -/
structure DatasetError where
  message : String
  code : ErrorCode
  deriving DecidableEq, Repr

/-- `_fail`. -/
def fail (code : ErrorCode) : DatasetError := ⟨code.message, code⟩

/-! ## Identities, hashes and names -/

def isHexDigit (c : Char) : Bool := c.isDigit || ('a' ≤ c && c ≤ 'f')

/-- The spelling of `str(uuid)`. -/
def isUuidText (cs : List Char) : Bool :=
  cs.length == 36 && [8, 13, 18, 23].all (fun i => cs.getD i ' ' == '-')
    && (cs.zipIdx.all fun c => c.2 ∈ [8, 13, 18, 23] || isHexDigit c.1)

/-- A text that `uuid.UUID` reads and spells in the same way. -/
structure Uuid where
  text : String
  valid : isUuidText text.toList = true

theorem Uuid.text_injective : Function.Injective Uuid.text := by
  rintro ⟨s, _⟩ ⟨t, _⟩ rfl
  rfl

instance : LinearOrder Uuid := LinearOrder.lift' Uuid.text Uuid.text_injective

/-- A text that matches `_HASH`. -/
structure Hash where
  text : String
  valid : (text.toList.length == 64 && text.toList.all isHexDigit) = true
  deriving DecidableEq

/-- The characters of a text that matches `_FIELD`. -/
def isFieldText : List Char → Bool
  | [] => false
  | c :: cs => c.isLower && cs.length ≤ 63 && cs.all (fun c => c.isLower || c.isDigit || c == '_')

structure FieldName where
  text : String
  valid : isFieldText text.toList = true
  deriving DecidableEq

/-- `_canonical_uuid`. -/
def canonicalUuid (value : PyJson) : Except DatasetError Uuid :=
  match value with
  | .str (.text s) => if h :
      isUuidText s.toList = true then .ok ⟨s, h⟩ else .error (fail .invalidIdentity)
  | _ => .error (fail .invalidIdentity)

/-- `_canonical_hash`. -/
def canonicalHash (value : PyJson) : Except DatasetError Hash :=
  match value with
  | .str (.text s) =>
    if h : (s.toList.length == 64 && s.toList.all isHexDigit) = true then .ok ⟨s, h⟩
    else .error (fail .invalidIdentity)
  | _ => .error (fail .invalidIdentity)

/-- The check of `field`. -/
def canonicalField (value : PyJson) : Except DatasetError FieldName :=
  match value with
  | .str (.text s) => if h :
      isFieldText s.toList = true then .ok ⟨s, h⟩ else .error (fail .invalidIdentity)
  | _ => .error (fail .invalidIdentity)

/-- `_canonical_score`. -/
def canonicalScore (value : PyJson) : Except DatasetError Score :=
  match value with
  | .str (.text s) => if h :
      isScoreText s.toList = true then .ok ⟨s, h⟩ else .error (fail .invalidScore)
  | _ => .error (fail .invalidScore)

/-! ## Stamps -/

/-- A UTC `datetime` to the second. -/
structure Stamp where
  date : CivilDate
  hour : ℕ
  minute : ℕ
  second : ℕ
  hour_lt : hour < 24
  minute_lt : minute < 60
  second_lt : second < 60

namespace Stamp

/-- The fields as one number: stamps are compared field by field. -/
def key (t : Stamp) : ℕ :=
  ((((t.date.year * 100 + t.date.month) * 100 + t.date.day) * 100 + t.hour) * 100 + t.minute)
  * 100 + t.second

theorem key_injective : Function.Injective key := by
  rintro ⟨⟨y, m, d, hy, hm, hd⟩, h, i, s, hh, hi, hs⟩ ⟨⟨y', m', d', hy', hm', hd'⟩, h', i', s',
    hh', hi', hs'⟩ heq
  have hday := (CivilDate.mk y m d hy hm hd).day_lt
  have hday' := (CivilDate.mk y' m' d' hy' hm' hd').day_lt
  simp only [key] at heq hday hday'
  obtain ⟨rfl, rfl, rfl, rfl, rfl, rfl⟩ :
    y = y' ∧ m = m' ∧ d = d' ∧ h = h' ∧ i = i' ∧ s = s' := by omega
  rfl

instance : LinearOrder Stamp := LinearOrder.lift' key key_injective

/-- `_format_stamp`. -/
def format (t : Stamp) : String :=
  String.ofList (t.date.isoFormat ++ 'T'
    :: (padded 2 t.hour ++ ':' :: (padded 2 t.minute ++ ':' :: (padded 2 t.second
    ++ ['Z']))))

/-- `datetime(year, month, day, hour, minute, second, tzinfo=UTC)`. -/
def make? (year month day hour minute second : ℕ) : Option Stamp := do
  let date ← civilDate? year month day
  if h : hour < 24 ∧ minute < 60 ∧
    second < 60 then some ⟨date, hour, minute, second, h.1, h.2.1, h.2.2⟩ else none

/-- A character that must stand at the head. -/
def scanChar (c : Char) : List Char → Option (List Char)
  | [] => none
  | d :: cs => if d = c then some cs else none

/-- The groups of `_STAMP` as a `datetime`. -/
def scan (cs : List Char) : Option Stamp := do
  let (year, cs) ← scanDigits 4 cs
  let cs ← scanChar '-' cs
  let (month, cs) ← scanDigits 2 cs
  let cs ← scanChar '-' cs
  let (day, cs) ← scanDigits 2 cs
  let cs ← scanChar 'T' cs
  let (hour, cs) ← scanDigits 2 cs
  let cs ← scanChar ':' cs
  let (minute, cs) ← scanDigits 2 cs
  let cs ← scanChar ':' cs
  let (second, cs) ← scanDigits 2 cs
  if cs = ['Z'] then make? year month day hour minute second else none

end Stamp

/-- `_canonical_stamp`. -/
def canonicalStamp (value : PyJson) : Except DatasetError Stamp :=
  match value with
  | .str (.text s) =>
    match Stamp.scan s.toList with
    | some stamp => if stamp.format = s then .ok stamp else .error (fail .invalidTime)
    | none => .error (fail .invalidTime)
  | _ => .error (fail .invalidTime)

/-! ## Enumerations -/

/-- `_SPLITS`, from the earliest to the latest. -/
inductive Split where
  | train
  | calibration
  | evaluation
  deriving DecidableEq, Repr

namespace Split

def name : Split → String
  | .train => "train"
  | .calibration => "calibration"
  | .evaluation => "evaluation"

def all : List Split := [.train, .calibration, .evaluation]

/-- The place of a split in `_SPLITS`. -/
def rank : Split → ℕ
  | .train => 0
  | .calibration => 1
  | .evaluation => 2

end Split

/-- `_FAMILIES`. -/
inductive Family where
  | kpi
  | guidance
  | revenueDriver
  deriving DecidableEq, Repr

namespace Family

def name : Family → String
  | .kpi => "kpi"
  | .guidance => "guidance"
  | .revenueDriver => "revenue_driver"

def all : List Family := [.kpi, .guidance, .revenueDriver]

end Family

/-- `_EVIDENCE`. -/
inductive EvidenceKind where
  | synthetic
  | adjudicated
  deriving DecidableEq, Repr

namespace EvidenceKind

def name : EvidenceKind → String
  | .synthetic => "synthetic"
  | .adjudicated => "adjudicated"

def all : List EvidenceKind := [.synthetic, .adjudicated]

end EvidenceKind

/-- A text that names a member of an enumeration. -/
def oneOf {α : Type} (members : List α) (name : α → String) (value : PyJson) :
    Except DatasetError α :=
  match value with
  | .str (.text s) => Except.orRaise (members.find? fun a => name a == s) (fail .invalidShape)
  | _ => .error (fail .invalidShape)

/-! ## Containers -/

/-- `_require_dict`. -/
def requireDict (value : PyJson) : Except DatasetError (List (PyStr × PyJson)) :=
  match value with
  | .obj members => .ok members
  | _ => .error (fail .invalidShape)

/-- A dictionary with exactly these keys. -/
def requireKeys (keys : List String) (value : PyJson) :
    Except DatasetError (List (PyStr × PyJson)) := do
  let members ← requireDict value
  Except.raiseIf (PyJson.keysAre members keys = false) (fail .invalidShape)
  return members

/-- `_require_list`. -/
def requireList (value : PyJson) : Except DatasetError (List PyJson) :=
  match value with
  | .arr items => .ok items
  | _ => .error (fail .invalidShape)

/-- `_require_int`, of which `bool` is no instance. -/
def requireInt (value : PyJson) : Except DatasetError ℤ :=
  match value with
  | .int i => .ok i
  | _ => .error (fail .invalidShape)

def maxIssuers : ℕ := 1000

def maxRecords : ℕ := 100000

def maxStrata : ℕ := 10000

/-- `_unique_uuids`. -/
def uniqueUuids (value : PyJson) (limit : ℕ) : Except DatasetError (List Uuid) := do
  let items ← requireList value
  Except.raiseIf (limit < items.length) (fail .limitExceeded)
  Except.raiseIf (items.length = 0) (fail .invalidShape)
  let parsed ← items.mapM canonicalUuid
  Except.raiseIf (¬ parsed.Nodup) (fail .invalidIdentity)
  return sortBy id parsed

/-- `_PIN_KEYS`. -/
def pinKeys : List String :=
  ["ontology_sha256", "workflow_sha256", "prompts_sha256", "model_sha256",
  "score_definition_sha256"]

/-- `_pins`. -/
def pins (value : PyJson) : Except DatasetError (List Hash) := do
  let members ← requireKeys pinKeys value
  pinKeys.mapM fun key => canonicalHash (PyJson.member members key)

/-! ## Splits -/

structure Window where
  issuerIds : List Uuid
  startAt : Stamp
  endAt : Stamp

/-- `_SPLIT_KEYS`. -/
def splitKeys : List String := ["issuer_ids", "start_at", "end_at"]

/-- `_split_window`. -/
def splitWindow (value : PyJson) : Except DatasetError Window := do
  let block ← requireKeys splitKeys value
  let issuers ← uniqueUuids (PyJson.member block "issuer_ids") maxIssuers
  let startAt ← canonicalStamp (PyJson.member block "start_at")
  let endAt ← canonicalStamp (PyJson.member block "end_at")
  Except.raiseIf (endAt < startAt) (fail .invalidTime)
  return ⟨issuers, startAt, endAt⟩

/-- The windows by split. -/
structure Manifest where
  train : Window
  calibration : Window
  evaluation : Window

def Manifest.window (m : Manifest) : Split → Window
  | .train => m.train
  | .calibration => m.calibration
  | .evaluation => m.evaluation

/-- Two sets of issuers have a common one. -/
def overlap (left right : List Uuid) : Prop := ∃ i ∈ left, i ∈ right

instance (left right : List Uuid) : Decidable (overlap left right) :=
  inferInstanceAs (Decidable (∃ i ∈ left, i ∈ right))

/-- `_split_manifest`. -/
def splitManifest (value : PyJson) : Except DatasetError Manifest := do
  let manifest ← requireKeys (Split.all.map Split.name) value
  let train ← splitWindow (PyJson.member manifest "train")
  let calibration ← splitWindow (PyJson.member manifest "calibration")
  let evaluation ← splitWindow (PyJson.member manifest "evaluation")
  Except.raiseIf (¬ (train.endAt < calibration.startAt ∧ calibration.endAt < evaluation.startAt))
    (fail .invalidTime)
  Except.raiseIf (overlap train.issuerIds calibration.issuerIds ∨
    overlap train.issuerIds evaluation.issuerIds
    ∨ overlap calibration.issuerIds evaluation.issuerIds) (fail .splitLeakage)
  return ⟨train, calibration, evaluation⟩

/-! ## Records -/

/-- `_Record`. -/
structure Record where
  sampleId : Uuid
  proposalSha256 : Hash
  issuerId : Uuid
  sourceSha256 : Hash
  publishedAt : Stamp
  asOf : Stamp
  adjudicatedAt : Stamp
  split : Split
  family : Family
  field : FieldName
  score : Score
  outcome : ℤ
  reviewerIds : List Uuid

/-- What all records of a proposal agree on. -/
structure ProposalMeta where
  issuerId : Uuid
  sourceSha256 : Hash
  publishedAt : Stamp
  asOf : Stamp
  adjudicatedAt : Stamp
  split : Split
  deriving DecidableEq

namespace Record

/-- The identity of a label: proposal, family and field. -/
def labelKey (r : Record) : Hash × Family × FieldName := (r.proposalSha256, r.family, r.field)

def proposalMeta (r : Record) : ProposalMeta :=
  ⟨r.issuerId, r.sourceSha256, r.publishedAt, r.asOf, r.adjudicatedAt, r.split⟩

def stratum (r : Record) : Family × FieldName := (r.family, r.field)

end Record

/-- `_RECORD_KEYS`. -/
def recordKeys : List String :=
  ["sample_id", "proposal_sha256", "issuer_id", "source_sha256", "published_at", "as_of",
    "adjudicated_at", "split",
    "family", "field", "score", "outcome", "reviewer_ids"]

/-- `_reviewers`. -/
def reviewers (value : PyJson) (kind : EvidenceKind) : Except DatasetError (List Uuid) := do
  let items ← requireList value
  let parsed ← items.mapM canonicalUuid
  Except.raiseIf (¬ parsed.Nodup) (fail .invalidIdentity)
  match kind with
  | .synthetic => do
      Except.raiseIf (parsed ≠ []) (fail .invalidIdentity)
      return []
  | .adjudicated => do
      Except.raiseIf (parsed.length ≠ 2) (fail .invalidIdentity)
      return sortBy id parsed

/-- The checks of `_record` after the sample id up to the reviewers, which ask nothing of other
records. -/
def readFields (kind : EvidenceKind) (members : List (PyStr × PyJson)) (sampleId : Uuid) :
    Except DatasetError Record := do
  let proposal ← canonicalHash (PyJson.member members "proposal_sha256")
  let issuerId ← canonicalUuid (PyJson.member members "issuer_id")
  let source ← canonicalHash (PyJson.member members "source_sha256")
  let publishedAt ← canonicalStamp (PyJson.member members "published_at")
  let asOf ← canonicalStamp (PyJson.member members "as_of")
  let adjudicatedAt ← canonicalStamp (PyJson.member members "adjudicated_at")
  Except.raiseIf (¬ (publishedAt ≤ asOf ∧ asOf ≤ adjudicatedAt)) (fail .invalidTime)
  let split ← oneOf Split.all Split.name (PyJson.member members "split")
  let family ← oneOf Family.all Family.name (PyJson.member members "family")
  let field ← canonicalField (PyJson.member members "field")
  let score ← canonicalScore (PyJson.member members "score")
  let outcome ← requireInt (PyJson.member members "outcome")
  Except.raiseIf (outcome ≠ 0 ∧ outcome ≠ 1) (fail .invalidShape)
  let reviewerIds ← reviewers (PyJson.member members "reviewer_ids") kind
  return ⟨sampleId, proposal, issuerId, source, publishedAt, asOf, adjudicatedAt, split, family,
    field, score, outcome,
    reviewerIds⟩

/-! ## The scan over the records -/

/-- The sets and maps that `_parse` fills. -/
structure ScanState where
  sampleIds : List Uuid
  proposalFields : List (Hash × Family × FieldName)
  proposalSplit : Dict Hash Split
  proposalMeta : Dict Hash ProposalMeta
  sourceSplit : Dict Hash Split
  strata : List (Family × FieldName)

namespace ScanState

def empty : ScanState := ⟨[], [], [], [], [], []⟩

/-- The state with a record added. -/
def add (st : ScanState) (r : Record) : ScanState where
  sampleIds := st.sampleIds.insert r.sampleId
  proposalFields := st.proposalFields.insert r.labelKey
  proposalSplit := st.proposalSplit.set r.proposalSha256 r.split
  proposalMeta := st.proposalMeta.set r.proposalSha256 r.proposalMeta
  sourceSplit := st.sourceSplit.set r.sourceSha256 r.split
  strata := st.strata.insert r.stratum

/-- The checks of `_record` against the records before, and against the window of the split. -/
def accept (manifest : Manifest) (st : ScanState) (r : Record) : Except DatasetError Unit := do
  Except.raiseIf (r.labelKey ∈ st.proposalFields) (fail .duplicateSample)
  Except.raiseIf (∃ s ∈ st.proposalSplit.get? r.proposalSha256, s ≠ r.split) (fail .splitLeakage)
  Except.raiseIf (∃ m ∈ st.proposalMeta.get? r.proposalSha256, m ≠ r.proposalMeta)
    (fail .invalidIdentity)
  Except.raiseIf (∃ s ∈ st.sourceSplit.get? r.sourceSha256, s ≠ r.split) (fail .splitLeakage)
  let window := manifest.window r.split
  Except.raiseIf (r.issuerId ∉ window.issuerIds) (fail .splitLeakage)
  Except.raiseIf (¬ (window.startAt ≤ r.publishedAt ∧ r.publishedAt ≤ window.endAt))
    (fail .invalidTime)
  Except.raiseIf (maxStrata < (st.add r).strata.length) (fail .limitExceeded)

end ScanState

/-- `_record`: the state after it and the record. -/
def scanRecord (kind : EvidenceKind) (manifest : Manifest) (st : ScanState) (value : PyJson) :
    Except DatasetError (ScanState × Record) := do
  let members ← requireKeys recordKeys value
  let sampleId ← canonicalUuid (PyJson.member members "sample_id")
  Except.raiseIf (sampleId ∈ st.sampleIds) (fail .duplicateSample)
  let r ← readFields kind members sampleId
  st.accept manifest r
  return (st.add r, r)

/-- One round of the loop of `_parse` over the records. -/
def scanStep (kind : EvidenceKind) (manifest : Manifest) (found : ScanState × List Record)
    (item : PyJson) :
    Except DatasetError (ScanState × List Record) := do
  let scanned ← scanRecord kind manifest found.1 item
  return (scanned.1, found.2 ++ [scanned.2])

/-- The loop of `_parse` over the records. -/
def scanRecords (kind : EvidenceKind) (manifest : Manifest) (items : List PyJson) :
    Except DatasetError (ScanState × List Record) :=
  items.foldlM (scanStep kind manifest) (ScanState.empty, [])

/-! ## The cutoff between splits -/

/-- `max(row.as_of for row in …)` over the records of a split. -/
def maxAsOf (records : List Record) (split : Split) : Option Stamp :=
  ((records.filter fun r => r.split = split).map Record.asOf).max?

/-- `min(row.published_at for row in …)` over the records of a split. -/
def minPublished (records : List Record) (split : Split) : Option Stamp :=
  ((records.filter fun r => r.split = split).map Record.publishedAt).min?

/-- The latest context of a split stays before the earliest publication of another. -/
def checkCutoff (latest earliest : Option Stamp) : Except DatasetError Unit :=
  Except.raiseIf (∃ a ∈ latest, ∃ p ∈ earliest, ¬ a < p) (fail .invalidTime)

/-- `_cross_split_cutoff`. -/
def crossSplitCutoff (records : List Record) : Except DatasetError Unit := do
  checkCutoff (maxAsOf records .train) (minPublished records .calibration)
  checkCutoff (maxAsOf records .calibration) (minPublished records .evaluation)
  checkCutoff (maxAsOf records .train) (minPublished records .evaluation)

/-! ## Datasets -/

/-- `_Dataset`. -/
structure Dataset where
  datasetId : Uuid
  evidenceKind : EvidenceKind
  pins : List Hash
  splits : Manifest
  records : List Record

/-- `_DATASET_KEYS`. -/
def datasetKeys : List String :=
  ["schema_version", "dataset_id", "evidence_kind", "pins", "split_manifest", "records"]

/-- `_SCHEMA`. -/
def schema : String := "extraction-calibration-dataset/v1"

/-- The test of `schema_version`. -/
def checkSchema (value : PyJson) : Except DatasetError Unit :=
  match value with
  | .str s => Except.raiseIf (s ≠ .text schema) (fail .invalidShape)
  | _ => .error (fail .invalidShape)

/-- `_parse`. -/
def parse (payload : PyJson) : Except DatasetError Dataset := do
  let dataset ← requireKeys datasetKeys payload
  checkSchema (PyJson.member dataset "schema_version")
  let datasetId ← canonicalUuid (PyJson.member dataset "dataset_id")
  let kind ← oneOf EvidenceKind.all EvidenceKind.name (PyJson.member dataset "evidence_kind")
  let pins ← pins (PyJson.member dataset "pins")
  let splits ← splitManifest (PyJson.member dataset "split_manifest")
  let raw ← requireList (PyJson.member dataset "records")
  Except.raiseIf (maxRecords < raw.length) (fail .limitExceeded)
  let scanned ← scanRecords kind splits raw
  let records := sortBy Record.sampleId scanned.2
  crossSplitCutoff records
  return ⟨datasetId, kind, pins, splits, records⟩

/-! ## The interchange dictionary -/

/-- A dictionary with text keys. -/
def object (members : List (String × PyJson)) : PyJson :=
  .obj (members.map fun m => (.text m.1, m.2))

def uuids (ids : List Uuid) : PyJson := .arr (ids.map fun i => .ofText i.text)

def Window.project (w : Window) : PyJson :=
  object [("issuer_ids", uuids (sortBy id w.issuerIds)), ("start_at", .ofText w.startAt.format),
    ("end_at", .ofText w.endAt.format)]

def Record.project (r : Record) : PyJson :=
  object [("sample_id", .ofText r.sampleId.text),
    ("proposal_sha256", .ofText r.proposalSha256.text),
    ("issuer_id", .ofText r.issuerId.text), ("source_sha256", .ofText r.sourceSha256.text),
    ("published_at", .ofText r.publishedAt.format), ("as_of", .ofText r.asOf.format),
    ("adjudicated_at", .ofText r.adjudicatedAt.format), ("split", .ofText r.split.name),
    ("family", .ofText r.family.name), ("field", .ofText r.field.text),
    ("score", .ofText r.score.text),
    ("outcome", .int r.outcome), ("reviewer_ids", uuids r.reviewerIds)]

/-- `_project`. -/
def Dataset.project (d : Dataset) : PyJson :=
  object [("schema_version", .ofText schema), ("dataset_id", .ofText d.datasetId.text),
    ("evidence_kind", .ofText d.evidenceKind.name),
    ("pins", object (pinKeys.zip (d.pins.map fun p => .ofText p.text))),
    ("split_manifest", object (Split.all.map fun s => (s.name, (d.splits.window s).project))),
    ("records", .arr (d.records.map Record.project))]

end CalibrationDataset
